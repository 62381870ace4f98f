import TrustFlow.Library.Routine
import TrustFlow.TrustDocs.Access

/-!
# The chat of a document

`websocket_document` checks a client when it joins the room of a document and then
serves it until it disconnects, while other requests change shares and sessions.
Everything that waits for the database or for a client lets others go on, so the
handlers are taken apart at these points.

* `ChatServer` — the tables, the rooms, and for each WebSocket how far its handler has
  come (`Phase`).
* `advance` — the next step of a handler, and `emits`, what it stores or sends.
* `getCurrentUser`, `shareDocument`, `revokeShare`, `deleteDocument`,
  `restoreDocument`, `purgeDocument` — the routes as routines, one call for each
  query.
* `exec`, `routine` — what a call does, and what a request is.
* `alone_shareDocument`, `alone_revokeShare` and so on — a route with nothing in
  between its calls does what the handler of `TrustDocs.Documents` does.

Sets are iterated in an order of their own, and in CPython an iteration stops with an
exception when it finds the size changed.  Which client comes next is part of the
circumstances of a step; a set that has not changed is gone through to the end, and
what else is met in one that has changed without a change of size is left open.
-/

namespace TrustFlow.TrustDocs.Chat

open Library Custody Stegano

/-! ## Rows -/

/-- A row of `sessions`. -/
structure LoginSession where
  id : Uuid
  userId : Uuid
  tokenHash : Str
  expiresAt : Instant
  deriving DecidableEq

/-- The check of `get_current_user`. -/
def LoginSession.expired (session : LoginSession) (now : Instant) : Bool :=
  decide (session.expiresAt.1 < now.1)

/-- `hash_session_token`. -/
def hashSessionToken (token : Str) : Str := sha256Hex (encodeUtf8 token)

/-- What a client posts. -/
structure Posting where
  body : Str
  parentMessageId : Option Uuid
  isPinned : Bool
  deriving DecidableEq

/-- A row of `messages`. -/
structure ChatMessage where
  id : Uuid
  documentId : Uuid
  senderId : Uuid
  posting : Posting
  createdAt : Instant
  deriving DecidableEq

/-! ## Rooms and handlers -/

/-- A set object of `_rooms`; a room that was deleted and made again is another one. -/
structure Room where
  serial : ℕ
  clients : Finset ℕ
  deriving DecidableEq

/-- An iteration over a room: the set object as it was at the start, the clients so
far, and those among them to whom nothing could be sent. -/
structure Iteration where
  room : Room
  visited : Finset ℕ
  dead : Finset ℕ
  deriving DecidableEq

/-- How far the handler of a WebSocket has come, with its local variables. -/
inductive Phase where
  /-- The connection is accepted. -/
  | opened
  /-- The first frame came with this token; the session is looked up next. -/
  | presented (token : Str)
  /-- The session is one of this user's. -/
  | identified (userId : Uuid)
  /-- The user is found; the document is looked up next. -/
  | known (user : User)
  /-- The document is another user's; the share is looked up next. -/
  | located (user : User)
  /-- Access is verified; the client joins the room next. -/
  | cleared (user : User)
  /-- The client is in the room and is told so. -/
  | greeting (user : User)
  /-- The handler waits for a frame. -/
  | waiting (user : User)
  | storing (user : User) (posting : Posting)
  | broadcasting (user : User) (message : ChatMessage) (iteration : Option Iteration)
  /-- The handler is over, and nobody took the client out of the room. -/
  | stranded (user : User)
  | closed
  deriving DecidableEq

/-- The user of a client that has joined. -/
def Phase.member : Phase → Option User
  | greeting user | waiting user | storing user _ | broadcasting user _ _ | stranded user => some user
  | _ => none

/-- The user of a client that joins in the next step. -/
def Phase.joining : Phase → Option User
  | cleared user => some user
  | _ => none

/-- A WebSocket. -/
structure Socket where
  documentId : Uuid
  phase : Phase
  deriving DecidableEq

/-- The server, with its chat rooms. -/
structure ChatServer (S : SignatureScheme) where
  server : Server S
  sessions : Table LoginSession.id
  messages : Table ChatMessage.id
  rooms : Dict Uuid Room
  serials : ℕ
  sockets : List Socket
  clock : Instant

/-- What a client sends: a JSON object with a token (or none), which is a message or
something else; that it disconnects; or what is no JSON object. -/
inductive Incoming where
  | frame (token : Str) (posting : Option Posting)
  | disconnect
  | unreadable

/-- What a step finds around it. -/
structure Circumstances where
  fails : Bool
  fresh : Uuid
  plan : Plan FileShare
  sessionPlan : Plan LoginSession
  incoming : Incoming
  delivers : Bool
  next : Option ℕ

/-- A message is stored, or sent to a client. -/
inductive Emission where
  | stored (sender : User)
  | sent (sender : User) (client : ℕ)
  deriving DecidableEq

namespace ChatServer

variable {S : SignatureScheme} (st : ChatServer S)

/-- The handler of a WebSocket has come further. -/
def setPhase (ws : ℕ) (phase : Phase) : ChatServer S :=
  { st with sockets := st.sockets.modify ws fun socket => { socket with phase := phase } }

section

variable (documentId : Uuid)

/-- The clients in a room. -/
def clients : Finset ℕ :=
  ((st.rooms.get? documentId).map Room.clients).getD ∅

/-- `_rooms[doc_id].add(ws)`, in a new room if there is none. -/
def enter (ws : ℕ) : ChatServer S :=
  match st.rooms.get? documentId with
  | some room =>
    { st with rooms := st.rooms.set documentId { room with clients := insert ws room.clients } }
  | none =>
    { st with
      rooms := st.rooms.set documentId ⟨st.serials, {ws}⟩
      serials := st.serials + 1 }

/-- `_rooms[doc_id].discard(d)` for some clients; `none` is `KeyError`. -/
def discard (dead : Finset ℕ) : Option (ChatServer S) :=
  match st.rooms.get? documentId with
  | some room => some { st with
      rooms := st.rooms.set documentId { room with clients := room.clients \ dead } }
  | none => if dead = ∅ then some st else none

/-- The `finally` block: an empty room is deleted. -/
def leave (ws : ℕ) : ChatServer S :=
  match st.rooms.get? documentId with
  | none => st.setPhase ws .closed
  | some room =>
    let clients := room.clients \ {ws}
    let rooms := if clients = ∅ then st.rooms.erase documentId
      else st.rooms.set documentId { room with clients := clients }
    { st with rooms := rooms }.setPhase ws .closed

end

/-- `find_one("sessions", token_hash=...)`. -/
def sessionWith (plan : Plan LoginSession) (tokenHash : Str) : Option LoginSession :=
  st.sessions.findOne plan fun session => decide (session.tokenHash = tokenHash)

/-! ### The handler of a WebSocket -/

/-- The iteration, or its start. -/
def iterationIn (documentId : Uuid) (iteration : Option Iteration) : Iteration :=
  iteration.getD ⟨(st.rooms.get? documentId).getD ⟨st.serials, ∅⟩, ∅, ∅⟩

/-- What is now in the set object of an iteration.  When a room is deleted, it is
empty, and nobody joins it again. -/
def iterated (documentId : Uuid) (iteration : Iteration) : Finset ℕ :=
  match st.rooms.get? documentId with
  | some room => if room.serial = iteration.room.serial then room.clients else ∅
  | none => ∅

section

variable (env : Circumstances)

/-- The next client of an iteration. -/
def nextClient (current : Finset ℕ) (iteration : Iteration) : Option ℕ :=
  match env.next.filter fun client => decide (client ∈ current \ iteration.visited) with
  | some client => some client
  | none =>
    if current = iteration.room.clients then ((current \ iteration.visited).sort (· ≤ ·)).head?
    else none

/-- The row of a message. -/
def rowOf (documentId : Uuid) (user : User) (posting : Posting) : ChatMessage :=
  ⟨env.fresh, documentId, user.id, posting, st.clock⟩

/-- `insert("messages", ...)`; `none` is an exception. -/
def insertMessage (message : ChatMessage) : Option (ChatServer S) :=
  if env.fails ∨ ¬ message.posting.parentMessageId.all fun parent => (st.messages.get? parent).isSome then
    none
  else (st.messages.insert? message).map fun messages => { st with messages := messages }

/-- One step of the broadcast: an exception, the next client, or the end. -/
def broadcastStep (ws : ℕ) (documentId : Uuid) (user : User)
    (message : ChatMessage) (iteration : Iteration) : ChatServer S :=
  let current := st.iterated documentId iteration
  if current.card ≠ iteration.room.clients.card then st.leave documentId ws
  else
    match nextClient env current iteration with
    | some client =>
      let dead := if env.delivers then iteration.dead else insert client iteration.dead
      st.setPhase ws (.broadcasting user message
        (some ⟨iteration.room, insert client iteration.visited, dead⟩))
    | none =>
      match st.discard documentId iteration.dead with
      | none => st.leave documentId ws
      | some st => st.setPhase ws (.waiting user)

/-- The next step of a handler.  `websocket_document` closes the connection on every
failure before the client has joined. -/
def advancePhase (ws : ℕ) (documentId : Uuid) : Phase → ChatServer S
  | .opened =>
    match env.incoming with
    | .frame token _ => st.setPhase ws (.presented token)
    | .disconnect | .unreadable => st.setPhase ws .closed
  | .presented token =>
    match st.sessionWith env.sessionPlan (hashSessionToken token), env.fails with
    | some session, false => st.setPhase ws (.identified session.userId)
    | _, _ => st.setPhase ws .closed
  | .identified userId =>
    match st.server.userById userId, env.fails with
    | some user, false => st.setPhase ws (.known user)
    | _, _ => st.setPhase ws .closed
  | .known user =>
    match st.server.document documentId, env.fails with
    | some doc, false =>
      if doc.status = .deleted then st.setPhase ws .closed
      else if doc.ownerId = user.id then st.setPhase ws (.cleared user)
      else st.setPhase ws (.located user)
    | _, _ => st.setPhase ws .closed
  | .located user =>
    match st.server.activeShare env.plan documentId user.id, env.fails with
    | some _, false => st.setPhase ws (.cleared user)
    | _, _ => st.setPhase ws .closed
  | .cleared user => (st.enter documentId ws).setPhase ws (.greeting user)
  | .greeting user => st.setPhase ws (if env.delivers then .waiting user else .stranded user)
  | .waiting user =>
    match env.incoming with
    | .frame _ (some posting) => st.setPhase ws (.storing user posting)
    | .frame _ none => st
    | .disconnect | .unreadable => st.leave documentId ws
  | .storing user posting =>
    let message := st.rowOf env documentId user posting
    match st.insertMessage env message with
    | none => st.leave documentId ws
    | some st => st.setPhase ws (.broadcasting user message none)
  | .broadcasting user message iteration =>
    st.broadcastStep env ws documentId user message (st.iterationIn documentId iteration)
  | .stranded _ | .closed => st

/-- The next step of the handler of a WebSocket. -/
def advance (ws : ℕ) : ChatServer S :=
  match st.sockets[ws]? with
  | none => st
  | some socket => st.advancePhase env ws socket.documentId socket.phase

/-- What the next step of a handler stores or sends. -/
def emitsPhase (documentId : Uuid) : Phase → Option Emission
  | .storing user posting =>
    (st.insertMessage env (st.rowOf env documentId user posting)).map fun _ => .stored user
  | .broadcasting user _ iteration =>
    let iteration := st.iterationIn documentId iteration
    let current := st.iterated documentId iteration
    if current.card ≠ iteration.room.clients.card then none
    else (nextClient env current iteration).map (.sent user)
  | _ => none

end

end ChatServer

/-! ## Calls -/

/-- A copy of a document for a recipient, as `share_document` makes it between its
checks and the new row: the parent node, the marked text, the child node and the file.
The answer is the hash of the child node. -/
def copyFor {S : SignatureScheme} (words : WordClass) (server : Server S)
    (amb : Ambient) (user : User) (doc : Document) (share : Option FileShare) (recipient : User) :
    Server S × Reply Str :=
  match server.parentNode amb user doc ((share.map FileShare.childCocNodeHash).getD doc.cocNodeHash) with
  | .error failure => (server, .error failure)
  | .ok (server, parent) =>
    match server.files.get? (Server.sourceFile user doc share) with
    | none => (server, .error .unhandled)
    | some bytes =>
      let (server, child, watermarked) :=
        server.forwardNode words amb user parent recipient.peerId (readText bytes)
      ({ server with
          files := server.files.set (.shared doc.id recipient.id) (encodeUtf8 watermarked) },
        .ok child.nodeHash)

/-- What a request waits for: a query, the clock, or a step of a chat. -/
inductive Call where
  | findSession (tokenHash : Str)
  | findUser (userId : Uuid)
  | now
  | dropSession (sessionId : Uuid)
  | findDocument (documentId : Uuid)
  | activeShare (documentId userId : Uuid)
  | userByName (username : Str)
  | copyFor (user : User) (doc : Document) (share : Option FileShare) (recipient : User)
  | insertShare (documentId ownerId recipientId : Uuid) (childCocNodeHash : Str)
  | sharesOf (documentId : Uuid) (status : Option ShareStatus)
  | setDocumentStatus (documentId : Uuid) (status : DocumentStatus)
  | setShareStatus (shareId : Uuid) (status : ShareStatus)
  | removeFile (documentId : Uuid)
  | connect (documentId : Uuid)
  | advance (ws : ℕ)
  | pass (time : Instant)

/-- The answer to a call. -/
def Answer : Call → Type
  | .findSession _ => Option LoginSession
  | .findUser _ => Option User
  | .now => Instant
  | .findDocument _ => Option Document
  | .activeShare _ _ => Option FileShare
  | .userByName _ => Option User
  | .copyFor _ _ _ _ => Reply Str
  | .insertShare _ _ _ _ => FileShare
  | .sharesOf _ _ => List FileShare
  | .dropSession _ | .setDocumentStatus _ _ | .setShareStatus _ _ | .removeFile _ | .connect _
  | .advance _ | .pass _ => Unit

namespace ChatServer

variable {S : SignatureScheme} (words : WordClass) (st : ChatServer S)

variable (env : Circumstances)

/-- What the routes of the documents are given. -/
def ambient : Ambient := ⟨st.clock, env.fresh, env.plan⟩

/-- `insert("file_shares", ...)`. -/
def insertShare
    (documentId ownerId recipientId : Uuid) (childCocNodeHash : Str) :
    Option (ChatServer S × FileShare) :=
  let share : FileShare :=
    ⟨env.fresh, documentId, ownerId, recipientId, childCocNodeHash, .active, st.clock⟩
  (st.server.fileShares.insert? share).map fun fileShares =>
    ({ st with server := { st.server with fileShares := fileShares } }, share)

/-- `find_many("file_shares", document_id=..., status=...)`, or without the status. -/
def sharesOf (documentId : Uuid) :
    Option ShareStatus → List FileShare
  | some status => st.server.sharesWith env.plan documentId status
  | none => st.server.fileShares.findMany env.plan (fun share => share.createdAt.1)
      Server.findManyLimit fun share => decide (share.documentId = documentId)

theorem id_withStatus (status : ShareStatus) (share : FileShare) :
    ({ share with status := status } : FileShare).id = share.id := rfl

/-- `update_one("file_shares", ..., status=...)`. -/
def setShareStatus (shareId : Uuid) (status : ShareStatus) : ChatServer S :=
  { st with server := { st.server with
      fileShares := st.server.fileShares.update (fun s => { s with status := status })
        (id_withStatus status) shareId } }

/-- The time passes; it does not go back. -/
def pass (time : Instant) : ChatServer S :=
  if st.clock.1 ≤ time.1 then { st with clock := time } else st

/-- A call to the database and its answer; `none` is an exception. -/
def query (st : ChatServer S) : (c : Call) → Option (ChatServer S × Answer c)
  | .findSession tokenHash => some (st, st.sessionWith env.sessionPlan tokenHash)
  | .findUser userId => some (st, st.server.userById userId)
  | .now => some (st, st.clock)
  | .dropSession sessionId => some ({ st with sessions := st.sessions.delete sessionId }, ())
  | .findDocument documentId => some (st, st.server.document documentId)
  | .activeShare documentId userId => some (st, st.server.activeShare env.plan documentId userId)
  | .userByName username => some (st, st.server.userByName username)
  | .copyFor user doc share recipient =>
    let copied := Chat.copyFor words st.server (st.ambient env) user doc share recipient
    some ({ st with server := copied.1 }, copied.2)
  | .insertShare documentId ownerId recipientId childCocNodeHash =>
    st.insertShare env documentId ownerId recipientId childCocNodeHash
  | .sharesOf documentId status => some (st, st.sharesOf env documentId status)
  | .setDocumentStatus documentId status =>
    some ({ st with server := st.server.setDocumentStatus documentId status }, ())
  | .setShareStatus shareId status => some (st.setShareStatus shareId status, ())
  | .removeFile documentId => some ({ st with
      server := { st.server with files := st.server.files.erase (.original documentId) } }, ())
  | .connect documentId => some ({ st with sockets := st.sockets ++ [⟨documentId, .opened⟩] }, ())
  | .advance ws => some (st.advance env ws, ())
  | .pass time => some (st.pass time, ())

end ChatServer

/-- Whether the call goes to the database, and may fail there.  That a file cannot be
removed is no failure. -/
def Call.external : Call → Bool
  | .now | .removeFile _ | .connect _ | .advance _ | .pass _ => false
  | _ => true

/-- A call; a query that fails does nothing. -/
def exec {S : SignatureScheme} (words : WordClass) (c : Call) (env : Circumstances)
    (st : ChatServer S) : ChatServer S × Option (Answer c) :=
  if env.fails && c.external then (st, none)
  else
    match st.query words env c with
    | none => (st, none)
    | some (st, answer) => (st, some answer)

/-! ## Routes -/

/-- A request in progress. -/
abbrev Route := Routine (fun c : Call => Option (Answer c)) Failure

/-- A call; an exception of the database is not caught. -/
def ask (c : Call) : Route (Answer c) := .call c fun answer => .found answer .unhandled

/-- `HTTPException`. -/
def refuse {α : Type} (status : ℕ) (detail : String) : Route α := .fail (.http status detail.toList)

/-- The user of a session that has not expired. -/
def userOf (session : LoginSession) : Route User := do
  match ← ask (.findUser session.userId) with
  | none => refuse 401 "User not found"
  | some user => pure user

/-- `get_current_user`. -/
def getCurrentUser (cookie : Option Str) : Route User := do
  match cookie.filter (· ≠ []) with
  | none => refuse 401 "Not authenticated"
  | some token =>
    let session ← ask (.findSession (hashSessionToken token))
    match session with
    | none => refuse 401 "Invalid session"
    | some session =>
      let now ← ask .now
      if session.expired now then
        let _ ← ask (.dropSession session.id)
        refuse 401 "Session expired"
      else userOf session

/-- The document, if its status is one of those the route is for. -/
def documentIn (documentId : Uuid) (statuses : List DocumentStatus) : Route Document := do
  match ← ask (.findDocument documentId) with
  | none => refuse 404 "Document not found"
  | some doc => if statuses.contains doc.status then pure doc else refuse 404 "Document not found"

variable (user : User)

/-- Routes for the owner alone. -/
def ownerOnly (doc : Document) (detail : String) : Route Unit :=
  if doc.ownerId = user.id then pure () else refuse 403 detail

/-- `for share in shares: await db.update_one("file_shares", ...)`. -/
def setStatuses (status : ShareStatus) : List FileShare → Route Unit
  | [] => pure ()
  | share :: shares => do
      let _ ← ask (.setShareStatus share.id status)
      setStatuses status shares

/-- The active share by which the user may share the document; `none` for the owner. -/
def grantFor (documentId : Uuid) (doc : Document) : Route (Option FileShare) :=
  if doc.ownerId = user.id then pure none
  else do
    match ← ask (.activeShare documentId user.id) with
    | none => refuse 403 "Access denied — you cannot share this document"
    | some share => pure (some share)

/-- The checks of `share_document`. -/
def checkShare (documentId : Uuid) (recipientUsername : Str) :
    Route (Document × Option FileShare × User) := do
  let doc ← documentIn documentId [.active]
  let share ← grantFor user documentId doc
  match ← ask (.userByName recipientUsername) with
  | none => .fail (.http 404 ("User '" ++ recipientUsername ++ "' not found"))
  | some recipient =>
    if recipient.id = user.id then refuse 400 "Cannot share with yourself"
    else
      match ← ask (.activeShare documentId recipient.id) with
      | some _ => .fail (.http 409 ("Already shared with " ++ recipientUsername))
      | none => pure (doc, share, recipient)

/-- `share_document`. -/
def shareDocument (documentId : Uuid) (recipientUsername : Str) : Route Unit := do
  let (doc, share, recipient) ← checkShare user documentId recipientUsername
  match ← ask (.copyFor user doc share recipient) with
  | .error failure => .fail failure
  | .ok childHash =>
    let _ ← ask (.insertShare documentId user.id recipient.id childHash)
    pure ()

/-- `revoke_share`. -/
def revokeShare (documentId targetUserId : Uuid) : Route Unit := do
  let doc ← documentIn documentId [.active, .recycled, .deleted]
  ownerOnly user doc "Only the owner can revoke shares"
  match ← ask (.activeShare documentId targetUserId) with
  | none => refuse 404 "Share not found"
  | some share =>
    let _ ← ask (.setShareStatus share.id .revoked)
    pure ()

/-- `delete_document`. -/
def deleteDocument (documentId : Uuid) : Route Unit := do
  let doc ← documentIn documentId [.active]
  ownerOnly user doc "Only the document owner can delete"
  let _ ← ask (.setDocumentStatus documentId .recycled)
  let shares ← ask (.sharesOf documentId (some .active))
  setStatuses .suspended shares

/-- `restore_document`. -/
def restoreDocument (documentId : Uuid) (restoreAccess : Bool) : Route Unit := do
  let doc ← documentIn documentId [.recycled]
  ownerOnly user doc "Only the document owner can restore"
  let _ ← ask (.setDocumentStatus documentId .active)
  let shares ← ask (.sharesOf documentId (some .suspended))
  if restoreAccess then setStatuses .active shares else pure ()

/-- `purge_document`. -/
def purgeDocument (documentId : Uuid) : Route Unit := do
  let doc ← documentIn documentId [.recycled]
  ownerOnly user doc "Only the document owner can purge"
  let _ ← ask (.setDocumentStatus documentId .deleted)
  let shares ← ask (.sharesOf documentId none)
  setStatuses .revoked shares
  let _ ← ask (.removeFile documentId)
  pure ()

/-- What happens at the server: a request with a cookie, a connection, the next step
of a handler, or that time passes. -/
inductive Request where
  | share (cookie : Option Str) (documentId : Uuid) (recipientUsername : Str)
  | revoke (cookie : Option Str) (documentId targetUserId : Uuid)
  | delete (cookie : Option Str) (documentId : Uuid)
  | restore (cookie : Option Str) (documentId : Uuid) (restoreAccess : Bool)
  | purge (cookie : Option Str) (documentId : Uuid)
  | connect (documentId : Uuid)
  | advance (ws : ℕ)
  | pass (time : Instant)

/-- What is done for a request. -/
def routine : Request → Route Unit
  | .share cookie documentId recipientUsername => do
      let user ← getCurrentUser cookie
      shareDocument user documentId recipientUsername
  | .revoke cookie documentId targetUserId => do
      let user ← getCurrentUser cookie
      revokeShare user documentId targetUserId
  | .delete cookie documentId => do
      let user ← getCurrentUser cookie
      deleteDocument user documentId
  | .restore cookie documentId restoreAccess => do
      let user ← getCurrentUser cookie
      restoreDocument user documentId restoreAccess
  | .purge cookie documentId => do
      let user ← getCurrentUser cookie
      purgeDocument user documentId
  | .connect documentId => ask (.connect documentId)
  | .advance ws => ask (.advance ws)
  | .pass time => ask (.pass time)

/-! ## A route by itself

With nothing in between its calls, a route does what the handler of the documents
does. -/

section

variable {S : SignatureScheme} {words : WordClass} {env : Circumstances}
  {st : ChatServer S} {α : Type}

/-- A route that is by itself, on a database that does not fail. -/
abbrev alone (words : WordClass) (env : Circumstances) (route : Route α)
    (st : ChatServer S) : ChatServer S × Reply α :=
  route.complete (exec words) (fun _ => env) st

/-- The state and the outcome of a handler of the documents. -/
def ChatServer.after (st : ChatServer S) (result : Server S × Reply α) : ChatServer S × Reply Unit :=
  ({ st with server := result.1 }, result.2.map fun _ => ())

variable {st' : ChatServer S} {documentId : Uuid} {doc : Document}

theorem alone_bind {β : Type} (route : Route β) (f : β → Route α) :
    alone words env (route >>= f) st = match alone words env route st with
      | (st', .ok answer) => alone words env (f answer) st'
      | (st', .error failure) => (st', .error failure) := by
  rw [alone, alone, Routine.complete_bind]
  rcases route.complete (exec words) (fun _ => env) st with ⟨st', _ | _⟩ <;> rfl

theorem id_of_document (h : st.server.document documentId = some doc) : doc.id = documentId :=
  (Table.get?_eq_some_iff.mp h).2

/-- `share_document` after its checks. -/
theorem shareDocument_of_checkShare {server : Server S} {amb : Ambient} {user recipient : User}
    {recipientUsername : Str} {share : Option FileShare}
    (hchecks : server.checkShare amb user documentId recipientUsername = .ok (doc, share, recipient)) :
    server.shareDocument words amb user documentId recipientUsername =
      match copyFor words server amb user doc share recipient with
      | (server, .error failure) => (server, .error failure)
      | (server, .ok childHash) =>
        let new : FileShare :=
          ⟨amb.fresh, doc.id, user.id, recipient.id, childHash, .active, amb.now⟩
        match server.fileShares.insert? new with
        | none => (server, .error .unhandled)
        | some fileShares => ({ server with fileShares := fileShares }, .ok new) := by
  rw [Server.shareDocument, hchecks, copyFor]
  dsimp only
  cases server.parentNode amb user doc ((share.map FileShare.childCocNodeHash).getD doc.cocNodeHash) with
  | error failure => rfl
  | ok written =>
    dsimp only
    cases written.1.files.get? (Server.sourceFile user doc share) with
    | none => rfl
    | some bytes => rfl

variable (hcalm : env.fails = false)
include hcalm

theorem alone_ask (c : Call) (f : Answer c → Route α) :
    alone words env (ask c >>= f) st = match st.query words env c with
      | some (st', answer) => alone words env (f answer) st'
      | none => (st, .error .unhandled) := by
  show alone words env (Routine.found (exec words c env st).2 .unhandled >>= f)
    (exec words c env st).1 = _
  rw [exec, hcalm, Bool.false_and, if_neg Bool.false_ne_true]
  cases st.query words env c <;> rfl

theorem alone_ask_bind {c : Call} {f : Answer c → Route α} {answer : Answer c}
    (hquery : st.query words env c = some (st', answer)) :
    alone words env (ask c >>= f) st = alone words env (f answer) st' := by
  rw [alone_ask hcalm, hquery]

theorem alone_setStatuses (status : ShareStatus) (shares : List FileShare) :
    alone words env (setStatuses status shares) st =
      ({ st with server := st.server.setShareStatus status shares }, .ok ()) := by
  induction shares generalizing st with
  | nil => rfl
  | cons share shares ih => exact (alone_ask_bind hcalm rfl).trans ih

variable (user : User) (documentId : Uuid) (recipientUsername : Str)

/-- The document of a route, as the handlers look for it. -/
theorem alone_documentIn (statuses : List DocumentStatus) :
    alone words env (documentIn documentId statuses) st =
      (st, match st.server.document documentId with
        | none => .error (.http 404 "Document not found")
        | some doc => if statuses.contains doc.status then .ok doc
            else .error (.http 404 "Document not found")) := by
  rw [documentIn, alone_ask_bind hcalm rfl]
  cases st.server.document documentId with
  | none => rfl
  | some doc =>
    dsimp only
    split <;> rfl

theorem alone_live :
    alone words env (documentIn documentId [.active]) st =
      (st, st.server.liveDocument documentId) := by
  rw [alone_documentIn hcalm, Server.liveDocument]
  cases st.server.document documentId with
  | none => rfl
  | some doc =>
    dsimp only
    cases doc.status <;> rfl

theorem alone_recycled :
    alone words env (documentIn documentId [.recycled]) st =
      (st, st.server.recycledDocument documentId) := by
  rw [alone_documentIn hcalm, Server.recycledDocument]
  cases st.server.document documentId with
  | none => rfl
  | some doc =>
    dsimp only
    cases doc.status <;> rfl

omit hcalm in
theorem alone_ownerOnly (doc : Document) (detail : String) :
    alone words env (ownerOnly user doc detail) st = (st, Server.ownerOnly user doc detail) := by
  rw [ownerOnly, Server.ownerOnly]
  split <;> rfl

omit hcalm in
/-- The two checks of a route for the owner, as the handlers make them. -/
theorem alone_checks_bind {route : Route Document} {checked : Reply Document}
    (hroute : alone words env route st = (st, checked)) (user : User) (detail : String)
    (f : Unit → Route α) :
    alone words env (route >>= fun doc => ownerOnly user doc detail >>= f) st =
      match (do let doc ← checked; Server.ownerOnly user doc detail : Reply Unit) with
      | .ok () => alone words env (f ()) st
      | .error failure => (st, .error failure) := by
  rw [alone_bind, hroute]
  cases checked with
  | error failure => rfl
  | ok doc =>
    dsimp only
    rw [alone_bind, alone_ownerOnly user doc detail]
    show _ = match Server.ownerOnly user doc detail with | .ok () => _ | .error failure => _
    cases Server.ownerOnly user doc detail <;> rfl

/-- `revoke_share`. -/
theorem alone_revokeShare (targetUserId : Uuid) :
    alone words env (revokeShare user documentId targetUserId) st =
      st.after (st.server.revokeShare (st.ambient env) user documentId targetUserId) := by
  rw [revokeShare, alone_checks_bind (alone_documentIn hcalm _ _), Server.revokeShare]
  cases st.server.document documentId with
  | none => rfl
  | some doc =>
    have hany : [DocumentStatus.active, .recycled, .deleted].contains doc.status = true := by
      cases doc.status <;> rfl
    dsimp only
    rw [if_pos hany]
    show (match Server.ownerOnly user doc "Only the owner can revoke shares" with
      | .ok () => _ | .error failure => _) = _
    cases Server.ownerOnly user doc "Only the owner can revoke shares" with
    | error failure => rfl
    | ok owner =>
      simp only [ChatServer.ambient]
      rw [alone_ask_bind hcalm rfl]
      cases st.server.activeShare env.plan documentId targetUserId with
      | none => rfl
      | some share => exact alone_ask_bind hcalm rfl

/-- `delete_document`. -/
theorem alone_deleteDocument :
    alone words env (deleteDocument user documentId) st =
      st.after (st.server.deleteDocument (st.ambient env) user documentId) := by
  rw [deleteDocument, alone_checks_bind (alone_live hcalm _), Server.deleteDocument]
  cases (do let doc ← st.server.liveDocument documentId
            Server.ownerOnly user doc "Only the document owner can delete" : Reply Unit) with
  | error failure => rfl
  | ok checked =>
    dsimp only
    rw [alone_ask_bind hcalm rfl, alone_ask_bind hcalm rfl]
    exact alone_setStatuses hcalm .suspended _

/-- `restore_document`. -/
theorem alone_restoreDocument (restoreAccess : Bool) :
    alone words env (restoreDocument user documentId restoreAccess) st =
      st.after (st.server.restoreDocument (st.ambient env) user documentId restoreAccess) := by
  rw [restoreDocument, alone_checks_bind (alone_recycled hcalm _), Server.restoreDocument]
  cases (do let doc ← st.server.recycledDocument documentId
            Server.ownerOnly user doc "Only the document owner can restore" : Reply Unit) with
  | error failure => rfl
  | ok checked =>
    dsimp only
    rw [alone_ask_bind hcalm rfl, alone_ask_bind hcalm rfl]
    cases restoreAccess with
    | false => rfl
    | true => exact alone_setStatuses hcalm .active _

/-- `purge_document`. -/
theorem alone_purgeDocument :
    alone words env (purgeDocument user documentId) st =
      st.after (st.server.purgeDocument (st.ambient env) user documentId) := by
  rw [purgeDocument, alone_checks_bind (alone_recycled hcalm _), Server.purgeDocument]
  cases (do let doc ← st.server.recycledDocument documentId
            Server.ownerOnly user doc "Only the document owner can purge" : Reply Unit) with
  | error failure => rfl
  | ok checked =>
    dsimp only
    rw [alone_ask_bind hcalm rfl, alone_ask_bind hcalm rfl,
      alone_bind, alone_setStatuses hcalm .revoked _]
    exact alone_ask_bind hcalm rfl

theorem alone_grantFor {documentId : Uuid} (hid : doc.id = documentId) :
    alone words env (grantFor user documentId doc) st =
      (st, st.server.grantFor (st.ambient env) user doc
        "Access denied — you cannot share this document") := by
  rw [grantFor, Server.grantFor, hid]
  by_cases howner : doc.ownerId = user.id
  · rw [if_pos howner, if_pos howner]
    rfl
  · rw [if_neg howner, if_neg howner, alone_ask_bind hcalm rfl]
    simp only [ChatServer.ambient]
    cases st.server.activeShare env.plan documentId user.id with
    | none => rfl
    | some share => rfl

theorem alone_checkShare :
    alone words env (checkShare user documentId recipientUsername) st =
      (st, st.server.checkShare (st.ambient env) user documentId recipientUsername) := by
  rw [checkShare, Server.checkShare, alone_bind, alone_live hcalm documentId]
  cases hfound : st.server.liveDocument documentId with
  | error failure => rfl
  | ok doc =>
    have hid := id_of_document (Server.liveDocument_ok hfound).1
    dsimp only
    rw [alone_bind, alone_grantFor hcalm user hid]
    show _ = (st, st.server.grantFor (st.ambient env) user doc
      "Access denied — you cannot share this document" >>= _)
    cases st.server.grantFor (st.ambient env) user doc
        "Access denied — you cannot share this document" with
    | error failure => rfl
    | ok share =>
      dsimp only
      rw [alone_ask_bind hcalm rfl]
      cases st.server.userByName recipientUsername with
      | none => rfl
      | some recipient =>
        dsimp only
        split
        · rfl
        · simp only [hid, ChatServer.ambient]
          refine (alone_ask_bind hcalm rfl).trans ?_
          cases st.server.activeShare env.plan documentId recipient.id <;> rfl

/-- `share_document`. -/
theorem alone_shareDocument :
    alone words env (shareDocument user documentId recipientUsername) st =
      st.after (st.server.shareDocument words (st.ambient env) user documentId
        recipientUsername) := by
  rw [shareDocument, alone_bind, alone_checkShare hcalm user documentId recipientUsername]
  cases hchecks : st.server.checkShare (st.ambient env) user documentId recipientUsername with
  | error failure =>
    rw [Server.shareDocument, hchecks]
    rfl
  | ok checked =>
    obtain ⟨doc, share, recipient⟩ := checked
    rw [shareDocument_of_checkShare hchecks]
    cases hcopy : copyFor words st.server (st.ambient env) user doc share recipient with
    | mk server reply =>
      have hquery : st.query words env (.copyFor user doc share recipient) =
          some ({ st with server := server }, reply) :=
        congrArg (fun copied : Server S × Reply Str =>
          some (({ st with server := copied.1 } : ChatServer S), copied.2)) hcopy
      dsimp only
      rw [alone_ask_bind hcalm hquery]
      cases reply with
      | error failure => rfl
      | ok childHash =>
        have hid := id_of_document (Server.checkShare_ok hchecks).1
        dsimp only
        rw [hid]
        cases hinsert : server.fileShares.insert? ⟨(st.ambient env).fresh, documentId, user.id,
            recipient.id, childHash, .active, (st.ambient env).now⟩ with
        | none =>
          rw [alone_ask hcalm, ChatServer.query, ChatServer.insertShare]
          erw [hinsert]
          rfl
        | some fileShares =>
          exact alone_ask_bind hcalm (congrArg (Option.map _) hinsert)

end

end TrustFlow.TrustDocs.Chat
