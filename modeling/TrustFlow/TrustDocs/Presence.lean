import TrustFlow.TrustDocs.Chat

/-!
# Who is in a chat room

A client is checked once.  After that its messages are stored and sent, and it is
sent the messages of others, until it disconnects, whatever becomes of its user's
share and sessions.

* `Entitled` — the user has a session that has not expired, and owns the document or
  holds an active share of it.
* `Undisturbed` — what must be true when a step is made so that the room stays
  entitled: a client joins while its user is entitled, no update takes the last active
  share of a user who has a client in the room and is not the owner, and the last
  session of such a user does not expire.
* `Guarded` — all who have joined are entitled; `guarded_advance` and `guarded_query`
  keep it.
* `chat_follows_shares` — **in every interleaving of undisturbed steps** a message is
  stored and sent by, and sent to, entitled users only.
* `chat_outlives_share` — a share is revoked while its recipient is in the room.
* `inSeries_refines` — requests in turn do what the handlers of the documents do.
-/

namespace TrustFlow.TrustDocs.Chat

open Library Custody Stegano List Option ChatServer

namespace ChatServer

variable {S : SignatureScheme} {st st' : ChatServer S} {documentId userId : Uuid}

/-! ## Entitlement -/

/-- The user has a session that has not expired at the time. -/
def SignedIn (st : ChatServer S) (time : Instant) (userId : Uuid) : Prop :=
  ∃ session ∈ st.sessions.rows, session.userId = userId ∧ session.expired time = false

/-- The user is the owner of the document. -/
def Owns (st : ChatServer S) (documentId userId : Uuid) : Prop :=
  ∃ doc ∈ st.server.document documentId, doc.ownerId = userId

/-- The share is an active one of the document with the user. -/
def ActiveFor (documentId userId : Uuid) (share : FileShare) : Prop :=
  share.documentId = documentId ∧ share.recipientId = userId ∧ share.status = .active

instance (documentId userId : Uuid) (share : FileShare) : Decidable (ActiveFor documentId userId share) :=
  inferInstanceAs (Decidable (_ ∧ _ ∧ _))

section

variable (st : ChatServer S)

/-- The user owns the document or holds an active share of it. -/
def HasAccess (documentId userId : Uuid) : Prop :=
  st.Owns documentId userId ∨ ∃ share ∈ st.server.fileShares.rows, ActiveFor documentId userId share

/-- The user may take part in the chat of the document. -/
def Entitled (documentId userId : Uuid) : Prop :=
  st.SignedIn st.clock userId ∧ st.HasAccess documentId userId

instance (st : ChatServer S) (time : Instant) (userId : Uuid) : Decidable (st.SignedIn time userId) :=
  inferInstanceAs (Decidable (∃ session ∈ _, _))

instance (st : ChatServer S) (documentId userId : Uuid) : Decidable (st.Owns documentId userId) :=
  inferInstanceAs (Decidable (∃ doc ∈ _, _))

instance (st : ChatServer S) (documentId userId : Uuid) : Decidable (st.HasAccess documentId userId) :=
  inferInstanceAs (Decidable (_ ∨ ∃ share ∈ _, _))

instance (st : ChatServer S) (documentId userId : Uuid) : Decidable (st.Entitled documentId userId) :=
  inferInstanceAs (Decidable (_ ∧ _))

/-- The client has joined the chat of the document for the user. -/
def Joined (ws : ℕ) (documentId : Uuid) (user : User) : Prop :=
  ∃ socket ∈ st.sockets[ws]?, socket.documentId = documentId ∧ user ∈ socket.phase.member

/-- What is stored or sent is from an entitled user, and goes to one. -/
def Allowed (documentId : Uuid) : Emission → Prop
  | .stored sender => st.Entitled documentId sender.id
  | .sent sender client => st.Entitled documentId sender.id ∧
      ∃ user, st.Joined client documentId user ∧ st.Entitled documentId user.id

/-- What the call stores or sends, and in the chat of which document. -/
def emits (env : Circumstances) : Call → Option (Uuid × Emission)
  | .advance ws => st.sockets[ws]?.bind fun socket =>
    (st.emitsPhase env socket.documentId socket.phase).map fun emission =>
      (socket.documentId, emission)
  | _ => none

/-- The step takes the access of nobody who is in a room, and lets nobody in who has
none. -/
def Undisturbed : Call → Prop
  | .setShareStatus shareId status => status = .active ∨ ∀ socket ∈ st.sockets,
      ∀ user ∈ socket.phase.member, st.Owns socket.documentId user.id ∨
        ∃ share ∈ st.server.fileShares.rows, ActiveFor socket.documentId user.id share ∧
          share.id ≠ shareId
  | .pass time => ∀ socket ∈ st.sockets, ∀ user ∈ socket.phase.member, st.SignedIn time user.id
  | .advance ws => ∀ socket ∈ st.sockets[ws]?, ∀ user ∈ socket.phase.joining,
      st.Entitled socket.documentId user.id
  | _ => True

end

instance (st : ChatServer S) : ∀ c, Decidable (st.Undisturbed c)
  | .setShareStatus shareId status => inferInstanceAs (Decidable (status = .active ∨
      ∀ socket ∈ st.sockets, ∀ user ∈ socket.phase.member, st.Owns socket.documentId user.id ∨
        ∃ share ∈ st.server.fileShares.rows, ActiveFor socket.documentId user.id share ∧
          share.id ≠ shareId))
  | .pass time => inferInstanceAs (Decidable (∀ socket ∈ st.sockets,
      ∀ user ∈ socket.phase.member, st.SignedIn time user.id))
  | .advance ws => inferInstanceAs (Decidable (∀ socket ∈ st.sockets[ws]?,
      ∀ user ∈ socket.phase.joining, st.Entitled socket.documentId user.id))
  | .findSession _ | .findUser _ | .now | .dropSession _ | .findDocument _ | .activeShare _ _
  | .userByName _ | .copyFor _ _ _ _ | .insertShare _ _ _ _ | .sharesOf _ _
  | .setDocumentStatus _ _ | .removeFile _ | .connect _ => isTrue trivial

/-! ## The invariant -/

/-- All who have joined are entitled, and nobody else is in a room. -/
structure Guarded (st : ChatServer S) : Prop where
  entitled : ∀ socket ∈ st.sockets, ∀ user ∈ socket.phase.member,
    st.Entitled socket.documentId user.id
  joined : ∀ documentId, ∀ ws ∈ st.clients documentId, ∃ user, st.Joined ws documentId user

/-- Access and sessions are as before, or more. -/
structure Preserves (st st' : ChatServer S) : Prop where
  signedIn : ∀ userId, st.SignedIn st.clock userId → st'.SignedIn st'.clock userId
  access : ∀ documentId userId, st.HasAccess documentId userId → st'.HasAccess documentId userId

/-- Documents, shares, sessions and clock are the same. -/
theorem Preserves.of_eq (hdocuments : st'.server.documents = st.server.documents)
    (hshares : st'.server.fileShares = st.server.fileShares)
    (hsessions : st'.sessions = st.sessions) (hclock : st'.clock = st.clock) : Preserves st st' where
  signedIn := by
    intro userId hsigned
    rwa [SignedIn, hsessions, hclock]
  access := by
    intro documentId userId haccess
    rwa [HasAccess, Owns, Server.document, hdocuments, hshares]

/-- A step leaves the tables and the clock alone. -/
structure SameTables (st st' : ChatServer S) : Prop where
  server : st'.server = st.server
  sessions : st'.sessions = st.sessions
  clock : st'.clock = st.clock

theorem SameTables.preserves (h : SameTables st st') : Preserves st st' :=
  .of_eq (congrArg Server.documents h.server) (congrArg Server.fileShares h.server) h.sessions h.clock

theorem Preserves.entitled (h : Preserves st st') (hentitled : st.Entitled documentId userId) :
    st'.Entitled documentId userId :=
  ⟨h.signedIn _ hentitled.1, h.access _ _ hentitled.2⟩

/-- A step that leaves rooms and handlers alone, after which all who have joined are
entitled. -/
theorem Guarded.of_entitled (h : st.Guarded) (hsockets : st'.sockets = st.sockets)
    (hrooms : st'.rooms = st.rooms)
    (hentitled : ∀ socket ∈ st.sockets, ∀ user ∈ socket.phase.member,
      st'.Entitled socket.documentId user.id) : st'.Guarded where
  entitled := by
    rw [hsockets]
    exact hentitled
  joined := by
    intro documentId ws hws
    rw [clients, hrooms] at hws
    obtain ⟨user, hjoined⟩ := h.joined documentId ws hws
    refine ⟨user, ?_⟩
    rwa [Joined, hsockets]

/-- A step that leaves rooms and handlers alone and preserves access. -/
theorem Guarded.preserves (h : st.Guarded) (hpreserves : Preserves st st')
    (hsockets : st'.sockets = st.sockets) (hrooms : st'.rooms = st.rooms) : st'.Guarded :=
  h.of_entitled hsockets hrooms fun socket hsocket user huser =>
    hpreserves.entitled (h.entitled socket hsocket user huser)

theorem Guarded.entitled_of_joined (h : st.Guarded) {ws : ℕ} {user : User}
    (hjoined : st.Joined ws documentId user) : st.Entitled documentId user.id := by
  obtain ⟨socket, hsocket, rfl, huser⟩ := hjoined
  exact h.entitled socket (mem_of_getElem? hsocket) user huser

/-! ## Steps of a handler -/

section

variable {ws : ℕ} {socket : Socket} {phase : Phase}

theorem getElem?_setPhase (st : ChatServer S) (ws ws' : ℕ) (phase : Phase) :
    (st.setPhase ws phase).sockets[ws']? =
      st.sockets[ws']?.map fun socket => if ws = ws' then { socket with phase := phase } else socket := by
  rw [setPhase, List.getElem?_modify]
  rfl

section

variable (hsocket : st.sockets[ws]? = some socket)
include hsocket

/-- A client in the room of a document has joined for this document. -/
theorem Guarded.documentId_of_mem (h : st.Guarded) (hws : ws ∈ st.clients documentId) :
    documentId = socket.documentId ∧ socket.phase.member.isSome = true := by
  obtain ⟨user, found, hfound, rfl, huser⟩ := h.joined documentId ws hws
  obtain rfl := Option.mem_unique hsocket hfound
  exact ⟨rfl, isSome_of_mem huser⟩

/-- **One handler goes on.**  Its client is entitled if it has joined, and if it is in
a room now, it has joined. -/
theorem Guarded.move (h : st.Guarded)
    (hpreserves : Preserves st st') (hsockets : st'.sockets = (st.setPhase ws phase).sockets)
    (hmember : ∀ user ∈ phase.member, st.Entitled socket.documentId user.id)
    (hclients : ∀ documentId, ∀ client ∈ st'.clients documentId,
      (client ≠ ws ∧ client ∈ st.clients documentId) ∨
        (client = ws ∧ documentId = socket.documentId ∧ phase.member.isSome = true)) :
    st'.Guarded where
  entitled := by
    intro found hfound user huser
    apply hpreserves.entitled
    obtain ⟨ws', hget⟩ := mem_iff_getElem?.mp hfound
    rw [hsockets, getElem?_setPhase] at hget
    obtain ⟨old, hold, rfl⟩ := map_eq_some_iff.mp hget
    split at huser
    · rename_i hsame
      subst hsame
      obtain rfl := Option.mem_unique hsocket hold
      rw [if_pos rfl]
      exact hmember user huser
    · rename_i hother
      rw [if_neg hother]
      exact h.entitled old (mem_of_getElem? hold) user huser
  joined := by
    intro documentId client hclient
    rcases hclients documentId client hclient with ⟨hother, hold⟩ | ⟨rfl, rfl, hsome⟩
    · obtain ⟨user, found, hfound, hdocument, huser⟩ := h.joined documentId client hold
      refine ⟨user, found, ?_, hdocument, huser⟩
      rw [hsockets, getElem?_setPhase, hfound, map_some, if_neg (Ne.symm hother)]
      rfl
    · obtain ⟨user, huser⟩ := isSome_iff_exists.mp hsome
      refine ⟨user, { socket with phase := phase }, ?_, rfl, huser⟩
      rw [hsockets, getElem?_setPhase, hsocket, map_some, if_pos rfl]
      rfl

/-- A handler goes on and nobody joins a room. -/
theorem Guarded.move_of_subset (h : st.Guarded)
    (hpreserves : Preserves st st') (hsockets : st'.sockets = (st.setPhase ws phase).sockets)
    (hmember : ∀ user ∈ phase.member, st.Entitled socket.documentId user.id)
    (hsubset : ∀ documentId, st'.clients documentId ⊆ st.clients documentId)
    (hkept : socket.phase.member.isSome = true → phase.member.isSome = true) : st'.Guarded := by
  refine h.move hsocket hpreserves hsockets hmember fun documentId client hclient => ?_
  have hold := hsubset documentId hclient
  by_cases hsame : client = ws
  · subst hsame
    obtain ⟨hdocument, hsome⟩ := h.documentId_of_mem hsocket hold
    exact .inr ⟨rfl, hdocument, hkept hsome⟩
  · exact .inl ⟨hsame, hold⟩

/-- A handler goes on, for the same user if it has joined. -/
theorem Guarded.setPhase (h : st.Guarded)
    (hmember : phase.member = socket.phase.member) : (st.setPhase ws phase).Guarded := by
  refine h.move_of_subset hsocket (.of_eq rfl rfl rfl rfl) rfl ?_ (fun _ => subset_rfl) ?_
  · rw [hmember]
    exact h.entitled socket (mem_of_getElem? hsocket)
  · rw [hmember]
    exact id

end

theorem clients_eq (hrooms : st'.rooms.get? documentId = st.rooms.get? documentId) :
    st'.clients documentId = st.clients documentId := by
  rw [clients, hrooms]
  rfl

theorem clients_of_get? {room : Room} (hroom : st.rooms.get? documentId = some room) :
    st.clients documentId = room.clients := by
  rw [clients, hroom]
  rfl

theorem clients_of_none (hroom : st.rooms.get? documentId = none) : st.clients documentId = ∅ := by
  rw [clients, hroom]
  rfl

/-- The `finally` block takes the client out of the room. -/
theorem clients_leave (documentId documentId' : Uuid) :
    (st.leave documentId ws).clients documentId' =
      if documentId = documentId' then st.clients documentId' \ {ws} else st.clients documentId' := by
  rw [leave]
  split
  · next hroom =>
      show st.clients documentId' = _
      split
      · next hsame => rw [← hsame, clients_of_none hroom, Finset.empty_sdiff]
      · rfl
  · next room hroom =>
      dsimp only [setPhase, clients]
      by_cases hsame : documentId = documentId'
      · subst hsame
        by_cases hempty : room.clients \ {ws} = ∅
        · simp [hroom, hempty]
        · simp [Dict.get?_set_self, hroom, hempty]
      · rw [if_neg hsame]
        split
        · rw [Dict.get?_erase_of_ne _ hsame]
        · rw [Dict.get?_set_of_ne _ _ hsame]

theorem sockets_leave (documentId : Uuid) :
    (st.leave documentId ws).sockets = (st.setPhase ws .closed).sockets := by
  rw [leave]
  split <;> rfl

theorem sameTables_leave (documentId : Uuid) : SameTables st (st.leave documentId ws) := by
  rw [leave]
  split <;> exact ⟨rfl, rfl, rfl⟩

/-- The handler is over. -/
theorem Guarded.leave (h : st.Guarded) (hsocket : st.sockets[ws]? = some socket) :
    (st.leave socket.documentId ws).Guarded := by
  refine h.move hsocket (sameTables_leave _).preserves (sockets_leave _) (fun user huser => by cases huser) ?_
  intro documentId client hclient
  rw [clients_leave] at hclient
  split at hclient
  · rw [Finset.mem_sdiff, Finset.mem_singleton] at hclient
    exact .inl hclient.symm
  · rename_i hother
    refine .inl ⟨?_, hclient⟩
    rintro rfl
    exact hother (h.documentId_of_mem hsocket hclient).1.symm

theorem sockets_enter (documentId : Uuid) : (st.enter documentId ws).sockets = st.sockets := by
  rw [enter]
  split <;> rfl

theorem sameTables_enter (documentId : Uuid) : SameTables st (st.enter documentId ws) := by
  rw [enter]
  split <;> exact ⟨rfl, rfl, rfl⟩

theorem clients_enter (documentId documentId' : Uuid) :
    (st.enter documentId ws).clients documentId' =
      if documentId = documentId' then insert ws (st.clients documentId')
      else st.clients documentId' := by
  rw [enter]
  by_cases hsame : documentId = documentId'
  · subst hsame
    split
    · next room hroom => simp [clients, Dict.get?_set_self, hroom]
    · next hroom => simp [clients, Dict.get?_set_self, hroom]
  · rw [if_neg hsame]
    split <;> exact clients_eq (Dict.get?_set_of_ne _ _ hsame)

/-- A client joins. -/
theorem Guarded.enter (h : st.Guarded) (hsocket : st.sockets[ws]? = some socket) {user : User}
    (hentitled : st.Entitled socket.documentId user.id) :
    ((st.enter socket.documentId ws).setPhase ws (.greeting user)).Guarded := by
  have hsockets : ((st.enter socket.documentId ws).setPhase ws (.greeting user)).sockets =
      (st.setPhase ws (.greeting user)).sockets := by
    rw [ChatServer.setPhase, ChatServer.setPhase, sockets_enter]
  have hsame : SameTables st ((st.enter socket.documentId ws).setPhase ws (.greeting user)) :=
    ⟨(sameTables_enter _).server, (sameTables_enter _).sessions, (sameTables_enter _).clock⟩
  refine h.move hsocket hsame.preserves hsockets ?_ ?_
  · intro found hfound
    rwa [← Option.some.inj hfound]
  · intro documentId client hclient
    have hentered : client ∈ (st.enter socket.documentId ws).clients documentId := hclient
    rw [clients_enter] at hentered
    by_cases hsame : client = ws
    · subst hsame
      refine .inr ⟨rfl, ?_, rfl⟩
      split at hentered
      · rename_i hdocument
        exact hdocument.symm
      · exact (h.documentId_of_mem hsocket hentered).1
    · refine .inl ⟨hsame, ?_⟩
      split at hentered
      · exact (Finset.mem_insert.mp hentered).resolve_left hsame
      · exact hentered

/-- Taking clients out of a room changes nothing else. -/
theorem discard_spec {dead : Finset ℕ} (hdiscard : st.discard documentId dead = some st') :
    ∃ rooms, st' = { st with rooms := rooms } ∧
      ∀ documentId', st'.clients documentId' ⊆ st.clients documentId' := by
  rw [discard] at hdiscard
  cases hroom : st.rooms.get? documentId with
  | none =>
    rw [hroom] at hdiscard
    obtain ⟨-, hsome⟩ := ite_none_right_eq_some.mp hdiscard
    obtain rfl := Option.some.inj hsome
    exact ⟨st.rooms, rfl, fun _ => subset_rfl⟩
  | some room =>
    rw [hroom] at hdiscard
    obtain rfl := Option.some.inj hdiscard
    refine ⟨_, rfl, fun documentId' => ?_⟩
    by_cases hsame : documentId = documentId'
    · subst hsame
      rw [clients_of_get? (Dict.get?_set_self st.rooms documentId _), clients_of_get? hroom]
      exact Finset.sdiff_subset
    · exact (clients_eq (Dict.get?_set_of_ne st.rooms _ hsame)).subset

section

variable (hsocket : st.sockets[ws]? = some socket)
include hsocket

theorem Guarded.discard (h : st.Guarded)
    {dead : Finset ℕ} (hdiscard : st.discard documentId dead = some st')
    (hmember : phase.member = socket.phase.member) : (st'.setPhase ws phase).Guarded := by
  obtain ⟨rooms, rfl, hsubset⟩ := discard_spec hdiscard
  refine h.move_of_subset hsocket (.of_eq rfl rfl rfl rfl) rfl ?_ hsubset ?_
  · rw [hmember]
    exact h.entitled socket (mem_of_getElem? hsocket)
  · rw [hmember]
    exact id

theorem Guarded.broadcastStep (h : st.Guarded)
    {user : User} (hmember : socket.phase.member = some user) (env : Circumstances)
    (message : ChatMessage) (iteration : Iteration) :
    (st.broadcastStep env ws socket.documentId user message iteration).Guarded := by
  rw [ChatServer.broadcastStep]
  split
  · exact h.leave hsocket
  · split
    · exact h.setPhase hsocket hmember.symm
    · split
      · exact h.leave hsocket
      · rename_i hdiscard
        exact h.discard hsocket hdiscard hmember.symm

/-- A message is stored. -/
theorem Guarded.insertMessage (h : st.Guarded) {env : Circumstances} {message : ChatMessage}
    (hinsert : st.insertMessage env message = some st')
    (hmember : phase.member = socket.phase.member) : (st'.setPhase ws phase).Guarded := by
  rw [ChatServer.insertMessage] at hinsert
  split at hinsert
  · cases hinsert
  · obtain ⟨messages, -, rfl⟩ := map_eq_some_iff.mp hinsert
    have hstored : ({ st with messages := messages } : ChatServer S).Guarded :=
      h.preserves (.of_eq rfl rfl rfl rfl) rfl rfl
    exact hstored.setPhase hsocket hmember

/-- **One step of a handler** keeps the room guarded, if a client that joins is
entitled. -/
theorem Guarded.advancePhase (h : st.Guarded)
    (hjoins : ∀ user ∈ socket.phase.joining, st.Entitled socket.documentId user.id)
    (env : Circumstances) : (st.advancePhase env ws socket.documentId socket.phase).Guarded := by
  cases hphase : socket.phase with
  | opened | presented | identified | located =>
    rw [ChatServer.advancePhase]
    split <;> exact h.setPhase hsocket (by rw [hphase]; rfl)
  | known user =>
    rw [ChatServer.advancePhase]
    split
    · split
      · exact h.setPhase hsocket (by rw [hphase]; rfl)
      · split <;> exact h.setPhase hsocket (by rw [hphase]; rfl)
    · exact h.setPhase hsocket (by rw [hphase]; rfl)
  | cleared user => exact h.enter hsocket (hjoins user (by rw [hphase]; rfl))
  | greeting user =>
    refine h.setPhase hsocket ?_
    rw [hphase]
    split <;> rfl
  | waiting user =>
    rw [ChatServer.advancePhase]
    split
    · exact h.setPhase hsocket (by rw [hphase]; rfl)
    · exact h
    · exact h.leave hsocket
    · exact h.leave hsocket
  | storing user posting =>
    rw [ChatServer.advancePhase]
    cases hinsert : st.insertMessage env (st.rowOf env socket.documentId user posting) with
    | none => exact h.leave hsocket
    | some stored => exact h.insertMessage hsocket hinsert (by rw [hphase]; rfl)
  | broadcasting user message iteration =>
    exact h.broadcastStep hsocket (by rw [hphase]; rfl) env message _
  | stranded user => exact h
  | closed => exact h

end

theorem Guarded.advance (h : st.Guarded) (hundisturbed : st.Undisturbed (.advance ws))
    (env : Circumstances) : (st.advance env ws).Guarded := by
  rw [ChatServer.advance]
  split
  · exact h
  · rename_i socket hsocket
    exact h.advancePhase hsocket (hundisturbed socket hsocket) env

end

theorem sameTables_broadcastStep (env : Circumstances) (ws : ℕ) (documentId : Uuid) (user : User)
    (message : ChatMessage) (iteration : Iteration) :
    SameTables st (st.broadcastStep env ws documentId user message iteration) := by
  rw [broadcastStep]
  split
  · exact sameTables_leave documentId
  · split
    · exact ⟨rfl, rfl, rfl⟩
    · split
      · exact sameTables_leave documentId
      · rename_i hdiscard
        obtain ⟨rooms, rfl, -⟩ := discard_spec hdiscard
        exact ⟨rfl, rfl, rfl⟩

theorem sameTables_insertMessage {env : Circumstances} {message : ChatMessage}
    (hinsert : st.insertMessage env message = some st') : SameTables st st' := by
  rw [insertMessage] at hinsert
  split at hinsert
  · cases hinsert
  · obtain ⟨messages, -, rfl⟩ := map_eq_some_iff.mp hinsert
    exact ⟨rfl, rfl, rfl⟩

/-- A handler changes no table that decides on access. -/
theorem sameTables_advance (env : Circumstances) (ws : ℕ) : SameTables st (st.advance env ws) := by
  rw [advance]
  split
  · exact ⟨rfl, rfl, rfl⟩
  rename_i socket hsocket
  cases socket.phase with
  | opened | presented | identified | located =>
    rw [advancePhase]
    split <;> exact ⟨rfl, rfl, rfl⟩
  | known user =>
    rw [advancePhase]
    split
    · split
      · exact ⟨rfl, rfl, rfl⟩
      · split <;> exact ⟨rfl, rfl, rfl⟩
    · exact ⟨rfl, rfl, rfl⟩
  | cleared user =>
    obtain ⟨hserver, hsessions, hclock⟩ := sameTables_enter socket.documentId
    exact ⟨hserver, hsessions, hclock⟩
  | greeting user => exact ⟨rfl, rfl, rfl⟩
  | waiting user =>
    rw [advancePhase]
    split
    · exact ⟨rfl, rfl, rfl⟩
    · exact ⟨rfl, rfl, rfl⟩
    · exact sameTables_leave _
    · exact sameTables_leave _
  | storing user posting =>
    rw [advancePhase]
    cases hinsert : st.insertMessage env (st.rowOf env socket.documentId user posting) with
    | none => exact sameTables_leave _
    | some stored =>
      obtain ⟨hserver, hsessions, hclock⟩ := sameTables_insertMessage hinsert
      exact ⟨hserver, hsessions, hclock⟩
  | broadcasting user message iteration => exact sameTables_broadcastStep env ws _ user message _
  | stranded | closed => exact ⟨rfl, rfl, rfl⟩

/-! ## Calls of the routes -/

section

variable {words : WordClass} {env : Circumstances}

/-- A copy for a recipient leaves documents and shares alone. -/
theorem copyFor_frame (words : WordClass) (server : Server S) (amb : Ambient)
    (user : User) (doc : Document) (share : Option FileShare) (recipient : User) :
    (copyFor words server amb user doc share recipient).1.documents = server.documents ∧
      (copyFor words server amb user doc share recipient).1.fileShares = server.fileShares := by
  rw [copyFor]
  split
  · exact ⟨rfl, rfl⟩
  · rename_i written parent hwritten
    obtain ⟨coc, rfl⟩ := Server.parentNode_ok hwritten
    split <;> exact ⟨rfl, rfl⟩

theorem Guarded.copyFor (h : st.Guarded) (amb : Ambient) (user : User) (doc : Document)
    (share : Option FileShare) (recipient : User) :
    ({ st with server := (Chat.copyFor words st.server amb user doc share recipient).1 } :
      ChatServer S).Guarded := by
  obtain ⟨hdocuments, hshares⟩ := copyFor_frame words st.server amb user doc share recipient
  exact h.preserves (.of_eq hdocuments hshares rfl rfl) rfl rfl

theorem Guarded.insertShare (h : st.Guarded) {ownerId recipientId : Uuid} {childHash : Str}
    {share : FileShare}
    (hinsert : st.insertShare env documentId ownerId recipientId childHash = some (st', share)) :
    st'.Guarded := by
  obtain ⟨fileShares, hrows, ⟨⟩⟩ := map_eq_some_iff.mp hinsert
  refine h.preserves ⟨fun _ => id, fun documentId userId haccess => ?_⟩ rfl rfl
  refine haccess.imp id ?_
  rintro ⟨old, hold, hactive⟩
  exact ⟨old, (Table.mem_of_insert? hrows).mpr (.inl hold), hactive⟩

theorem Guarded.setDocumentStatus (h : st.Guarded) (status : DocumentStatus) :
    ({ st with server := st.server.setDocumentStatus documentId status } : ChatServer S).Guarded := by
  refine h.preserves ⟨fun _ => id, fun documentId' userId haccess => ?_⟩ rfl rfl
  refine haccess.imp ?_ id
  rintro ⟨doc, hdoc, howner⟩
  refine ⟨Table.change Document.id documentId (fun d => { d with status := status }) doc, ?_, ?_⟩
  · have hfound : st.server.documents.get? documentId' = some doc := hdoc
    rw [mem_def, Server.document, Server.setDocumentStatus, Table.get?_update, hfound, map_some]
  · rw [Table.change]
    split <;> exact howner

theorem mem_setShareStatus {shareId : Uuid} {status : ShareStatus} {row : FileShare} :
    row ∈ (st.setShareStatus shareId status).server.fileShares.rows ↔
      ∃ old ∈ st.server.fileShares.rows,
        (if old.id = shareId then { old with status := status } else old) = row :=
  mem_map

section

variable (h : st.Guarded)
include h

/-- The status of a share changes, and nobody who has joined loses access. -/
theorem Guarded.setShareStatus {shareId : Uuid} {status : ShareStatus}
    (hundisturbed : st.Undisturbed (.setShareStatus shareId status)) :
    (st.setShareStatus shareId status).Guarded := by
  refine h.of_entitled rfl rfl fun socket hsocket user huser => ?_
  obtain ⟨hsigned, haccess⟩ := h.entitled socket hsocket user huser
  refine ⟨hsigned, ?_⟩
  rcases hundisturbed with rfl | hspared
  · -- an active share stays active
    refine haccess.imp id ?_
    rintro ⟨share, hshare, hactive⟩
    refine ⟨_, mem_setShareStatus.mpr ⟨share, hshare, rfl⟩, ?_⟩
    split
    · exact ⟨hactive.1, hactive.2.1, rfl⟩
    · exact hactive
  · -- another share stays as it is
    refine (hspared socket hsocket user huser).imp id ?_
    rintro ⟨share, hshare, hactive, hother⟩
    exact ⟨share, mem_setShareStatus.mpr ⟨share, hshare, if_neg hother⟩, hactive⟩

/-- Time passes, and everybody who has joined stays signed in. -/
theorem Guarded.pass {time : Instant} (hundisturbed : st.Undisturbed (.pass time)) :
    (st.pass time).Guarded := by
  rw [ChatServer.pass]
  split
  · exact h.of_entitled rfl rfl fun socket hsocket user huser =>
      ⟨hundisturbed socket hsocket user huser, (h.entitled socket hsocket user huser).2⟩
  · exact h

theorem Guarded.connect (documentId : Uuid) :
    ({ st with sockets := st.sockets ++ [⟨documentId, .opened⟩] } : ChatServer S).Guarded where
  entitled := by
    intro socket hsocket user huser
    rcases mem_append.mp hsocket with hold | hnew
    · exact h.entitled socket hold user huser
    · rw [mem_singleton.mp hnew] at huser
      cases huser
  joined := by
    intro documentId' ws hws
    obtain ⟨user, socket, hsocket, hjoined⟩ := h.joined documentId' ws hws
    refine ⟨user, socket, ?_, hjoined⟩
    have hlength := (List.getElem?_eq_some_iff.mp hsocket).1
    rw [mem_def, List.getElem?_append_left hlength]
    exact hsocket

/-- A session that has expired is dropped. -/
theorem Guarded.dropSession {sessionId : Uuid}
    (hexpired : ∀ session ∈ st.sessions.rows, session.id = sessionId →
      session.expired st.clock = true) :
    ({ st with sessions := st.sessions.delete sessionId } : ChatServer S).Guarded := by
  refine h.preserves ⟨fun userId => ?_, fun _ _ => id⟩ rfl rfl
  rintro ⟨session, hsession, huser, hvalid⟩
  refine ⟨session, mem_filter.mpr ⟨hsession, decide_eq_true fun hid => ?_⟩, huser, hvalid⟩
  rw [hexpired session hsession hid] at hvalid
  cases hvalid

/-- **One call** keeps the room guarded, if it is undisturbed and drops no session that
has not expired. -/
theorem Guarded.exec {c : Call} (hundisturbed : st.Undisturbed c)
    (hdrop : ∀ sessionId, c = .dropSession sessionId → ∀ session ∈ st.sessions.rows,
      session.id = sessionId → session.expired st.clock = true) :
    (Chat.exec words c env st).1.Guarded := by
  rw [Chat.exec]
  split
  · exact h
  cases c with
  | findSession | findUser | now | findDocument | activeShare | userByName | sharesOf => exact h
  | dropSession sessionId => exact h.dropSession (hdrop sessionId rfl)
  | copyFor user doc share recipient => exact h.copyFor _ user doc share recipient
  | insertShare documentId ownerId recipientId childHash =>
    cases hinsert : st.insertShare env documentId ownerId recipientId childHash with
    | none =>
      simp only [query, hinsert]
      exact h
    | some inserted =>
      simp only [query, hinsert]
      exact h.insertShare hinsert
  | setDocumentStatus documentId status => exact h.setDocumentStatus status
  | setShareStatus shareId status => exact h.setShareStatus hundisturbed
  | removeFile documentId => exact h.preserves (.of_eq rfl rfl rfl rfl) rfl rfl
  | connect documentId => exact h.connect documentId
  | advance ws => exact h.advance hundisturbed env
  | pass time => exact h.pass hundisturbed

end

end

/-! ## What is stored and sent -/

/-- The next client of an iteration is in the room. -/
theorem nextClient_mem {env : Circumstances} {current : Finset ℕ} {iteration : Iteration} {client : ℕ}
    (h : nextClient env current iteration = some client) : client ∈ current := by
  rw [nextClient] at h
  split at h
  · rename_i found hfound
    obtain rfl := Option.some.inj h
    exact (Finset.mem_sdiff.mp (of_decide_eq_true (filter_eq_some_iff.mp hfound).2)).1
  · split at h
    · exact (Finset.mem_sdiff.mp ((Finset.mem_sort _).mp (mem_of_mem_head? h))).1
    · cases h

theorem iterated_subset (documentId : Uuid) (iteration : Iteration) :
    st.iterated documentId iteration ⊆ st.clients documentId := by
  rw [iterated]
  cases hroom : st.rooms.get? documentId with
  | none => exact Finset.empty_subset _
  | some room =>
    rw [clients_of_get? hroom]
    dsimp only
    split
    · exact subset_rfl
    · exact Finset.empty_subset _

/-- **While the room is guarded**, a message is from an entitled user and goes to one. -/
theorem Guarded.allowed (h : st.Guarded) {c : Call} {env : Circumstances} {emission : Emission}
    (hemits : st.emits env c = some (documentId, emission)) : st.Allowed documentId emission := by
  cases c with
  | advance ws =>
    obtain ⟨socket, hsocket, hemits⟩ := bind_eq_some_iff.mp hemits
    obtain ⟨found, hphase, ⟨⟩⟩ := map_eq_some_iff.mp hemits
    have hsender : ∀ user, socket.phase.member = some user →
        st.Entitled socket.documentId user.id := fun user huser =>
      h.entitled socket (mem_of_getElem? hsocket) user huser
    cases hcase : socket.phase with
    | storing user posting =>
      rw [hcase] at hphase hsender
      obtain ⟨_, -, rfl⟩ := map_eq_some_iff.mp hphase
      exact hsender user rfl
    | broadcasting user message iteration =>
      rw [hcase] at hphase hsender
      obtain ⟨-, hphase⟩ := ite_none_left_eq_some.mp hphase
      obtain ⟨client, hclient, rfl⟩ := map_eq_some_iff.mp hphase
      obtain ⟨user', hjoined⟩ := h.joined socket.documentId client
        (iterated_subset _ _ (nextClient_mem hclient))
      exact ⟨hsender user rfl, user', hjoined, h.entitled_of_joined hjoined⟩
    | _ =>
      rw [hcase] at hphase
      cases hphase
  | _ => cases hemits

end ChatServer

/-! ## Requests -/

section

variable {S : SignatureScheme} {words : WordClass}

/-- Time goes on, and no session is added. -/
instance : Preorder (ChatServer S) where
  le st st' := st.clock.1 ≤ st'.clock.1 ∧ st'.sessions.rows ⊆ st.sessions.rows
  le_refl st := ⟨Nat.le_refl _, List.Subset.refl _⟩
  le_trans _ _ _ h h' := ⟨h.1.trans h'.1, List.Subset.trans h'.2 h.2⟩

theorem le_exec (c : Call) (env : Circumstances) (st : ChatServer S) :
    st ≤ (exec words c env st).1 := by
  rw [exec]
  split
  · exact le_rfl
  cases c with
  | findSession | findUser | now | findDocument | activeShare | userByName | sharesOf => exact le_rfl
  | copyFor | setDocumentStatus | setShareStatus | removeFile | connect =>
    exact ⟨Nat.le_refl _, List.Subset.refl _⟩
  | dropSession sessionId => exact ⟨Nat.le_refl _, fun _ hkept => (mem_filter.mp hkept).1⟩
  | insertShare documentId ownerId recipientId childHash =>
    cases hinsert : st.insertShare env documentId ownerId recipientId childHash with
    | none =>
      simp only [query, hinsert]
      exact le_rfl
    | some inserted =>
      simp only [query, hinsert]
      obtain ⟨fileShares, -, rfl⟩ := map_eq_some_iff.mp hinsert
      exact ⟨Nat.le_refl _, List.Subset.refl _⟩
  | advance ws =>
    obtain ⟨-, hsessions, hclock⟩ := sameTables_advance env ws
    refine ⟨Nat.le_of_eq (congrArg Subtype.val hclock.symm), ?_⟩
    show (st.advance env ws).sessions.rows ⊆ st.sessions.rows
    rw [hsessions]
    exact List.Subset.refl _
  | pass time =>
    show st ≤ st.pass time
    rw [ChatServer.pass]
    split
    · rename_i hlater
      exact ⟨hlater, List.Subset.refl _⟩
    · exact le_rfl

/-- The calls so far, with nothing carried along. -/
abbrev Log (S : SignatureScheme) := World Request Call Circumstances (ChatServer S) Unit

/-- The room is guarded, and was when each message was stored or sent. -/
structure Orderly (w : Log S) : Prop where
  guarded : w.history.state.Guarded
  allowed : ∀ entry ∈ w.history.past, ∀ documentId emission,
    entry.state.emits entry.env entry.call = some (documentId, emission) →
      entry.state.Allowed documentId emission

/-- The routine keeps order, whatever the others do. -/
abbrev KeepsOrder (words : WordClass) (thread : ℕ) (request : Request) {α : Type}
    (r : Route α) (w : Log S) : Prop :=
  Upholds (exec words) (fun c _ st => st.Undisturbed c) Orderly (fun _ _ => True) thread request
    r w

variable {thread : ℕ} {request : Request} {α : Type} {w : Log S}

/-- **One call of a routine** keeps order. -/
theorem keepsOrder_call {c : Call} {resume : Option (Answer c) → Route α}
    (hdrop : ∀ w', w ≤ w' → ∀ sessionId, c = .dropSession sessionId →
      ∀ session ∈ w'.history.state.sessions.rows, session.id = sessionId →
        session.expired w'.history.state.clock = true)
    (hrest : ∀ w', w ≤ w' → ∀ env, KeepsOrder words thread request
      (resume (exec words c env w'.history.state).2)
      (w'.after (exec words) thread request c env ())) :
    KeepsOrder words thread request (.call c resume) w := by
  intro w' hle horderly env hundisturbed
  have hguarded : (exec words c env w'.history.state).1.Guarded :=
    horderly.guarded.exec hundisturbed (hdrop w' hle)
  refine ⟨(), ⟨hguarded, ?_⟩, World.le_after (le_exec c env _) trivial, hrest w' hle env⟩
  intro entry hentry
  rcases mem_append.mp hentry with hold | hnew
  · exact horderly.allowed entry hold
  · rw [mem_singleton.mp hnew]
    exact fun documentId emission hemits => horderly.guarded.allowed hemits

/-- The call drops no session. -/
def Call.spares : Call → Bool
  | .dropSession _ => false
  | _ => true

/-- A routine that drops no session. -/
theorem keepsOrder_of_spares {r : Route α} (h : r.AllCalls (·.spares)) (w : Log S) :
    KeepsOrder words thread request r w := by
  induction r generalizing w with
  | done outcome => exact fun _ _ => trivial
  | call c resume ih =>
    refine keepsOrder_call ?_ fun w' _ env => ih _ (h.2 _) _
    intro _ _ sessionId hc
    have hspares : c.spares = true := h.1
    rw [hc] at hspares
    cases hspares

theorem spares_ask {c : Call} (hc : c.spares = true) : (ask c).AllCalls (·.spares) := by
  refine ⟨hc, fun answer => ?_⟩
  cases answer with
  | none => trivial
  | some answer => trivial

theorem spares_setStatuses (status : ShareStatus) (shares : List FileShare) :
    (setStatuses status shares).AllCalls (·.spares) := by
  induction shares with
  | nil => trivial
  | cons share shares ih => exact (spares_ask rfl).bind fun _ => ih

variable (user : User) (documentId : Uuid) (doc : Document) (recipientUsername : Str)

theorem spares_documentIn (statuses : List DocumentStatus) :
    (documentIn documentId statuses).AllCalls (·.spares) := by
  refine (spares_ask rfl).bind fun found => ?_
  cases found with
  | none => trivial
  | some doc =>
    dsimp only
    split <;> trivial

theorem spares_ownerOnly (detail : String) : (ownerOnly user doc detail).AllCalls (·.spares) := by
  rw [ownerOnly]
  split <;> trivial

theorem spares_grantFor : (grantFor user documentId doc).AllCalls (·.spares) := by
  rw [grantFor]
  split
  · trivial
  · refine (spares_ask rfl).bind fun found => ?_
    cases found with
    | none => trivial
    | some share => trivial

theorem spares_checkShare : (checkShare user documentId recipientUsername).AllCalls (·.spares) := by
  refine (spares_documentIn _ _).bind fun doc => ?_
  refine (spares_grantFor _ _ _).bind fun share => (spares_ask rfl).bind fun found => ?_
  cases found with
  | none => trivial
  | some recipient =>
    dsimp only
    split
    · trivial
    · refine (spares_ask rfl).bind fun existing => ?_
      cases existing with
      | some share => trivial
      | none => trivial

theorem spares_shareDocument :
    (shareDocument user documentId recipientUsername).AllCalls (·.spares) := by
  refine (spares_checkShare _ _ _).bind fun checked => (spares_ask rfl).bind fun copied => ?_
  cases copied with
  | error failure => trivial
  | ok childHash => exact (spares_ask rfl).bind fun _ => trivial

theorem spares_revokeShare (targetUserId : Uuid) :
    (revokeShare user documentId targetUserId).AllCalls (·.spares) := by
  refine (spares_documentIn _ _).bind fun doc => (spares_ownerOnly _ _ _).bind fun _ => ?_
  refine (spares_ask rfl).bind fun found => ?_
  cases found with
  | none => trivial
  | some share => exact (spares_ask rfl).bind fun _ => trivial

theorem spares_deleteDocument : (deleteDocument user documentId).AllCalls (·.spares) :=
  (spares_documentIn _ _).bind fun _ => (spares_ownerOnly _ _ _).bind fun _ =>
    (spares_ask rfl).bind fun _ => (spares_ask rfl).bind fun shares =>
      spares_setStatuses _ shares

theorem spares_restoreDocument (restoreAccess : Bool) :
    (restoreDocument user documentId restoreAccess).AllCalls (·.spares) := by
  refine (spares_documentIn _ _).bind fun _ => (spares_ownerOnly _ _ _).bind fun _ => ?_
  refine (spares_ask rfl).bind fun _ => (spares_ask rfl).bind fun shares => ?_
  cases restoreAccess with
  | false => trivial
  | true => exact spares_setStatuses _ shares

theorem spares_purgeDocument : (purgeDocument user documentId).AllCalls (·.spares) :=
  (spares_documentIn _ _).bind fun _ => (spares_ownerOnly _ _ _).bind fun _ =>
    (spares_ask rfl).bind fun _ => (spares_ask rfl).bind fun shares =>
      (spares_setStatuses _ shares).bind fun _ => (spares_ask rfl).bind fun _ => trivial

/-- The session that a look-up finds is in the table. -/
theorem mem_of_findSession {tokenHash : Str} {env : Circumstances} {st : ChatServer S}
    {session : LoginSession}
    (h : (exec words (.findSession tokenHash) env st).2 = some (some session)) :
    session ∈ st.sessions.rows := by
  rw [exec] at h
  split at h
  · cases h
  · exact (Table.findOne_spec (Option.some.inj h)).1

/-- A session that was found and has expired is still expired later, or is gone. -/
theorem expired_later {st st' : ChatServer S} (hle : st ≤ st') {session : LoginSession}
    (hsession : session ∈ st.sessions.rows) {time : Instant} (hexpired : session.expired time = true)
    (htime : time.1 ≤ st'.clock.1) {row : LoginSession} (hrow : row ∈ st'.sessions.rows)
    (hid : row.id = session.id) : row.expired st'.clock = true := by
  rw [Table.eq_of_key_eq (hle.2 hrow) hsession hid]
  exact decide_eq_true (Nat.lt_of_lt_of_le (of_decide_eq_true hexpired) htime)

/-- **`get_current_user` drops no session but an expired one.** -/
theorem keepsOrder_getCurrentUser (cookie : Option Str) (w : Log S) :
    KeepsOrder words thread request (getCurrentUser cookie) w := by
  rw [getCurrentUser]
  split
  · exact fun _ _ => trivial
  refine keepsOrder_call (fun _ _ _ hc => by cases hc) fun w₁ _ env₁ => ?_
  cases hanswer : (exec words (.findSession _) env₁ w₁.history.state).2 with
  | none => exact fun _ _ => trivial
  | some found =>
    cases found with
    | none => exact fun _ _ => trivial
    | some session =>
      have hsession := mem_of_findSession hanswer
      refine keepsOrder_call (fun _ _ _ hc => by cases hc) fun w₂ hle₂ env₂ => ?_
      rw [exec, Call.external, Bool.and_false, if_neg Bool.false_ne_true]
      show KeepsOrder words thread request
        (if session.expired w₂.history.state.clock then
          (do let _ ← ask (.dropSession session.id); refuse 401 "Session expired")
        else userOf session) _
      split
      · rename_i hexpired
        refine keepsOrder_call ?_ fun w₃ _ env₃ => ?_
        · intro w₃ hle₃ sessionId hc row hrow hid
          cases hc
          have hclock : w₂ ≤ w₃ := (World.le_after (le_exec _ _ _) trivial).trans hle₃
          have hrows : w₁ ≤ w₃ :=
            (World.le_after (le_exec _ _ _) trivial).trans (hle₂.trans hclock)
          exact expired_later (World.state_le hrows) hsession hexpired (World.state_le hclock).1
            hrow hid
        · cases (exec words (.dropSession session.id) env₃ w₃.history.state).2 with
          | none => exact fun _ _ => trivial
          | some dropped => exact fun _ _ => trivial
      · refine keepsOrder_of_spares ((spares_ask rfl).bind fun found => ?_) _
        cases found with
        | none => trivial
        | some user => trivial

end

/-! ## Whole runs -/

section

variable {S : SignatureScheme} (words : WordClass)

theorem keepsOrder_routine (thread : ℕ) (request : Request) (w : Log S) :
    KeepsOrder words thread request (routine request) w := by
  have hthen : ∀ (cookie : Option Str) (route : User → Route Unit),
      (∀ user, (route user).AllCalls (·.spares)) →
      KeepsOrder words thread request (getCurrentUser cookie >>= route) w :=
    fun cookie route hroute => (keepsOrder_getCurrentUser cookie w).bind
      (fun user w' _ _ => keepsOrder_of_spares (hroute user) w') fun _ _ _ _ => trivial
  cases request with
  | share cookie documentId recipientUsername =>
    exact hthen cookie _ fun user => spares_shareDocument user documentId recipientUsername
  | revoke cookie documentId targetUserId =>
    exact hthen cookie _ fun user => spares_revokeShare user documentId targetUserId
  | delete cookie documentId => exact hthen cookie _ fun user => spares_deleteDocument user documentId
  | restore cookie documentId restoreAccess =>
    exact hthen cookie _ fun user => spares_restoreDocument user documentId restoreAccess
  | purge cookie documentId => exact hthen cookie _ fun user => spares_purgeDocument user documentId
  | connect documentId => exact keepsOrder_of_spares (spares_ask rfl) w
  | advance ws => exact keepsOrder_of_spares (spares_ask rfl) w
  | pass time => exact keepsOrder_of_spares (spares_ask rfl) w

/-- **Chat access follows the share state** in every run of undisturbed steps: joins,
messages, disconnects, share, revoke, delete, restore and purge requests and the
passage of time, in any interleaving, on a server on which nobody has joined yet.
Whenever a message is stored or sent, its sender, and the client that it is sent to,
belong to a user with a session that has not expired who owns the document or holds an
active share. -/
theorem chat_follows_shares (st : ChatServer S) (hsockets : st.sockets = [])
    (hrooms : st.rooms = Dict.empty) (moves : List (Move Request Circumstances))
    (hmoves : Along (Pool.step (exec words) routine)
      (Pool.Admitted fun c _ st => st.Undisturbed c) (Pool.start st) moves) :
    ∀ entry ∈ ((Pool.start st).run (exec words) routine moves).history.past,
      ∀ documentId emission,
        entry.state.emits entry.env entry.call = some (documentId, emission) →
          entry.state.Allowed documentId emission := by
  have hguarded : st.Guarded := by
    refine ⟨?_, ?_⟩
    · rw [hsockets]
      intro socket hsocket
      cases hsocket
    · intro documentId ws hws
      rw [clients_of_none (by rw [hrooms]; rfl)] at hws
      exact absurd hws (Finset.notMem_empty ws)
  have hstart : Orderly (⟨⟨[], st⟩, ()⟩ : Log S) :=
    ⟨hguarded, fun entry hentry => absurd hentry not_mem_nil⟩
  have hsound := Sound.run (fun thread request w _ => keepsOrder_routine words thread request w)
    (sound_start hstart) hmoves
  obtain ⟨_, horderly, -⟩ := hsound
  exact horderly.allowed

end

/-! ## An afternoon at the office -/

theorem one_lt_datetimeMax : 1 < datetimeMax := by decide

/-- When the sessions expire. -/
def evening : Instant := ⟨1, one_lt_datetimeMax⟩

/-- Sessions of alice and bob. -/
def signedIn : List LoginSession :=
  [⟨31, 1, hashSessionToken "a", evening⟩, ⟨32, 2, hashSessionToken "b", evening⟩]

theorem nodup_signedIn : (signedIn.map LoginSession.id).Nodup := by decide

/-- The minutes are shared with bob; alice and bob are signed in. -/
def shared : ChatServer .tagged where
  server := { Server.office with
    fileShares := ⟨[⟨20, 7, 1, 2, "child", .active, ⟨0, datetimeMax_pos⟩⟩], List.nodup_singleton _⟩ }
  sessions := ⟨signedIn, nodup_signedIn⟩
  messages := .empty
  rooms := .empty
  serials := 0
  sockets := []
  clock := ⟨0, datetimeMax_pos⟩

/-- A step at which this comes in. -/
def receiving (incoming : Incoming) : Circumstances :=
  ⟨false, 50, .stored _, .stored _, incoming, true, none⟩

/-- A request, by the circumstances of its calls. -/
abbrev Turn := Request × List Circumstances

/-- Requests one after the other. -/
def inTurn (turns : List Turn) : List (Move Request Circumstances) :=
  turns.zipIdx.flatMap fun turn => .arrive turn.1.1 :: turn.1.2.map (.resume turn.2)

/-- The next step of bob's handler. -/
def bobReceives (incoming : Incoming) : Turn := (.advance 0, [receiving incoming])

/-- A step that reads nothing from its client. -/
def quiet : Incoming := .frame [] none

/-- Bob joins the chat of the minutes. -/
def bobJoins : List Turn :=
  (.connect 7, [receiving quiet]) :: bobReceives (.frame "b" none) ::
    List.replicate 6 (bobReceives quiet)

/-- Bob posts a message. -/
def bobPosts : List Turn :=
  [bobReceives (.frame [] (some ⟨"hello", none, false⟩)), bobReceives quiet, bobReceives quiet]

/-- Alice revokes bob's share. -/
def aliceRevokes : Turn := (.revoke (some "a") 7 2, List.replicate 6 (receiving quiet))

/-- The calls that were made for the requests. -/
def callsOf (turns : List Turn) : List (Entry Request Call Circumstances (ChatServer .tagged)) :=
  ((Pool.start shared).run (exec .least) routine (inTurn turns)).history.past

theorem bob_facts :
    Along (Pool.step (exec .least) routine) (Pool.Admitted fun c _ st => st.Undisturbed c)
        (Pool.start shared) (inTurn (bobJoins ++ bobPosts)) ∧
      (callsOf (bobJoins ++ bobPosts)).filterMap (fun entry => entry.state.emits entry.env entry.call)
        = [(7, .stored Server.bob), (7, .sent Server.bob 0)] ∧
      ((callsOf (bobJoins ++ aliceRevokes :: bobPosts)).any fun entry =>
        decide (entry.state.emits entry.env entry.call = some (7, .stored Server.bob) ∧
          ¬ entry.state.Entitled 7 Server.bob.id)) = true := by
  decide +kernel

/-- Bob joins and posts a message, which is stored and sent to bob. -/
theorem chat_follows_shares_for_bob :
    (callsOf (bobJoins ++ bobPosts)).filterMap (fun entry => entry.state.emits entry.env entry.call)
        = [(7, .stored Server.bob), (7, .sent Server.bob 0)] ∧
      ∀ entry ∈ callsOf (bobJoins ++ bobPosts), ∀ documentId emission,
        entry.state.emits entry.env entry.call = some (documentId, emission) →
          entry.state.Allowed documentId emission :=
  ⟨bob_facts.2.1, chat_follows_shares .least shared rfl rfl _ bob_facts.1⟩

/-- Bob joins, alice revokes the share, and bob's next message is stored. -/
theorem chat_outlives_share :
    ∃ entry ∈ callsOf (bobJoins ++ aliceRevokes :: bobPosts), ∃ emission,
      entry.state.emits entry.env entry.call = some (7, emission) ∧
        ¬ entry.state.Allowed 7 emission := by
  obtain ⟨entry, hentry, hfacts⟩ := any_eq_true.mp bob_facts.2.2
  obtain ⟨hemits, hleft⟩ := of_decide_eq_true hfacts
  exact ⟨entry, hentry, .stored Server.bob, hemits, hleft⟩

/-! ## Requests in turn -/

variable {S : SignatureScheme}

section

variable (words : WordClass)

/-- The cookie, and what is asked of the documents. -/
def Request.asks : Request → Option (Option Str × TrustDocs.Request)
  | .share cookie documentId recipientUsername => some (cookie, .share documentId recipientUsername)
  | .revoke cookie documentId targetUserId => some (cookie, .revoke documentId targetUserId)
  | .delete cookie documentId => some (cookie, .delete documentId)
  | .restore cookie documentId restoreAccess => some (cookie, .restore documentId restoreAccess)
  | .purge cookie documentId => some (cookie, .purge documentId)
  | .connect _ | .advance _ | .pass _ => none

/-- The call of a handler of the documents that a request comes to, if its cookie is a user's. -/
def callFor (env : Circumstances) (request : Request) (st : ChatServer S) : Option TrustDocs.Call :=
  request.asks.bind fun asked => (alone words env (getCurrentUser asked.1) st).2.toOption.map
    fun user => ⟨st.ambient env, user, asked.2⟩

/-- The database does not fail. -/
abbrev Calm := { env : Circumstances // env.fails = false }

/-- The calls of requests that are served in turn, and the server after them. -/
def inSeries (st : ChatServer S) : List (Calm × Request) → List TrustDocs.Call × ChatServer S
  | [] => ([], st)
  | (⟨env, _⟩, request) :: turns =>
    let (calls, last) := inSeries (alone words env (routine request) st).1 turns
    ((callFor words env request st).toList ++ calls, last)

variable {words} {st st' : ChatServer S} {env : Circumstances}

theorem after_map {α β : Type} (result : Server S × Reply α) (f : α → β) :
    st.after result = st.after (result.1, result.2.map f) := by
  rw [ChatServer.after, ChatServer.after]
  cases result.2 <;> rfl

variable (hcalm : env.fails = false)
include hcalm

/-- `get_current_user` drops a session at most, and none if it finds the user. -/
theorem alone_getCurrentUser {cookie : Option Str} {reply : Reply User}
    (h : alone words env (getCurrentUser cookie) st = (st', reply)) :
    st'.server = st.server ∧ (reply.isOk → st' = st) := by
  rw [getCurrentUser] at h
  split at h
  · cases h
    exact ⟨rfl, fun _ => rfl⟩
  rw [alone_ask_bind hcalm rfl] at h
  split at h
  · cases h
    exact ⟨rfl, fun _ => rfl⟩
  rw [alone_ask_bind hcalm rfl] at h
  split at h
  · rw [alone_ask_bind hcalm rfl] at h
    cases h
    exact ⟨rfl, fun h => by cases h⟩
  · rw [userOf, alone_ask_bind hcalm rfl] at h
    split at h <;> cases h <;> exact ⟨rfl, fun _ => rfl⟩

variable (words st) in
/-- A request about the documents is a handler of the documents, for the user of the cookie. -/
theorem routine_of_asks {request : Request} {cookie : Option Str} {asked : TrustDocs.Request}
    (hasks : request.asks = some (cookie, asked)) :
    ∃ steps : User → Route Unit, routine request = getCurrentUser cookie >>= steps ∧
      ∀ user, alone words env (steps user) st
        = st.after (st.server.handle words ⟨st.ambient env, user, asked⟩) := by
  cases request <;> cases hasks
  · exact ⟨_, rfl, fun _ => (alone_shareDocument hcalm ..).trans (after_map ..)⟩
  · exact ⟨_, rfl, fun _ => (alone_revokeShare hcalm ..).trans (after_map ..)⟩
  · exact ⟨_, rfl, fun _ => (alone_deleteDocument hcalm ..).trans (after_map ..)⟩
  · exact ⟨_, rfl, fun _ => (alone_restoreDocument hcalm ..).trans (after_map ..)⟩
  · exact ⟨_, rfl, fun _ => (alone_purgeDocument hcalm ..).trans (after_map ..)⟩

/-- **One request** does to the documents what its call does. -/
theorem server_routine (request : Request) (st : ChatServer S) :
    (alone words env (routine request) st).1.server
      = st.server.serve words (callFor words env request st).toList := by
  rw [callFor]
  cases hasks : request.asks with
  | none =>
    obtain ⟨fails⟩ := env
    obtain rfl : fails = false := hcalm
    cases request with
    | connect => rfl
    | advance ws => exact (sameTables_advance _ ws).server
    | pass time =>
      show (st.pass time).server = st.server
      rw [ChatServer.pass]
      split <;> rfl
    | _ => cases hasks
  | some found =>
    obtain ⟨steps, hroutine, hsteps⟩ := routine_of_asks words st hcalm hasks
    rw [hroutine, alone_bind, bind_some]
    cases hresult : alone words env (getCurrentUser found.1) st with
    | mk st' reply =>
      obtain ⟨hserver, hfound⟩ := alone_getCurrentUser hcalm hresult
      cases reply with
      | error failure => exact hserver
      | ok user =>
        obtain rfl := hfound rfl
        exact congrArg (·.1.server) (hsteps user)

end

/-- **Requests that are served in turn**, with steps of chats and time that passes between them,
leave the documents as the calls of their users do. -/
theorem inSeries_refines (words : WordClass) (turns : List (Calm × Request))
    (st : ChatServer S) :
    (inSeries words st turns).2.server
      = st.server.serve words (inSeries words st turns).1 := by
  induction turns generalizing st with
  | nil => rfl
  | cons turn turns ih =>
    refine (ih _).trans ?_
    rw [server_routine turn.1.2 turn.2 st]
    exact foldl_append.symm

end TrustFlow.TrustDocs.Chat
