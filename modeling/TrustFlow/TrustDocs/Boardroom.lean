import Mathlib.Data.List.Dedup
import TrustFlow.Library.Routine
import TrustFlow.TimeLock.Engine
import TrustFlow.TrustDocs.Server

/-!
# Boardrooms

The routes of `trustdocs/boardroom/routes.py`: a proposal is split into shares, one
for each member of its boardroom.  Members approve it by handing in their shares, and
once enough of them are there any member may read it.

* `BoardroomServer` — the tables, the time-lock engine and the watermarking engine.
* `Query` — the calls of `trustdocs/database.py` that the routes make.
* `Call` — these, and the operations of the engines.  Each is one step of a request;
  other requests may come in between.
* `createProposal`, `approveProposal`, `unlockProposal` — the routes, as routines.
* `createBoardroom` — the route that makes a boardroom of users, with calls of its own.

Two more requests stand for what happens beside the routes: a lock is destroyed, and
the clean-up of the key store runs.

A database call may fail (`Circumstances.fails`); the request is then answered with
an internal error.

The time, fresh UUIDs, the order of rows and the random values are those of the step
(`Circumstances`); AES-GCM is a parameter, known by its round trip.  Audit records,
log lines and the listings are left out.
-/

namespace TrustFlow.TrustDocs.Boardrooms

open Library SecretSharing Stegano TimeLock

/-! ## Tables -/

/-- A row of `boardrooms`. -/
structure Boardroom where
  id : Uuid
  thresholdM : ℤ
  deriving DecidableEq

/-- A row of `boardroom_members`. -/
structure Member where
  boardroomId : Uuid
  userId : Uuid
  deriving DecidableEq

/-- The primary key of `boardroom_members`. -/
def Member.key (member : Member) : Uuid × Uuid := (member.boardroomId, member.userId)

/-- The status of a proposal. -/
inductive ProposalStatus where
  | pending
  | executed
  deriving DecidableEq

/-- A row of `boardroom_proposals`. -/
structure Proposal where
  id : Uuid
  boardroomId : Uuid
  initiatorId : Uuid
  title : Str
  status : ProposalStatus
  lockId : Option Str
  deriving DecidableEq

/-- The proposal with status `executed`. -/
def Proposal.execute (proposal : Proposal) : Proposal := { proposal with status := .executed }

theorem Proposal.id_execute (proposal : Proposal) : proposal.execute.id = proposal.id := rfl

/-- A row of `shamir_shares`. -/
structure ShareRow where
  id : Uuid
  proposalId : Uuid
  userId : Uuid
  shareData : Share
  submitted : Bool
  createdAt : Instant

variable (row : ShareRow)

/-- The columns with a `UNIQUE` constraint. -/
def ShareRow.holder : Uuid × Uuid := (row.proposalId, row.userId)

/-- The row of a share that is handed in. -/
def ShareRow.submit : ShareRow := { row with submitted := true }

theorem ShareRow.id_submit : row.submit.id = row.id := rfl

theorem ShareRow.holder_submit : row.submit.holder = row.holder := rfl

/-- The table `shamir_shares`. -/
structure ShareTable where
  table : Table ShareRow.id
  unique : (table.rows.map ShareRow.holder).Nodup

namespace ShareTable

variable (shares : ShareTable)

/-- The rows. -/
abbrev rows : List ShareRow := shares.table.rows

/-- No rows. -/
def empty : ShareTable := ⟨Table.empty, List.nodup_nil⟩

/-- `INSERT`; `none` is a violated constraint. -/
def insert? (row : ShareRow) : Option ShareTable :=
  if h : row.holder ∈ shares.rows.map ShareRow.holder then none
  else
    match htable : shares.table.insert? row with
    | none => none
    | some table => some
        { table := table
          unique := by
            rw [Table.rows_of_insert? htable, List.map_append, List.map_singleton]
            exact List.Nodup.append shares.unique (List.nodup_singleton _)
              (List.disjoint_singleton.mpr h) }

/-- `update_one("shamir_shares", ..., submitted=True)`. -/
def submit (shareId : Uuid) : ShareTable where
  table := shares.table.update ShareRow.submit ShareRow.id_submit shareId
  unique := by
    rw [Table.map_rows_update ShareRow.holder_submit]
    exact shares.unique

theorem rows_of_insert? {shares shares' : ShareTable} {new : ShareRow}
    (h : shares.insert? new = some shares') : shares'.rows = shares.rows ++ [new] := by
  unfold insert? at h
  split at h
  · cases h
  · split at h
    · cases h
    · next table htable =>
        rw [← Option.some.inj h]
        exact Table.rows_of_insert? htable

theorem mem_of_insert? {shares shares' : ShareTable} {row new : ShareRow}
    (h : shares.insert? new = some shares') : row ∈ shares'.rows ↔ row ∈ shares.rows ∨ row = new := by
  rw [rows_of_insert? h, List.mem_append, List.mem_singleton]

/-- No user holds two shares of one proposal. -/
theorem nodup_userIds {shares : ShareTable} {rows : List ShareRow} (hnodup : rows.Nodup)
    {proposalId : Uuid} (hrows : ∀ row ∈ rows, row ∈ shares.rows ∧ row.proposalId = proposalId) :
    (rows.map ShareRow.userId).Nodup := by
  refine hnodup.map_on fun row hrow row' hrow' huser => ?_
  obtain ⟨hmem, hof⟩ := hrows row hrow
  obtain ⟨hmem', hof'⟩ := hrows row' hrow'
  refine List.inj_on_of_nodup_map shares.unique hmem hmem' ?_
  rw [ShareRow.holder, ShareRow.holder, hof, hof', huser]

theorem mem_submit {shares : ShareTable} {shareId : Uuid} {row : ShareRow} :
    row ∈ (shares.submit shareId).rows ↔
      ∃ old ∈ shares.rows, (if old.id = shareId then old.submit else old) = row :=
  Table.mem_update ShareRow.id_submit

end ShareTable

/-- The server, as far as boardrooms go. -/
structure BoardroomServer where
  boardrooms : Table Boardroom.id
  members : Table Member.key
  proposals : Table Proposal.id
  shares : ShareTable
  timelock : TimeLockEngine
  stegano : SteganoEngine

/-- What a step of a request finds around it: the time, whether the database fails,
a fresh UUID, the order in which the database returns rows, and random values. -/
structure Circumstances where
  now : Instant
  fails : Bool
  fresh : Uuid
  members : Plan Member
  shares : Plan ShareRow
  lock : LockDraw
  coins : Coins

/-! ## Calls -/

/-- A call of the database. -/
inductive Query where
  | boardroom (id : Uuid)
  | member (boardroomId userId : Uuid)
  | members (boardroomId : Uuid)
  | proposal (id : Uuid)
  | share (proposalId userId : Uuid)
  | shares (proposalId : Uuid)
  | insertProposal (boardroomId initiatorId : Uuid) (title : Str) (lockId : Option Str)
  | insertShare (proposalId userId : Uuid) (shareData : Share)
  | submit (shareId : Uuid)
  | execute (proposalId : Uuid)

/-- What a database call returns. -/
@[reducible] def Query.Result : Query → Type
  | .boardroom _ => Option Boardroom
  | .member _ _ => Option Member
  | .members _ => List Member
  | .proposal _ => Option Proposal
  | .share _ _ => Option ShareRow
  | .shares _ => List ShareRow
  | .insertProposal _ _ _ _ => Proposal
  | .insertShare _ _ _ => Unit
  | .submit _ => Unit
  | .execute _ => Unit

open Server (findManyLimit)

namespace Query

/-- The effect of a database call; `none` is a violated constraint. -/
def run (env : Circumstances) (s : BoardroomServer) :
    (query : Query) → Option (BoardroomServer × query.Result)
  | .boardroom id => some (s, s.boardrooms.get? id)
  | .member boardroomId userId => some (s, s.members.get? (boardroomId, userId))
  | .members boardroomId => some (s, s.members.findMany env.members (fun _ => 0) findManyLimit
      fun member => decide (member.boardroomId = boardroomId))
  | .proposal id => some (s, s.proposals.get? id)
  | .share proposalId userId => some (s, s.shares.table.findOne env.shares
      fun row => decide (row.holder = (proposalId, userId)))
  | .shares proposalId => some (s, s.shares.table.findMany env.shares (fun row => row.createdAt.1)
      findManyLimit fun row => decide (row.proposalId = proposalId))
  | .insertProposal boardroomId initiatorId title lockId =>
    let proposal : Proposal := ⟨env.fresh, boardroomId, initiatorId, title, .pending, lockId⟩
    (s.proposals.insert? proposal).map fun proposals =>
      ({ s with proposals := proposals }, proposal)
  | .insertShare proposalId userId shareData =>
    (s.shares.insert? ⟨env.fresh, proposalId, userId, shareData, false, env.now⟩).map fun shares =>
      ({ s with shares := shares }, ())
  | .submit shareId => some ({ s with shares := s.shares.submit shareId }, ())
  | .execute proposalId =>
    some ({ s with
      proposals := s.proposals.update Proposal.execute Proposal.id_execute proposalId }, ())

end Query

/-- A step of a request. -/
inductive Call where
  | db (query : Query)
  | encrypt (content : Str) (ttlSeconds : ℤ)
  | split (content : Str) (threshold numShares : ℤ)
  | lockStatus (lockId : Str)
  | decrypt (encrypted : EncryptedContent)
  | remainingTime (lockId : Str)
  | watermark (content peerId : Str)
  | destroy (lockId : Str)
  | cleanup

/-- What a step returns; for database calls `none` is an exception. -/
@[reducible] def Call.Answer : Call → Type
  | .db query => Option query.Result
  | .encrypt _ _ => Option EncryptedContent
  | .split _ _ _ => Except ShareError (List Share × Bytes)
  | .lockStatus _ => TimeLockStatus
  | .decrypt _ => Option Str
  | .remainingTime _ => Option ℕ
  | .watermark _ _ => Str
  | .destroy _ => Bool
  | .cleanup => Unit

/-- The effect of a step. -/
def exec (aes : AesGcm) (words : WordClass) :
    (call : Call) → Circumstances → BoardroomServer → BoardroomServer × call.Answer
  | .db query, env, s =>
    if env.fails then (s, none)
    else
      match query.run env s with
      | none => (s, none)
      | some (s', result) => (s', some result)
  | .encrypt content ttlSeconds, env, s =>
    match s.timelock.encrypt aes env.lock env.now content ttlSeconds with
    | none => (s, none)
    | some (timelock, encrypted) => ({ s with timelock := timelock }, some encrypted)
  | .split content threshold numShares, env, s =>
    (s, splitSecret aes env.coins content threshold numShares)
  | .lockStatus lockId, env, s =>
    let (timelock, status) := s.timelock.getStatus env.now lockId
    ({ s with timelock := timelock }, status)
  | .decrypt encrypted, env, s =>
    let (timelock, content) := s.timelock.decrypt aes env.now encrypted
    ({ s with timelock := timelock }, content)
  | .remainingTime lockId, env, s => (s, s.timelock.getRemainingTime env.now lockId)
  | .watermark content peerId, env, s =>
    let (stegano, watermarked) :=
      s.stegano.embedWatermark words .all content peerId (isoformat env.now.1) 0
    ({ s with stegano := stegano }, watermarked)
  | .destroy lockId, _, s =>
    let (timelock, success) := s.timelock.destroy lockId
    ({ s with timelock := timelock }, success)
  | .cleanup, env, s => ({ s with timelock := s.timelock.cleanup env.now }, ())

section

variable {aes : AesGcm} {words : WordClass} {env : Circumstances} {s s' : BoardroomServer}

/-- A database call does what it should, or nothing. -/
theorem exec_db (q : Query) :
    exec aes words (.db q) env s = (s, none) ∨
      env.fails = false ∧ ∃ s' result, q.run env s = some (s', result) ∧
        exec aes words (.db q) env s = (s', some result) := by
  unfold exec
  dsimp only
  cases env.fails with
  | true => exact Or.inl rfl
  | false =>
    cases hrun : q.run env s with
    | none => exact Or.inl rfl
    | some result => exact Or.inr ⟨rfl, result.1, result.2, rfl, rfl⟩

theorem exec_db_of_run {q : Query} {result : q.Result} (hsucceeds : env.fails = false)
    (hrun : q.run env s = some (s', result)) : exec aes words (.db q) env s = (s', some result) := by
  rw [exec, hsucceeds, hrun]
  rfl

theorem exec_encrypt (content : Str) (ttlSeconds : ℤ) :
    exec aes words (.encrypt content ttlSeconds) env s = (s, none) ∨
      ∃ timelock encrypted,
        s.timelock.encrypt aes env.lock env.now content ttlSeconds = some (timelock, encrypted) ∧
        exec aes words (.encrypt content ttlSeconds) env s
          = ({ s with timelock := timelock }, some encrypted) := by
  unfold exec
  dsimp only
  cases s.timelock.encrypt aes env.lock env.now content ttlSeconds with
  | none => exact Or.inl rfl
  | some result => exact Or.inr ⟨result.1, result.2, rfl, rfl⟩

theorem exec_decrypt (encrypted : EncryptedContent) :
    (exec aes words (.decrypt encrypted) env s).2 = (s.timelock.decrypt aes env.now encrypted).2 :=
  rfl

theorem exec_watermark (content peerId : Str) :
    (exec aes words (.watermark content peerId) env s).2
      = SteganoEngine.embedText words .all content peerId (isoformat env.now.1) 0 := by
  rw [exec, SteganoEngine.embedWatermark]

end

/-! ## The routes -/

/-- `ProposalRequest`, as it passes validation. -/
structure ProposalRequest where
  title : Str
  content : Str
  ttlSeconds : Option ℤ
  ttl_ge : ∀ ttl ∈ ttlSeconds, 60 ≤ ttl

/-- What `unlock_proposal` returns; the remaining time, in microseconds, only for a
proposal with a time-lock. -/
structure Unlocked where
  title : Str
  content : Str
  status : ProposalStatus
  watermarked : Bool
  timelockRemaining : Option (Option ℕ)
  deriving DecidableEq

/-- What a request returns. -/
inductive Response where
  | created (proposalId : Uuid) (expiresAt : Option Str)
  | approved (message : Str) (status : ProposalStatus)
  | unlocked (document : Unlocked)
  | done
  deriving DecidableEq

/-- A request in progress, with a result of type `α`. -/
abbrev Handler (α : Type) := Routine Call.Answer Failure α

open Routine (fail found)

/-- One step. -/
def perform (call : Call) : Handler call.Answer := Routine.ask call

/-- A database call; its exceptions are answered with the given internal error. -/
def query (internal : Str) (q : Query) : Handler q.Result := do
  found (← perform (.db q)) (.http 500 internal)

/-- `if value:` for an optional string. -/
def truthy (value : Option Str) : Option Str := value.filter (· ≠ [])

/-! ### Creating -/

/-- `detail` of an internal error of `create_proposal`. -/
def errorCreating : Str := "Internal error creating proposal"

/-- The text that is split, and the time-lock that was put on it. -/
def applyTimeLock (req : ProposalRequest) : Handler (Str × Option EncryptedContent) :=
  match req.ttlSeconds with
  | none => return (req.content, none)
  | some ttlSeconds => do
      let some encrypted ← perform (.encrypt req.content ttlSeconds)
        | fail (.http 500 "Failed to apply time-lock encryption")
      return (encrypted.dumped, some encrypted)

/-- The loop that stores the shares. -/
def insertShares (proposalId : Uuid) : List (Member × Share) → Handler Unit
  | [] => return ()
  | (member, share) :: rest => do
      query errorCreating (.insertShare proposalId member.userId share)
      insertShares proposalId rest

variable (user : User)

/-- The second half of `create_proposal`: the text is split, and proposal and shares
are stored. -/
def splitAndStore (boardroomId : Uuid) (title : Str) (threshold : ℤ)
    (allMembers : List Member) (contentToSplit : Str) (encrypted : Option EncryptedContent) :
    Handler Response := do
  let .ok (shares, _) ← perform (.split contentToSplit threshold allMembers.length)
    | fail (.http 500 errorCreating)
  let lockId := truthy (encrypted.map fun e => e.metadata.lockId)
  let proposal ← query errorCreating (.insertProposal boardroomId user.id title lockId)
  insertShares proposal.id (allMembers.zip shares)
  return .created proposal.id (encrypted.map fun e => e.metadata.expiresAt)

/-- `create_proposal`. -/
def createProposal (boardroomId : Uuid) (req : ProposalRequest) :
    Handler Response := do
  let some boardroom ← query errorCreating (.boardroom boardroomId)
    | fail (.http 404 "Boardroom not found")
  let some _ ← query errorCreating (.member boardroomId user.id)
    | fail (.http 403 "You are not a member of this boardroom")
  let allMembers ← query errorCreating (.members boardroomId)
  let (contentToSplit, encrypted) ← applyTimeLock req
  splitAndStore user boardroomId req.title boardroom.thresholdM allMembers contentToSplit encrypted

/-! ### Approving -/

/-- `detail` of an internal error of `approve_proposal`. -/
def errorApproving : Str := "Internal error approving proposal"

/-- `[s for s in shares if s["submitted"]]`. -/
def submittedShares (shares : List ShareRow) : List ShareRow := shares.filter ShareRow.submitted

/-- `approve_proposal`. -/
def approveProposal (proposalId : Uuid) : Handler Response := do
  let some record ← query errorApproving (.share proposalId user.id)
    | fail (.http 404 "Share not found")
  if record.submitted then
    fail (.http 400 "Share already submitted")
  query errorApproving (.submit record.id)
  let some proposal ← query errorApproving (.proposal proposalId)
    | fail (.http 404 "Proposal not found")
  let some boardroom ← query errorApproving (.boardroom proposal.boardroomId)
    | fail (.http 404 "Boardroom not found")
  let allShares ← query errorApproving (.shares proposalId)
  let approvals : ℤ := (submittedShares allShares).length
  let status := if approvals ≥ boardroom.thresholdM then .executed else .pending
  if approvals ≥ boardroom.thresholdM ∧ proposal.status ≠ .executed then
    query errorApproving (.execute proposalId)
    return .approved
      "Cryptographic share yielded to pool. Threshold met. Document unlocked." status
  return .approved "Cryptographic share yielded to pool." status

/-! ### Unlocking -/

/-- `detail` of an internal error of `unlock_proposal`. -/
def errorUnlocking : Str := "Internal error unlocking proposal"

/-- The reconstruction from the first shares that were handed in. -/
def reconstruct (aes : AesGcm) (submitted : List ShareRow) (threshold : ℤ) : Except Failure Str :=
  match reconstructSecret aes ((sliceTo submitted threshold).map ShareRow.shareData) none with
  | .error _ => .error (.http 500 "Cryptographic reconstruction failed.")
  | .ok none => .error (.http 500 "Cryptographic reconstruction failed. Invalid shares.")
  | .ok (some plaintext) =>
    if plaintext = [] then
      .error (.http 500 "Cryptographic reconstruction failed. Invalid shares.")
    else .ok plaintext

/-- `detail` if the time of a lock is over. -/
def contentExpired : Str := "Content expired. The auto-destruct timer has elapsed."

/-- The content behind the time-lock, if there is one. -/
def removeTimeLock (lockId : Option Str) (plaintext : Str) : Handler Str :=
  match truthy lockId with
  | none => return plaintext
  | some lockId => do
      match ← perform (.lockStatus lockId) with
      | .expired => fail (.http 403 contentExpired)
      | .destroyed =>
        fail (.http 403 "Content destroyed. The time-lock was manually revoked.")
      | .active => do
          let encrypted ← found (EncryptedContent.parse plaintext)
            (.http 500 "Failed to decrypt time-locked content.")
          found (← perform (.decrypt encrypted)) (.http 403 contentExpired)

/-- The time that is left, for a proposal with a time-lock. -/
def remainingTime (lockId : Option Str) : Handler (Option (Option ℕ)) :=
  match truthy lockId with
  | none => return none
  | some lockId => do
      let remaining ← perform (.remainingTime lockId)
      return some remaining

/-- `unlock_proposal`. -/
def unlockProposal (aes : AesGcm) (user : User) (proposalId : Uuid) : Handler Response := do
  let some proposal ← query errorUnlocking (.proposal proposalId)
    | fail (.http 404 "Proposal not found")
  let some boardroom ← query errorUnlocking (.boardroom proposal.boardroomId)
    | fail (.http 404 "Boardroom not found")
  let some _ ← query errorUnlocking (.member boardroom.id user.id)
    | fail (.http 403 "Access denied")
  let allShares ← query errorUnlocking (.shares proposalId)
  let submitted := submittedShares allShares
  if (submitted.length : ℤ) < boardroom.thresholdM then
    fail (.http 403 ("Threshold not met. " ++ showInt submitted.length ++ '/' ::
      showInt boardroom.thresholdM ++ " approvals."))
  let plaintext ← .done (reconstruct aes submitted boardroom.thresholdM)
  let plaintext ← removeTimeLock proposal.lockId plaintext
  let watermarked ← perform (.watermark plaintext user.peerId)
  let remaining ← remainingTime proposal.lockId
  return .unlocked ⟨proposal.title, watermarked, proposal.status, true, remaining⟩

/-! ### All requests -/

/-- A request: one of the routes, or something that happens beside them. -/
inductive Request where
  | createProposal (user : User) (boardroomId : Uuid) (req : ProposalRequest)
  | approveProposal (user : User) (proposalId : Uuid)
  | unlockProposal (user : User) (proposalId : Uuid)
  | destroyLock (lockId : Str)
  | cleanupKeys

/-- What is done for a request. -/
def routine (aes : AesGcm) : Request → Handler Response
  | .createProposal user boardroomId req => Boardrooms.createProposal user boardroomId req
  | .approveProposal user proposalId => Boardrooms.approveProposal user proposalId
  | .unlockProposal user proposalId => Boardrooms.unlockProposal aes user proposalId
  | .destroyLock lockId => do
      let _ ← perform (.destroy lockId)
      return .done
  | .cleanupKeys => do
      perform .cleanup
      return .done

/-- All requests in progress on a server. -/
abbrev Office := Pool Call.Answer Failure Response Request Circumstances BoardroomServer

/-! ## Creating a boardroom -/

/-- The table `users`. -/
structure UserTable where
  table : Table User.id
  unique : (table.rows.map User.username).Nodup

variable (users : UserTable)

/-- `find_one("users", username=...)`. -/
def UserTable.find? (username : Str) : Option User :=
  users.table.rows.find? fun user => decide (user.username = username)

/-- A database call of `create_boardroom`. -/
inductive RoomCall where
  | user (username : Str)
  | insertBoardroom (thresholdM : ℤ)
  | insertMember (boardroomId userId : Uuid)

/-- What such a call returns. -/
@[reducible] def RoomCall.Result : RoomCall → Type
  | .user _ => Option User
  | .insertBoardroom _ => Boardroom
  | .insertMember _ _ => Unit

/-- Its effect; `none` is a violated constraint. -/
def RoomCall.run (env : Circumstances) (s : BoardroomServer) :
    (call : RoomCall) → Option (BoardroomServer × call.Result)
  | .user username => some (s, users.find? username)
  | .insertBoardroom thresholdM =>
    let boardroom : Boardroom := ⟨env.fresh, thresholdM⟩
    (s.boardrooms.insert? boardroom).map fun boardrooms =>
      ({ s with boardrooms := boardrooms }, boardroom)
  | .insertMember boardroomId userId =>
    (s.members.insert? ⟨boardroomId, userId⟩).map fun members =>
      ({ s with members := members }, ())

variable (call : RoomCall)

/-- What a step returns; `none` is an exception. -/
abbrev RoomCall.Answer : Type := Option call.Result

/-- The effect of a step. -/
def execRoom (env : Circumstances) (s : BoardroomServer) :
    BoardroomServer × call.Answer :=
  if env.fails then (s, none)
  else
    match call.run users env s with
    | none => (s, none)
    | some (s', result) => (s', some result)

/-- `BoardroomCreateRequest`. -/
structure BoardroomCreateRequest where
  thresholdM : ℤ
  memberUsernames : List Str

/-- `create_boardroom` in progress. -/
abbrev RoomHandler (α : Type) := Routine RoomCall.Answer Failure α

/-- `detail` of an internal error of `create_boardroom`. -/
def errorCreatingRoom : Str := "Internal error creating boardroom"

/-- A database call. -/
def roomQuery : RoomHandler call.Result := do
  found (← Routine.ask call) (.http 500 errorCreatingRoom)

/-- The loop that looks up the members. -/
def findMembers : List Str → RoomHandler (List User)
  | [] => return []
  | username :: rest => do
      let some member ← roomQuery (.user username)
        | fail (.http 404 ("User " ++ username ++ " not found"))
      let members ← findMembers rest
      return member :: members

/-- The loop that stores the members. -/
def insertMembers (boardroomId : Uuid) : List User → RoomHandler Unit
  | [] => return ()
  | member :: rest => do
      roomQuery (.insertMember boardroomId member.id)
      insertMembers boardroomId rest

/-- The set `member_usernames`. -/
def usernameSet (req : BoardroomCreateRequest) : List Str :=
  (user.username :: req.memberUsernames).dedup

/-- `create_boardroom`.  The order is that of the set of usernames. -/
def createBoardroom (order : Plan Str) (user : User) (req : BoardroomCreateRequest) :
    RoomHandler Uuid := do
  let members ← findMembers (order.order (usernameSet user req))
  if members.length < 2 then
    fail (.http 400 "Boardroom must have at least 2 members")
  if req.thresholdM > members.length ∨ req.thresholdM < 2 then
    fail (.http 400 ("Invalid threshold. Must be between 2 and " ++ showInt members.length))
  let boardroom ← roomQuery (.insertBoardroom req.thresholdM)
  insertMembers boardroom.id members
  return boardroom.id

end TrustFlow.TrustDocs.Boardrooms
