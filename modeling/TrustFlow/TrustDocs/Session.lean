import TrustFlow.TrustDocs.Threshold

/-!
# Boardrooms, one request at a time

What each route leaves behind when nothing comes in between its steps.

* `Session` — the requests that were served, with their outcomes, and the server.
* `Evolves` — what may happen to a server: tables grow, one share may be handed in, and
  keys of time-locks go.  Every route does this (`evolves_routine`,
  `ensures_createBoardroom`).
* `Seated` — a boardroom that was created, with its members.
* `Posted` — a proposal that was accepted, with the deal behind its shares and the
  members who have approved it.
* `Session.Kept`, `Session.Kept.run` — in every session boardrooms that were created
  stay seated, and proposals that were accepted stay posted.

No database call fails here (`Calm`).
-/

namespace TrustFlow.TrustDocs.Boardrooms

open Library SecretSharing Stegano TimeLock List Table

/-! ## Sessions -/

/-- The database does not fail, and a lock id that is drawn is new. -/
def Calm (c : Call) (env : Circumstances) (s : BoardroomServer) : Prop :=
  env.fails = false ∧ FreshLock c env s

/-- The database does not fail. -/
def CalmRoom (_ : RoomCall) (env : Circumstances) (_ : BoardroomServer) : Prop := env.fails = false

instance (c : Call) (env : Circumstances) (s : BoardroomServer) : Decidable (Calm c env s) :=
  inferInstanceAs (Decidable (_ ∧ _))

instance (c : RoomCall) (env : Circumstances) (s : BoardroomServer) : Decidable (CalmRoom c env s) :=
  inferInstanceAs (Decidable (_ = _))

/-- What is asked of the server. -/
inductive Event where
  | createBoardroom (users : UserTable) (order : Plan Str) (user : User)
      (req : BoardroomCreateRequest)
  | request (request : Request)

/-- A request, and the circumstances of its steps. -/
structure Turn where
  event : Event
  envs : ℕ → Circumstances

/-- A request that was served, with its outcome. -/
inductive Record where
  | room (users : UserTable) (user : User) (req : BoardroomCreateRequest)
      (outcome : Except Failure Uuid)
  | served (request : Request) (outcome : Except Failure Response)

/-- The requests that were served, and the server after them. -/
structure Session where
  records : List Record
  state : BoardroomServer

namespace Session

variable (aes : AesGcm) (words : WordClass) (session : Session)

/-- A request is served. -/
def step (turn : Turn) : Session :=
  match turn.event with
  | .createBoardroom users order user req =>
    let (state, outcome) :=
      (createBoardroom order user req).complete (execRoom users) turn.envs session.state
    ⟨session.records ++ [.room users user req outcome], state⟩
  | .request request =>
    let (state, outcome) :=
      (routine aes request).complete (exec aes words) turn.envs session.state
    ⟨session.records ++ [.served request outcome], state⟩

/-- A series of requests. -/
def run (turns : List Turn) : Session := turns.foldl (step aes words) session

/-- The request is served without a failure of the database. -/
def Admits (turn : Turn) : Prop :=
  match turn.event with
  | .createBoardroom users order user req =>
    (createBoardroom order user req).Admitted (execRoom users) CalmRoom turn.envs session.state
  | .request request =>
    (routine aes request).Admitted (exec aes words) Calm turn.envs session.state

instance decidableAdmits (session : Session) : ∀ turn, Decidable (session.Admits aes words turn)
  | ⟨.createBoardroom users order user req, envs⟩ =>
    inferInstanceAs (Decidable ((createBoardroom order user req).Admitted (execRoom users) CalmRoom
      envs session.state))
  | ⟨.request request, envs⟩ =>
    inferInstanceAs (Decidable ((routine aes request).Admitted (exec aes words) Calm envs
      session.state))

/-- A server without boardrooms. -/
def start (stegano : SteganoEngine) : Session := ⟨[], opening Table.empty Table.empty stegano⟩

end Session

variable (records : List Record)

/-- The users whose approval of a proposal was accepted. -/
def approvers (proposalId : Uuid) : Finset Uuid :=
  (records.filterMap fun record =>
    match record with
    | .served (.approveProposal user id) (.ok _) => if id = proposalId then some user.id else none
    | _ => none).toFinset

/-- The ids of those who become members of a boardroom. -/
def memberIds (users : UserTable) (user : User) (req : BoardroomCreateRequest) : Finset Uuid :=
  ((users.table.rows.filter fun member =>
    (user.username :: req.memberUsernames).contains member.username).map User.id).toFinset

/-! ## How a server changes -/

/-- Every row refers to rows that are there. -/
structure Linked (s : BoardroomServer) : Prop where
  members : ∀ member ∈ s.members.rows, member.boardroomId ∈ s.boardrooms.rows.map Boardroom.id
  proposals : ∀ p ∈ s.proposals.rows, p.boardroomId ∈ s.boardrooms.rows.map Boardroom.id
  shares : ∀ row ∈ s.shares.rows, row.proposalId ∈ s.proposals.rows.map Proposal.id

/-- What a request does to the server: boardrooms and proposals come with members and
shares of their own, and one share may be handed in. -/
structure Evolves (handed : Option (Uuid × Uuid)) (s s' : BoardroomServer) : Prop where
  boardrooms : ∀ boardroom ∈ s.boardrooms.rows, boardroom ∈ s'.boardrooms.rows
  members : ∀ member : Member, member.boardroomId ∈ s.boardrooms.rows.map Boardroom.id →
    (member ∈ s'.members.rows ↔ member ∈ s.members.rows)
  proposals : ∀ p ∈ s.proposals.rows, ∃ status, { p with status } ∈ s'.proposals.rows
  shares : ∀ row : ShareRow, row.proposalId ∈ s.proposals.rows.map Proposal.id →
    (row ∈ s'.shares.rows ↔
      ∃ old ∈ s.shares.rows, (if some old.holder = handed then old.submit else old) = row)
  handed : ∀ holder, handed = some holder → ∃ row ∈ s.shares.rows, row.holder = holder
  timelock : s.timelock ≤ s'.timelock
  linked : Linked s → Linked s'

section

variable {s s' s'' : BoardroomServer} {handed : Option (Uuid × Uuid)}

theorem Evolves.boardroomId (h : Evolves handed s s') {id : Uuid}
    (hid : id ∈ s.boardrooms.rows.map Boardroom.id) : id ∈ s'.boardrooms.rows.map Boardroom.id := by
  obtain ⟨boardroom, hroom, rfl⟩ := mem_map.mp hid
  exact mem_map_of_mem (h.boardrooms boardroom hroom)

theorem Evolves.proposalId (h : Evolves handed s s') {id : Uuid}
    (hid : id ∈ s.proposals.rows.map Proposal.id) : id ∈ s'.proposals.rows.map Proposal.id := by
  obtain ⟨p, hp, rfl⟩ := mem_map.mp hid
  obtain ⟨status, hp'⟩ := h.proposals p hp
  exact mem_map.mpr ⟨_, hp', rfl⟩

/-- Without a share that is handed in, the shares of known proposals stay. -/
theorem Evolves.shares_none (h : Evolves none s s') {row : ShareRow}
    (hid : row.proposalId ∈ s.proposals.rows.map Proposal.id) :
    row ∈ s'.shares.rows ↔ row ∈ s.shares.rows := by
  rw [h.shares row hid]
  simp

theorem Evolves.trans (h : Evolves handed s s') (h' : Evolves none s' s'') :
    Evolves handed s s'' where
  boardrooms boardroom hroom := h'.boardrooms boardroom (h.boardrooms boardroom hroom)
  members member hmember := (h'.members member (h.boardroomId hmember)).trans (h.members member hmember)
  proposals p hp := by
    obtain ⟨status, hp'⟩ := h.proposals p hp
    obtain ⟨status', hp''⟩ := h'.proposals _ hp'
    exact ⟨status', hp''⟩
  shares row hrow := (h'.shares_none (h.proposalId hrow)).trans (h.shares row hrow)
  handed := h.handed
  timelock := h.timelock.trans h'.timelock
  linked hlinked := h'.linked (h.linked hlinked)

/-- The tables stay as they are. -/
theorem evolves_of_quiet (h : Quiet s s') : Evolves none s s' where
  boardrooms _ hroom := h.boardrooms.symm ▸ hroom
  members _ _ := by rw [h.members]
  proposals p hp := ⟨p.status, h.proposals.symm ▸ hp⟩
  shares row _ := by
    rw [h.shares]
    simp
  handed _ h := by cases h
  timelock := h.timelock
  linked hlinked := by
    refine ⟨?_, ?_, ?_⟩
    · rw [h.members, h.boardrooms]
      exact hlinked.members
    · rw [h.proposals, h.boardrooms]
      exact hlinked.proposals
    · rw [h.shares, h.proposals]
      exact hlinked.shares

theorem Evolves.refl (s : BoardroomServer) : Evolves none s s := evolves_of_quiet (.refl s)

end

/-! ### Rows that come together -/

section

variable {s : BoardroomServer}

/-- A boardroom is added, and then members of it. -/
theorem evolves_addRoom {boardroom : Boardroom} {boardrooms : Table Boardroom.id}
    {members : Table Member.key} {added : List Member}
    (hinsert : s.boardrooms.insert? boardroom = some boardrooms)
    (hmembers : members.rows = s.members.rows ++ added)
    (hadded : ∀ member ∈ added, member.boardroomId = boardroom.id) :
    Evolves none s { s with boardrooms, members } := by
  have hold : ∀ id ∈ s.boardrooms.rows.map Boardroom.id, id ∈ boardrooms.rows.map Boardroom.id :=
    fun _ hid => (mem_keys_of_insert? hinsert).mpr (.inl hid)
  refine ⟨fun b hb => (mem_of_insert? hinsert).mpr (.inl hb), fun member hmember => ?_,
    (Evolves.refl s).proposals, (Evolves.refl s).shares, (Evolves.refl s).handed, le_rfl,
    fun hlinked => ⟨?_, ?_, ?_⟩⟩
  · dsimp only
    rw [hmembers, mem_append]
    refine ⟨fun h => h.resolve_right fun hlate => ?_, Or.inl⟩
    rw [hadded member hlate] at hmember
    exact notMem_of_insert? hinsert hmember
  · intro member hmember
    dsimp only at hmember
    rw [hmembers, mem_append] at hmember
    rcases hmember with hmember | hmember
    · exact hold _ (hlinked.members member hmember)
    · exact (mem_keys_of_insert? hinsert).mpr (.inr (hadded member hmember))
  · exact fun p hp => hold _ (hlinked.proposals p hp)
  · exact hlinked.shares

/-- A proposal is added, and then shares of it. -/
theorem evolves_addProposal {proposal : Proposal} {proposals : Table Proposal.id}
    {shares : ShareTable} {added : List ShareRow}
    (hinsert : s.proposals.insert? proposal = some proposals)
    (hshares : shares.rows = s.shares.rows ++ added)
    (hadded : ∀ row ∈ added, row.proposalId = proposal.id)
    (hroom : proposal.boardroomId ∈ s.boardrooms.rows.map Boardroom.id) :
    Evolves none s { s with proposals, shares } := by
  refine ⟨(Evolves.refl s).boardrooms, (Evolves.refl s).members,
    fun p hp => ⟨p.status, (mem_of_insert? hinsert).mpr (.inl hp)⟩, fun row hrow => ?_,
    (Evolves.refl s).handed, le_rfl, fun hlinked => ⟨hlinked.members, ?_, ?_⟩⟩
  · rw [← (Evolves.refl s).shares row hrow]
    dsimp only
    rw [hshares, mem_append]
    refine ⟨fun h => h.resolve_right fun hlate => ?_, .inl⟩
    rw [hadded row hlate] at hrow
    exact notMem_of_insert? hinsert hrow
  · intro p hp
    rcases (mem_of_insert? hinsert).mp hp with hp | rfl
    · exact hlinked.proposals p hp
    · exact hroom
  · intro row hrow
    dsimp only at hrow
    rw [hshares, mem_append] at hrow
    rcases hrow with hrow | hrow
    · exact (mem_keys_of_insert? hinsert).mpr (.inl (hlinked.shares row hrow))
    · exact (mem_keys_of_insert? hinsert).mpr (.inr (hadded row hrow))

/-- A proposal is executed. -/
theorem evolves_execute (s : BoardroomServer) (proposalId : Uuid) :
    Evolves none s
      { s with proposals := s.proposals.update Proposal.execute Proposal.id_execute proposalId } where
  boardrooms := (Evolves.refl s).boardrooms
  members := (Evolves.refl s).members
  proposals := (grows_execute s proposalId).proposals
  shares := (Evolves.refl s).shares
  handed := (Evolves.refl s).handed
  timelock := le_rfl
  linked hlinked := by
    refine ⟨hlinked.members, fun p hp => ?_, fun row hrow => ?_⟩
    · obtain ⟨old, hold, rfl⟩ := (mem_update Proposal.id_execute).mp hp
      split <;> exact hlinked.proposals old hold
    · dsimp only
      rw [map_rows_update Proposal.id_execute]
      exact hlinked.shares row hrow

/-- A share is handed in. -/
theorem evolves_submit {record : ShareRow} (hrecord : record ∈ s.shares.rows) :
    Evolves (some record.holder) s { s with shares := s.shares.submit record.id } where
  boardrooms := (Evolves.refl s).boardrooms
  members := (Evolves.refl s).members
  proposals := (Evolves.refl s).proposals
  shares row _ := by
    rw [ShareTable.mem_submit]
    have hsame : ∀ old ∈ s.shares.rows, (old.id = record.id ↔ some old.holder = some record.holder) := by
      intro old hold
      constructor
      · intro hid
        rw [eq_of_key_eq hold hrecord hid]
      · intro hholder
        rw [inj_on_of_nodup_map s.shares.unique hold hrecord (Option.some.inj hholder)]
    constructor
    · rintro ⟨old, hold, rfl⟩
      exact ⟨old, hold, if_congr (hsame old hold).symm rfl rfl⟩
    · rintro ⟨old, hold, rfl⟩
      exact ⟨old, hold, if_congr (hsame old hold) rfl rfl⟩
  handed _ h := ⟨record, hrecord, Option.some.inj h⟩
  timelock := le_rfl
  linked hlinked := by
    refine ⟨hlinked.members, hlinked.proposals, fun row hrow => ?_⟩
    obtain ⟨old, hold, rfl⟩ := ShareTable.mem_submit.mp hrow
    split <;> exact hlinked.shares old hold

end

/-! ### Creating a boardroom -/

/-- A boardroom that was created: its threshold, and who its members are. -/
structure Seated (s : BoardroomServer) (boardroomId : Uuid) (thresholdM : ℤ) (ids : Finset Uuid) :
    Prop where
  room : ⟨boardroomId, thresholdM⟩ ∈ s.boardrooms.rows
  members : ∀ userId, ⟨boardroomId, userId⟩ ∈ s.members.rows ↔ userId ∈ ids

variable {s s' : BoardroomServer} {handed : Option (Uuid × Uuid)}

theorem Seated.evolves {boardroomId : Uuid} {thresholdM : ℤ} {ids : Finset Uuid}
    (h : Seated s boardroomId thresholdM ids) (hevolves : Evolves handed s s') :
    Seated s' boardroomId thresholdM ids where
  room := hevolves.boardrooms _ h.room
  members userId :=
    (hevolves.members ⟨boardroomId, userId⟩ (mem_map_of_mem h.room)).trans (h.members userId)

section

variable {users : UserTable} {s : BoardroomServer} {α : Type}
  {Post : BoardroomServer → Except Failure α → Prop}

/-- A call of the database. -/
theorem ensures_roomQuery {call : RoomCall} {f : call.Result → RoomHandler α}
    (hfail : ∀ e, Post s (.error e))
    (h : ∀ env s' result, call.run users env s = some (s', result) →
      Ensures (execRoom users) CalmRoom Post (f result) s') :
    Ensures (execRoom users) CalmRoom Post (roomQuery call >>= f) s := by
  intro env henv
  rw [execRoom, show env.fails = false from henv, if_neg Bool.false_ne_true]
  cases hrun : call.run users env s with
  | none => exact hfail _
  | some result => exact h env result.1 result.2 hrun

/-- The loop that looks up the members. -/
theorem ensures_findMembers (names : List Str) :
    Ensures (execRoom users) CalmRoom
      (fun s' outcome => s' = s ∧ ∀ members, outcome = .ok members →
        names.map users.find? = members.map some)
      (findMembers names) s := by
  induction names with
  | nil =>
    refine ⟨rfl, ?_⟩
    rintro members ⟨⟩
    rfl
  | cons name names ih =>
    refine ensures_roomQuery (fun _ => ⟨rfl, fun _ h => by cases h⟩) fun env s' result hrun => ?_
    obtain ⟨rfl, hresult⟩ := some_mk_inj hrun
    rcases result with _ | member
    · exact ⟨rfl, fun _ h => by cases h⟩
    refine .bind ih (fun members s' h => ?_) fun e s' h => ⟨h.1, fun _ h => by cases h⟩
    refine ⟨h.1, ?_⟩
    rintro _ ⟨⟩
    rw [map_cons, map_cons, ← h.2 members rfl, hresult]

/-- The loop that stores the members, all of them or the first ones. -/
theorem ensures_insertMembers (boardroomId : Uuid) (list : List User) (s : BoardroomServer) :
    Ensures (execRoom users) CalmRoom
      (fun s' outcome => ∃ (members : Table Member.key) (first rest : List User), list = first ++ rest ∧
        s' = { s with members } ∧
        members.rows = s.members.rows ++ first.map (fun member => ⟨boardroomId, member.id⟩) ∧
        (outcome = .ok () → rest = []))
      (insertMembers boardroomId list) s := by
  induction list generalizing s with
  | nil => exact ⟨s.members, [], [], rfl, rfl, (append_nil _).symm, fun _ => rfl⟩
  | cons member list ih =>
    refine ensures_roomQuery (fun _ => ⟨s.members, [], member :: list, rfl, rfl,
      (append_nil _).symm, fun h => by cases h⟩) fun env s' result hrun => ?_
    obtain ⟨members, hinsert, ⟨⟩⟩ := Option.map_eq_some_iff.mp hrun
    refine (ih _).mono fun s'' outcome h => ?_
    obtain ⟨members', first, rest, rfl, rfl, hrows, hrest⟩ := h
    refine ⟨members', member :: first, rest, rfl, rfl, ?_, hrest⟩
    rw [hrows, rows_of_insert? hinsert, append_assoc]
    rfl

end

theorem UserTable.find?_eq_some {users : UserTable} {name : Str} {member : User} :
    users.find? name = some member ↔ member ∈ users.table.rows ∧ member.username = name :=
  find?_key_iff users.unique

section

variable {users : UserTable} {user : User} {req : BoardroomCreateRequest}

theorem mem_memberIds {userId : Uuid} :
    userId ∈ memberIds users user req ↔ ∃ member ∈ users.table.rows,
      member.username ∈ user.username :: req.memberUsernames ∧ member.id = userId := by
  rw [memberIds, mem_toFinset, mem_map]
  constructor
  · rintro ⟨member, hmember, hid⟩
    obtain ⟨hmem, hname⟩ := mem_filter.mp hmember
    exact ⟨member, hmem, contains_iff_mem.mp hname, hid⟩
  · rintro ⟨member, hmem, hname, hid⟩
    exact ⟨member, mem_filter.mpr ⟨hmem, contains_iff_mem.mpr hname⟩, hid⟩

/-- Those who were looked up are the members. -/
theorem mem_memberIds_of_found {names : List Str} {members : List User}
    (hnames : ∀ name, name ∈ names ↔ name ∈ user.username :: req.memberUsernames)
    (hfound : names.map users.find? = members.map some)
    (userId : Uuid) : userId ∈ memberIds users user req ↔ ∃ member ∈ members, member.id = userId := by
  rw [mem_memberIds]
  constructor
  · rintro ⟨member, hmem, hname, hid⟩
    obtain ⟨other, hother, hsame⟩ := exists_of_map_eq hfound ((hnames _).mpr hname)
    rw [UserTable.find?_eq_some.mpr ⟨hmem, rfl⟩] at hsame
    exact ⟨other, hother, Option.some.inj hsame ▸ hid⟩
  · rintro ⟨member, hmember, hid⟩
    obtain ⟨name, hname, hfind⟩ := exists_of_map_eq hfound.symm hmember
    obtain ⟨hmem, rfl⟩ := UserTable.find?_eq_some.mp hfind
    exact ⟨member, hmem, (hnames _).mp hname, hid⟩

/-- **Creating a boardroom** seats its members. -/
theorem ensures_createBoardroom {s : BoardroomServer} (hlinked : Linked s) (order : Plan Str) :
    Ensures (execRoom users) CalmRoom
      (fun s' outcome => Evolves none s s' ∧ ∀ boardroomId, outcome = .ok boardroomId →
        Seated s' boardroomId req.thresholdM (memberIds users user req))
      (createBoardroom order user req) s := by
  have hfail : ∀ e : Failure, Evolves none s s ∧ ∀ boardroomId,
      (.error e : Except Failure Uuid) = .ok boardroomId →
      Seated s boardroomId req.thresholdM (memberIds users user req) := by
    intro e
    exact ⟨.refl s, fun _ h => by cases h⟩
  have hnames : ∀ name, name ∈ order.order (usernameSet user req) ↔
      name ∈ user.username :: req.memberUsernames := by
    intro name
    rw [(order.perm _).mem_iff, usernameSet, mem_dedup]
  refine .bind (ensures_findMembers _) (fun members s' h => ?_) fun e s' h => ?_
  swap
  · rw [h.1]
    exact hfail e
  obtain ⟨hs', hmembers⟩ := h
  rw [hs']
  have hids := mem_memberIds_of_found hnames (hmembers members rfl)
  dsimp only
  split
  · exact hfail _
  split
  · exact hfail _
  refine ensures_roomQuery hfail fun env s' result hrun => ?_
  obtain ⟨boardrooms, hinsert, ⟨⟩⟩ := Option.map_eq_some_iff.mp hrun
  have hnew := notMem_of_insert? hinsert
  have hevolves : ∀ (table : Table Member.key) (first : List User),
      table.rows = s.members.rows ++ first.map (fun member => ⟨env.fresh, member.id⟩) →
      Evolves none s { s with boardrooms, members := table } := by
    intro table first hrows
    refine evolves_addRoom hinsert hrows fun member hmember => ?_
    obtain ⟨_, _, rfl⟩ := mem_map.mp hmember
    rfl
  refine .bind (ensures_insertMembers _ _ _) (fun _ s' h => ?_) fun e s' h => ?_
  · obtain ⟨table, first, rest, hlist, rfl, hrows, hrest⟩ := h
    refine ⟨hevolves table first hrows, ?_⟩
    rintro boardroomId ⟨⟩
    rw [hrest rfl, append_nil] at hlist
    refine ⟨(mem_of_insert? hinsert).mpr (.inr rfl), fun userId => ?_⟩
    dsimp only
    rw [hrows, mem_append, hids userId, ← hlist]
    constructor
    · rintro (hold | hseat)
      · exact absurd (hlinked.members _ hold) hnew
      · obtain ⟨member, hmember, hsame⟩ := mem_map.mp hseat
        exact ⟨member, hmember, (Member.mk.inj hsame).2⟩
    · rintro ⟨member, hmember, rfl⟩
      exact .inr (mem_map.mpr ⟨member, hmember, rfl⟩)
  · obtain ⟨table, first, rest, hlist, rfl, hrows, -⟩ := h
    exact ⟨hevolves table first hrows, fun _ h => by cases h⟩

end

/-! ### Rules for the other routes -/

section

variable {aes : AesGcm} {words : WordClass} {s : BoardroomServer} {α : Type}
  {A : Call → Circumstances → BoardroomServer → Prop}
  {Post : BoardroomServer → Except Failure α → Prop}
variable (hA : ∀ c env s, A c env s → Calm c env s)
include hA

theorem exec_of_calm {q : Query} {env : Circumstances} (h : A (.db q) env s) :
    exec aes words (.db q) env s = match q.run env s with
        | none => (s, none)
        | some (s', result) => (s', some result) := by
  unfold exec
  dsimp only
  rw [(hA _ _ _ h).1]
  exact if_neg Bool.false_ne_true

/-- A call of the database. -/
theorem ensures_query {q : Query} {internal : Str} {f : q.Result → Handler α}
    (hfail : Post s (.error (.http 500 internal)))
    (h : ∀ env s' result, q.run env s = some (s', result) →
      Ensures (exec aes words) A Post (f result) s') :
    Ensures (exec aes words) A Post (query internal q >>= f) s := by
  intro env henv
  rw [exec_of_calm hA henv]
  cases hrun : q.run env s with
  | none => exact hfail
  | some result => exact h env result.1 result.2 hrun

/-- A call that changes nothing, and always succeeds. -/
theorem ensures_reading {q : Query} (hreads : q.Reads) {internal : Str} {f : q.Result → Handler α}
    (h : ∀ env result, q.run env s = some (s, result) →
      Ensures (exec aes words) A Post (f result) s) :
    Ensures (exec aes words) A Post (query internal q >>= f) s := by
  intro env henv
  obtain ⟨result, hrun⟩ := hreads env s
  rw [exec_of_calm hA henv, hrun]
  exact h env result hrun

end

/-! ### Proposals that were accepted -/

/-- The text that was split is the content, or its encryption under the time-lock. -/
def Sealed (aes : AesGcm) (engine : TimeLockEngine) (deal : Deal) : Option Str → Prop
  | none => deal.request.ttlSeconds = none ∧ deal.payload = deal.request.content
  | some lockId => deal.request.ttlSeconds ≠ none ∧ lockId ≠ [] ∧ ∃ encrypted key expiry,
      deal.payload = encrypted.dumped ∧ encrypted.metadata.lockId = lockId ∧
      TimeLockEngine.openWith aes key encrypted = some deal.request.content ∧
      engine.Held lockId key expiry

/-- A proposal that was accepted: its shares were dealt to the members, as far as they
were read from the table, and those of the members who have approved are handed in. -/
structure Posted (aes : AesGcm) (s : BoardroomServer) (proposal : Proposal) (deal : Deal)
    (approved : Finset Uuid) : Prop where
  stored : ∃ status, { proposal with status } ∈ s.proposals.rows
  room : ⟨proposal.boardroomId, deal.threshold⟩ ∈ s.boardrooms.rows
  fair : deal.Fair
  seats : ∀ userId ∈ deal.members, ⟨proposal.boardroomId, userId⟩ ∈ s.members.rows
  full : deal.members.length = 100 ∨
    ∀ userId, ⟨proposal.boardroomId, userId⟩ ∈ s.members.rows → userId ∈ deal.members
  dealt : ∀ row ∈ s.shares.rows, row.proposalId = proposal.id →
    deal.Dealt aes row ∧ (row.submitted = true ↔ row.userId ∈ approved)
  held : ∀ userId ∈ deal.members, ∃ row ∈ s.shares.rows, row.holder = (proposal.id, userId)
  approved_mem : ∀ userId ∈ approved, userId ∈ deal.members
  wraps : Sealed aes s.timelock deal proposal.lockId

/-- The user whose share of the proposal was handed in, if that is the proposal. -/
def handedTo (proposalId : Uuid) : Option (Uuid × Uuid) → Finset Uuid
  | none => ∅
  | some holder => if holder.1 = proposalId then {holder.2} else ∅

theorem mem_handedTo {proposalId userId : Uuid} :
    userId ∈ handedTo proposalId handed ↔ handed = some (proposalId, userId) := by
  cases handed with
  | none => simp [handedTo]
  | some holder =>
    obtain ⟨id, userId'⟩ := holder
    rw [handedTo, Option.some_inj, Prod.mk.injEq]
    dsimp only
    split
    · next hid => simp [hid, eq_comm]
    · next hid => simp [hid]

theorem Sealed.mono {aes : AesGcm} {engine engine' : TimeLockEngine} {deal : Deal}
    {lockId : Option Str} (h : Sealed aes engine deal lockId) (hle : engine ≤ engine') :
    Sealed aes engine' deal lockId := by
  cases lockId with
  | none => exact h
  | some lockId =>
    obtain ⟨httl, hne, encrypted, key, expiry, hpayload, hlockId, hopens, hheld⟩ := h
    exact ⟨httl, hne, encrypted, key, expiry, hpayload, hlockId, hopens, hheld.mono hle⟩

/-- **A proposal stays posted**; whoever hands in a share of it has approved it. -/
theorem Posted.evolves {aes : AesGcm} {proposal : Proposal} {deal : Deal} {approved : Finset Uuid}
    (h : Posted aes s proposal deal approved) (hevolves : Evolves handed s s') :
    Posted aes s' proposal deal (approved ∪ handedTo proposal.id handed) := by
  obtain ⟨status, hstored⟩ := h.stored
  obtain ⟨status', hlater⟩ := hevolves.proposals _ hstored
  have hid : proposal.id ∈ s.proposals.rows.map Proposal.id := mem_map.mpr ⟨_, hstored, rfl⟩
  have hseat : ∀ userId, ⟨proposal.boardroomId, userId⟩ ∈ s'.members.rows ↔
      ⟨proposal.boardroomId, userId⟩ ∈ s.members.rows := fun userId =>
    hevolves.members ⟨proposal.boardroomId, userId⟩ (mem_map_of_mem h.room)
  refine ⟨⟨status', hlater⟩, hevolves.boardrooms _ h.room, h.fair,
    fun userId huser => (hseat userId).mpr (h.seats userId huser), ?_, ?_, ?_, ?_,
    h.wraps.mono hevolves.timelock⟩
  · refine h.full.imp_right fun hall userId huser => hall userId ((hseat userId).mp huser)
  · intro row hrow hof
    obtain ⟨old, hold, hsame⟩ := (hevolves.shares row (hof ▸ hid)).mp hrow
    rw [Finset.mem_union, mem_handedTo]
    split at hsame
    · next hholder =>
        subst hsame
        refine ⟨(h.dealt old hold hof).1, fun _ => .inr ?_, fun _ => rfl⟩
        rw [← hholder, ShareRow.holder]
        exact congrArg (fun id => some (id, old.userId)) hof
    · next hholder =>
        subst hsame
        obtain ⟨hdealt, hsubmitted⟩ := h.dealt old hold hof
        refine ⟨hdealt, hsubmitted.trans ⟨.inl, fun happroved => happroved.resolve_right ?_⟩⟩
        intro hhanded
        apply hholder
        rw [hhanded, ← hof, ShareRow.holder]
  · intro userId huser
    obtain ⟨old, hold, hholder⟩ := h.held userId huser
    have hof : old.proposalId = proposal.id := (Prod.mk.inj hholder).1
    refine ⟨if some old.holder = handed then old.submit else old,
      (hevolves.shares _ ?_).mpr ⟨old, hold, rfl⟩, ?_⟩
    · split <;> exact hof.symm ▸ hid
    · split <;> exact hholder
  · intro userId huser
    rcases Finset.mem_union.mp huser with happroved | hhanded
    · exact h.approved_mem userId happroved
    · obtain ⟨row, hrow, hholder⟩ := hevolves.handed _ (mem_handedTo.mp hhanded)
      obtain ⟨hof, rfl⟩ := Prod.mk.inj hholder
      exact ((h.dealt row hrow hof).1.shareData_eq h.fair).1

/-! ### Creating a proposal -/

section

variable {aes : AesGcm} {words : WordClass}

/-- The loop that stores the shares, all of them or the first ones. -/
theorem ensures_insertShares (proposalId : Uuid) (list : List (Member × Share))
    (s : BoardroomServer) :
    Ensures (exec aes words) Calm
      (fun s' outcome => ∃ (shares : ShareTable) (added : List ShareRow)
          (first rest : List (Member × Share)), list = first ++ rest ∧
        s' = { s with shares } ∧ shares.rows = s.shares.rows ++ added ∧
        added.map (fun row => (row.holder, row.shareData, row.submitted))
          = first.map (fun entry => ((proposalId, entry.1.userId), entry.2, false)) ∧
        (outcome = .ok () → rest = []))
      (insertShares proposalId list) s := by
  induction list generalizing s with
  | nil => exact ⟨s.shares, [], [], [], rfl, rfl, (append_nil _).symm, rfl, fun _ => rfl⟩
  | cons entry list ih =>
    refine ensures_query (fun _ _ _ h => h) ⟨s.shares, [], [], entry :: list, rfl, rfl,
      (append_nil _).symm, rfl, fun h => by cases h⟩ fun env s' result hrun => ?_
    obtain ⟨shares, hinsert, ⟨⟩⟩ := Option.map_eq_some_iff.mp hrun
    refine (ih _).mono fun s'' outcome h => ?_
    obtain ⟨shares', added, first, rest, rfl, rfl, hrows, hadded, hrest⟩ := h
    refine ⟨shares', ⟨env.fresh, proposalId, entry.1.userId, entry.2, false, env.now⟩ :: added,
      entry :: first, rest, rfl, rfl, ?_, ?_, hrest⟩
    · rw [hrows, ShareTable.rows_of_insert? hinsert, append_assoc]
      rfl
    · rw [map_cons, map_cons, hadded]
      rfl

/-- What is ensured of `create_proposal`. -/
def Creates (aes : AesGcm) (s : BoardroomServer) (boardroomId : Uuid) (req : ProposalRequest)
    (s' : BoardroomServer) (outcome : Except Failure Response) : Prop :=
  Evolves none s s' ∧ ∀ proposalId expiresAt, outcome = .ok (.created proposalId expiresAt) →
    proposalId ∉ s.proposals.rows.map Proposal.id ∧ ∃ proposal deal, proposal.id = proposalId ∧ proposal.boardroomId = boardroomId ∧
      deal.request = req ∧ Posted aes s' proposal deal ∅

variable (aes) in
theorem creates_error {s s' : BoardroomServer} (h : Evolves none s s') (boardroomId : Uuid)
    (req : ProposalRequest) (e : Failure) : Creates aes s boardroomId req s' (.error e) :=
  ⟨h, fun _ _ h => by cases h⟩

variable {s : BoardroomServer} {boardroomId : Uuid} {req : ProposalRequest}

/-- Shares that were stored as they were dealt post the proposal. -/
theorem posted_of_added {proposal : Proposal} {proposals : Table Proposal.id} {shares : ShareTable}
    {added : List ShareRow} {deal : Deal} {list : List (Member × Share)}
    (hlinked : Linked s) (hinsert : s.proposals.insert? proposal = some proposals)
    (hroom : ⟨proposal.boardroomId, deal.threshold⟩ ∈ s.boardrooms.rows) (hfair : deal.Fair)
    (hseats : ∀ userId ∈ deal.members, ⟨proposal.boardroomId, userId⟩ ∈ s.members.rows)
    (hfull : deal.members.length = 100 ∨
      ∀ userId, ⟨proposal.boardroomId, userId⟩ ∈ s.members.rows → userId ∈ deal.members)
    (hsealed : Sealed aes s.timelock deal proposal.lockId)
    (hlist : ∀ entry ∈ list, ∃ i, deal.members[i]? = some entry.1.userId ∧
      entry.2 = deal.share aes i)
    (hall : ∀ userId ∈ deal.members, ∃ entry ∈ list, entry.1.userId = userId)
    (hrows : shares.rows = s.shares.rows ++ added)
    (hadded : added.map (fun row => (row.holder, row.shareData, row.submitted))
      = list.map (fun entry => ((proposal.id, entry.1.userId), entry.2, false))) :
    Posted aes { s with proposals, shares } proposal deal ∅ where
  stored := ⟨proposal.status, (mem_of_insert? hinsert).mpr (.inr rfl)⟩
  room := hroom
  fair := hfair
  seats := hseats
  full := hfull
  dealt row hrow hof := by
    dsimp only at hrow
    rw [hrows, mem_append] at hrow
    rcases hrow with hold | hnew
    · -- no share of the proposal was there before
      have hknown := hlinked.shares row hold
      rw [hof] at hknown
      exact absurd hknown (notMem_of_insert? hinsert)
    · obtain ⟨entry, hentry, hsame⟩ := exists_of_map_eq hadded hnew
      obtain ⟨hholder, hdata, hsubmitted⟩ := Prod.mk.inj hsame |>.imp_right Prod.mk.inj
      obtain ⟨i, hi, hshare⟩ := hlist entry hentry
      refine ⟨⟨i, ?_, ?_⟩, ?_⟩
      · rw [hi, (Prod.mk.inj hholder).2]
      · rw [← hdata, hshare]
      · rw [← hsubmitted]
        simp
  held userId huser := by
    obtain ⟨entry, hentry, rfl⟩ := hall userId huser
    obtain ⟨row, hrow, hsame⟩ := exists_of_map_eq hadded.symm hentry
    refine ⟨row, ?_, (Prod.mk.inj hsame).1⟩
    dsimp only
    rw [hrows]
    exact mem_append_right _ hrow
  approved_mem userId huser := absurd huser (Finset.notMem_empty userId)
  wraps := hsealed

/-- The second half of `create_proposal`. -/
theorem ensures_splitAndStore {user : User} {threshold : ℤ} {allMembers : List Member} {payload : Str}
    {encrypted : Option EncryptedContent} (hlinked : Linked s)
    (hroster : Roster s boardroomId allMembers)
    (hfull : allMembers.length = 100 ∨
      ∀ userId, ⟨boardroomId, userId⟩ ∈ s.members.rows → ⟨boardroomId, userId⟩ ∈ allMembers)
    (hroom : ⟨boardroomId, threshold⟩ ∈ s.boardrooms.rows)
    (hsealed : ∀ deal : Deal, deal.request = req → deal.payload = payload →
      Sealed aes s.timelock deal (truthy (encrypted.map fun e => e.metadata.lockId))) :
    Ensures (exec aes words) Calm (Creates aes s boardroomId req)
      (splitAndStore user boardroomId req.title threshold allMembers payload encrypted) s := by
  have hfail := creates_error aes (.refl s) boardroomId req
  intro env _
  rw [exec]
  dsimp only
  rcases hsplit : splitSecret aes env.coins payload threshold allMembers.length with _ | ⟨shares, _⟩
  · exact hfail _
  have hlength : allMembers.length ≤ shares.length := by
    obtain ⟨-, -, _, -, rfl⟩ := splitSecret_ok hsplit
    rw [length_map, length_range, Int.toNat_natCast]
  obtain ⟨chunks, deal, hdeal, hfair, hlist⟩ := fair_of_splitSecret user req hroster hsplit
  have hmembers : deal.members = allMembers.map Member.userId := by rw [hdeal]
  refine ensures_query (fun _ _ _ h => h) (hfail _) fun env s' proposal hrun => ?_
  obtain ⟨proposals, hinsert, ⟨⟩⟩ := Option.map_eq_some_iff.mp hrun
  have hevolves : ∀ (table : ShareTable) (added : List ShareRow) (first : List (Member × Share)),
      table.rows = s.shares.rows ++ added →
      added.map (fun row => (row.holder, row.shareData, row.submitted))
        = first.map (fun entry => ((env.fresh, entry.1.userId), entry.2, false)) →
      Evolves none s { s with proposals, shares := table } := by
    intro table added first hrows hadded
    refine evolves_addProposal hinsert hrows (fun row hrow => ?_) (mem_map_of_mem hroom)
    obtain ⟨entry, -, hsame⟩ := exists_of_map_eq hadded hrow
    exact (Prod.mk.inj (Prod.mk.inj hsame).1).1.symm
  refine .bind (ensures_insertShares _ _ _) (fun _ s' h => ?_) fun e s' h => ?_
  · obtain ⟨table, added, first, rest, hcut, rfl, hrows, hadded, hrest⟩ := h
    refine ⟨hevolves table added first hrows hadded, ?_⟩
    rintro proposalId expiresAt ⟨⟩
    rw [hrest rfl, append_nil] at hcut
    subst hcut
    refine ⟨notMem_of_insert? hinsert, _, deal, rfl, rfl, by rw [hdeal],
      posted_of_added (s := s) hlinked hinsert (by rw [hdeal]; exact hroom) hfair ?_ ?_ ?_ hlist ?_ hrows
        hadded⟩
    · intro userId huser
      rw [hmembers] at huser
      obtain ⟨member, hmember, rfl⟩ := mem_map.mp huser
      rw [← hroster.boardroom member hmember]
      exact hroster.mem member hmember
    · rw [hmembers, length_map]
      exact hfull.imp_right fun hall userId huser => mem_map.mpr ⟨_, hall userId huser, rfl⟩
    · exact hsealed deal (by rw [hdeal]) (by rw [hdeal])
    · intro userId huser
      rw [hmembers, ← map_fst_zip hlength, map_map] at huser
      obtain ⟨entry, hentry, huser⟩ := mem_map.mp huser
      exact ⟨entry, hentry, huser⟩
  · obtain ⟨table, added, first, rest, -, rfl, hrows, hadded, -⟩ := h
    exact creates_error aes (hevolves table added first hrows hadded) boardroomId req e

/-- **Creating a proposal** posts it. -/
theorem ensures_createProposal (hlinked : Linked s) (user : User) :
    Ensures (exec aes words) Calm (Creates aes s boardroomId req)
      (createProposal user boardroomId req) s := by
  have hfail := creates_error aes (.refl s) boardroomId req
  refine ensures_reading (fun _ _ _ h => h) (fun _ _ => ⟨_, rfl⟩) fun _ boardroom hrun => ?_
  rcases boardroom with _ | boardroom
  · exact hfail _
  obtain ⟨hroom, rfl⟩ := Table.get?_eq_some_iff.mp (some_mk_inj hrun).2
  refine ensures_reading (fun _ _ _ h => h) (fun _ _ => ⟨_, rfl⟩) fun _ member _ => ?_
  rcases member with _ | member
  · exact hfail _
  refine ensures_reading (fun _ _ _ h => h) (fun _ _ => ⟨_, rfl⟩) fun env allMembers hmembers => ?_
  have hroster := roster_of_run hmembers
  have hfull : allMembers.length = 100 ∨ ∀ userId, ⟨boardroom.id, userId⟩ ∈ s.members.rows →
      ⟨boardroom.id, userId⟩ ∈ allMembers := by
    obtain ⟨-, rfl⟩ := some_mk_inj hmembers
    exact findMany_full.imp_right fun hall userId huser => hall _ huser (decide_eq_true rfl)
  dsimp only
  unfold applyTimeLock
  split
  · next httl =>
      refine ensures_splitAndStore hlinked hroster hfull hroom fun deal hrequest hpayload => ?_
      exact ⟨hrequest.symm ▸ httl, hpayload.trans (congrArg ProposalRequest.content hrequest.symm)⟩
  · next ttl httl =>
      intro env henv
      rcases exec_encrypt req.content ttl with hexec | ⟨timelock, encrypted, hencrypt, hexec⟩
      · rw [hexec]
        exact hfail _
      obtain ⟨expiry, hencrypts⟩ := TimeLockEngine.encrypt_some hencrypt
      have hquiet : Quiet s { s with timelock } :=
        ⟨rfl, rfl, rfl, rfl, hencrypts.le henv.2, hencrypts.coherent⟩
      have hevolves := evolves_of_quiet hquiet
      have hlockId := hencrypts.lockId_ne_nil
      rw [hexec]
      refine (ensures_splitAndStore (hevolves.linked hlinked) (hroster.mono hquiet.le) hfull hroom
        fun deal hrequest hpayload => ?_).mono fun s' outcome h => ⟨hevolves.trans h.1, h.2⟩
      subst hrequest
      rw [Option.map_some, truthy_some hlockId]
      refine ⟨by rw [httl]; exact Option.some_ne_none _, hlockId, encrypted, env.lock.key, expiry,
        hpayload, rfl, hencrypts.opens, ?_⟩
      rw [hencrypts.lockId]
      exact hencrypts.held

end

/-! ### Approving -/

/-- What is ensured of `approve_proposal`: it hands in the share of the user, or there is
none left to hand in. -/
inductive Approves (s : BoardroomServer) (user : User) (proposalId : Uuid) (s' : BoardroomServer) :
    Except Failure Response → Prop
  | accepted {record : ShareRow} (message : Str) (status : ProposalStatus)
      (hrecord : record ∈ s.shares.rows) (hholder : record.holder = (proposalId, user.id))
      (hfresh : record.submitted = false) (hevolves : Evolves (some (proposalId, user.id)) s s') :
      Approves s user proposalId s' (.ok (.approved message status))
  | refused (e : Failure) (hstate : s' = s)
      (hnone : ∀ row ∈ s.shares.rows, row.holder = (proposalId, user.id) → row.submitted = true) :
      Approves s user proposalId s' (.error e)

section

variable {aes : AesGcm} {words : WordClass} {s : BoardroomServer}
  {A : Call → Circumstances → BoardroomServer → Prop}

/-- **Approving** hands in the share of the user. -/
theorem ensures_approveProposal (hA : ∀ c env s, A c env s → Calm c env s) (hlinked : Linked s)
    (user : User) (proposalId : Uuid) :
    Ensures (exec aes words) A (Approves s user proposalId) (approveProposal user proposalId) s := by
  refine ensures_reading hA (fun _ _ => ⟨_, rfl⟩) fun env record hrun => ?_
  have hfound := (some_mk_inj hrun).2
  rcases record with _ | record
  · refine .refused _ rfl fun row hrow hholder => ?_
    have hnone := findOne_eq_none_iff.mp hfound row hrow
    exact absurd hholder (of_decide_eq_false hnone)
  obtain ⟨hrecord, hholder⟩ := findOne_spec hfound
  have hholder : record.holder = (proposalId, user.id) := of_decide_eq_true hholder
  dsimp only
  cases hsubmitted : record.submitted with
  | true =>
    refine .refused _ rfl fun row hrow hsame => ?_
    rw [inj_on_of_nodup_map s.shares.unique hrow hrecord (hsame.trans hholder.symm)]
    exact hsubmitted
  | false =>
    have hevolves : Evolves (some (proposalId, user.id)) s
        { s with shares := s.shares.submit record.id } := hholder ▸ evolves_submit hrecord
    have hproposal : proposalId ∈ s.proposals.rows.map Proposal.id := by
      have hlink := hlinked.shares record hrecord
      rw [(Prod.mk.inj hholder).1] at hlink
      exact hlink
    intro env henv
    rw [exec_of_calm hA henv]
    refine ensures_reading hA (fun _ _ => ⟨_, rfl⟩) fun env proposal hrun => ?_
    have hget := (some_mk_inj hrun).2
    rcases proposal with _ | proposal
    · exact absurd hproposal (notMem_of_get?_eq_none hget)
    obtain ⟨hmem, -⟩ := Table.get?_eq_some_iff.mp hget
    refine ensures_reading hA (fun _ _ => ⟨_, rfl⟩) fun env boardroom hrun => ?_
    have hget := (some_mk_inj hrun).2
    rcases boardroom with _ | boardroom
    · exact absurd (hlinked.proposals proposal hmem) (notMem_of_get?_eq_none hget)
    refine ensures_reading hA (fun _ _ => ⟨_, rfl⟩) fun env allShares _ => ?_
    split
    · intro env henv
      rw [exec_of_calm hA henv]
      exact .accepted _ _ hrecord hholder hsubmitted (hevolves.trans (evolves_execute _ _))
    · exact .accepted _ _ hrecord hholder hsubmitted hevolves

end

/-! ### All routes -/

theorem Quiet.trans {s'' : BoardroomServer} (h : Quiet s s') (h' : Quiet s' s'') : Quiet s s'' where
  boardrooms := h'.boardrooms.trans h.boardrooms
  members := h'.members.trans h.members
  proposals := h'.proposals.trans h.proposals
  shares := h'.shares.trans h.shares
  timelock := h.timelock.trans h'.timelock
  coherent hcoherent := h'.coherent (h.coherent hcoherent)

/-- The step draws no lock id. -/
def Call.Drawless : Call → Prop
  | .encrypt _ _ => False
  | _ => True

theorem Call.Drawless.fresh {c : Call} (h : c.Drawless) (env : Circumstances) (s : BoardroomServer) :
    FreshLock c env s := by
  cases c with
  | encrypt => exact h.elim
  | _ => trivial

theorem allCalls_query {P : Call → Prop} {q : Query} (h : P (.db q)) (internal : Str) :
    (query internal q).AllCalls P := by
  refine ⟨h, fun answer => ?_⟩
  cases answer <;> trivial

/-- Unlocking writes no table, and draws no lock id. -/
theorem allCalls_unlockProposal (aes : AesGcm) (user : User) (proposalId : Uuid) :
    (unlockProposal aes user proposalId).AllCalls fun c => c.Reads ∧ c.Drawless := by
  refine (allCalls_query ⟨fun _ _ => ⟨_, rfl⟩, trivial⟩ _).bind fun proposal => ?_
  rcases proposal with _ | proposal
  · trivial
  refine (allCalls_query ⟨fun _ _ => ⟨_, rfl⟩, trivial⟩ _).bind fun boardroom => ?_
  rcases boardroom with _ | boardroom
  · trivial
  refine (allCalls_query ⟨fun _ _ => ⟨_, rfl⟩, trivial⟩ _).bind fun member => ?_
  rcases member with _ | member
  · trivial
  refine (allCalls_query ⟨fun _ _ => ⟨_, rfl⟩, trivial⟩ _).bind fun allShares => ?_
  dsimp only
  split
  · trivial
  refine .bind (r := .done _) trivial fun plaintext => ?_
  have hremove : (removeTimeLock proposal.lockId plaintext).AllCalls
      fun c => c.Reads ∧ c.Drawless := by
    unfold removeTimeLock
    split
    · trivial
    · refine ⟨⟨trivial, trivial⟩, fun status => ?_⟩
      cases status with
      | expired => trivial
      | destroyed => trivial
      | active =>
        dsimp only
        rcases EncryptedContent.parse plaintext with _ | encrypted
        · trivial
        · refine ⟨⟨trivial, trivial⟩, fun content => ?_⟩
          cases content <;> trivial
  refine hremove.bind fun content => ⟨⟨trivial, trivial⟩, fun watermarked => ?_⟩
  unfold remainingTime
  split
  · trivial
  · exact ⟨⟨trivial, trivial⟩, fun _ => trivial⟩

/-- The share that a request handed in. -/
def handedBy : Request → Except Failure Response → Option (Uuid × Uuid)
  | .approveProposal user proposalId, .ok _ => some (proposalId, user.id)
  | _, _ => none

section

variable {aes : AesGcm} {words : WordClass} {s : BoardroomServer}

theorem ensures_evolves_of_reads {r : Handler Response} (h : r.AllCalls Call.Reads) :
    Ensures (exec aes words) Calm (fun s' _ => Evolves none s s') r s :=
  (h.ensures Quiet.refl (fun _ _ _ => .trans)
    (fun _ _ _ hreads hcalm => quiet_exec hreads hcalm.2) s).mono fun _ _ => evolves_of_quiet

/-- **Every route evolves the server.** -/
theorem ensures_routine (hlinked : Linked s) (request : Request) :
    Ensures (exec aes words) Calm (fun s' outcome => Evolves (handedBy request outcome) s s')
      (routine aes request) s := by
  cases request with
  | createProposal user boardroomId req =>
    exact (ensures_createProposal hlinked user).mono fun s' outcome h => h.1
  | approveProposal user proposalId =>
    refine (ensures_approveProposal (fun _ _ _ h => h) hlinked user proposalId).mono
      fun s' outcome h => ?_
    cases h with
    | accepted message status hrecord hholder hfresh hevolves => exact hevolves
    | refused e hstate hnone =>
      rw [hstate]
      exact .refl s
  | unlockProposal user proposalId =>
    exact ensures_evolves_of_reads ((allCalls_unlockProposal aes user proposalId).mono fun _ h => h.1)
  | destroyLock lockId => exact ensures_evolves_of_reads ⟨trivial, fun _ => trivial⟩
  | cleanupKeys => exact ensures_evolves_of_reads ⟨trivial, fun _ => trivial⟩

end

/-! ## Whole sessions -/

theorem mem_approvers {records : List Record} {proposalId userId : Uuid} :
    userId ∈ approvers records proposalId ↔ ∃ user response, user.id = userId ∧
      .served (.approveProposal user proposalId) (.ok response) ∈ records := by
  rw [approvers, mem_toFinset, mem_filterMap]
  constructor
  · rintro ⟨record, hrecord, hsome⟩
    split at hsome
    · next user id response =>
        split at hsome
        · next hid =>
            subst hid
            exact ⟨user, response, Option.some.inj hsome, hrecord⟩
        · cases hsome
    · cases hsome
  · rintro ⟨user, response, rfl, hrecord⟩
    exact ⟨_, hrecord, if_pos rfl⟩

theorem approvers_append (request : Request)
    (outcome : Except Failure Response) (proposalId : Uuid) :
    approvers (records ++ [.served request outcome]) proposalId
      = approvers records proposalId ∪ handedTo proposalId (handedBy request outcome) := by
  ext userId
  rw [Finset.mem_union, mem_handedTo, mem_approvers, mem_approvers]
  constructor
  · rintro ⟨user, response, rfl, hmem⟩
    rcases mem_append.mp hmem with hold | hnew
    · exact .inl ⟨user, response, rfl, hold⟩
    · obtain ⟨rfl, rfl⟩ := Record.served.inj (mem_singleton.mp hnew)
      exact .inr rfl
  · rintro (⟨user, response, hid, hmem⟩ | hhanded)
    · exact ⟨user, response, hid, mem_append_left _ hmem⟩
    · unfold handedBy at hhanded
      split at hhanded
      · next user id response =>
          obtain ⟨rfl, rfl⟩ := some_mk_inj hhanded
          exact ⟨user, response, rfl, mem_append_right _ (mem_singleton_self _)⟩
      · cases hhanded

theorem approvers_append_room (users : UserTable) (user : User)
    (req : BoardroomCreateRequest) (outcome : Except Failure Uuid) (proposalId : Uuid) :
    approvers (records ++ [.room users user req outcome]) proposalId
      = approvers records proposalId := by
  rw [approvers, filterMap_append, approvers]
  exact congrArg List.toFinset (append_nil _)

namespace Session

/-- **The invariant of sessions.** -/
structure Kept (aes : AesGcm) (session : Session) : Prop where
  linked : Linked session.state
  seated : ∀ users user req boardroomId, .room users user req (.ok boardroomId) ∈ session.records →
    Seated session.state boardroomId req.thresholdM (memberIds users user req)
  posted : ∀ user boardroomId req proposalId expiresAt,
    .served (.createProposal user boardroomId req) (.ok (.created proposalId expiresAt)) ∈
      session.records →
    ∃ proposal deal, proposal.id = proposalId ∧ proposal.boardroomId = boardroomId ∧
      deal.request = req ∧
      Posted aes session.state proposal deal (approvers session.records proposalId)
  approved : ∀ proposalId userId, userId ∈ approvers session.records proposalId →
    proposalId ∈ session.state.proposals.rows.map Proposal.id

variable {aes : AesGcm} {words : WordClass} {session : Session}

theorem kept_start (aes : AesGcm) (stegano : SteganoEngine) : Kept aes (start stegano) where
  linked := ⟨fun _ h => (by cases h), fun _ h => (by cases h), fun _ h => (by cases h)⟩
  seated _ _ _ _ h := by cases h
  posted _ _ _ _ _ h := by cases h
  approved _ _ h := by cases h

variable (h : Kept aes session)
include h

/-- A boardroom is created. -/
theorem Kept.createBoardroom {users : UserTable} {order : Plan Str}
    {user : User} {req : BoardroomCreateRequest} {envs : ℕ → Circumstances}
    (hadmits : session.Admits aes words ⟨.createBoardroom users order user req, envs⟩) :
    Kept aes (session.step aes words ⟨.createBoardroom users order user req, envs⟩) := by
  obtain ⟨hevolves, hseated⟩ := (ensures_createBoardroom h.linked order).complete hadmits
  refine ⟨hevolves.linked h.linked, ?_, ?_, ?_⟩
  · intro users' user' req' boardroomId hmem
    rcases mem_append.mp hmem with hold | hnew
    · exact (h.seated users' user' req' boardroomId hold).evolves hevolves
    · obtain ⟨rfl, rfl, rfl, houtcome⟩ := Record.room.inj (mem_singleton.mp hnew)
      exact hseated boardroomId houtcome.symm
  · intro user' boardroomId req' proposalId expiresAt hmem
    have hold := (mem_append.mp hmem).resolve_right fun hnew => by
      cases mem_singleton.mp hnew
    obtain ⟨proposal, deal, rfl, hroom, hrequest, hposted⟩ := h.posted _ _ _ _ _ hold
    refine ⟨proposal, deal, rfl, hroom, hrequest, ?_⟩
    have hlater := hposted.evolves hevolves
    rw [handedTo, Finset.union_empty] at hlater
    rw [step]
    exact (approvers_append_room ..).symm ▸ hlater
  · intro proposalId userId hmem
    rw [step] at hmem
    dsimp only at hmem
    rw [approvers_append_room] at hmem
    exact hevolves.proposalId (h.approved proposalId userId hmem)

/-- A request is served. -/
theorem Kept.request {request : Request} {envs : ℕ → Circumstances}
    (hadmits : session.Admits aes words ⟨.request request, envs⟩) :
    Kept aes (session.step aes words ⟨.request request, envs⟩) := by
  have hevolves := (ensures_routine h.linked request).complete hadmits
  refine ⟨hevolves.linked h.linked, ?_, ?_, ?_⟩
  · intro users' user' req' boardroomId hmem
    have hold := (mem_append.mp hmem).resolve_right fun hnew => by
      cases mem_singleton.mp hnew
    exact (h.seated users' user' req' boardroomId hold).evolves hevolves
  · intro user' boardroomId req' proposalId expiresAt hmem
    have hrecords : (session.step aes words ⟨.request request, envs⟩).records
        = session.records ++ [.served request
          ((routine aes request).complete (exec aes words) envs session.state).2] := rfl
    rw [hrecords, approvers_append]
    rw [hrecords] at hmem
    rcases mem_append.mp hmem with hold | hnew
    · obtain ⟨proposal, deal, rfl, hroom, hrequest, hposted⟩ := h.posted _ _ _ _ _ hold
      exact ⟨proposal, deal, rfl, hroom, hrequest, hposted.evolves hevolves⟩
    · obtain ⟨rfl, houtcome⟩ := Record.served.inj (mem_singleton.mp hnew)
      obtain ⟨-, hposted⟩ := (ensures_createProposal h.linked user').complete hadmits
      obtain ⟨hnew, proposal, deal, rfl, hroom, hrequest, hposted⟩ := hposted _ _ houtcome.symm
      refine ⟨proposal, deal, rfl, hroom, hrequest, ?_⟩
      -- nobody can have approved the proposal before it was there
      have hnone : approvers session.records proposal.id = ∅ :=
        Finset.eq_empty_of_forall_notMem fun userId huser => hnew (h.approved _ userId huser)
      rw [hnone]
      exact hposted
  · intro proposalId userId hmem
    rw [step] at hmem
    dsimp only at hmem
    rw [approvers_append, Finset.mem_union, mem_handedTo] at hmem
    refine hevolves.proposalId ?_
    rcases hmem with hold | hhanded
    · exact h.approved proposalId userId hold
    · obtain ⟨row, hrow, hholder⟩ := hevolves.handed _ hhanded
      have hlink := h.linked.shares row hrow
      rw [(Prod.mk.inj hholder).1] at hlink
      exact hlink

theorem Kept.step {turn : Turn} (hadmits : session.Admits aes words turn) :
    Kept aes (session.step aes words turn) := by
  obtain ⟨event, envs⟩ := turn
  cases event with
  | createBoardroom users order user req => exact h.createBoardroom hadmits
  | request request => exact h.request hadmits

/-- **Every session keeps its boardrooms and proposals.** -/
theorem Kept.run {turns : List Turn}
    (hturns : Along (Session.step aes words) (Session.Admits aes words) session turns) :
    Kept aes (session.run aes words turns) :=
  along_foldl (fun _ _ hkept hadmits => hkept.step hadmits) h hturns

end Session

/-- **In every session** boardrooms and proposals stay as they were made. -/
theorem session_kept (aes : AesGcm) (words : WordClass) (stegano : SteganoEngine) {turns : List Turn}
    (hturns : Along (Session.step aes words) (Session.Admits aes words) (.start stegano) turns) :
    ((Session.start stegano).run aes words turns).Kept aes :=
  (Session.kept_start aes stegano).run hturns

end TrustFlow.TrustDocs.Boardrooms
