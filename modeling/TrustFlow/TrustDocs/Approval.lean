import TrustFlow.Library.Duty
import TrustFlow.TrustDocs.Session

/-!
# When a proposal is executed

`approve_proposal` hands in a share, counts the shares that are there, and marks the
proposal as executed if they are enough.  Each of these is a call of its own, and other
requests come in between.

* `Approved` — enough shares of the proposal were handed in; `Executed` — its status.
* `Consistent` — the invariant: an executed proposal is approved, and the rows that
  belong together are there.
* `Advances` — what a request may rely on between its calls: a proposal keeps its
  boardroom, an executed one its status, and shares that were handed in stay so.
* `leads_settle` — what comes after a share is handed in leads to `Executed`, if the
  proposal is approved by then.  So the request whose share completes the number owes
  the execution, however late it reads the count.
* `executed_iff_approved` — once no request is in progress, the proposal is executed
  if and only if it is approved.
-/

namespace TrustFlow.TrustDocs.Boardrooms

open Library SecretSharing Stegano TimeLock List
open Server (findManyLimit)

/-! ## Approvals -/

/-- The shares of a proposal. -/
def sharesOf (s : BoardroomServer) (proposalId : Uuid) : List ShareRow :=
  s.shares.rows.filter fun row => decide (row.proposalId = proposalId)

/-- The number of shares of a proposal that were handed in. -/
def handedIn (s : BoardroomServer) (proposalId : Uuid) : ℕ :=
  (submittedShares (sharesOf s proposalId)).length

/-- The proposal has status `executed`. -/
def Executed (proposalId : Uuid) (s : BoardroomServer) : Prop :=
  ∃ proposal, s.proposals.get? proposalId = some proposal ∧ proposal.status = .executed

/-- At least `threshold_m` shares of the proposal were handed in. -/
def Approved (proposalId : Uuid) (s : BoardroomServer) : Prop :=
  ∃ proposal boardroom, s.proposals.get? proposalId = some proposal ∧
    s.boardrooms.get? proposal.boardroomId = some boardroom ∧
    boardroom.thresholdM ≤ handedIn s proposalId

/-- The invariant: a share belongs to a proposal and a proposal to a boardroom, and
what is executed is approved. -/
structure Consistent (proposalId : Uuid) (s : BoardroomServer) : Prop where
  proposal : ∀ row ∈ s.shares.rows, row.proposalId = proposalId →
    ∃ proposal, s.proposals.get? proposalId = some proposal
  boardroom : ∀ proposal, s.proposals.get? proposalId = some proposal →
    ∃ boardroom, s.boardrooms.get? proposal.boardroomId = some boardroom
  approved : Executed proposalId s → Approved proposalId s

/-- What happens to a proposal and its shares. -/
structure Advances (proposalId : Uuid) (s s' : BoardroomServer) : Prop where
  boardrooms : s'.boardrooms = s.boardrooms
  proposal : ∀ proposal, s.proposals.get? proposalId = some proposal →
    ∃ status, s'.proposals.get? proposalId = some { proposal with status := status } ∧
      (proposal.status = .executed → status = .executed)
  row : ∀ row ∈ s.shares.rows, ∃ row' ∈ s'.shares.rows,
    row'.id = row.id ∧ row'.proposalId = row.proposalId
  handedIn_le : handedIn s proposalId ≤ handedIn s' proposalId

instance (proposalId : Uuid) : IsPreorder BoardroomServer (Advances proposalId) where
  refl s := ⟨rfl, fun proposal h => ⟨proposal.status, h, id⟩, fun row hrow => ⟨row, hrow, rfl, rfl⟩,
    le_rfl⟩
  trans s s' s'' h h' := by
    refine ⟨h'.boardrooms.trans h.boardrooms, fun proposal hproposal => ?_, fun row hrow => ?_,
      h.handedIn_le.trans h'.handedIn_le⟩
    · obtain ⟨status, hget, hstays⟩ := h.proposal proposal hproposal
      obtain ⟨status', hget', hstays'⟩ := h'.proposal _ hget
      exact ⟨status', hget', fun hexecuted => hstays' (hstays hexecuted)⟩
    · obtain ⟨row', hrow', hid, hproposal⟩ := h.row row hrow
      obtain ⟨row'', hrow'', hid', hproposal'⟩ := h'.row row' hrow'
      exact ⟨row'', hrow'', hid'.trans hid, hproposal'.trans hproposal⟩

section

variable {proposalId : Uuid} {s s' : BoardroomServer}

theorem Executed.mono (h : Executed proposalId s) (hadvances : Advances proposalId s s') :
    Executed proposalId s' := by
  obtain ⟨proposal, hget, hexecuted⟩ := h
  obtain ⟨status, hget', hstays⟩ := hadvances.proposal proposal hget
  exact ⟨_, hget', hstays hexecuted⟩

theorem Approved.mono (h : Approved proposalId s) (hadvances : Advances proposalId s s') :
    Approved proposalId s' := by
  obtain ⟨proposal, boardroom, hproposal, hboardroom, henough⟩ := h
  obtain ⟨status, hget, -⟩ := hadvances.proposal proposal hproposal
  refine ⟨_, boardroom, hget, hadvances.boardrooms ▸ hboardroom, henough.trans ?_⟩
  exact_mod_cast hadvances.handedIn_le

/-- A row keeps its proposal. -/
theorem Advances.proposalId_eq (h : Advances proposalId s s') {row row' : ShareRow}
    (hrow : row ∈ s.shares.rows) (hrow' : row' ∈ s'.shares.rows) (hid : row'.id = row.id) :
    row'.proposalId = row.proposalId := by
  obtain ⟨later, hlater, hlater_id, hproposal⟩ := h.row row hrow
  rw [Table.eq_of_key_eq hrow' hlater (hid.trans hlater_id.symm), hproposal]

end

/-! ## Effects of calls -/

/-- A call that keeps the invariant and adds no approval. -/
structure Harmless (proposalId : Uuid) (s s' : BoardroomServer) : Prop where
  consistent : Consistent proposalId s'
  advances : Advances proposalId s s'
  approved : Approved proposalId s' → Approved proposalId s

/-- The tables of proposals and shares are the same. -/
structure SameTables (s s' : BoardroomServer) : Prop where
  boardrooms : s'.boardrooms = s.boardrooms
  proposals : s'.proposals = s.proposals
  shares : s'.shares = s.shares

section

variable {proposalId : Uuid} {s s' : BoardroomServer}

theorem handedIn_eq_countP (s : BoardroomServer) (proposalId : Uuid) :
    handedIn s proposalId = (sharesOf s proposalId).countP ShareRow.submitted :=
  countP_eq_length_filter.symm

section

variable (hconsistent : Consistent proposalId s)
include hconsistent

/-- Storing a proposal.  No share of it is there yet. -/
theorem harmless_insertProposal {new : Proposal}
    {proposals : Table Proposal.id} (hinsert : s.proposals.insert? new = some proposals)
    (hpending : new.status = .pending) {boardroom : Boardroom}
    (hroom : s.boardrooms.get? new.boardroomId = some boardroom) (hthreshold : 0 < boardroom.thresholdM) :
    Harmless proposalId s { s with proposals := proposals } := by
  have hget := Table.get?_of_insert? hinsert proposalId
  by_cases hnew : new.id = proposalId
  swap
  · rw [if_neg hnew] at hget
    have hexecuted : Executed proposalId { s with proposals := proposals } ↔ Executed proposalId s := by
      rw [Executed, Executed, hget]
    have happroved : Approved proposalId { s with proposals := proposals } ↔ Approved proposalId s := by
      rw [Approved, Approved, hget]
      rfl
    exact ⟨⟨hget ▸ hconsistent.proposal, hget ▸ hconsistent.boardroom,
        fun h' => happroved.mpr (hconsistent.approved (hexecuted.mp h'))⟩,
      ⟨rfl, fun proposal h => ⟨proposal.status, hget.trans h, id⟩,
        fun row hrow => ⟨row, hrow, rfl, rfl⟩, le_rfl⟩, happroved.mp⟩
  · rw [if_pos hnew] at hget
    have habsent : ∀ proposal, s.proposals.get? proposalId ≠ some proposal := by
      intro proposal h
      rw [Table.insert?_of_get? (hnew ▸ h)] at hinsert
      cases hinsert
    have hnone : sharesOf s proposalId = [] := filter_eq_nil_iff.mpr fun row hrow hof => by
      obtain ⟨proposal, h⟩ := hconsistent.proposal row hrow (of_decide_eq_true hof)
      exact habsent proposal h
    have hunapproved : ¬ Approved proposalId { s with proposals := proposals } := by
      rintro ⟨proposal, boardroom', hproposal, hroom', henough⟩
      obtain rfl := Option.mem_unique hget hproposal
      obtain rfl := Option.mem_unique hroom hroom'
      have hzero : handedIn { s with proposals := proposals } proposalId = 0 :=
        congrArg (fun rows => (submittedShares rows).length) hnone
      rw [hzero] at henough
      exact absurd henough (not_le.mpr hthreshold)
    refine ⟨⟨fun _ _ _ => ⟨new, hget⟩, ?_, ?_⟩, ⟨rfl, fun proposal h => absurd h (habsent proposal),
      fun row hrow => ⟨row, hrow, rfl, rfl⟩, le_rfl⟩, fun h => absurd h hunapproved⟩
    · intro proposal hproposal
      obtain rfl := Option.mem_unique hget hproposal
      exact ⟨boardroom, hroom⟩
    · rintro ⟨proposal, hproposal, hexecuted⟩
      obtain rfl := Option.mem_unique hget hproposal
      cases hpending.symm.trans hexecuted

/-- Calls that leave the proposals alone and hand in no share of this one. -/
theorem harmless_of_handedIn (hboardrooms : s'.boardrooms = s.boardrooms)
    (hproposals : s'.proposals = s.proposals)
    (hproposal : ∀ row ∈ s'.shares.rows, row.proposalId = proposalId →
      ∃ proposal, s.proposals.get? proposalId = some proposal)
    (hrow : ∀ row ∈ s.shares.rows, ∃ row' ∈ s'.shares.rows,
      row'.id = row.id ∧ row'.proposalId = row.proposalId)
    (hcount : handedIn s' proposalId = handedIn s proposalId) : Harmless proposalId s s' := by
  have hexecuted : Executed proposalId s' ↔ Executed proposalId s := by
    rw [Executed, Executed, hproposals]
  have happroved : Approved proposalId s' ↔ Approved proposalId s := by
    rw [Approved, Approved, hproposals, hboardrooms, hcount]
  refine ⟨⟨?_, ?_, fun h' => happroved.mpr (hconsistent.approved (hexecuted.mp h'))⟩,
    ⟨hboardrooms, fun proposal hget => ⟨proposal.status, hproposals ▸ hget, id⟩, hrow, hcount.ge⟩,
    happroved.mp⟩
  · rw [hproposals]
    exact hproposal
  · rw [hproposals, hboardrooms]
    exact hconsistent.boardroom

/-- Storing a share, which is not handed in yet. -/
theorem harmless_insertShare {new : ShareRow}
    {shares : ShareTable} (hinsert : s.shares.insert? new = some shares)
    (hsubmitted : new.submitted = false)
    (hproposal : new.proposalId = proposalId → ∃ proposal, s.proposals.get? proposalId = some proposal) :
    Harmless proposalId s { s with shares := shares } := by
  refine harmless_of_handedIn hconsistent rfl rfl (fun row hrow hof => ?_) (fun row hrow => ?_) ?_
  · rcases (ShareTable.mem_of_insert? hinsert).mp hrow with hrow | rfl
    · exact hconsistent.proposal row hrow hof
    · exact hproposal hof
  · exact ⟨row, (ShareTable.mem_of_insert? hinsert).mpr (.inl hrow), rfl, rfl⟩
  · rw [handedIn_eq_countP, handedIn_eq_countP, sharesOf, sharesOf, ShareTable.rows_of_insert? hinsert,
      filter_append, countP_append, Nat.add_eq_left, countP_eq_zero]
    intro row hrow
    rw [mem_singleton.mp (mem_of_mem_filter hrow), hsubmitted]
    exact Bool.false_ne_true

end

/-- The shares of a proposal after one was handed in. -/
theorem sharesOf_submit (s : BoardroomServer) (proposalId shareId : Uuid) :
    sharesOf { s with shares := s.shares.submit shareId } proposalId
      = (sharesOf s proposalId).map (Table.change ShareRow.id shareId ShareRow.submit) := by
  have hproposal : ShareRow.proposalId ∘ Table.change ShareRow.id shareId ShareRow.submit
      = ShareRow.proposalId := Table.apply_change fun _ => rfl
  show List.filter _ (s.shares.rows.map (Table.change ShareRow.id shareId ShareRow.submit)) = _
  rw [filter_map, sharesOf]
  congr 2
  funext row
  exact congrArg (fun id => decide (id = proposalId)) (congrFun hproposal row)

section

variable (hconsistent : Consistent proposalId s)
include hconsistent

/-- Handing in a share. -/
theorem advances_submit (shareId : Uuid) :
    Consistent proposalId { s with shares := s.shares.submit shareId } ∧
      Advances proposalId s { s with shares := s.shares.submit shareId } := by
  have hcount : handedIn s proposalId ≤ handedIn { s with shares := s.shares.submit shareId } proposalId := by
    rw [handedIn_eq_countP, handedIn_eq_countP, sharesOf_submit, countP_map]
    refine countP_mono_left fun row _ hsubmitted => ?_
    rw [Function.comp_apply, Table.change]
    split
    · rfl
    · exact hsubmitted
  have hadvances : Advances proposalId s { s with shares := s.shares.submit shareId } := by
    refine ⟨rfl, fun proposal hget => ⟨proposal.status, hget, id⟩, fun row hrow => ?_, hcount⟩
    refine ⟨_, ShareTable.mem_submit.mpr ⟨row, hrow, rfl⟩, ?_⟩
    split <;> exact ⟨rfl, rfl⟩
  refine ⟨⟨fun row hrow hof => ?_, hconsistent.boardroom, fun hexecuted => ?_⟩, hadvances⟩
  · obtain ⟨old, hold, rfl⟩ := ShareTable.mem_submit.mp hrow
    refine hconsistent.proposal old hold ?_
    split at hof <;> exact hof
  · exact (hconsistent.approved hexecuted).mono hadvances

/-- Handing in a share of another proposal. -/
theorem harmless_submit {shareId : Uuid}
    (hother : ∀ row ∈ s.shares.rows, row.id = shareId → row.proposalId ≠ proposalId) :
    Harmless proposalId s { s with shares := s.shares.submit shareId } := by
  obtain ⟨hconsistent', hadvances⟩ := advances_submit hconsistent shareId
  refine harmless_of_handedIn hconsistent rfl rfl hconsistent'.proposal hadvances.row ?_
  rw [handedIn, handedIn, sharesOf_submit]
  congr 2
  refine (map_congr_left fun row hrow => ?_).trans (map_id _)
  obtain ⟨hstored, hof⟩ := mem_filter.mp hrow
  exact if_neg fun hid => hother row hstored hid (of_decide_eq_true hof)

/-- Executing a proposal that is approved, if it is this one. -/
theorem harmless_execute {executed : Uuid}
    (happroved : executed = proposalId → Approved proposalId s) :
    Harmless proposalId s { s with
      proposals := s.proposals.update Proposal.execute Proposal.id_execute executed } := by
  have hget := s.proposals.get?_update Proposal.id_execute executed proposalId
  -- only the status changes, so boardroom and approvals are those of before
  have hchange : ∀ proposal : Proposal, ∃ status,
      Table.change Proposal.id executed Proposal.execute proposal = { proposal with status := status } ∧
        (proposal.status = .executed → status = .executed) := by
    intro proposal
    rw [Table.change]
    split
    · exact ⟨.executed, rfl, fun _ => rfl⟩
    · exact ⟨proposal.status, rfl, id⟩
  have hadvances : Advances proposalId s { s with
      proposals := s.proposals.update Proposal.execute Proposal.id_execute executed } := by
    refine ⟨rfl, fun proposal hproposal => ?_, fun row hrow => ⟨row, hrow, rfl, rfl⟩, le_rfl⟩
    obtain ⟨status, hstatus, hstays⟩ := hchange proposal
    refine ⟨status, ?_, hstays⟩
    rw [hget, hproposal, Option.map_some, hstatus]
  have hback : Approved proposalId { s with
      proposals := s.proposals.update Proposal.execute Proposal.id_execute executed } →
        Approved proposalId s := by
    rintro ⟨proposal, boardroom, hproposal, hboardroom, henough⟩
    rw [hget] at hproposal
    obtain ⟨old, hold, rfl⟩ := Option.map_eq_some_iff.mp hproposal
    obtain ⟨status, hstatus, -⟩ := hchange old
    rw [hstatus] at hboardroom
    exact ⟨old, boardroom, hold, hboardroom, henough⟩
  refine ⟨⟨fun row hrow hof => ?_, fun proposal hproposal => ?_, ?_⟩, hadvances, hback⟩
  · obtain ⟨proposal, hproposal⟩ := hconsistent.proposal row hrow hof
    obtain ⟨status, hstatus, -⟩ := hadvances.proposal proposal hproposal
    exact ⟨_, hstatus⟩
  · rw [hget] at hproposal
    obtain ⟨old, hold, rfl⟩ := Option.map_eq_some_iff.mp hproposal
    obtain ⟨status, hstatus, -⟩ := hchange old
    rw [hstatus]
    exact hconsistent.boardroom old hold
  · rintro ⟨proposal, hproposal, hexecuted⟩
    rw [hget] at hproposal
    obtain ⟨old, hold, rfl⟩ := Option.map_eq_some_iff.mp hproposal
    have hid : old.id = proposalId := (Table.get?_eq_some_iff.mp hold).2
    refine Approved.mono ?_ hadvances
    by_cases hthis : old.id = executed
    · exact happroved (hthis.symm.trans hid)
    · rw [Table.change, if_neg hthis] at hexecuted
      exact hconsistent.approved ⟨old, hold, hexecuted⟩

end

theorem SameTables.harmless (h : SameTables s s') (hconsistent : Consistent proposalId s) :
    Harmless proposalId s s' := by
  refine harmless_of_handedIn hconsistent h.boardrooms h.proposals (h.shares ▸ hconsistent.proposal)
    (fun row hrow => ⟨row, h.shares ▸ hrow, rfl, rfl⟩) ?_
  rw [handedIn, handedIn, sharesOf, sharesOf, h.shares]

end

/-! ## Rules for the routes -/

/-- The database call succeeds, and all shares of the proposal fit into one answer. -/
def Works (proposalId : Uuid) (_ : Call) (env : Circumstances) (s : BoardroomServer) : Prop :=
  env.fails = false ∧ (sharesOf s proposalId).length ≤ findManyLimit

section

variable {aes : AesGcm} {words : WordClass} {proposalId : Uuid} {α : Type} {s : BoardroomServer}

variable (aes words proposalId) in
/-- The routine executes the proposal whenever it completes its approvals. -/
abbrev Serves (r : Handler α) (s : BoardroomServer) : Prop :=
  Dutiful (exec aes words) (Works proposalId) (Consistent proposalId) (Advances proposalId)
    (Approved proposalId) (Executed proposalId) r s

variable (aes words proposalId) in
/-- The proposal is executed when the routine ends. -/
abbrev Settles (r : Handler α) (s : BoardroomServer) : Prop :=
  Leads (exec aes words) (Works proposalId) (Consistent proposalId) (Advances proposalId)
    (Executed proposalId) r s

variable {c : Call} {q : Query} {internal : Str}

theorem sameTables_exec (hreads : c.Reads) (env : Circumstances) :
    SameTables s (exec aes words c env s).1 := by
  cases c with
  | db q =>
    rw [Query.Reads.exec_eq hreads]
    exact ⟨rfl, rfl, rfl⟩
  | encrypt content ttlSeconds =>
    rcases exec_encrypt content ttlSeconds with hexec | ⟨timelock, encrypted, -, hexec⟩ <;>
      rw [hexec] <;> exact ⟨rfl, rfl, rfl⟩
  | split | lockStatus | decrypt | remainingTime | watermark | destroy | cleanup =>
    exact ⟨rfl, rfl, rfl⟩

/-- A call that is harmless. -/
theorem serves_call {resume : c.Answer → Handler α}
    (h : ∀ s' env, Advances proposalId s s' → Consistent proposalId s' → Works proposalId c env s' →
      Harmless proposalId s' (exec aes words c env s').1 ∧
      Serves aes words proposalId (resume (exec aes words c env s').2) (exec aes words c env s').1) :
    Serves aes words proposalId (.call c resume) s := by
  intro s' hadvances hconsistent env hworks
  obtain ⟨hharmless, hrest⟩ := h s' env hadvances hconsistent hworks
  exact ⟨⟨hharmless.consistent, hharmless.advances⟩,
    fun hbefore hafter => absurd (hharmless.approved hafter) hbefore, hrest⟩

/-- A call that writes no table. -/
theorem serves_step (hreads : c.Reads) {resume : c.Answer → Handler α}
    (h : ∀ s' s'' env, Advances proposalId s s' → Advances proposalId s s'' →
      (exec aes words c env s').1 = s'' →
      Serves aes words proposalId (resume (exec aes words c env s').2) s'') :
    Serves aes words proposalId (.call c resume) s := by
  refine serves_call fun s' env hadvances hconsistent _ => ?_
  have hharmless : Harmless proposalId s' (exec aes words c env s').1 :=
    (sameTables_exec hreads env).harmless hconsistent
  exact ⟨hharmless, h s' _ env hadvances (trans_of (Advances proposalId) hadvances hharmless.advances)
    rfl⟩

/-- A database call: the effect of its success is to be shown. -/
theorem serves_query {f : q.Result → Handler α}
    (h : ∀ s' env s'' result, Advances proposalId s s' → Consistent proposalId s' →
      Works proposalId (.db q) env s' → q.run env s' = some (s'', result) →
      Harmless proposalId s' s'' ∧ Serves aes words proposalId (f result) s'') :
    Serves aes words proposalId (query internal q >>= f) s := by
  refine serves_call fun s' env hadvances hconsistent hworks => ?_
  rcases exec_db q with hexec | ⟨-, s'', result, hrun, hexec⟩
  · rw [hexec]
    exact ⟨SameTables.harmless ⟨rfl, rfl, rfl⟩ hconsistent, trivial⟩
  · rw [hexec]
    exact h s' env s'' result hadvances hconsistent hworks hrun

/-- A database call that changes nothing. -/
theorem serves_reading (hreads : q.Reads) {f : q.Result → Handler α}
    (h : ∀ s' env result, Advances proposalId s s' →
      (sharesOf s' proposalId).length ≤ findManyLimit → q.run env s' = some (s', result) →
      Serves aes words proposalId (f result) s') :
    Serves aes words proposalId (query internal q >>= f) s := by
  refine serves_query fun s' env s'' result hadvances hconsistent hworks hrun => ?_
  obtain rfl := hreads.state_eq hrun
  exact ⟨SameTables.harmless ⟨rfl, rfl, rfl⟩ hconsistent, h s'' env result hadvances hworks.2 hrun⟩

/-- A database call that changes nothing, on the way to the execution. -/
theorem settles_reading (hreads : q.Reads) {f : q.Result → Handler α}
    (h : ∀ s' env result, Advances proposalId s s' → Consistent proposalId s' →
      (sharesOf s' proposalId).length ≤ findManyLimit → q.run env s' = some (s', result) →
      Settles aes words proposalId (f result) s') :
    Settles aes words proposalId (query internal q >>= f) s := by
  intro s' hadvances hconsistent env hworks
  obtain ⟨result, hrun⟩ := hreads env s'
  rw [exec_db_of_run hworks.1 hrun]
  exact h s' env result hadvances hconsistent hworks.2 hrun

/-! ### Approving -/

/-- What `approve_proposal` does after a share was handed in. -/
def settle (proposalId : Uuid) : Handler Response := do
  let some proposal ← query errorApproving (.proposal proposalId)
    | Routine.fail (.http 404 "Proposal not found")
  let some boardroom ← query errorApproving (.boardroom proposal.boardroomId)
    | Routine.fail (.http 404 "Boardroom not found")
  let allShares ← query errorApproving (.shares proposalId)
  let approvals : ℤ := (submittedShares allShares).length
  let status := if approvals ≥ boardroom.thresholdM then .executed else .pending
  if approvals ≥ boardroom.thresholdM ∧ proposal.status ≠ .executed then
    query errorApproving (.execute proposalId)
    return .approved
      "Cryptographic share yielded to pool. Threshold met. Document unlocked." status
  return .approved "Cryptographic share yielded to pool." status

theorem approveProposal_eq (user : User) (proposalId : Uuid) :
    approveProposal user proposalId = (do
      let some record ← query errorApproving (.share proposalId user.id)
        | Routine.fail (.http 404 "Share not found")
      if record.submitted then
        Routine.fail (.http 400 "Share already submitted")
      query errorApproving (.submit record.id)
      settle proposalId) := rfl

/-- The shares that are counted are those that were handed in. -/
theorem length_submittedShares {env : Circumstances} {allShares : List ShareRow}
    (hlimit : (sharesOf s proposalId).length ≤ findManyLimit)
    (hrun : (Query.shares proposalId).run env s = some (s, allShares)) :
    (submittedShares allShares).length = handedIn s proposalId := by
  obtain ⟨-, rfl⟩ := some_mk_inj hrun
  exact ((Table.findMany_perm hlimit).filter _).length_eq

/-- **Whoever completes the approvals executes the proposal.**  The count is read after
the share was handed in, and it does not fall. -/
theorem leads_settle (happroved : Approved proposalId s) :
    Settles aes words proposalId (settle proposalId) s := by
  refine settles_reading (fun _ _ => ⟨_, rfl⟩) fun s₁ env₁ found hadvances₁ _ _ hfound => ?_
  have happroved₁ := happroved.mono hadvances₁
  obtain ⟨proposal, boardroom, hproposal, hboardroom, -⟩ := happroved₁
  obtain rfl : some proposal = found := hproposal.symm.trans (some_mk_inj hfound).2
  refine settles_reading (fun _ _ => ⟨_, rfl⟩) fun s₂ env₂ room hadvances₂ _ _ hroom => ?_
  obtain rfl : some boardroom = room := by
    rw [← hboardroom, ← hadvances₂.boardrooms]
    exact (some_mk_inj hroom).2
  refine settles_reading (fun _ _ => ⟨_, rfl⟩)
    fun s₃ env₃ allShares hadvances₃ hconsistent₃ hlimit hshares => ?_
  have hadvances : Advances proposalId s₁ s₃ := trans_of (Advances proposalId) hadvances₂ hadvances₃
  -- the boardroom is still the one that was read, so the count decides
  have henough : boardroom.thresholdM ≤ handedIn s₃ proposalId := by
    obtain ⟨proposal', boardroom', hproposal', hboardroom', henough⟩ :=
      (happroved.mono hadvances₁).mono hadvances
    obtain ⟨status, hlater, -⟩ := hadvances.proposal proposal hproposal
    obtain rfl := Option.mem_unique hlater hproposal'
    rw [hadvances.boardrooms] at hboardroom'
    obtain rfl := Option.mem_unique hboardroom hboardroom'
    exact henough
  have hcount : boardroom.thresholdM ≤ (submittedShares allShares).length := by
    rw [length_submittedShares hlimit hshares]
    exact henough
  dsimp only
  by_cases hexecuted : proposal.status = .executed
  · rw [if_neg fun h => h.2 hexecuted]
    exact Executed.mono ⟨proposal, hproposal, hexecuted⟩ hadvances
  · rw [if_pos ⟨hcount, hexecuted⟩]
    intro s₄ hadvances₄ _ env₄ hworks
    obtain ⟨status, hlater, -⟩ := hadvances.proposal proposal hproposal
    obtain ⟨status', hlater', -⟩ := hadvances₄.proposal _ hlater
    rw [exec_db_of_run hworks.1 rfl]
    refine ⟨_, (s₄.proposals.get?_update Proposal.id_execute proposalId proposalId).trans
      (congrArg _ hlater'), ?_⟩
    have hid : proposal.id = proposalId := (Table.get?_eq_some_iff.mp hproposal).2
    rw [Table.change, if_pos hid]
    rfl

theorem serves_settle (settled : Uuid) (s : BoardroomServer) :
    Serves aes words proposalId (settle settled) s := by
  refine serves_reading (fun _ _ => ⟨_, rfl⟩) fun s₁ env₁ found _ _ hfound => ?_
  rcases found with _ | proposal
  · trivial
  refine serves_reading (fun _ _ => ⟨_, rfl⟩) fun s₂ env₂ room hadvances₂ _ hroom => ?_
  rcases room with _ | boardroom
  · trivial
  refine serves_reading (fun _ _ => ⟨_, rfl⟩) fun s₃ env₃ allShares hadvances₃ hlimit hshares => ?_
  dsimp only
  split
  case isFalse => trivial
  case isTrue henough =>
    refine serves_query fun s₄ env₄ s₅ _ hadvances₄ hconsistent _ hrun => ?_
    obtain ⟨rfl, -⟩ := some_mk_inj hrun
    refine ⟨harmless_execute hconsistent fun hsettled => ?_, trivial⟩
    subst hsettled
    -- enough shares were counted, and they are still there
    refine Approved.mono ?_ hadvances₄
    obtain ⟨status, hlater, -⟩ := (trans_of (Advances settled) hadvances₂ hadvances₃).proposal proposal
      (some_mk_inj hfound).2
    refine ⟨_, boardroom, hlater, ?_, ?_⟩
    · rw [hadvances₃.boardrooms]
      exact (some_mk_inj hroom).2
    · rw [← length_submittedShares hlimit hshares]
      exact henough.1

theorem serves_approveProposal (user : User) (approved : Uuid) (s : BoardroomServer) :
    Serves aes words proposalId (approveProposal user approved) s := by
  rw [approveProposal_eq]
  refine serves_reading (fun _ _ => ⟨_, rfl⟩) fun s₁ env₁ record _ _ hrecord => ?_
  rcases record with _ | record
  · trivial
  obtain ⟨hmem, hholder⟩ := Table.findOne_spec (some_mk_inj hrecord).2
  have hof : record.proposalId = approved := congrArg Prod.fst (of_decide_eq_true hholder)
  dsimp only
  rcases record.submitted with _ | _
  swap
  · trivial
  by_cases hthis : approved = proposalId
  · -- the share may be the one that completes the approvals
    intro s₂ _ hconsistent env₂ hworks
    rw [exec_db_of_run hworks.1 rfl]
    subst hthis
    exact ⟨advances_submit hconsistent record.id, fun _ happroved => leads_settle happroved,
      serves_settle approved _⟩
  · refine serves_query fun s₂ env₂ s₃ _ hadvances hconsistent _ hrun => ?_
    obtain ⟨rfl, -⟩ := some_mk_inj hrun
    refine ⟨harmless_submit hconsistent fun row hrow hid hrow_of => hthis ?_, serves_settle approved _⟩
    rw [← hof, ← hadvances.proposalId_eq hmem hrow hid, hrow_of]

/-! ### Creating -/

/-- The loop that stores the shares of a proposal that is there. -/
theorem serves_insertShares {stored : Uuid} (list : List (Member × Share))
    (hstored : stored = proposalId → ∃ proposal, s.proposals.get? proposalId = some proposal) :
    Serves aes words proposalId (insertShares stored list) s := by
  induction list generalizing s with
  | nil => trivial
  | cons entry rest ih =>
    refine serves_query fun s' env s'' _ hadvances hconsistent _ hrun => ?_
    obtain ⟨shares, hinsert, ⟨⟩⟩ := Option.map_eq_some_iff.mp hrun
    have hstored' : stored = proposalId → ∃ proposal, s'.proposals.get? proposalId = some proposal := by
      intro hthis
      obtain ⟨proposal, hproposal⟩ := hstored hthis
      obtain ⟨status, hlater, -⟩ := hadvances.proposal proposal hproposal
      exact ⟨_, hlater⟩
    exact ⟨harmless_insertShare hconsistent hinsert rfl hstored', ih hstored'⟩

/-- The second half of `create_proposal`.  A split that succeeds has a threshold of at
least two. -/
theorem serves_splitAndStore {user : User} {title payload : Str} {allMembers : List Member}
    {encrypted : Option EncryptedContent} {boardroomId : Uuid} {boardroom : Boardroom}
    (hboardroom : s.boardrooms.get? boardroomId = some boardroom) :
    Serves aes words proposalId
      (splitAndStore user boardroomId title boardroom.thresholdM allMembers payload encrypted) s := by
  refine serves_step (c := .split payload boardroom.thresholdM allMembers.length) trivial
    fun s₁ s₂ env₁ _ hadvances₂ _ => ?_
  rw [exec]
  dsimp only
  rcases hsplit : splitSecret aes env₁.coins payload boardroom.thresholdM allMembers.length with
    _ | ⟨shares, _⟩
  · trivial
  have hthreshold : 0 < boardroom.thresholdM := by
    have hge := (splitSecret_ok hsplit).1
    omega
  refine serves_query fun s₃ env₃ s₄ proposal hadvances₃ hconsistent _ hrun => ?_
  obtain ⟨proposals, hinsert, ⟨⟩⟩ := Option.map_eq_some_iff.mp hrun
  have hroom : s₃.boardrooms.get? boardroomId = some boardroom := by
    rw [hadvances₃.boardrooms, hadvances₂.boardrooms]
    exact hboardroom
  refine ⟨harmless_insertProposal hconsistent hinsert rfl hroom hthreshold, ?_⟩
  refine (serves_insertShares _ fun hthis => ?_).bind (fun _ _ hexecuted => hexecuted)
    fun _ _ => trivial
  exact ⟨_, (Table.get?_of_insert? hinsert proposalId).trans (if_pos hthis)⟩

theorem serves_createProposal (user : User) (boardroomId : Uuid) (req : ProposalRequest)
    (s : BoardroomServer) :
    Serves aes words proposalId (createProposal user boardroomId req) s := by
  refine serves_reading (fun _ _ => ⟨_, rfl⟩) fun s₁ env₁ room _ _ hroom => ?_
  rcases room with _ | boardroom
  · trivial
  have hboardroom : s₁.boardrooms.get? boardroomId = some boardroom :=
    (some_mk_inj hroom).2
  refine serves_reading (fun _ _ => ⟨_, rfl⟩) fun s₂ env₂ member hadvances₂ _ _ => ?_
  rcases member with _ | member
  · trivial
  refine serves_reading (fun _ _ => ⟨_, rfl⟩) fun s₃ env₃ allMembers hadvances₃ _ _ => ?_
  rw [← hadvances₂.boardrooms, ← hadvances₃.boardrooms] at hboardroom
  dsimp only
  unfold applyTimeLock
  split
  · exact serves_splitAndStore hboardroom
  · next ttl _ =>
      refine serves_step (c := .encrypt req.content ttl) trivial fun s₄ s₅ env₄ _ hadvances₅ _ => ?_
      rcases exec_encrypt req.content ttl with hexec | ⟨timelock, encrypted, -, hexec⟩
      · rw [hexec]
        trivial
      · rw [hexec]
        exact serves_splitAndStore (hadvances₅.boardrooms ▸ hboardroom)

/-! ## All requests -/

variable (aes words proposalId) in
theorem serves_routine (request : Request) (s : BoardroomServer) :
    Serves aes words proposalId (routine aes request) s := by
  cases request with
  | createProposal user boardroomId req => exact serves_createProposal user boardroomId req s
  | approveProposal user approved => exact serves_approveProposal user approved s
  | unlockProposal user unlocked =>
    refine (allCalls_unlockProposal aes user unlocked).dutiful (fun c env s hreads hconsistent _ => ?_) s
    have hharmless : Harmless proposalId s (exec aes words c env s).1 :=
      (sameTables_exec hreads.1 env).harmless hconsistent
    exact ⟨⟨hharmless.consistent, hharmless.advances⟩, hharmless.approved⟩
  | destroyLock lockId => exact serves_step (c := .destroy lockId) trivial fun _ _ _ _ _ _ => trivial
  | cleanupKeys => exact serves_step (c := .cleanup) trivial fun _ _ _ _ _ _ => trivial

/-- No call removes a share. -/
theorem length_sharesOf_le (c : Call) (env : Circumstances) (s : BoardroomServer) :
    (sharesOf s proposalId).length ≤ (sharesOf (exec aes words c env s).1 proposalId).length := by
  have hsame : c.Reads → (sharesOf s proposalId).length
      ≤ (sharesOf (exec aes words c env s).1 proposalId).length := by
    intro hreads
    rw [sharesOf, sharesOf, (sameTables_exec hreads env).shares]
  cases c with
  | db q =>
    rcases exec_db q with hexec | ⟨-, s', result, hrun, hexec⟩
    · rw [hexec]
    cases q with
    | insertShare ofProposal userId shareData =>
      rw [hexec]
      obtain ⟨shares, hinsert, ⟨⟩⟩ := Option.map_eq_some_iff.mp hrun
      rw [sharesOf, sharesOf, ShareTable.rows_of_insert? hinsert, filter_append, length_append]
      exact Nat.le_add_right _ _
    | insertProposal =>
      rw [hexec]
      obtain ⟨proposals, hinsert, ⟨⟩⟩ := Option.map_eq_some_iff.mp hrun
      exact le_rfl
    | submit shareId =>
      rw [hexec]
      obtain ⟨rfl, -⟩ := some_mk_inj hrun
      rw [sharesOf_submit, length_map]
    | execute =>
      rw [hexec]
      obtain ⟨rfl, -⟩ := some_mk_inj hrun
      exact le_rfl
    | boardroom | member | members | proposal | share | shares => exact hsame fun _ _ => ⟨_, rfl⟩
  | encrypt | split | lockStatus | decrypt | remainingTime | watermark | destroy | cleanup =>
    exact hsame trivial

end

/-- The proposal is not there yet, or as `create_proposal` leaves it: pending, in a
boardroom with a threshold, and no share was handed in. -/
structure AsCreated (proposalId : Uuid) (s : BoardroomServer) : Prop where
  proposal : ∀ proposal, s.proposals.get? proposalId = some proposal → proposal.status = .pending ∧
    ∃ boardroom, s.boardrooms.get? proposal.boardroomId = some boardroom ∧ 0 < boardroom.thresholdM
  shares : ∀ row ∈ s.shares.rows, row.proposalId = proposalId →
    row.submitted = false ∧ ∃ proposal, s.proposals.get? proposalId = some proposal

section

variable {proposalId : Uuid} {s : BoardroomServer}

theorem AsCreated.consistent (h : AsCreated proposalId s) : Consistent proposalId s := by
  refine ⟨fun row hrow hof => (h.shares row hrow hof).2, fun proposal hproposal => ?_, ?_⟩
  · obtain ⟨-, boardroom, hboardroom, -⟩ := h.proposal proposal hproposal
    exact ⟨boardroom, hboardroom⟩
  · rintro ⟨proposal, hproposal, hexecuted⟩
    rw [(h.proposal proposal hproposal).1] at hexecuted
    cases hexecuted

theorem AsCreated.not_approved (h : AsCreated proposalId s) : ¬ Approved proposalId s := by
  rintro ⟨proposal, boardroom, hproposal, hboardroom, henough⟩
  obtain ⟨-, boardroom', hboardroom', hthreshold⟩ := h.proposal proposal hproposal
  obtain rfl := Option.mem_unique hboardroom hboardroom'
  have hzero : handedIn s proposalId = 0 := by
    rw [handedIn_eq_countP, countP_eq_zero]
    intro row hrow
    obtain ⟨hstored, hof⟩ := mem_filter.mp hrow
    rw [(h.shares row hstored (of_decide_eq_true hof)).1]
    exact Bool.false_ne_true
  rw [hzero] at henough
  exact absurd henough (not_le.mpr hthreshold)

end

/-- The database call succeeds. -/
def Succeeds (_ : Call) (env : Circumstances) (_ : BoardroomServer) : Prop := env.fails = false

instance (c : Call) (env : Circumstances) (s : BoardroomServer) : Decidable (Succeeds c env s) :=
  inferInstanceAs (Decidable (_ = _))

/-- No request is in progress. -/
def Quiescent (office : Office) : Prop :=
  ∀ waiting ∈ office.threads, waiting.2.ended = true

instance (office : Office) : Decidable (Quiescent office) :=
  inferInstanceAs (Decidable (∀ waiting ∈ office.threads, _))

/-- Within the limit of a query, calls that succeed are calls that work. -/
theorem along_works {aes : AesGcm} {words : WordClass} {proposalId : Uuid} {office : Office}
    {moves : List (Move Request Circumstances)}
    (hmoves : Along (Pool.step (exec aes words) (routine aes)) (Pool.Admitted Succeeds) office moves)
    (hlimit : (sharesOf (office.run (exec aes words) (routine aes) moves).history.state
      proposalId).length ≤ findManyLimit) :
    Along (Pool.step (exec aes words) (routine aes)) (Pool.Admitted (Works proposalId)) office
      moves := by
  refine (along_of_end (Q := fun office => (sharesOf office.history.state proposalId).length
    ≤ findManyLimit) (fun office move hafter => ?_) (fun office move hmove hfits => ?_) hmoves hlimit).2
  · cases move with
    | arrive request => exact hafter
    | resume thread env =>
      rw [Pool.step] at hafter
      split at hafter
      · exact (length_sharesOf_le _ env _).trans hafter
      · exact hafter
  · cases move with
    | arrive request => trivial
    | resume thread env =>
      rw [Pool.Admitted] at hmove ⊢
      split
      case h_1 hget =>
        rw [hget] at hmove
        exact ⟨hmove, hfits⟩
      case h_2 => trivial

/-- **The status of a proposal is exact.**  In every interleaving of the calls of any
requests, all of which succeed: once no request is in progress, a proposal with at most
100 shares is executed if and only if at least `threshold_m` of them were handed in. -/
theorem executed_iff_approved (aes : AesGcm) (words : WordClass) {s : BoardroomServer}
    {proposalId : Uuid} (hcreated : AsCreated proposalId s) (moves : List (Move Request Circumstances))
    (hmoves : Along (Pool.step (exec aes words) (routine aes)) (Pool.Admitted Succeeds)
      (Pool.start s) moves) {office : Office}
    (hoffice : office = (Pool.start s).run (exec aes words) (routine aes) moves)
    (hquiescent : Quiescent office)
    {proposal : Proposal} (hproposal : office.history.state.proposals.get? proposalId = some proposal)
    {boardroom : Boardroom}
    (hboardroom : office.history.state.boardrooms.get? proposal.boardroomId = some boardroom)
    (hlimit : (sharesOf office.history.state proposalId).length ≤ 100) :
    proposal.status = .executed ↔
      boardroom.thresholdM ≤ (submittedShares (sharesOf office.history.state proposalId)).length := by
  subst hoffice
  have hstart : Discharged (exec aes words) (Works proposalId) (Consistent proposalId)
      (Advances proposalId) (Approved proposalId) (Executed proposalId) (Pool.start s : Office) :=
    discharged_start hcreated.consistent fun happroved => absurd happroved hcreated.not_approved
  have hrun := hstart.run (fun _ _ hadvances hexecuted => hexecuted.mono hadvances)
    (fun request s _ => serves_routine aes words proposalId request s) (along_works hmoves hlimit)
  constructor
  · intro hexecuted
    obtain ⟨proposal', boardroom', hproposal', hboardroom', henough⟩ :=
      hrun.inv.approved ⟨proposal, hproposal, hexecuted⟩
    obtain rfl := Option.mem_unique hproposal hproposal'
    obtain rfl := Option.mem_unique hboardroom hboardroom'
    exact henough
  · intro henough
    obtain ⟨proposal', hproposal', hexecuted⟩ :=
      hrun.goal hquiescent ⟨proposal, boardroom, hproposal, hboardroom, henough⟩
    obtain rfl := Option.mem_unique hproposal hproposal'
    exact hexecuted

/-- The shares of a proposal that nobody has approved. -/
def budgetShares : ShareTable where
  table := ⟨[⟨11, 10, alice.id, ⟨1, [], [], [], 2, 2, [], false, [], []⟩, false, ⟨0, datetimeMax_pos⟩⟩,
    ⟨12, 10, bob.id, ⟨2, [], [], [], 2, 2, [], false, [], []⟩, false, ⟨0, datetimeMax_pos⟩⟩], by decide⟩
  unique := by decide

/-- A boardroom with a proposal that nobody has approved. -/
def pendingBudget : BoardroomServer where
  boardrooms := boardroomSeven
  members := seats
  proposals := ⟨[⟨10, 7, alice.id, "Budget", .pending, none⟩], List.nodup_singleton _⟩
  shares := budgetShares
  timelock := ⟨⟨Dict.empty⟩, Dict.empty⟩
  stegano := ⟨[]⟩

theorem asCreated_pendingBudget : AsCreated 10 pendingBudget where
  proposal proposal hproposal := by
    obtain rfl := Option.some.inj hproposal
    exact ⟨rfl, ⟨7, 2⟩, rfl, by decide⟩
  shares row hrow _ := by
    refine ⟨?_, _, rfl⟩
    rcases mem_pair.mp hrow with rfl | rfl <;> rfl

/-- Both members hand in their shares before either of them counts. -/
def overlapping : List (Move Request Circumstances) :=
  .arrive (.approveProposal alice 10) :: .arrive (.approveProposal bob 10) ::
  stepsOf 0 [0, 0] ++ stepsOf 1 [0, 0, 0] ++ stepsOf 0 [0, 0] ++ stepsOf 1 [0, 0, 0] ++
  stepsOf 0 [0, 0]

def afterOverlapping : Office :=
  (Pool.start pendingBudget).run (exec plainAes WordClass.least) (routine plainAes) overlapping

theorem overlapping_facts :
    Along (Pool.step (exec plainAes WordClass.least) (routine plainAes)) (Pool.Admitted Succeeds)
      (Pool.start pendingBudget) overlapping ∧
    Quiescent afterOverlapping ∧
    afterOverlapping.history.state.proposals.get? 10
      = some ⟨10, 7, alice.id, "Budget", .executed, none⟩ ∧
    afterOverlapping.history.state.boardrooms.get? 7 = some ⟨7, 2⟩ ∧
    (sharesOf afterOverlapping.history.state 10).length ≤ 100 := by
  decide

/-- The proposal is executed, and both shares are counted. -/
theorem executed_iff_approved_overlapping :
    Quiescent afterOverlapping ∧ ∃ proposal,
      afterOverlapping.history.state.proposals.get? 10 = some proposal ∧
      (proposal.status = .executed ↔
        2 ≤ ((submittedShares (sharesOf afterOverlapping.history.state 10)).length : ℤ)) := by
  obtain ⟨hmoves, hquiescent, hproposal, hboardroom, hlimit⟩ := overlapping_facts
  exact ⟨hquiescent, _, hproposal, executed_iff_approved plainAes WordClass.least
    asCreated_pendingBudget overlapping hmoves rfl hquiescent hproposal hboardroom hlimit⟩

end TrustFlow.TrustDocs.Boardrooms
