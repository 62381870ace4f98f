import TrustFlow.TrustDocs.Approval
import TrustFlow.TrustDocs.Availability

/-!
# What a failed `create_proposal` leaves behind

`create_proposal` stores the proposal first and then one share for each member, every row
with a call of its own; an exception of any call is answered with an internal error, and
nothing is taken back.

* `AllOrNothing` — a request that ends with an error leaves proposals and shares as they
  were, and a proposal that it adds has a share for each member.
* `Completes` — what this asks of a call: a share is stored, and a proposal is only added
  to a boardroom that `find_many` reads as a whole.
* `creation_atomic_iff` — the request is all or nothing exactly if its calls do so.
-/

namespace TrustFlow.TrustDocs.Boardrooms

open Library SecretSharing Stegano TimeLock List Table
open Server (findManyLimit)

/-! ## All or nothing -/

/-- The members of a boardroom. -/
def membersOf (s : BoardroomServer) (boardroomId : Uuid) : List Member :=
  s.members.rows.filter fun member => decide (member.boardroomId = boardroomId)

/-- The proposal has no fewer shares than its boardroom has members. -/
def Covered (s : BoardroomServer) (proposal : Proposal) : Prop :=
  (membersOf s proposal.boardroomId).length ≤ (sharesOf s proposal.id).length

instance (s : BoardroomServer) (proposal : Proposal) : Decidable (Covered s proposal) :=
  Nat.decLe _ _

/-- What is asked of a request that takes the server from `s` to `s'`. -/
structure AllOrNothing (s s' : BoardroomServer) (outcome : Except Failure Response) : Prop where
  unchanged : ∀ e, outcome = .error e → s'.proposals = s.proposals ∧ s'.shares = s.shares
  covered : ∀ proposal ∈ s'.proposals.rows, proposal ∉ s.proposals.rows → Covered s' proposal

/-- The database carries out the call: it does not fail, and no constraint is violated. -/
def Query.Succeeds (q : Query) (env : Circumstances) (s : BoardroomServer) : Prop :=
  env.fails = false ∧ (q.run env s).isSome = true

instance (q : Query) (env : Circumstances) (s : BoardroomServer) : Decidable (q.Succeeds env s) :=
  instDecidableAnd

/-- Shares are stored, and proposals only for a boardroom with no more members than
`find_many` returns rows. -/
def Completes : Call → Circumstances → BoardroomServer → Prop
  | .db (.insertProposal boardroomId initiatorId title lockId), env, s =>
    (Query.insertProposal boardroomId initiatorId title lockId).Succeeds env s →
      (membersOf s boardroomId).length ≤ findManyLimit
  | .db (.insertShare proposalId userId shareData), env, s =>
    (Query.insertShare proposalId userId shareData).Succeeds env s
  | _, _, _ => True

/-! ## The calls of the route -/

section

variable {aes : AesGcm} {words : WordClass} {s : BoardroomServer} {p : Prop} {α : Type}
  {Post : BoardroomServer × Prop → Except Failure α → Prop}

/-- A database call fails, or it is carried out. -/
theorem exec_db_succeeds (q : Query) (env : Circumstances) (s : BoardroomServer) :
    ¬ q.Succeeds env s ∧ exec aes words (.db q) env s = (s, none) ∨
      q.Succeeds env s ∧ ∃ s' result, q.run env s = some (s', result) ∧
        exec aes words (.db q) env s = (s', some result) := by
  unfold exec Query.Succeeds
  dsimp only
  cases env.fails with
  | true => simp
  | false =>
    cases hrun : q.run env s with
    | none => simp
    | some result => exact Or.inr ⟨⟨rfl, rfl⟩, result.1, result.2, rfl, rfl⟩

theorem ensures_noted {q : Query} {internal : Str} {f : q.Result → Handler α}
    (hfails : ∀ env, ¬ q.Succeeds env s →
      Post (s, p ∧ Completes (.db q) env s) (.error (.http 500 internal)))
    (h : ∀ env s' result, q.Succeeds env s → q.run env s = some (s', result) →
      Ensures (noting (exec aes words) Completes) (fun _ _ _ => True) Post (f result)
        (s', p ∧ Completes (.db q) env s)) :
    Ensures (noting (exec aes words) Completes) (fun _ _ _ => True) Post (query internal q >>= f)
      (s, p) := by
  intro env _
  unfold noting
  dsimp only
  rcases exec_db_succeeds q env s with ⟨hnot, hexec⟩ | ⟨hsucceeds, s', result, hrun, hexec⟩
  · rw [hexec]
    exact hfails env hnot
  · rw [hexec]
    exact h env s' result hsucceeds hrun

/-- A call that reads: it may fail, and asks for nothing. -/
theorem ensures_noted_reading {q : Query} (hreads : q.Reads) {internal : Str}
    {f : q.Result → Handler α} (hcompletes : ∀ env, Completes (.db q) env s) (hp : p)
    (hfails : ∀ p' : Prop, p' → Post (s, p') (.error (.http 500 internal)))
    (h : ∀ env result (p' : Prop), p' → q.run env s = some (s, result) →
      Ensures (noting (exec aes words) Completes) (fun _ _ _ => True) Post (f result) (s, p')) :
    Ensures (noting (exec aes words) Completes) (fun _ _ _ => True) Post (query internal q >>= f)
      (s, p) := by
  refine ensures_noted (fun env _ => hfails _ ⟨hp, hcompletes env⟩) fun env s' result _ hrun => ?_
  obtain rfl := hreads.state_eq hrun
  exact h env result _ ⟨hp, hcompletes env⟩ hrun

/-- The loop that stores the shares.  It ends with an error exactly if one of them was not
stored; otherwise there is one row for each. -/
theorem ensures_noted_insertShares (proposalId : Uuid) (list : List (Member × Share)) :
    Ensures (noting (exec aes words) Completes) (fun _ _ _ => True)
      (fun s' outcome => ∃ (shares : ShareTable) (added : List ShareRow),
        s'.1 = { s with shares := shares } ∧ shares.rows = s.shares.rows ++ added ∧
        (∀ row ∈ added, row.proposalId = proposalId) ∧
        match outcome with
        | .ok _ => added.length = list.length ∧ (s'.2 ↔ p)
        | .error _ => ¬ s'.2)
      (insertShares proposalId list) (s, p) := by
  induction list generalizing s p with
  | nil => exact ⟨s.shares, [], rfl, (append_nil _).symm, by simp, rfl, Iff.rfl⟩
  | cons entry list ih =>
    refine ensures_noted (fun env hfails => ?_) fun env s' result hsucceeds hrun => ?_
    · exact ⟨s.shares, [], rfl, (append_nil _).symm, by simp, fun hnote => hfails hnote.2⟩
    obtain ⟨shares, hinsert, ⟨⟩⟩ := Option.map_eq_some_iff.mp hrun
    refine ih.mono fun s'' outcome h => ?_
    obtain ⟨shares', added, hstate, hrows, hadded, houtcome⟩ := h
    refine ⟨shares', ⟨env.fresh, proposalId, entry.1.userId, entry.2, false, env.now⟩ :: added,
      hstate, ?_, ?_, ?_⟩
    · rw [hrows, ShareTable.rows_of_insert? hinsert, append_assoc]
      rfl
    · simpa using hadded
    · cases outcome with
      | error e => exact houtcome
      | ok _ =>
        refine ⟨by simp [houtcome.1], houtcome.2.trans ?_⟩
        exact and_iff_left hsucceeds

end

/-! ## The route -/

section

variable {s : BoardroomServer}

/-- A request that stores nothing is all or nothing. -/
theorem allOrNothing_of_same {s' : BoardroomServer} (hproposals : s'.proposals = s.proposals)
    (hshares : s'.shares = s.shares) (outcome : Except Failure Response) :
    AllOrNothing s s' outcome where
  unchanged _ _ := ⟨hproposals, hshares⟩
  covered _ hmem hnew := absurd (hproposals ▸ hmem) hnew

/-- How many members are read. -/
theorem members_le_read {env : Circumstances} {boardroomId : Uuid} {allMembers : List Member}
    (hrun : (Query.members boardroomId).run env s = some (s, allMembers)) :
    (membersOf s boardroomId).length ≤ allMembers.length ↔
      (membersOf s boardroomId).length ≤ findManyLimit := by
  obtain ⟨-, rfl⟩ := some_mk_inj hrun
  constructor
  · intro h
    exact h.trans length_findMany_le
  · intro h
    exact (findMany_perm h).length_eq.ge

/-- Rows of a proposal that comes after them. -/
theorem sharesOf_of_added (hlinked : Linked s) {new : Proposal} {proposals : Table Proposal.id}
    (hinsert : s.proposals.insert? new = some proposals) {s' : BoardroomServer}
    {added : List ShareRow} (hrows : s'.shares.rows = s.shares.rows ++ added)
    (hadded : ∀ row ∈ added, row.proposalId = new.id) : sharesOf s' new.id = added := by
  have hnone : s.shares.rows.filter (fun row => decide (row.proposalId = new.id)) = [] := by
    apply filter_eq_nil_iff.mpr
    intro row hrow hof
    have hlink := hlinked.shares row hrow
    rw [of_decide_eq_true hof] at hlink
    exact notMem_of_insert? hinsert hlink
  have hall : added.filter (fun row => decide (row.proposalId = new.id)) = added :=
    filter_eq_self.mpr fun row hrow => decide_eq_true (hadded row hrow)
  rw [sharesOf, hrows, filter_append, hnone, hall, nil_append]

variable {aes : AesGcm} {words : WordClass}

/-- The second half of `create_proposal`, on a server `s'` with the tables of `s`. -/
theorem ensures_noted_splitAndStore (hlinked : Linked s) {s' : BoardroomServer}
    (hproposals : s'.proposals = s.proposals) (hshares : s'.shares = s.shares)
    (hmembers : s'.members = s.members) {user : User} {boardroomId : Uuid} {title payload : Str}
    {threshold : ℤ} {allMembers : List Member} {encrypted : Option EncryptedContent} {p : Prop}
    (hread : (membersOf s boardroomId).length ≤ allMembers.length ↔
      (membersOf s boardroomId).length ≤ findManyLimit) (hp : p) :
    Ensures (noting (exec aes words) Completes) (fun _ _ _ => True)
      (fun s'' outcome => AllOrNothing s s''.1 outcome ↔ s''.2)
      (splitAndStore user boardroomId title threshold allMembers payload encrypted) (s', p) := by
  have hfail : ∀ (q : Prop) (e : Failure), q → (AllOrNothing s s' (.error e) ↔ q) := fun q e hq =>
    iff_of_true (allOrNothing_of_same hproposals hshares _) hq
  intro env _
  unfold noting
  dsimp only
  rw [exec]
  dsimp only
  rcases hsplit : splitSecret aes env.coins payload threshold allMembers.length with _ | ⟨shares, _⟩
  · exact hfail _ _ ⟨hp, trivial⟩
  have hlength : (allMembers.zip shares).length = allMembers.length := by
    obtain ⟨-, -, _, -, rfl⟩ := splitSecret_ok hsplit
    simp
  refine ensures_noted (fun env hfails => ?_) fun env s'' proposal hsucceeds hrun => ?_
  · exact hfail _ _ ⟨⟨hp, trivial⟩, fun hsucceeds => absurd hsucceeds hfails⟩
  obtain ⟨proposals, hinsert, ⟨⟩⟩ := Option.map_eq_some_iff.mp hrun
  rw [hproposals] at hinsert
  have hmembersOf : membersOf s' boardroomId = membersOf s boardroomId := by
    rw [membersOf, hmembers, membersOf]
  -- from here on the proposal is there, whatever becomes of the shares
  have hrowsNew := rows_of_insert? hinsert
  have hchanged : proposals ≠ s.proposals := by
    intro hsame
    rw [hsame] at hrowsNew
    simpa using congrArg List.length hrowsNew
  refine Ensures.bind (ensures_noted_insertShares _ _) (fun _ s''' h => ?_) fun e s''' h => ?_
  · obtain ⟨table, added, hstate, hrows, hadded, hcount, hnote⟩ := h
    have hof : sharesOf s'''.1 env.fresh = added :=
      sharesOf_of_added hlinked hinsert (by rw [hstate, ← hshares]; exact hrows) hadded
    have hcovered : Covered s'''.1 ⟨env.fresh, boardroomId, user.id, title, .pending,
          truthy (encrypted.map fun e => e.metadata.lockId)⟩ ↔
        (membersOf s boardroomId).length ≤ findManyLimit := by
      rw [← hread, Covered, hof, hcount, hlength, hstate, ← hmembersOf]
      rfl
    have hnoted : s'''.2 ↔ (membersOf s boardroomId).length ≤ findManyLimit := by
      rw [hnote, ← hmembersOf]
      exact ⟨fun h => h.2 hsucceeds, fun h => ⟨⟨hp, trivial⟩, fun _ => h⟩⟩
    show AllOrNothing s s'''.1 _ ↔ s'''.2
    rw [hnoted, ← hcovered]
    constructor
    · intro h
      refine h.covered _ ?_ ?_
      · rw [hstate]
        exact (mem_of_insert? hinsert).mpr (Or.inr rfl)
      · intro hold
        exact notMem_of_insert? hinsert (mem_map_of_mem hold)
    · intro h
      refine ⟨fun _ herror => (by cases herror), fun proposal hmem hnew => ?_⟩
      rw [hstate] at hmem
      rcases (mem_of_insert? hinsert).mp hmem with hold | rfl
      · exact absurd hold hnew
      · exact h
  · obtain ⟨table, added, hstate, -, -, hnote⟩ := h
    refine iff_of_false (fun h => hchanged ?_) hnote
    have hsame := (h.unchanged e rfl).1
    rwa [hstate] at hsame

/-- **Creation is all or nothing** exactly if every share is stored, and no proposal is added
to a boardroom with more members than `find_many` returns rows. -/
theorem creation_atomic_iff (aes : AesGcm) (words : WordClass) {s : BoardroomServer}
    (hlinked : Linked s) (user : User) (boardroomId : Uuid) (req : ProposalRequest)
    (envs : ℕ → Circumstances) :
    AllOrNothing s ((createProposal user boardroomId req).complete (exec aes words) envs s).1
        ((createProposal user boardroomId req).complete (exec aes words) envs s).2 ↔
      (createProposal user boardroomId req).Admitted (exec aes words) Completes envs s := by
  suffices hensures : Ensures (noting (exec aes words) Completes) (fun _ _ _ => True)
      (fun s' outcome => AllOrNothing s s'.1 outcome ↔ s'.2) (createProposal user boardroomId req)
      (s, True) from Routine.iff_admitted hensures envs
  have hfail : ∀ (s' : BoardroomServer) (p : Prop) (e : Failure), s'.proposals = s.proposals →
      s'.shares = s.shares → p → (AllOrNothing s s' (.error e) ↔ p) := fun s' p e hproposals hshares hp =>
    iff_of_true (allOrNothing_of_same hproposals hshares _) hp
  refine ensures_noted_reading (fun _ _ => ⟨_, rfl⟩) (fun _ => trivial) trivial
    (fun p hp => hfail s p _ rfl rfl hp) fun _ boardroom p₁ hp₁ _ => ?_
  rcases boardroom with _ | boardroom
  · exact hfail s p₁ _ rfl rfl hp₁
  refine ensures_noted_reading (fun _ _ => ⟨_, rfl⟩) (fun _ => trivial) hp₁
    (fun p hp => hfail s p _ rfl rfl hp) fun _ member p₂ hp₂ _ => ?_
  rcases member with _ | member
  · exact hfail s p₂ _ rfl rfl hp₂
  refine ensures_noted_reading (fun _ _ => ⟨_, rfl⟩) (fun _ => trivial) hp₂
    (fun p hp => hfail s p _ rfl rfl hp) fun _ allMembers p₃ hp₃ hmembers => ?_
  have hread := members_le_read hmembers
  dsimp only
  unfold applyTimeLock
  split
  · exact ensures_noted_splitAndStore hlinked rfl rfl rfl hread hp₃
  · next ttl _ =>
      intro env _
      unfold noting
      dsimp only
      rcases exec_encrypt req.content ttl with hexec | ⟨timelock, encrypted, -, hexec⟩
      · rw [hexec]
        exact hfail s _ _ rfl rfl ⟨hp₃, trivial⟩
      · rw [hexec]
        have hnote : p₃ ∧ Completes (.encrypt req.content ttl) env s := ⟨hp₃, trivial⟩
        show Ensures (noting (exec aes words) Completes) _ _
          (splitAndStore user boardroomId req.title boardroom.thresholdM allMembers encrypted.dumped
            (some encrypted)) ({ s with timelock := timelock }, _)
        refine ensures_noted_splitAndStore hlinked ?_ ?_ ?_ hread hnote <;> rfl

end

/-! ### A share that is not stored -/

/-- A boardroom without proposals. -/
def vacantRoom : BoardroomServer := opening boardroomSeven seats ⟨[]⟩

theorem linked_vacantRoom : Linked vacantRoom := by
  refine ⟨?_, ?_, ?_⟩ <;> decide

/-- Circumstances with the UUIDs that are drawn, in which one call fails. -/
def failingAt (n : ℕ) (i : ℕ) : Circumstances :=
  { drawing [0, 0, 0, 0, 10, 11, 12] i with fails := decide (i = n) }

/-- If the members cannot be read, nothing is stored. -/
theorem creation_atomic_unread :
    AllOrNothing vacantRoom
      ((createProposal alice 7 budget).complete (exec plainAes .least) (failingAt 2) vacantRoom).1
      ((createProposal alice 7 budget).complete (exec plainAes .least) (failingAt 2) vacantRoom).2 :=
  (creation_atomic_iff plainAes .least linked_vacantRoom alice 7 budget (failingAt 2)).mpr
    ⟨trivial, trivial, trivial, trivial⟩

/-- **The second share is not stored.**  The request is answered with an error, and leaves a
proposal with one share in a boardroom of two. -/
theorem proposal_left_behind :
    let run := (createProposal alice 7 budget).complete (exec plainAes .least) (failingAt 6) vacantRoom
    Linked vacantRoom ∧ run.2 = .error (.http 500 errorCreating) ∧
      vacantRoom.proposals.rows = [] ∧
      run.1.proposals.rows = [⟨10, 7, alice.id, "Budget", .pending, none⟩] ∧
      (sharesOf run.1 10).length = 1 ∧ (membersOf run.1 7).length = 2 :=
  ⟨linked_vacantRoom, by decide⟩

end TrustFlow.TrustDocs.Boardrooms
