import TrustFlow.TrustDocs.Session

/-!
# When a proposal can be read

A proposal that was accepted should stay within reach of the members: each of them can
approve it, and once enough have done so each of them can read it.

* `ensures_unlockProposal` — what `unlock_proposal` answers a member once enough shares
  are handed in: an empty text that was put together is taken for a failure.
* `Available` — every member can approve, and read.
* `available_iff` — a proposal is available exactly if its content is not empty or has a
  time-lock, and the boardroom has no more members than `find_many` returns rows.
-/

namespace TrustFlow.TrustDocs.Boardrooms

open Library SecretSharing Stegano TimeLock List

/-! ## Unlocking -/

section

variable {aes : AesGcm} {words : WordClass} {s : BoardroomServer} {proposal : Proposal} {deal : Deal}
  {approved : Finset Uuid}

/-- The shares of a proposal fit into the limit of a query. -/
theorem Posted.mem_findMany (h : Posted aes s proposal deal approved) {env : Circumstances}
    {row : ShareRow} (hrow : row ∈ s.shares.rows) (hof : row.proposalId = proposal.id) :
    row ∈ s.shares.table.findMany env.shares (fun row => row.createdAt.1) Server.findManyLimit
      fun row => decide (row.proposalId = proposal.id) := by
  refine Table.mem_findMany hrow (decide_eq_true hof) ?_
  have hmatching : ∀ row ∈ s.shares.rows.filter fun row => decide (row.proposalId = proposal.id),
      row ∈ s.shares.rows ∧ row.proposalId = proposal.id := fun row hmem =>
    (mem_filter.mp hmem).imp_right of_decide_eq_true
  have hnodup : ((s.shares.rows.filter fun row => decide (row.proposalId = proposal.id)).map
      ShareRow.userId).Nodup :=
    ShareTable.nodup_userIds (s.shares.table.nodup_rows.filter _) hmatching
  have hsubset : (s.shares.rows.filter fun row => decide (row.proposalId = proposal.id)).map
      ShareRow.userId ⊆ deal.members := by
    intro userId huser
    obtain ⟨row, hmem, rfl⟩ := mem_map.mp huser
    obtain ⟨hmem, hof⟩ := hmatching row hmem
    exact ((h.dealt row hmem hof).1.shareData_eq h.fair).1
  have hcount := (subperm_of_subset hnodup hsubset).length_le
  rw [length_map] at hcount
  calc (s.shares.table.notLater _ _ row).length
      ≤ (s.shares.rows.filter fun row => decide (row.proposalId = proposal.id)).length :=
        length_filter_le _ _
    _ ≤ deal.members.length := hcount
    _ ≤ 100 := h.fair.length_le

/-- The shares of all who have approved are read. -/
theorem Posted.card_le_submitted (h : Posted aes s proposal deal approved) {env : Circumstances}
    {allShares : List ShareRow} (hrun : (Query.shares proposal.id).run env s = some (s, allShares)) :
    approved.card ≤ (submittedShares allShares).length := by
  have hfound := (some_mk_inj hrun).2
  have hsubset : approved ⊆ ((submittedShares allShares).map ShareRow.userId).toFinset := by
    intro userId huser
    obtain ⟨row, hrow, hholder⟩ := h.held userId (h.approved_mem userId huser)
    obtain ⟨hof, rfl⟩ := Prod.mk.inj hholder
    rw [mem_toFinset]
    refine mem_map_of_mem (mem_filter.mpr ⟨?_, (h.dealt row hrow hof).2.mpr huser⟩)
    rw [← hfound]
    exact h.mem_findMany hrow hof
  calc approved.card ≤ ((submittedShares allShares).map ShareRow.userId).toFinset.card :=
        Finset.card_le_card hsubset
    _ ≤ ((submittedShares allShares).map ShareRow.userId).length := toFinset_card_le _
    _ = (submittedShares allShares).length := length_map _

/-- The time-lock of the proposal, if there is one, is active at all times of a request. -/
def LockActive (s : BoardroomServer) (lockId : Option Str) (envs : ℕ → Circumstances) : Prop :=
  ∀ id, lockId = some id → ∀ i, (s.timelock.getStatus (envs i).now id).2 = .active

/-- A document with the content, marked for the user. -/
def Delivers (words : WordClass) (user : User) (content : Str) (envs : ℕ → Circumstances)
    (outcome : Except Failure Response) : Prop :=
  ∃ document i, outcome = .ok (.unlocked document) ∧ document.content
    = SteganoEngine.embedText words .all content user.peerId (isoformat (envs i).now.1) 0

variable {envs : ℕ → Circumstances}

/-- Calls with the circumstances of a request. -/
abbrev CalmIn (envs : ℕ → Circumstances) (c : Call) (env : Circumstances) (s : BoardroomServer) :
    Prop :=
  Calm c env s ∧ ∃ i, env = envs i

variable (proposal) in
/-- The last steps: the mark, and the time that is left. -/
theorem ensures_watermark (user : User) (content : Str) (s : BoardroomServer) :
    Ensures (exec aes words) (CalmIn envs) (fun _ outcome => Delivers words user content envs outcome)
      (do
        let watermarked ← perform (.watermark content user.peerId)
        let remaining ← remainingTime proposal.lockId
        return .unlocked ⟨proposal.title, watermarked, proposal.status, true, remaining⟩) s := by
  rintro env ⟨-, i, rfl⟩
  have hmark : (exec aes words (.watermark content user.peerId) (envs i) s).2
      = SteganoEngine.embedText words .all content user.peerId (isoformat (envs i).now.1) 0 :=
    exec_watermark _ _
  generalize exec aes words (.watermark content user.peerId) (envs i) s = marked at hmark ⊢
  obtain ⟨s', watermarked⟩ := marked
  dsimp only at hmark ⊢
  unfold remainingTime
  split
  · exact ⟨_, i, rfl, hmark⟩
  · intro env _
    exact ⟨_, i, rfl, hmark⟩

variable (proposal) in
/-- The steps from the text that was split to the end. -/
theorem ensures_opening (hwraps : Sealed aes s.timelock deal proposal.lockId)
    (hactive : LockActive s proposal.lockId envs) (user : User) :
    Ensures (exec aes words) (CalmIn envs)
      (fun _ outcome => Delivers words user deal.request.content envs outcome)
      (do
        let plaintext ← removeTimeLock proposal.lockId deal.payload
        let watermarked ← perform (.watermark plaintext user.peerId)
        let remaining ← remainingTime proposal.lockId
        return .unlocked ⟨proposal.title, watermarked, proposal.status, true, remaining⟩) s := by
  have hmark : Ensures (exec aes words) (CalmIn envs) _ _ s :=
    ensures_watermark proposal user deal.request.content s
  unfold removeTimeLock
  cases hlock : proposal.lockId with
  | none =>
    rw [hlock] at hwraps hmark
    rw [hwraps.2]
    exact hmark
  | some lockId =>
    rw [hlock] at hwraps hmark
    obtain ⟨-, hne, encrypted, key, expiry, hpayload, hlockId, hopens, hheld⟩ := hwraps
    rw [truthy_some hne, hpayload]
    rintro env ⟨-, i, rfl⟩
    have hstatus := hactive lockId hlock i
    rw [exec]
    dsimp only
    rw [(TimeLockEngine.getStatus_active hstatus).1, hstatus]
    rw [EncryptedContent.parse_dumped]
    rintro env ⟨-, j, rfl⟩
    obtain ⟨-, key', expiry', hkey, hnow⟩ :=
      TimeLockEngine.getStatus_active (hactive lockId hlock j)
    -- the key is the one under which the content was encrypted
    obtain ⟨rfl, rfl⟩ := Prod.mk.inj (hheld.2 _ hkey)
    rw [exec, TimeLockEngine.decrypt_of_key (hlockId.symm ▸ hkey) hnow, hopens]
    exact hmark

/-- **Unlocking**, by a member, once enough shares are handed in: the document, unless
the text that was split is empty. -/
theorem ensures_unlockProposal (h : Posted aes s proposal deal approved) {user : User}
    (hmember : ⟨proposal.boardroomId, user.id⟩ ∈ s.members.rows)
    (henough : deal.threshold ≤ approved.card) (hactive : LockActive s proposal.lockId envs) :
    Ensures (exec aes words) (CalmIn envs)
      (fun _ outcome => if deal.payload = [] then
          outcome = .error (.http 500 "Cryptographic reconstruction failed. Invalid shares.")
        else Delivers words user deal.request.content envs outcome)
      (unlockProposal aes user proposal.id) s := by
  have hcalm : ∀ c env s, CalmIn envs c env s → Calm c env s := fun _ _ _ h => h.1
  obtain ⟨status, hstored⟩ := h.stored
  refine ensures_reading hcalm (fun _ _ => ⟨_, rfl⟩) fun env found hrun => ?_
  have hget := (some_mk_inj hrun).2
  obtain rfl := hget.symm.trans (Table.get?_eq_some_iff.mpr ⟨hstored, rfl⟩)
  refine ensures_reading hcalm (fun _ _ => ⟨_, rfl⟩) fun env found hrun => ?_
  have hget := (some_mk_inj hrun).2
  obtain rfl := hget.symm.trans (Table.get?_eq_some_iff.mpr ⟨h.room, rfl⟩)
  refine ensures_reading hcalm (fun _ _ => ⟨_, rfl⟩) fun env found hrun => ?_
  have hget := (some_mk_inj hrun).2
  obtain rfl := hget.symm.trans (Table.get?_eq_some_iff.mpr ⟨hmember, rfl⟩)
  refine ensures_reading hcalm (fun _ _ => ⟨_, rfl⟩) fun env allShares hrun => ?_
  obtain ⟨hrows, hnodup⟩ := submitted_of_run hrun
  have hcount := h.card_le_submitted hrun
  have hdealt : ∀ row ∈ submittedShares allShares, deal.Dealt aes row := fun row hrow =>
    (h.dealt row (hrows row hrow).1 (hrows row hrow).2.1).1
  dsimp only
  rw [if_neg (by omega), reconstruct_eq h.fair hdealt hnodup (by omega)]
  by_cases hpayload : deal.payload = []
  · rw [if_pos hpayload]
    show ite _ _ _
    rw [if_pos hpayload]
  · rw [if_neg hpayload]
    refine (ensures_opening { proposal with status := status } h.wraps hactive
      user).mono fun s' outcome hdelivers => ?_
    rw [if_neg hpayload]
    exact hdelivers

end

/-! ## Availability -/

/-- No database failure, and nothing random that matters. -/
def calmly : Circumstances where
  now := ⟨0, datetimeMax_pos⟩
  fails := false
  fresh := 0
  members := Plan.stored _
  shares := Plan.stored _
  lock := ⟨List.replicate 32 '0', List.length_replicate, fixedCoins.aesKey, fixedCoins.aesKey_length, []⟩
  coins := fixedCoins

section

variable (aes : AesGcm) (words : WordClass)

/-- What comes out if the request is served next. -/
def Session.outcome (session : Session) (request : Request) (envs : ℕ → Circumstances) :
    Except Failure Response :=
  ((routine aes request).complete (exec aes words) envs session.state).2

/-- Whatever requests come next, every member can approve the proposal, and once enough
have approved every member can read it. -/
def Available (session : Session) (memberIds : Finset Uuid) (thresholdM : ℤ) (proposalId : Uuid)
    (content : Str) : Prop :=
  ∀ later, Along (Session.step aes words) (Session.Admits aes words) session later →
    ∀ member : User, member.id ∈ memberIds → ∀ envs,
      ((session.run aes words later).Admits aes words
          ⟨.request (.approveProposal member proposalId), envs⟩ →
        member.id ∉ approvers (session.run aes words later).records proposalId →
        ∃ message status, (session.run aes words later).outcome aes words
          (.approveProposal member proposalId) envs = .ok (.approved message status)) ∧
      ((session.run aes words later).Admits aes words
          ⟨.request (.unlockProposal member proposalId), envs⟩ →
        thresholdM ≤ (approvers (session.run aes words later).records proposalId).card →
        (∀ proposal, (session.run aes words later).state.proposals.get? proposalId = some proposal →
          LockActive (session.run aes words later).state proposal.lockId envs) →
        Delivers words member content envs ((session.run aes words later).outcome aes words
          (.unlockProposal member proposalId) envs))

end

section

variable {aes : AesGcm} {words : WordClass} {session : Session} {proposal : Proposal} {deal : Deal}

/-- The text that was split is empty only if nothing was there to split. -/
theorem Sealed.payload_eq_nil {engine : TimeLockEngine} {lockId : Option Str}
    (h : Sealed aes engine deal lockId) :
    deal.payload = [] ↔ deal.request.content = [] ∧ deal.request.ttlSeconds = none := by
  cases lockId with
  | none =>
    rw [h.2]
    exact (and_iff_left h.1).symm
  | some lockId =>
    obtain ⟨httl, -, encrypted, -, -, hpayload, -⟩ := h
    rw [hpayload]
    exact iff_of_false encrypted.dumped_ne_nil fun hnone => httl hnone.2

variable {ids : Finset Uuid} {thresholdM : ℤ} {user : User}

/-- In a boardroom that is not too large, every member has a share. -/
theorem Posted.mem_members {s : BoardroomServer} {approved : Finset Uuid}
    (h : Posted aes s proposal deal approved)
    (hseated : Seated s proposal.boardroomId thresholdM ids) (hcard : ids.card ≤ 100)
    {userId : Uuid} (huser : userId ∈ ids) : userId ∈ deal.members := by
  rcases h.full with hlength | hall
  · have hsubset : deal.members.toFinset ⊆ ids := by
      intro userId huser
      exact (hseated.members userId).mp (h.seats userId (mem_toFinset.mp huser))
    have hall : deal.members.toFinset = ids := by
      refine Finset.eq_of_subset_of_card_le hsubset ?_
      rw [toFinset_card_of_nodup h.fair.nodup, hlength]
      exact hcard
    rw [← hall] at huser
    exact mem_toFinset.mp huser
  · exact hall userId ((hseated.members userId).mpr huser)

theorem Posted.threshold_eq {s : BoardroomServer} {approved : Finset Uuid}
    (h : Posted aes s proposal deal approved)
    (hseated : Seated s proposal.boardroomId thresholdM ids) : deal.threshold = thresholdM := by
  have hsame : (⟨proposal.boardroomId, deal.threshold⟩ : Boardroom)
      = ⟨proposal.boardroomId, thresholdM⟩ := Table.eq_of_key_eq h.room hseated.room rfl
  exact (Boardroom.mk.inj hsame).2

theorem Session.records_subset_step (session : Session) (turn : Turn) :
    session.records ⊆ (session.step aes words turn).records := by
  obtain ⟨event, envs⟩ := turn
  cases event with
  | createBoardroom => exact subset_append_left _ _
  | request => exact subset_append_left _ _

theorem Session.records_subset_run (session : Session) (turns : List Turn) :
    session.records ⊆ (session.run aes words turns).records := by
  induction turns generalizing session with
  | nil => exact List.Subset.refl _
  | cons turn turns ih =>
    exact List.Subset.trans (session.records_subset_step turn) (ih (session.step aes words turn))

/-- A member with a share who has not approved yet can do so. -/
theorem approves_of_posted {envs : ℕ → Circumstances} (hlinked : Linked session.state)
    (hposted : Posted aes session.state proposal deal (approvers session.records proposal.id))
    (hadmits : session.Admits aes words ⟨.request (.approveProposal user proposal.id), envs⟩)
    (huser : user.id ∈ deal.members) (hnew : user.id ∉ approvers session.records proposal.id) :
    ∃ message status, session.outcome aes words (.approveProposal user proposal.id) envs
      = .ok (.approved message status) := by
  have happroves : Approves session.state user proposal.id _
      (session.outcome aes words (.approveProposal user proposal.id) envs) :=
    (ensures_approveProposal (fun _ _ _ h => h) hlinked user proposal.id).complete hadmits
  generalize session.outcome aes words (.approveProposal user proposal.id) envs = outcome
    at happroves ⊢
  cases happroves with
  | accepted message status => exact ⟨message, status, rfl⟩
  | refused e hstate hnone =>
    obtain ⟨row, hrow, hholder⟩ := hposted.held user.id huser
    obtain ⟨hof, hsame⟩ := Prod.mk.inj hholder
    have happroved := (hposted.dealt row hrow hof).2.mp (hnone row hrow hholder)
    exact absurd (hsame ▸ happroved) hnew

/-- What a member gets once enough members have approved. -/
theorem unlocks_of_posted {envs : ℕ → Circumstances}
    (hposted : Posted aes session.state proposal deal (approvers session.records proposal.id))
    (hadmits : session.Admits aes words ⟨.request (.unlockProposal user proposal.id), envs⟩)
    (hmember : ⟨proposal.boardroomId, user.id⟩ ∈ session.state.members.rows)
    (henough : deal.threshold ≤ (approvers session.records proposal.id).card)
    (hactive : LockActive session.state proposal.lockId envs) :
    if deal.payload = [] then
      session.outcome aes words (.unlockProposal user proposal.id) envs
        = .error (.http 500 "Cryptographic reconstruction failed. Invalid shares.")
    else Delivers words user deal.request.content envs
      (session.outcome aes words (.unlockProposal user proposal.id) envs) :=
  (ensures_unlockProposal hposted hmember henough hactive).complete
    (hadmits.of_range (P := fun env => ∃ i, env = envs i) fun i => ⟨i, rfl⟩)

/-- **Enough for availability.** -/
theorem available_of_readable {users : UserTable} {owner initiator : User}
    {roomReq : BoardroomCreateRequest} {req : ProposalRequest} {boardroomId proposalId : Uuid}
    {expiresAt : Option Str} (hkept : session.Kept aes)
    (hroom : .room users owner roomReq (.ok boardroomId) ∈ session.records)
    (hproposal : .served (.createProposal initiator boardroomId req)
      (.ok (.created proposalId expiresAt)) ∈ session.records)
    (hreadable : req.content ≠ [] ∨ req.ttlSeconds ≠ none)
    (hcard : (memberIds users owner roomReq).card ≤ 100) :
    Available aes words session (memberIds users owner roomReq) roomReq.thresholdM proposalId
      req.content := by
  intro later hlater member hmember envs
  have hkept' := hkept.run hlater
  have hrecords : session.records ⊆ (session.run aes words later).records :=
    session.records_subset_run later
  generalize session.run aes words later = now at hkept' hrecords ⊢
  have hseated := hkept'.seated _ _ _ _ (hrecords hroom)
  obtain ⟨proposal, deal, rfl, rfl, rfl, hposted⟩ := hkept'.posted _ _ _ _ _ (hrecords hproposal)
  constructor
  · intro hadmits hnew
    exact approves_of_posted hkept'.linked hposted hadmits
      (hposted.mem_members hseated hcard hmember) hnew
  · intro hadmits henough hactive
    obtain ⟨status, hstored⟩ := hposted.stored
    have hactive := hactive _ (Table.get?_eq_some_iff.mpr ⟨hstored, rfl⟩)
    have hunlocks := unlocks_of_posted hposted hadmits ((hseated.members _).mpr hmember)
      (hposted.threshold_eq hseated ▸ henough) hactive
    have hpayload : ¬ deal.payload = [] := by
      rw [hposted.wraps.payload_eq_nil, not_and_or]
      exact hreadable
    rw [if_neg hpayload] at hunlocks
    exact hunlocks

/-! ### What stands in the way -/

/-- Approving draws no lock id. -/
theorem allCalls_approveProposal (user : User) (proposalId : Uuid) :
    (approveProposal user proposalId).AllCalls Call.Drawless := by
  refine (allCalls_query trivial _).bind fun record => ?_
  rcases record with _ | record
  · trivial
  dsimp only
  split
  · trivial
  refine (allCalls_query trivial _).bind fun _ => ?_
  refine (allCalls_query trivial _).bind fun proposal => ?_
  rcases proposal with _ | proposal
  · trivial
  refine (allCalls_query trivial _).bind fun boardroom => ?_
  rcases boardroom with _ | boardroom
  · trivial
  refine (allCalls_query trivial _).bind fun allShares => ?_
  split
  · exact (allCalls_query trivial _).bind fun _ => trivial
  · trivial

theorem admits_of_drawless (request : Request) (h : (routine aes request).AllCalls Call.Drawless)
    (session : Session) :
    session.Admits aes words ⟨.request request, fun _ => calmly⟩ :=
  h.admitted (fun _ _ _ hdrawless => ⟨rfl, hdrawless.fresh _ _⟩) session.state

theorem admits_approve (session : Session) (user : User) (proposalId : Uuid) :
    session.Admits aes words ⟨.request (.approveProposal user proposalId), fun _ => calmly⟩ :=
  admits_of_drawless (.approveProposal user proposalId) (allCalls_approveProposal user proposalId)
    session

theorem admits_unlock (session : Session) (user : User) (proposalId : Uuid) :
    session.Admits aes words ⟨.request (.unlockProposal user proposalId), fun _ => calmly⟩ :=
  admits_of_drawless (.unlockProposal user proposalId)
    ((allCalls_unlockProposal aes user proposalId).mono fun _ h => h.2) session

/-- A request that is served is recorded with what came out. -/
theorem records_step_request (session : Session) (request : Request) (envs : ℕ → Circumstances) :
    (session.step aes words ⟨.request request, envs⟩).records
      = session.records ++ [.served request (session.outcome aes words request envs)] :=
  rfl

section

variable (hkept : session.Kept aes)
  (hposted : Posted aes session.state proposal deal (approvers session.records proposal.id))
include hkept hposted

/-- A member with a share has approved after asking to, now or before. -/
theorem mem_approvers_step (huser : user.id ∈ deal.members) :
    user.id ∈ approvers (session.step aes words
      ⟨.request (.approveProposal user proposal.id), fun _ => calmly⟩).records proposal.id := by
  have hadmits : session.Admits aes words _ := admits_approve session user proposal.id
  rw [records_step_request, approvers_append, Finset.mem_union, mem_handedTo]
  by_cases hold : user.id ∈ approvers session.records proposal.id
  · exact Or.inl hold
  · obtain ⟨message, status, houtcome⟩ := approves_of_posted hkept.linked hposted hadmits huser hold
    rw [houtcome]
    exact Or.inr rfl

/-- All who hold a share may approve, one after the other. -/
theorem exists_approvals (ids : List Uuid) (hids : ∀ id ∈ ids, id ∈ deal.members) :
    ∃ later, Along (Session.step aes words) (Session.Admits aes words) session later ∧
      Posted aes (session.run aes words later).state proposal deal
        (approvers (session.run aes words later).records proposal.id) ∧
      ∀ id ∈ ids, id ∈ approvers (session.run aes words later).records proposal.id := by
  induction ids generalizing session with
  | nil => exact ⟨[], trivial, hposted, fun _ h => by cases h⟩
  | cons id ids ih =>
    let user : User := ⟨id, [], []⟩
    let turn : Turn := ⟨.request (.approveProposal user proposal.id), fun _ => calmly⟩
    have hadmits : session.Admits aes words turn := admits_approve session user proposal.id
    have hevolves := (ensures_routine hkept.linked (.approveProposal user proposal.id)).complete
      hadmits
    have hposted' : Posted aes (session.step aes words turn).state proposal deal
        (approvers (session.step aes words turn).records proposal.id) := by
      have hlater := hposted.evolves hevolves
      rw [← approvers_append] at hlater
      exact hlater
    obtain ⟨later, hlater, hposted'', hall⟩ := ih (hkept.step hadmits) hposted' fun id' hid =>
      hids id' (mem_cons_of_mem _ hid)
    refine ⟨turn :: later, ⟨hadmits, hlater⟩, hposted'', fun id' hid => ?_⟩
    rcases mem_cons.mp hid with rfl | hid
    · have hnow : user.id ∈ approvers (session.step aes words turn).records proposal.id :=
        mem_approvers_step hkept hposted (hids id' mem_cons_self)
      obtain ⟨user', response, hsame, hmem⟩ := mem_approvers.mp hnow
      exact mem_approvers.mpr ⟨user', response, hsame,
        (session.step aes words turn).records_subset_run later hmem⟩
    · exact hall id' hid

/-- With too many members, one of them has no share. -/
theorem card_le_of_available {content : Str}
    (havailable : Available aes words session ids thresholdM proposal.id content) :
    ids.card ≤ 100 := by
  by_contra hcard
  have hlength : deal.members.toFinset.card < ids.card := by
    rw [toFinset_card_of_nodup hposted.fair.nodup]
    have hmax := hposted.fair.length_le
    omega
  obtain ⟨id, hid, hshare⟩ := Finset.exists_mem_notMem_of_card_lt_card hlength
  rw [mem_toFinset] at hshare
  have hadmits : session.Admits aes words _ := admits_approve session ⟨id, [], []⟩ proposal.id
  have happroves : Approves session.state ⟨id, [], []⟩ proposal.id _
      (session.outcome aes words (.approveProposal ⟨id, [], []⟩ proposal.id) fun _ => calmly) :=
    (ensures_approveProposal (fun _ _ _ h => h) hkept.linked ⟨id, [], []⟩ proposal.id).complete hadmits
  have happroved : ∃ message status, session.outcome aes words
      (.approveProposal ⟨id, [], []⟩ proposal.id) (fun _ => calmly) = .ok (.approved message status) :=
    (havailable [] trivial ⟨id, [], []⟩ hid _).1 hadmits fun happrover =>
      hshare (hposted.approved_mem id happrover)
  generalize session.outcome aes words (.approveProposal ⟨id, [], []⟩ proposal.id)
    (fun _ => calmly) = outcome at happroves happroved
  cases happroves with
  | accepted message status hrecord hholder =>
    obtain ⟨hof, hsame⟩ := Prod.mk.inj hholder
    have hdealt := ((hposted.dealt _ hrecord hof).1.shareData_eq hposted.fair).1
    rw [hsame] at hdealt
    exact hshare hdealt
  | refused e hstate hnone =>
    obtain ⟨_, _, herror⟩ := happroved
    cases herror

/-- An empty content without a time-lock is never read. -/
theorem readable_of_available {users : UserTable} {owner : User} {roomReq : BoardroomCreateRequest}
    {content : Str} (hroom : .room users owner roomReq (.ok proposal.boardroomId) ∈ session.records)
    (havailable : Available aes words session (memberIds users owner roomReq) roomReq.thresholdM
      proposal.id content) :
    deal.request.content ≠ [] ∨ deal.request.ttlSeconds ≠ none := by
  rw [← not_and_or, ← hposted.wraps.payload_eq_nil]
  intro hpayload
  -- everybody approves, and then somebody asks for the proposal
  obtain ⟨later, hlater, hposted', hall⟩ : ∃ later, Along (Session.step aes words) _ session later ∧ _ :=
    exists_approvals hkept hposted deal.members fun _ hid => hid
  have hrecords : session.records ⊆ (session.run aes words later).records :=
    session.records_subset_run later
  have hseated := (hkept.run hlater).seated _ _ _ _ (hrecords hroom)
  specialize havailable later hlater
  generalize session.run aes words later = now at hposted' hall hseated havailable
  have hthreshold := hposted'.fair.threshold_ge
  have hlength := hposted'.fair.threshold_le
  have henough : deal.threshold ≤ (approvers now.records proposal.id).card := by
    have hsubset : deal.members.toFinset ⊆ approvers now.records proposal.id := fun id hid =>
      hall id (mem_toFinset.mp hid)
    have hcount := Finset.card_le_card hsubset
    rw [toFinset_card_of_nodup hposted'.fair.nodup] at hcount
    omega
  obtain ⟨id, hid⟩ : ∃ id, id ∈ deal.members := exists_mem_of_length_pos (by omega)
  have hseat := hposted'.seats id hid
  have hadmits : now.Admits aes words _ := admits_unlock now ⟨id, [], []⟩ proposal.id
  have hactive : LockActive now.state proposal.lockId fun _ => calmly := by
    intro lockId hlock
    have hwraps := hposted'.wraps
    rw [hlock] at hwraps
    obtain ⟨-, -, encrypted, -, -, hdumped, -⟩ := hwraps
    exact absurd (hdumped.symm.trans hpayload) encrypted.dumped_ne_nil
  have hfails := unlocks_of_posted hposted' hadmits hseat henough hactive
  rw [if_pos hpayload] at hfails
  obtain ⟨document, -, hdocument, -⟩ := (havailable ⟨id, [], []⟩ ((hseated.members id).mp hseat)
    fun _ => calmly).2 hadmits (hposted'.threshold_eq hseated ▸ henough) fun stored hstored => by
      obtain ⟨status, hmem⟩ := hposted'.stored
      rw [Table.get?_eq_some_iff.mpr ⟨hmem, rfl⟩] at hstored
      rw [← Option.some.inj hstored]
      exact hactive
  cases hfails.symm.trans hdocument

end

/-- **A proposal that was accepted is available** to the members of its boardroom exactly
if there is something to read, or a time-lock around nothing, and the boardroom has at
most a hundred members.  Otherwise the text that was put together is taken for a failure,
or some member got no share. -/
theorem available_iff (aes : AesGcm) (words : WordClass) (stegano : SteganoEngine)
    (turns : List Turn)
    (hturns : Along (Session.step aes words) (Session.Admits aes words) (Session.start stegano) turns)
    {users : UserTable} {owner initiator : User} {roomReq : BoardroomCreateRequest}
    {req : ProposalRequest} {boardroomId proposalId : Uuid} {expiresAt : Option Str}
    (hroom : .room users owner roomReq (.ok boardroomId) ∈
      ((Session.start stegano).run aes words turns).records)
    (hproposal : .served (.createProposal initiator boardroomId req)
      (.ok (.created proposalId expiresAt)) ∈ ((Session.start stegano).run aes words turns).records) :
    Available aes words ((Session.start stegano).run aes words turns)
        (memberIds users owner roomReq) roomReq.thresholdM proposalId req.content ↔
      (req.content ≠ [] ∨ req.ttlSeconds ≠ none) ∧ (memberIds users owner roomReq).card ≤ 100 := by
  have hkept := (Session.kept_start aes stegano).run hturns
  constructor
  · intro havailable
    obtain ⟨proposal, deal, rfl, rfl, rfl, hposted⟩ := hkept.posted _ _ _ _ _ hproposal
    exact ⟨readable_of_available hkept hposted hroom havailable,
      card_le_of_available hkept hposted havailable⟩
  · rintro ⟨hreadable, hcard⟩
    exact available_of_readable hkept hroom hproposal hreadable hcard

end

/-! ### Two proposals -/

/-- Two users. -/
def circle : UserTable := ⟨⟨[alice, bob], by decide⟩, by decide⟩

/-- A boardroom of both, that needs both approvals. -/
def pair : BoardroomCreateRequest := ⟨2, ["bob"]⟩

/-- Circumstances with the UUIDs that are drawn. -/
def drawing (fresh : List Uuid) (i : ℕ) : Circumstances := { calmly with fresh := fresh.getD i 0 }

/-- A boardroom is created, a proposal is made, and both members approve it. -/
def meeting (req : ProposalRequest) : List Turn :=
  [⟨.createBoardroom circle (Plan.stored _) alice pair, drawing [0, 0, 7]⟩,
    ⟨.request (.createProposal alice 7 req), drawing [0, 0, 0, 0, 10, 11, 12]⟩,
    ⟨.request (.approveProposal alice 10), drawing []⟩,
    ⟨.request (.approveProposal bob 10), drawing []⟩]

/-- The session of a meeting. -/
def sessionOf (turns : List Turn) : Session :=
  (Session.start ⟨[]⟩).run plainAes WordClass.least turns

theorem mem_records_meeting :
    .room circle alice pair (.ok 7) ∈ (sessionOf (meeting budget)).records ∧
      .served (.createProposal alice 7 budget) (.ok (.created 10 none)) ∈
        (sessionOf (meeting budget)).records := by
  have hroom : ((createBoardroom (Plan.stored _) alice pair).complete (execRoom circle)
      (drawing [0, 0, 7]) (Session.start ⟨[]⟩).state).2 = .ok 7 := by decide
  have hproposal : (sessionOf ((meeting budget).take 1)).outcome plainAes WordClass.least
      (.createProposal alice 7 budget) (drawing [0, 0, 0, 0, 10, 11, 12])
        = .ok (.created 10 none) := by decide
  constructor
  · rw [← hroom]
    exact mem_cons_self
  · rw [← hproposal]
    exact mem_cons_of_mem _ mem_cons_self

/-- A proposal with a content is available. -/
theorem available_budget :
    Available plainAes WordClass.least (sessionOf (meeting budget)) (memberIds circle alice pair) 2 10
      "Spend it" :=
  (available_iff plainAes WordClass.least ⟨[]⟩ (meeting budget) (by decide)
    mem_records_meeting.1 mem_records_meeting.2).mpr ⟨Or.inl (by decide), by decide⟩

/-- The meeting keeps its boardroom and its proposal. -/
theorem session_kept_budget : (sessionOf (meeting budget)).Kept plainAes :=
  session_kept plainAes .least ⟨[]⟩ (by decide)

/-- A proposal without a content. -/
def blank : ProposalRequest := ⟨"Budget", [], none, ttl_ge_none⟩

/-- The outcome of a request. -/
def Record.outcome : Record → Except Failure (Uuid ⊕ Response)
  | .room _ _ _ outcome => outcome.map .inl
  | .served _ outcome => outcome.map .inr

/-- **A proposal that was accepted, and approved by all, and that nobody can read.** -/
theorem blank_unreadable :
    Along (Session.step plainAes WordClass.least) (Session.Admits plainAes WordClass.least)
        (Session.start ⟨[]⟩) (meeting blank ++ [⟨.request (.unlockProposal bob 10), drawing []⟩]) ∧
      (sessionOf (meeting blank ++ [⟨.request (.unlockProposal bob 10), drawing []⟩])).records.map
          Record.outcome
        = [.ok (.inl 7), .ok (.inr (.created 10 none)),
          .ok (.inr (.approved "Cryptographic share yielded to pool." .pending)),
          .ok (.inr (.approved
            "Cryptographic share yielded to pool. Threshold met. Document unlocked." .executed)),
          .error (.http 500 "Cryptographic reconstruction failed. Invalid shares.")] := by
  decide +kernel

end TrustFlow.TrustDocs.Boardrooms
