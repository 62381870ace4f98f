import TrustFlow.TrustDocs.Boardroom

/-!
# What it takes to read a proposal

Whoever reads a proposal is a member of its boardroom, enough members have approved
it, and what is read is what was proposed, whatever order the steps of all requests
come in.

* `Grows` — what may change on a server: proposals and shares are added, shares are
  handed in, proposals are executed, keys of time-locks go.
* `Deal` — how the shares of a proposal were dealt.  No table holds that; the proof
  remembers it for every proposal (`Deals`).
* `Intact` — the invariant: every proposal and every share is backed by a deal, and
  every share that was handed in was handed in by its holder.
* `Released` — what is known when a proposal is read.
* `unlocked_released` — every document that `unlock_proposal` returns is released.
-/

namespace TrustFlow.TrustDocs.Boardrooms

open Library SecretSharing Stegano TimeLock List Table World

/-! ## How a server changes -/

/-- The server has grown. -/
structure Grows (s s' : BoardroomServer) : Prop where
  boardrooms : s'.boardrooms = s.boardrooms
  members : s'.members = s.members
  proposals : ∀ p ∈ s.proposals.rows, ∃ status, { p with status } ∈ s'.proposals.rows
  shares : ∀ row ∈ s.shares.rows, row ∈ s'.shares.rows ∨ row.submit ∈ s'.shares.rows
  timelock : s.timelock ≤ s'.timelock

instance : Preorder BoardroomServer where
  le := Grows
  le_refl s := ⟨rfl, rfl, fun p hp => ⟨p.status, hp⟩, fun _ hrow => .inl hrow, le_rfl⟩
  le_trans s s' s'' h h' := by
    refine ⟨h'.boardrooms.trans h.boardrooms, h'.members.trans h.members, ?_, ?_,
      h.timelock.trans h'.timelock⟩
    · intro p hp
      obtain ⟨status, hp'⟩ := h.proposals p hp
      obtain ⟨status', hp''⟩ := h'.proposals _ hp'
      exact ⟨status', hp''⟩
    · intro row hrow
      rcases h.shares row hrow with hrow' | hrow'
      · exact h'.shares row hrow'
      · exact .inr ((h'.shares _ hrow').elim id id)

variable {s s' : BoardroomServer}

/-- A share that was handed in stays. -/
theorem Grows.submitted (h : s ≤ s') {row : ShareRow}
    (hrow : row ∈ s.shares.rows) (hsubmitted : row.submitted = true) : row ∈ s'.shares.rows := by
  have hsame : row.submit = row := by rw [ShareRow.submit, ← hsubmitted]
  rcases h.shares row hrow with hrow' | hrow'
  · exact hrow'
  · exact hsame ▸ hrow'

/-- The row with the id of a known share has its holder. -/
theorem Grows.holder (h : s ≤ s') {row row' : ShareRow}
    (hrow : row ∈ s.shares.rows) (hrow' : row' ∈ s'.shares.rows) (hid : row'.id = row.id) :
    row'.holder = row.holder := by
  rcases h.shares row hrow with hlater | hlater
  · rw [eq_of_key_eq hrow' hlater hid]
  · rw [eq_of_key_eq hrow' hlater hid, ShareRow.holder_submit]

/-- The lock id that is drawn has not been drawn before. -/
def FreshLock : Call → Circumstances → BoardroomServer → Prop
  | .encrypt _ _, env, s => ¬ s.timelock.Known env.lock.lockId
  | _, _, _ => True

instance decidableFreshLock : ∀ c env s, Decidable (FreshLock c env s)
  | .encrypt _ _, env, s => inferInstanceAs (Decidable (¬ s.timelock.Known env.lock.lockId))
  | .db _, _, _ | .split _ _ _, _, _ | .lockStatus _, _, _ | .decrypt _, _, _
  | .remainingTime _, _, _ | .watermark _ _, _, _ | .destroy _, _, _ | .cleanup, _, _ =>
    isTrue trivial

/-! ## Deals -/

/-- How the shares of a proposal were dealt: who proposed what, the text that was
split, the random choices, and the members who got the shares `1`, `2`, …. -/
structure Deal where
  creator : User
  request : ProposalRequest
  payload : Str
  coins : Coins
  chunks : List Bytes
  threshold : ℤ
  members : List Uuid

namespace Deal

/-- The share of the member at a position. -/
def share (aes : AesGcm) (deal : Deal) (i : ℕ) : Share :=
  shareAt aes deal.coins deal.payload deal.threshold deal.members.length deal.chunks (i + 1)

/-- The row holds the share of its member. -/
def Dealt (aes : AesGcm) (deal : Deal) (row : ShareRow) : Prop :=
  ∃ i, deal.members[i]? = some row.userId ∧ row.shareData = deal.share aes i

/-- The split succeeded, and no member got two shares. -/
structure Fair (deal : Deal) : Prop where
  threshold_ge : 2 ≤ deal.threshold
  threshold_le : deal.threshold ≤ deal.members.length
  length_le : deal.members.length ≤ 100
  nodup : deal.members.Nodup
  chunks : splitIntoChunks (sharedBytes deal.coins deal.payload) = .ok deal.chunks

end Deal

/-- The deals so far, by proposal. -/
structure Deals where
  at? : Uuid → Option Deal

instance : Preorder Deals where
  le deals deals' := ∀ id deal, deals.at? id = some deal → deals'.at? id = some deal
  le_refl _ _ _ h := h
  le_trans _ _ _ h h' id deal hdeal := h' id deal (h id deal hdeal)

/-- One more deal. -/
def Deals.add (deals : Deals) (id : Uuid) (deal : Deal) : Deals :=
  ⟨fun id' => if id' = id then some deal else deals.at? id'⟩

theorem Deals.at?_add_self (deals : Deals) (id : Uuid) (deal : Deal) :
    (deals.add id deal).at? id = some deal := if_pos rfl

theorem Deals.le_add {deals : Deals} {id : Uuid} {deal : Deal} (h : deals.at? id = none) :
    deals ≤ deals.add id deal := by
  intro id' deal' hdeal
  have hne : id' ≠ id := by
    rintro rfl
    cases h.symm.trans hdeal
  exact (if_neg hne).trans hdeal

/-! ## The invariant -/

/-- A call that was made. -/
abbrev LogEntry := Entry Request Call Circumstances BoardroomServer

/-- The calls so far, and the server after them. -/
abbrev Log := History Request Call Circumstances BoardroomServer

/-- The call that put a proposal into its table. -/
structure Inserts (entry : LogEntry) (proposal : Proposal) : Prop where
  call : entry.call = .db (.insertProposal proposal.boardroomId proposal.initiatorId proposal.title
    proposal.lockId)
  fresh : entry.env.fresh = proposal.id
  succeeds : entry.env.fails = false
  new : proposal.id ∉ entry.state.proposals.rows.map Proposal.id

/-- The call that put a time-lock on the content of a request. -/
structure Locks (entry : LogEntry) (request : ProposalRequest) (lockId : Str) (expiry : Instant) :
    Prop where
  call : ∃ ttl, request.ttlSeconds = some ttl ∧ entry.call = .encrypt request.content ttl ∧
    addSeconds entry.env.now ttl = some expiry
  drawn : entry.env.lock.lockId = lockId

/-- The text that was split is the content, or its encryption under the time-lock. -/
def Wraps (aes : AesGcm) (log : Log) (boardroomId : Uuid) (deal : Deal) : Option Str → Prop
  | none => deal.request.ttlSeconds = none ∧ deal.payload = deal.request.content
  | some lockId => lockId ≠ [] ∧ ∃ entry ∈ log.past, ∃ expiry encrypted,
      entry.request = .createProposal deal.creator boardroomId deal.request ∧
      Locks entry deal.request lockId expiry ∧ deal.payload = encrypted.dumped ∧
      encrypted.metadata.lockId = lockId ∧
      TimeLockEngine.openWith aes entry.env.lock.key encrypted = some deal.request.content ∧
      log.state.timelock.Held lockId entry.env.lock.key expiry

/-- The deal is the deal of the proposal. -/
structure Backs (aes : AesGcm) (log : Log) (proposal : Proposal) (deal : Deal) : Prop where
  fair : deal.Fair
  boardroom : ⟨proposal.boardroomId, deal.threshold⟩ ∈ log.state.boardrooms.rows
  members : ∀ userId ∈ deal.members, ⟨proposal.boardroomId, userId⟩ ∈ log.state.members.rows
  wraps : Wraps aes log proposal.boardroomId deal proposal.lockId
  created : ∃ entry ∈ log.past,
    entry.request = .createProposal deal.creator proposal.boardroomId deal.request ∧
    Inserts entry proposal

/-- The holder of the share handed it in, in a request of their own. -/
def HandedIn (log : Log) (row : ShareRow) : Prop :=
  ∃ entry ∈ log.past, ∃ user, entry.request = .approveProposal user row.proposalId ∧
    user.id = row.userId ∧ entry.call = .db (.submit row.id) ∧ entry.env.fails = false

/-- A log with the deals behind it. -/
abbrev Annotated := World Request Call Circumstances BoardroomServer Deals

/-- The invariant. -/
structure Intact (aes : AesGcm) (w : Annotated) : Prop where
  coherent : w.history.state.timelock.Coherent
  backed : ∀ p ∈ w.history.state.proposals.rows,
    ∃ deal, w.ghost.at? p.id = some deal ∧ Backs aes w.history p deal
  dealt : ∀ row ∈ w.history.state.shares.rows,
    ∃ deal, w.ghost.at? row.proposalId = some deal ∧ deal.Dealt aes row
  handedIn : ∀ row ∈ w.history.state.shares.rows, row.submitted = true → HandedIn w.history row
  known : ∀ id deal, w.ghost.at? id = some deal → id ∈ w.history.state.proposals.rows.map Proposal.id

section

variable {aes : AesGcm} {log log' : Log}

theorem Wraps.mono {boardroomId : Uuid} {deal : Deal} {lockId : Option Str}
    (h : Wraps aes log boardroomId deal lockId) (hpast : log.past ⊆ log'.past)
    (hstate : log.state ≤ log'.state) : Wraps aes log' boardroomId deal lockId := by
  cases lockId with
  | none => exact h
  | some lockId =>
    obtain ⟨hne, entry, hentry, expiry, encrypted, hrequest, hlocks, hpayload, hlockId, hopens,
      hheld⟩ := h
    exact ⟨hne, entry, hpast hentry, expiry, encrypted, hrequest, hlocks, hpayload, hlockId,
      hopens, hheld.mono hstate.timelock⟩

/-- A deal stays behind its proposal, whatever status that gets. -/
theorem Backs.mono {proposal : Proposal} {deal : Deal} (h : Backs aes log proposal deal)
    (hpast : log.past ⊆ log'.past) (hstate : log.state ≤ log'.state) (status : ProposalStatus) :
    Backs aes log' { proposal with status } deal where
  fair := h.fair
  boardroom := hstate.boardrooms ▸ h.boardroom
  members := hstate.members ▸ h.members
  wraps := h.wraps.mono hpast hstate
  created := by
    obtain ⟨entry, hentry, hrequest, hinserts⟩ := h.created
    exact ⟨entry, hpast hentry, hrequest, hinserts.call, hinserts.fresh, hinserts.succeeds,
      hinserts.new⟩

theorem HandedIn.mono {row : ShareRow} (h : HandedIn log row) (hpast : log.past ⊆ log'.past) :
    HandedIn log' row := by
  obtain ⟨entry, hentry, hrest⟩ := h
  exact ⟨entry, hpast hentry, hrest⟩

end

/-! ## Releases -/

/-- The approval of a user is recorded. -/
def Approval (log : Log) (proposalId userId : Uuid) : Prop :=
  ∃ row ∈ log.state.shares.rows, row.holder = (proposalId, userId) ∧ row.submitted = true ∧
    HandedIn log row

/-- A time-lock was respected by a thread: it was there and not over when the content
was decrypted. -/
def Respected (log : Log) (thread : ℕ) (creator : User) (boardroomId : Uuid)
    (request : ProposalRequest) : Option Str → Prop
  | none => request.ttlSeconds = none
  | some lockId => ∃ opened ∈ log.past, ∃ made ∈ log.past, ∃ encrypted expiry,
      opened.thread = thread ∧ opened.call = .decrypt encrypted ∧
      encrypted.metadata.lockId = lockId ∧
      opened.state.timelock.Live opened.env.now lockId ∧
      made.request = .createProposal creator boardroomId request ∧
      Locks made request lockId expiry ∧ opened.env.now.1 ≤ expiry.1

/-- The user is a member of the proposal's boardroom, and enough members have
approved it. -/
structure Entitled (log : Log) (user : User) (proposal : Proposal) (boardroom : Boardroom) :
    Prop where
  stored : ∃ status, { proposal with status } ∈ log.state.proposals.rows
  room : boardroom ∈ log.state.boardrooms.rows
  room_id : boardroom.id = proposal.boardroomId
  member : ⟨boardroom.id, user.id⟩ ∈ log.state.members.rows
  approved : ∃ approvers : List Uuid, approvers.Nodup ∧ boardroom.thresholdM ≤ approvers.length ∧
    ∀ userId ∈ approvers, ⟨boardroom.id, userId⟩ ∈ log.state.members.rows ∧
      Approval log proposal.id userId

/-- The content is what was proposed, marked for the user, and a time-lock on it was
respected. -/
def Original (words : WordClass) (log : Log) (thread : ℕ) (user : User) (proposal : Proposal)
    (content : Str) : Prop :=
  ∃ creator request, ∃ entry ∈ log.past,
    entry.request = .createProposal creator proposal.boardroomId request ∧ Inserts entry proposal ∧
    Respected log thread creator proposal.boardroomId request proposal.lockId ∧
    ∃ now : Instant, content
      = SteganoEngine.embedText words .all request.content user.peerId (isoformat now.1) 0

/-- A thread may hand the content of a proposal to a user. -/
def Released (words : WordClass) (log : Log) (thread : ℕ) (user : User) (proposalId : Uuid)
    (content : Str) : Prop :=
  ∃ proposal boardroom, proposal.id = proposalId ∧ Entitled log user proposal boardroom ∧
    Original words log thread user proposal content

section

variable {log log' : Log} (hpast : log.past ⊆ log'.past) (hstate : log.state ≤ log'.state)
include hpast

theorem Respected.mono {thread : ℕ} {creator : User} {boardroomId : Uuid} {req : ProposalRequest}
    {lockId : Option Str} (h : Respected log thread creator boardroomId req lockId) :
    Respected log' thread creator boardroomId req lockId := by
  cases lockId with
  | none => exact h
  | some lockId =>
    obtain ⟨opened, hopened, made, hmade, hrest⟩ := h
    exact ⟨opened, hpast hopened, made, hpast hmade, hrest⟩

include hstate

theorem Approval.mono {proposalId userId : Uuid} (h : Approval log proposalId userId) :
    Approval log' proposalId userId := by
  obtain ⟨row, hrow, hholder, hsubmitted, hhanded⟩ := h
  exact ⟨row, Grows.submitted hstate hrow hsubmitted, hholder, hsubmitted, hhanded.mono hpast⟩

theorem Entitled.mono {user : User} {proposal : Proposal} {boardroom : Boardroom}
    (h : Entitled log user proposal boardroom) : Entitled log' user proposal boardroom where
  stored := by
    obtain ⟨status, hstored⟩ := h.stored
    obtain ⟨status', hstored'⟩ := hstate.proposals _ hstored
    exact ⟨status', hstored'⟩
  room := hstate.boardrooms ▸ h.room
  room_id := h.room_id
  member := hstate.members ▸ h.member
  approved := by
    obtain ⟨approvers, hnodup, hlength, happrovers⟩ := h.approved
    refine ⟨approvers, hnodup, hlength, fun userId huser => ?_⟩
    obtain ⟨hmember, happroval⟩ := happrovers userId huser
    exact ⟨hstate.members ▸ hmember, happroval.mono hpast hstate⟩

end

/-! ## Steps that write no table -/

/-- Only the engines have changed. -/
structure Quiet (s s' : BoardroomServer) : Prop where
  boardrooms : s'.boardrooms = s.boardrooms
  members : s'.members = s.members
  proposals : s'.proposals = s.proposals
  shares : s'.shares = s.shares
  timelock : s.timelock ≤ s'.timelock
  coherent : s.timelock.Coherent → s'.timelock.Coherent

theorem Quiet.refl (s : BoardroomServer) : Quiet s s := ⟨rfl, rfl, rfl, rfl, le_rfl, id⟩

theorem Quiet.le (h : Quiet s s') : s ≤ s' where
  boardrooms := h.boardrooms
  members := h.members
  proposals p hp := ⟨p.status, h.proposals ▸ hp⟩
  shares _ hrow := .inl (h.shares ▸ hrow)
  timelock := h.timelock

/-- The database call changes nothing. -/
def Query.Reads (q : Query) : Prop := ∀ env s, ∃ result, q.run env s = some (s, result)

/-- The step writes no table. -/
def Call.Reads : Call → Prop
  | .db q => q.Reads
  | _ => True

section

variable {aes : AesGcm} {words : WordClass} {env : Circumstances} {s s' : BoardroomServer} {q : Query}

theorem Query.Reads.state_eq (h : q.Reads) {result : q.Result}
    (hrun : q.run env s = some (s', result)) : s' = s := by
  obtain ⟨result', hsame⟩ := h env s
  exact (some_mk_inj (hrun.symm.trans hsame)).1

theorem Query.Reads.exec_eq (h : q.Reads) : (exec aes words (.db q) env s).1 = s := by
  rcases exec_db q with hexec | ⟨-, s', result, hrun, hexec⟩
  · rw [hexec]
  · rw [hexec, h.state_eq hrun]

theorem quiet_of_loses {timelock : TimeLockEngine} (h : s.timelock.Loses timelock) :
    Quiet s { s with timelock } :=
  ⟨rfl, rfl, rfl, rfl, h.le, h.coherent⟩

theorem quiet_exec {c : Call} (hreads : c.Reads) (hfresh : FreshLock c env s) :
    Quiet s (exec aes words c env s).1 := by
  cases c with
  | db q =>
    rw [Query.Reads.exec_eq hreads]
    exact .refl s
  | encrypt content ttlSeconds =>
    rcases exec_encrypt content ttlSeconds with hexec | ⟨timelock, encrypted, hencrypt, hexec⟩
    · rw [hexec]
      exact .refl s
    · obtain ⟨expiry, hencrypts⟩ := TimeLockEngine.encrypt_some hencrypt
      rw [hexec]
      exact ⟨rfl, rfl, rfl, rfl, hencrypts.le hfresh, hencrypts.coherent⟩
  | split => exact .refl s
  | lockStatus lockId => exact quiet_of_loses (s.timelock.loses_getStatus env.now lockId)
  | decrypt encrypted => exact quiet_of_loses (s.timelock.loses_decrypt env.now encrypted)
  | remainingTime => exact .refl s
  | watermark => exact ⟨rfl, rfl, rfl, rfl, le_rfl, id⟩
  | destroy lockId => exact quiet_of_loses (s.timelock.loses_destroy lockId)
  | cleanup => exact quiet_of_loses (s.timelock.loses_cleanup env.now)

/-- Deals stay behind the proposals, after one more call. -/
theorem Intact.backs_later {w : Annotated} (h : Intact aes w) {entry : LogEntry}
    {s' : BoardroomServer} (hgrows : w.history.state ≤ s') {p : Proposal}
    (hp : p ∈ w.history.state.proposals.rows) (status : ProposalStatus) :
    ∃ deal, w.ghost.at? p.id = some deal ∧
      Backs aes ⟨w.history.past ++ [entry], s'⟩ { p with status } deal := by
  obtain ⟨deal, hdeal, hbacks⟩ := h.backed p hp
  exact ⟨deal, hdeal, hbacks.mono (subset_append_left _ _) hgrows status⟩

theorem Intact.quiet {w : Annotated} (h : Intact aes w) {entry : LogEntry} {s' : BoardroomServer}
    (hquiet : Quiet w.history.state s') :
    Intact aes ⟨⟨w.history.past ++ [entry], s'⟩, w.ghost⟩ where
  coherent := hquiet.coherent h.coherent
  backed p hp := by
    dsimp only at hp
    rw [hquiet.proposals] at hp
    exact h.backs_later hquiet.le hp p.status
  dealt row hrow := by
    dsimp only at hrow
    rw [hquiet.shares] at hrow
    exact h.dealt row hrow
  handedIn row hrow hsubmitted := by
    dsimp only at hrow
    rw [hquiet.shares] at hrow
    exact (h.handedIn row hrow hsubmitted).mono (subset_append_left _ _)
  known id deal hdeal := by
    dsimp only
    rw [hquiet.proposals]
    exact h.known id deal hdeal

end

/-! ## Steps that write a table -/

section

variable {aes : AesGcm} {w : Annotated} {entry : LogEntry}

theorem grows_insertProposal {s : BoardroomServer} {new : Proposal} {proposals : Table Proposal.id}
    (hinsert : s.proposals.insert? new = some proposals) : s ≤ { s with proposals } where
  boardrooms := rfl
  members := rfl
  proposals p hp := ⟨p.status, (mem_of_insert? hinsert).mpr (.inl hp)⟩
  shares _ hrow := .inl hrow
  timelock := le_rfl

/-- A new proposal, with its deal. -/
theorem Intact.insertProposal (h : Intact aes w) {new : Proposal} {proposals : Table Proposal.id}
    (hinsert : w.history.state.proposals.insert? new = some proposals) {deal : Deal}
    (hbacks : Backs aes ⟨w.history.past ++ [entry], { w.history.state with proposals }⟩
      new deal) :
    w.ghost ≤ w.ghost.add new.id deal ∧
      Intact aes ⟨⟨w.history.past ++ [entry], { w.history.state with proposals }⟩,
        w.ghost.add new.id deal⟩ := by
  have hnew := notMem_of_insert? hinsert
  have hnone : w.ghost.at? new.id = none := by
    cases hdeal : w.ghost.at? new.id with
    | none => rfl
    | some deal => exact absurd (h.known _ _ hdeal) hnew
  have hle : w.ghost ≤ w.ghost.add new.id deal := Deals.le_add hnone
  have hgrows := grows_insertProposal hinsert
  refine ⟨hle, h.coherent, fun p hp => ?_, fun row hrow => ?_, fun row hrow hsubmitted => ?_,
    fun id deal' hdeal => ?_⟩
  · rcases (mem_of_insert? hinsert).mp hp with hold | rfl
    · obtain ⟨deal', hdeal, hback⟩ := h.backs_later hgrows hold p.status
      exact ⟨deal', hle _ _ hdeal, hback⟩
    · exact ⟨deal, Deals.at?_add_self _ _ _, hbacks⟩
  · obtain ⟨deal', hdeal, hdealt⟩ := h.dealt row hrow
    exact ⟨deal', hle _ _ hdeal, hdealt⟩
  · exact (h.handedIn row hrow hsubmitted).mono (subset_append_left _ _)
  · refine (mem_keys_of_insert? hinsert).mpr ?_
    by_cases hid : id = new.id
    · exact .inr hid
    · exact .inl (h.known id deal' ((if_neg hid).symm.trans hdeal))

theorem grows_insertShare {s : BoardroomServer} {new : ShareRow} {shares : ShareTable}
    (hinsert : s.shares.insert? new = some shares) : s ≤ { s with shares } where
  boardrooms := rfl
  members := rfl
  proposals p hp := ⟨p.status, hp⟩
  shares _ hrow := .inl ((ShareTable.mem_of_insert? hinsert).mpr (.inl hrow))
  timelock := le_rfl

/-- A new share, as it was dealt. -/
theorem Intact.insertShare (h : Intact aes w) {new : ShareRow} {shares : ShareTable}
    (hinsert : w.history.state.shares.insert? new = some shares) {deal : Deal}
    (hdeal : w.ghost.at? new.proposalId = some deal) (hdealt : deal.Dealt aes new)
    (hnew : new.submitted = false) :
    Intact aes ⟨⟨w.history.past ++ [entry], { w.history.state with shares }⟩,
      w.ghost⟩ where
  coherent := h.coherent
  backed p hp := h.backs_later (grows_insertShare hinsert) hp p.status
  dealt row hrow := by
    rcases (ShareTable.mem_of_insert? hinsert).mp hrow with hold | rfl
    · exact h.dealt row hold
    · exact ⟨deal, hdeal, hdealt⟩
  handedIn row hrow hsubmitted := by
    rcases (ShareTable.mem_of_insert? hinsert).mp hrow with hold | rfl
    · exact (h.handedIn row hold hsubmitted).mono (subset_append_left _ _)
    · cases hnew.symm.trans hsubmitted
  known := h.known

theorem grows_submit (s : BoardroomServer) (shareId : Uuid) :
    s ≤ { s with shares := s.shares.submit shareId } where
  boardrooms := rfl
  members := rfl
  proposals p hp := ⟨p.status, hp⟩
  shares row hrow := by
    by_cases hid : row.id = shareId
    · exact .inr (ShareTable.mem_submit.mpr ⟨row, hrow, if_pos hid⟩)
    · exact .inl (ShareTable.mem_submit.mpr ⟨row, hrow, if_neg hid⟩)
  timelock := le_rfl

/-- A share is handed in, by its holder. -/
theorem Intact.submit (h : Intact aes w) {shareId : Uuid}
    (hholder : ∀ row ∈ w.history.state.shares.rows, row.id = shareId →
      HandedIn ⟨w.history.past ++ [entry], { w.history.state with
        shares := w.history.state.shares.submit shareId }⟩ row) :
    Intact aes ⟨⟨w.history.past ++ [entry], { w.history.state with
      shares := w.history.state.shares.submit shareId }⟩, w.ghost⟩ where
  coherent := h.coherent
  backed p hp := h.backs_later (grows_submit _ shareId) hp p.status
  dealt row hrow := by
    obtain ⟨old, hold, rfl⟩ := ShareTable.mem_submit.mp hrow
    split <;> exact h.dealt old hold
  handedIn row hrow hsubmitted := by
    obtain ⟨old, hold, rfl⟩ := ShareTable.mem_submit.mp hrow
    by_cases hid : old.id = shareId
    · rw [if_pos hid]
      exact hholder old hold hid
    · rw [if_neg hid] at hsubmitted ⊢
      exact (h.handedIn old hold hsubmitted).mono (subset_append_left _ _)
  known := h.known

theorem grows_execute (s : BoardroomServer) (proposalId : Uuid) :
    s ≤ { s with proposals := s.proposals.update Proposal.execute Proposal.id_execute proposalId } where
  boardrooms := rfl
  members := rfl
  proposals p hp := by
    by_cases hid : p.id = proposalId
    · exact ⟨.executed, (mem_update Proposal.id_execute).mpr ⟨p, hp, if_pos hid⟩⟩
    · exact ⟨p.status, (mem_update Proposal.id_execute).mpr ⟨p, hp, if_neg hid⟩⟩
  shares _ hrow := .inl hrow
  timelock := le_rfl

/-- A proposal is executed. -/
theorem Intact.execute (h : Intact aes w) (proposalId : Uuid) :
    Intact aes ⟨⟨w.history.past ++ [entry], { w.history.state with
      proposals := w.history.state.proposals.update Proposal.execute Proposal.id_execute proposalId }⟩,
      w.ghost⟩ where
  coherent := h.coherent
  backed p hp := by
    obtain ⟨old, hold, rfl⟩ := (mem_update Proposal.id_execute).mp hp
    have hgrows := grows_execute w.history.state proposalId
    split
    · exact h.backs_later hgrows hold .executed
    · exact h.backs_later hgrows hold old.status
  dealt := h.dealt
  handedIn row hrow hsubmitted :=
    (h.handedIn row hrow hsubmitted).mono (subset_append_left _ _)
  known id deal hdeal := by
    dsimp only
    rw [map_rows_update Proposal.id_execute]
    exact h.known id deal hdeal

end

/-! ## Rules for the routes -/

section

variable {aes : AesGcm} {words : WordClass} {α : Type} {Post : Log → Except Failure α → Prop}
  {thread : ℕ} {request : Request} {w : Annotated}

variable (aes words) in
/-- The routine keeps the server intact in every interleaving. -/
abbrev Keeps (Post : Log → Except Failure α → Prop) (thread : ℕ) (request : Request)
    (r : Handler α) (w : Annotated) : Prop :=
  Upholds (exec aes words) FreshLock (Intact aes) Post thread request r w

/-- A failure, where nothing is promised of failures. -/
theorem keeps_fail (hfail : ∀ log e, Post log (.error e)) (e : Failure) :
    Keeps aes words Post thread request (.done (.error e)) w := fun w' _ => hfail w'.history e

theorem may_fail (α : Type) (log : Log) (e : Failure) :
    (fun _ _ => True : Log → Except Failure α → Prop) log (.error e) := trivial

/-- A step that writes no table. -/
theorem keeps_step {c : Call} (hreads : c.Reads) {resume : c.Answer → Handler α}
    (h : ∀ w' w'' env, w ≤ w' → Intact aes w' → w' ≤ w'' → Intact aes w'' →
      ⟨thread, request, c, env, w'.history.state⟩ ∈ w''.history.past →
      FreshLock c env w'.history.state →
      (exec aes words c env w'.history.state).1 = w''.history.state →
      Keeps aes words Post thread request (resume (exec aes words c env w'.history.state).2) w'') :
    Keeps aes words Post thread request (.call c resume) w := by
  intro w' hle hinv env hfresh
  have hquiet : Quiet w'.history.state (exec aes words c env w'.history.state).1 :=
    quiet_exec hreads hfresh
  have hnext : w' ≤ w'.after (exec aes words) thread request c env w'.ghost :=
    le_after hquiet.le le_rfl
  refine ⟨w'.ghost, hinv.quiet hquiet, hnext, ?_⟩
  exact h w' _ env hle hinv hnext (hinv.quiet hquiet)
    (mem_past_after (exec aes words) w' thread request c env w'.ghost) hfresh rfl

/-- A database call: the effect of its success is to be shown. -/
theorem keeps_query (hfail : ∀ log e, Post log (.error e)) {q : Query} {internal : Str}
    {f : q.Result → Handler α}
    (h : ∀ w' env s' result, w ≤ w' → Intact aes w' → env.fails = false →
      q.run env w'.history.state = some (s', result) → w'.history.state ≤ s' ∧
      ∃ ghost, w'.ghost ≤ ghost ∧
        Intact aes ⟨⟨w'.history.past ++ [⟨thread, request, .db q, env, w'.history.state⟩], s'⟩,
          ghost⟩ ∧
        Keeps aes words Post thread request (f result)
          ⟨⟨w'.history.past ++ [⟨thread, request, .db q, env, w'.history.state⟩], s'⟩, ghost⟩) :
    Keeps aes words Post thread request (query internal q >>= f) w := by
  intro w' hle hinv env _
  unfold World.after History.after
  rcases exec_db q with hexec | ⟨hsucceeds, s', result, hrun, hexec⟩
  · rw [hexec]
    have hquiet := Quiet.refl w'.history.state
    exact ⟨w'.ghost, hinv.quiet hquiet, ⟨prefix_append _ _, hquiet.le, le_rfl⟩, keeps_fail hfail _⟩
  · rw [hexec]
    obtain ⟨hgrows, ghost, hghost, hnext, hrest⟩ := h w' env s' result hle hinv hsucceeds hrun
    exact ⟨ghost, hnext, ⟨prefix_append _ _, hgrows, hghost⟩, hrest⟩

/-- A database call that changes nothing. -/
theorem keeps_reading (hfail : ∀ log e, Post log (.error e)) {q : Query} (hreads : q.Reads)
    {internal : Str} {f : q.Result → Handler α}
    (h : ∀ w' env result, w ≤ w' → Intact aes w' →
      q.run env w'.history.state = some (w'.history.state, result) →
      Keeps aes words Post thread request (f result) w') :
    Keeps aes words Post thread request (query internal q >>= f) w := by
  refine keeps_query hfail fun w' env s' result hle hinv _ hrun => ?_
  obtain rfl := hreads.state_eq hrun
  have hquiet := Quiet.refl w'.history.state
  exact ⟨le_rfl, w'.ghost, le_rfl, hinv.quiet hquiet,
    (h w' env result hle hinv hrun).mono ⟨prefix_append _ _, le_rfl, le_rfl⟩⟩

/-! ### Approving -/

/-- **Approving keeps the server intact.**  The share that is handed in is the one that
was looked up for the user, although other requests may have come in between. -/
theorem keeps_approveProposal (user : User) (proposalId : Uuid) (thread : ℕ) (w : Annotated) :
    Keeps aes words (fun _ _ => True) thread (.approveProposal user proposalId)
      (approveProposal user proposalId) w := by
  have hfail := may_fail Response
  refine keeps_reading hfail (fun _ _ => ⟨_, rfl⟩) fun w₁ env₁ record _ _ hrecord => ?_
  rcases record with _ | record
  · exact keeps_fail hfail _
  obtain ⟨hmem, hholder⟩ := findOne_spec (some_mk_inj hrecord).2
  dsimp only
  rcases record.submitted with _ | _
  swap
  · exact keeps_fail hfail _
  refine keeps_query hfail fun w₂ env₂ s' _ hle₂ hinv₂ hsucceeds hrun => ?_
  obtain ⟨rfl, -⟩ := some_mk_inj hrun
  refine ⟨grows_submit _ record.id, w₂.ghost, le_rfl, hinv₂.submit ?_, ?_⟩
  · intro row hrow hid
    have hsame := Grows.holder (state_le hle₂) hmem hrow hid
    obtain ⟨hproposal, huser⟩ := Prod.mk.inj (hsame.trans (of_decide_eq_true hholder))
    exact ⟨_, mem_append_right _ (mem_singleton_self _), user,
      congrArg _ hproposal.symm, huser.symm, congrArg (Call.db ∘ .submit) hid.symm, hsucceeds⟩
  refine keeps_reading hfail (fun _ _ => ⟨_, rfl⟩) fun w₃ env₃ proposal _ _ _ => ?_
  rcases proposal with _ | proposal
  · exact keeps_fail hfail _
  refine keeps_reading hfail (fun _ _ => ⟨_, rfl⟩) fun w₄ env₄ boardroom _ _ _ => ?_
  rcases boardroom with _ | boardroom
  · exact keeps_fail hfail _
  refine keeps_reading hfail (fun _ _ => ⟨_, rfl⟩) fun w₅ env₅ allShares _ _ _ => ?_
  split
  · refine keeps_query hfail fun w₆ env₆ s' _ _ hinv₆ _ hrun => ?_
    obtain ⟨rfl, -⟩ := some_mk_inj hrun
    exact ⟨grows_execute _ proposalId, w₆.ghost, le_rfl, hinv₆.execute proposalId,
      fun _ _ => trivial⟩
  · exact fun _ _ => trivial

/-! ### Reconstruction -/

section

variable {deal : Deal} {rows : List ShareRow} {plaintext : Str}

/-- The position of a member is the index of the share, less one. -/
theorem Deal.Dealt.shareData_eq {row : ShareRow} (h : deal.Dealt aes row) (hfair : deal.Fair) :
    row.userId ∈ deal.members ∧ row.shareData = deal.share aes (deal.members.idxOf row.userId) := by
  obtain ⟨i, hi, hshare⟩ := h
  obtain ⟨hlt, hget⟩ := List.getElem?_eq_some_iff.mp hi
  have hidx : deal.members.idxOf row.userId = i := by
    rw [← hget, hfair.nodup.idxOf_getElem]
  exact ⟨mem_of_getElem? hi, by rw [hidx, hshare]⟩

variable (hfair : deal.Fair) (hdealt : ∀ row ∈ rows, deal.Dealt aes row)
  (hnodup : (rows.map ShareRow.userId).Nodup) (hlength : deal.threshold ≤ rows.length)
include hfair hdealt hnodup hlength

/-- Enough shares of different members give the text that was split. -/
theorem reconstructSecret_dealt :
    reconstructSecret aes (rows.map ShareRow.shareData) none = .ok (some deal.payload) := by
  have hshares : rows.map ShareRow.shareData
      = (rows.map fun row => ((deal.members.idxOf row.userId : ℤ) + 1)).map
        (shareAt aes deal.coins deal.payload deal.threshold deal.members.length deal.chunks) := by
    rw [map_map]
    exact map_congr_left fun row hrow => ((hdealt row hrow).shareData_eq hfair).2
  have hbound : ∀ row ∈ rows, deal.members.idxOf row.userId < deal.members.length := fun row hrow =>
    idxOf_lt_length_of_mem ((hdealt row hrow).shareData_eq hfair).1
  have hprime : (100 : ℤ) < PRIME := by norm_num [PRIME]
  have hmax := hfair.length_le
  rw [hshares]
  refine reconstructSecret_shareAt _ _ _ _ _ _ hfair.threshold_ge hfair.chunks ?_ ?_ ?_ (.inl rfl)
  · intro x hx
    obtain ⟨row, hrow, rfl⟩ := mem_map.mp hx
    have hrow' := hbound row hrow
    omega
  · have hindex : (rows.map fun row => ((deal.members.idxOf row.userId : ℤ) + 1))
        = (rows.map ShareRow.userId).map fun userId => ((deal.members.idxOf userId : ℤ) + 1) := by
      rw [map_map]
      rfl
    rw [hindex]
    refine (hnodup.map_on fun userId huser userId' huser' heq => ?_).sublist (take_sublist _ _)
    obtain ⟨row, hrow, rfl⟩ := mem_map.mp huser
    have hmem := ((hdealt row hrow).shareData_eq hfair).1
    exact (idxOf_inj hmem).mp (by omega)
  · rw [length_map]
    exact hlength

/-- What the shares that were handed in are put together to. -/
theorem reconstruct_eq :
    reconstruct aes rows deal.threshold
      = if deal.payload = [] then
          .error (.http 500 "Cryptographic reconstruction failed. Invalid shares.")
        else .ok deal.payload := by
  have hthreshold := hfair.threshold_ge
  have hslice : sliceTo rows deal.threshold = rows.take deal.threshold.toNat := by
    rw [sliceTo, if_neg (by omega)]
  have hsecret : reconstructSecret aes ((sliceTo rows deal.threshold).map ShareRow.shareData) none
      = .ok (some deal.payload) := by
    rw [hslice]
    refine reconstructSecret_dealt hfair (fun row hrow => hdealt row (mem_of_mem_take hrow)) ?_ ?_
    · exact hnodup.sublist ((take_sublist _ _).map _)
    · rw [length_take]
      omega
  rw [reconstruct, hsecret]

theorem reconstruct_dealt
    (h : reconstruct aes rows deal.threshold = .ok plaintext) : plaintext = deal.payload := by
  rw [reconstruct_eq hfair hdealt hnodup hlength] at h
  split at h
  · cases h
  · exact (Except.ok.inj h).symm

end

/-! ### Creating -/

variable {deal : Deal} {s s' : BoardroomServer} {user : User} {proposal : Proposal}
  {boardroom : Boardroom}

/-- The loop that stores the shares: each member gets the share that was dealt. -/
theorem keeps_insertShares {proposalId : Uuid} (list : List (Member × Share))
    (hdeal : w.ghost.at? proposalId = some deal)
    (hlist : ∀ entry ∈ list, ∃ i, deal.members[i]? = some entry.1.userId ∧
      entry.2 = deal.share aes i) :
    Keeps aes words (fun _ _ => True) thread request (insertShares proposalId list) w := by
  induction list generalizing w with
  | nil => exact fun _ _ => trivial
  | cons entry rest ih =>
    obtain ⟨member, share⟩ := entry
    refine keeps_query (fun _ _ => trivial) fun w' env s' _ hle hinv _ hrun => ?_
    obtain ⟨shares, hinsert, ⟨⟩⟩ := Option.map_eq_some_iff.mp hrun
    have hdeal' := ghost_le hle _ _ hdeal
    have hdealt := hlist (member, share) mem_cons_self
    exact ⟨grows_insertShare hinsert, w'.ghost, le_rfl,
      hinv.insertShare hinsert hdeal' hdealt rfl,
      ih hdeal' fun entry hentry => hlist entry (mem_cons_of_mem _ hentry)⟩

/-- The members of a boardroom, as they were read. -/
structure Roster (s : BoardroomServer) (boardroomId : Uuid) (allMembers : List Member) : Prop where
  mem : ∀ member ∈ allMembers, member ∈ s.members.rows
  boardroom : ∀ member ∈ allMembers, member.boardroomId = boardroomId
  nodup : allMembers.Nodup
  length_le : allMembers.length ≤ 100

section

variable {s : BoardroomServer} {boardroomId : Uuid} {allMembers : List Member}
  {req : ProposalRequest} {payload : Str} {coins : Coins} {threshold : ℤ} {shares : List Share}
  {hmacKey : Bytes}

theorem Roster.nodup_userIds (h : Roster s boardroomId allMembers) :
    (allMembers.map Member.userId).Nodup := by
  refine h.nodup.map_on fun member hmember member' hmember' huser => ?_
  have hboardroom := (h.boardroom member hmember).trans (h.boardroom member' hmember').symm
  cases member
  cases member'
  exact Member.mk.injEq .. ▸ ⟨hboardroom, huser⟩

/-- A split that succeeds deals the shares fairly. -/
theorem fair_of_splitSecret (user : User) (req : ProposalRequest)
    (hroster : Roster s boardroomId allMembers)
    (hsplit : splitSecret aes coins payload threshold allMembers.length = .ok (shares, hmacKey)) :
    ∃ chunks, ∃ deal : Deal,
      deal = ⟨user, req, payload, coins, chunks, threshold, allMembers.map Member.userId⟩ ∧
      deal.Fair ∧ ∀ entry ∈ allMembers.zip shares, ∃ i,
        deal.members[i]? = some entry.1.userId ∧ entry.2 = deal.share aes i := by
  obtain ⟨hge, hle, chunks, hchunks, rfl⟩ := splitSecret_ok hsplit
  have hlength : (allMembers.map Member.userId).length = allMembers.length := length_map _
  refine ⟨chunks, _, rfl, ⟨hge, hlength ▸ hle, hlength ▸ hroster.length_le, hroster.nodup_userIds,
    hchunks⟩, fun entry hentry => ?_⟩
  obtain ⟨i, hi⟩ := mem_iff_getElem?.mp hentry
  obtain ⟨hmember, hshare⟩ := List.getElem?_zip_eq_some.mp hi
  refine ⟨i, ?_, ?_⟩
  · rw [List.getElem?_map, hmember, Option.map_some]
  · rw [List.getElem?_map] at hshare
    obtain ⟨j, hj, hshare⟩ := Option.map_eq_some_iff.mp hshare
    obtain ⟨hi, rfl⟩ := List.getElem?_eq_some_iff.mp hj
    rw [← hshare, Deal.share, hlength, getElem_range]

/-- The second half of `create_proposal`. -/
theorem keeps_splitAndStore {user : User} {encrypted : Option EncryptedContent}
    (hroster : Roster w.history.state boardroomId allMembers)
    (hboardroom : ⟨boardroomId, threshold⟩ ∈ w.history.state.boardrooms.rows)
    (hwraps : ∀ deal : Deal, deal.creator = user → deal.request = req → deal.payload = payload →
      Wraps aes w.history boardroomId deal (truthy (encrypted.map fun e => e.metadata.lockId))) :
    Keeps aes words (fun _ _ => True) thread (.createProposal user boardroomId req)
      (splitAndStore user boardroomId req.title threshold allMembers payload encrypted) w := by
  have hfail := may_fail Response
  refine keeps_step (c := .split payload threshold allMembers.length) trivial
    fun w₁ w₂ env₁ hle₁ _ hle₂ _ _ _ _ => ?_
  rw [exec]
  dsimp only
  rcases hsplit : splitSecret aes env₁.coins payload threshold allMembers.length with _ | ⟨shares, _⟩
  · exact keeps_fail hfail _
  obtain ⟨chunks, deal, hdeal, hfair, hlist⟩ := fair_of_splitSecret user req hroster hsplit
  refine keeps_query hfail fun w₃ env₃ s' proposal hle₃ hinv₃ hsucceeds hrun => ?_
  obtain ⟨proposals, hinsert, ⟨⟩⟩ := Option.map_eq_some_iff.mp hrun
  have hle : w ≤ w₃ := (hle₁.trans hle₂).trans hle₃
  have hgrows := (state_le hle).trans (grows_insertProposal hinsert)
  have hbacks : Backs aes ⟨w₃.history.past ++ [⟨thread, .createProposal user boardroomId req,
      .db (.insertProposal boardroomId user.id req.title
        (truthy (encrypted.map fun e => e.metadata.lockId))), env₃, w₃.history.state⟩],
      { w₃.history.state with proposals }⟩ ⟨env₃.fresh, boardroomId, user.id, req.title,
        .pending, truthy (encrypted.map fun e => e.metadata.lockId)⟩ deal := by
    subst hdeal
    refine ⟨hfair, hgrows.boardrooms ▸ hboardroom, fun userId huserId => ?_, ?_, ?_⟩
    · obtain ⟨member, hmember, rfl⟩ := mem_map.mp huserId
      dsimp only
      rw [← hroster.boardroom member hmember]
      exact hgrows.members ▸ hroster.mem member hmember
    · exact (hwraps _ rfl rfl rfl).mono
        (fun entry hentry => mem_append_left _ (past_subset hle hentry)) hgrows
    · exact ⟨_, mem_append_right _ (mem_singleton_self _), rfl, rfl, rfl, hsucceeds,
        notMem_of_insert? hinsert⟩
  obtain ⟨hghost, hinv⟩ := hinv₃.insertProposal hinsert hbacks
  refine ⟨grows_insertProposal hinsert, w₃.ghost.add env₃.fresh deal, hghost, hinv, ?_⟩
  exact (keeps_insertShares _ (Deals.at?_add_self _ _ _) hlist).bind
    (fun _ _ _ _ _ _ => trivial) fun _ _ _ _ => trivial

end

theorem Roster.mono {boardroomId : Uuid} {allMembers : List Member}
    (h : Roster s boardroomId allMembers) (hle : s ≤ s') : Roster s' boardroomId allMembers :=
  ⟨hle.members ▸ h.mem, h.boardroom, h.nodup, h.length_le⟩

theorem roster_of_run {env : Circumstances} {boardroomId : Uuid} {allMembers : List Member}
    (h : (Query.members boardroomId).run env s = some (s', allMembers)) :
    Roster s boardroomId allMembers := by
  obtain ⟨-, rfl⟩ := some_mk_inj h
  exact ⟨fun _ hmember => (mem_of_mem_findMany hmember).1,
    fun _ hmember => of_decide_eq_true (mem_of_mem_findMany hmember).2,
    nodup_findMany, length_findMany_le⟩

theorem truthy_some {text : Str} (h : text ≠ []) : truthy (some text) = some text := by
  rw [truthy, Option.filter_some_pos (by simpa using h)]

/-- **Creating keeps the server intact.** -/
theorem keeps_createProposal (user : User) (boardroomId : Uuid) (req : ProposalRequest)
    (thread : ℕ) (w : Annotated) :
    Keeps aes words (fun _ _ => True) thread (.createProposal user boardroomId req)
      (createProposal user boardroomId req) w := by
  have hfail := may_fail Response
  refine keeps_reading hfail (fun _ _ => ⟨_, rfl⟩) fun w₁ env₁ boardroom _ _ hboardroom => ?_
  rcases boardroom with _ | boardroom
  · exact keeps_fail hfail _
  obtain ⟨hmem, rfl⟩ := Table.get?_eq_some_iff.mp (some_mk_inj hboardroom).2
  refine keeps_reading hfail (fun _ _ => ⟨_, rfl⟩) fun w₂ env₂ member hle₂ _ _ => ?_
  rcases member with _ | member
  · exact keeps_fail hfail _
  refine keeps_reading hfail (fun _ _ => ⟨_, rfl⟩) fun w₃ env₃ allMembers hle₃ _ hmembers => ?_
  have hroster := roster_of_run hmembers
  have hmem₃ := (state_le (hle₂.trans hle₃)).boardrooms ▸ hmem
  dsimp only
  unfold applyTimeLock
  split
  · next httl =>
      -- no time-lock: the content is split as it is
      exact keeps_splitAndStore hroster hmem₃ fun deal _ hrequest hpayload =>
        ⟨hrequest.symm ▸ httl, hpayload.trans (congrArg ProposalRequest.content hrequest.symm)⟩
  · next ttl httl =>
      refine keeps_step (c := .encrypt req.content ttl) trivial
        fun w₄ w₅ env₄ hle₄ _ hle₅ _ hentry _ hstate => ?_
      rcases exec_encrypt req.content ttl with hexec | ⟨timelock, encrypted, hencrypt, hexec⟩
      · rw [hexec]
        exact keeps_fail hfail _
      obtain ⟨expiry, hencrypts⟩ := TimeLockEngine.encrypt_some hencrypt
      have hlockId := hencrypts.lockId_ne_nil
      have hle : w₃ ≤ w₅ := hle₄.trans hle₅
      have hgrows := state_le hle
      rw [hexec] at hstate ⊢
      refine keeps_splitAndStore (hroster.mono hgrows) (hgrows.boardrooms ▸ hmem₃)
        fun deal hcreator hrequest hpayload => ?_
      subst hcreator hrequest
      rw [Option.map_some, truthy_some hlockId]
      refine ⟨hlockId, _, hentry, expiry, encrypted, rfl, ⟨⟨ttl, httl, rfl, hencrypts.expires⟩,
        hencrypts.lockId.symm⟩, hpayload, rfl, hencrypts.opens, ?_⟩
      rw [hencrypts.lockId, ← hstate]
      exact hencrypts.held

/-! ### Unlocking -/

/-- The rows of the shares that were handed in, as they were read. -/
theorem submitted_of_run {env : Circumstances} {proposalId : Uuid} {allShares : List ShareRow}
    (h : (Query.shares proposalId).run env s = some (s', allShares)) :
    (∀ row ∈ submittedShares allShares, row ∈ s.shares.rows ∧ row.proposalId = proposalId ∧
      row.submitted = true) ∧ ((submittedShares allShares).map ShareRow.userId).Nodup := by
  obtain ⟨-, hfound⟩ := some_mk_inj h
  have hnodup : allShares.Nodup := hfound ▸ nodup_findMany
  have hrows : ∀ row ∈ submittedShares allShares, row ∈ s.shares.rows ∧
      row.proposalId = proposalId ∧ row.submitted = true := by
    intro row hrow
    obtain ⟨hmem, hsubmitted⟩ := mem_filter.mp hrow
    rw [← hfound] at hmem
    obtain ⟨hstored, hproposal⟩ := mem_of_mem_findMany hmem
    exact ⟨hstored, of_decide_eq_true hproposal, hsubmitted⟩
  exact ⟨hrows, ShareTable.nodup_userIds (hnodup.filter _) fun row hrow =>
    ⟨(hrows row hrow).1, (hrows row hrow).2.1⟩⟩

/-- Once enough shares are counted, the user is entitled to the proposal. -/
theorem entitled_of_submitted {rows : List ShareRow} (hinv : Intact aes w)
    (hstored : ∃ status, { proposal with status } ∈ w.history.state.proposals.rows)
    (hroom : boardroom ∈ w.history.state.boardrooms.rows)
    (hroom_id : boardroom.id = proposal.boardroomId)
    (hmember : ⟨boardroom.id, user.id⟩ ∈ w.history.state.members.rows)
    (hbacks : Backs aes w.history proposal deal)
    (hrows : ∀ row ∈ rows, row ∈ w.history.state.shares.rows ∧ row.proposalId = proposal.id ∧
      row.submitted = true) (hdealt : ∀ row ∈ rows, deal.Dealt aes row)
    (hnodup : (rows.map ShareRow.userId).Nodup) (henough : boardroom.thresholdM ≤ rows.length) :
    Entitled w.history user proposal boardroom where
  stored := hstored
  room := hroom
  room_id := hroom_id
  member := hmember
  approved := by
    refine ⟨rows.map ShareRow.userId, hnodup, by rwa [length_map], fun userId huser => ?_⟩
    obtain ⟨row, hrow, rfl⟩ := mem_map.mp huser
    obtain ⟨hmem, hproposal, hsubmitted⟩ := hrows row hrow
    refine ⟨?_, row, hmem, ?_, hsubmitted, hinv.handedIn row hmem hsubmitted⟩
    · rw [hroom_id]
      exact hbacks.members row.userId ((hdealt row hrow).shareData_eq hbacks.fair).1
    · rw [ShareRow.holder, hproposal]

/-- What is promised of the outcome of `unlock_proposal`. -/
def UnlockPost (words : WordClass) (thread : ℕ) (user : User) (proposalId : Uuid) (log : Log)
    (outcome : Except Failure Response) : Prop :=
  ∀ document, outcome = .ok (.unlocked document) →
    Released words log thread user proposalId document.content

/-- The last steps: the mark, and the time that is left. -/
theorem keeps_watermark (hentitled : Entitled w.history user proposal boardroom)
    (hbacks : Backs aes w.history proposal deal)
    (hrespected : Respected w.history thread deal.creator proposal.boardroomId deal.request
      proposal.lockId) :
    Keeps aes words (UnlockPost words thread user proposal.id) thread
      (.unlockProposal user proposal.id)
      (do
        let watermarked ← perform (.watermark deal.request.content user.peerId)
        let remaining ← remainingTime proposal.lockId
        return .unlocked ⟨proposal.title, watermarked, proposal.status, true, remaining⟩) w := by
  refine keeps_step (c := .watermark deal.request.content user.peerId) trivial
    fun w₁ w₂ env₁ hle₁ _ hle₂ _ _ _ _ => ?_
  have hmark : (exec aes words (.watermark deal.request.content user.peerId) env₁
      w₁.history.state).2 = SteganoEngine.embedText words .all deal.request.content user.peerId
        (isoformat env₁.now.1) 0 := exec_watermark _ _
  generalize (exec aes words (.watermark deal.request.content user.peerId) env₁
    w₁.history.state).2 = watermarked at hmark
  have hreleased : ∀ remaining w', w₂ ≤ w' → UnlockPost words thread user proposal.id w'.history
      (.ok (.unlocked ⟨proposal.title, watermarked, proposal.status, true, remaining⟩)) := by
    rintro remaining w' hle' document ⟨⟩
    have hle := (hle₁.trans hle₂).trans hle'
    have hpast : w.history.past ⊆ w'.history.past := fun entry hentry => past_subset hle hentry
    obtain ⟨entry, hentry, hrequest, hinserts⟩ := hbacks.created
    exact ⟨proposal, boardroom, rfl, hentitled.mono hpast (state_le hle), deal.creator,
      deal.request, entry, hpast hentry, hrequest, hinserts, hrespected.mono hpast, env₁.now, hmark⟩
  unfold remainingTime
  split
  · exact fun w' hle' => hreleased none w' hle'
  · next lockId _ =>
      refine keeps_step (c := .remainingTime lockId) trivial fun w₃ w₄ env₃ hle₃ _ hle₄ _ _ _ _ => ?_
      exact fun w' hle' => hreleased _ w' ((hle₃.trans hle₄).trans hle')

/-- The steps from the text that was split to the end. -/
theorem keeps_opening (hentitled : Entitled w.history user proposal boardroom)
    (hbacks : Backs aes w.history proposal deal) :
    Keeps aes words (UnlockPost words thread user proposal.id) thread
      (.unlockProposal user proposal.id)
      (do
        let plaintext ← removeTimeLock proposal.lockId deal.payload
        let watermarked ← perform (.watermark plaintext user.peerId)
        let remaining ← remainingTime proposal.lockId
        return .unlocked ⟨proposal.title, watermarked, proposal.status, true, remaining⟩) w := by
  have hfail : ∀ log e, UnlockPost words thread user proposal.id log (.error e) := by
    rintro log e document ⟨⟩
  have hwraps := hbacks.wraps
  unfold removeTimeLock
  cases hlock : proposal.lockId with
  | none =>
    rw [hlock] at hwraps
    obtain ⟨httl, hpayload⟩ := hwraps
    have hrespected : Respected w.history thread deal.creator proposal.boardroomId deal.request
        proposal.lockId := by
      rw [hlock]
      exact httl
    have hrest : Keeps aes words _ thread _ _ w := keeps_watermark hentitled hbacks hrespected
    rw [hlock, ← hpayload] at hrest
    exact hrest
  | some lockId =>
    rw [hlock] at hwraps
    obtain ⟨hne, made, hmade, expiry, encrypted, hrequest, hlocks, hpayload, hlockId, hopens,
      hheld⟩ := hwraps
    rw [truthy_some hne, hpayload]
    refine keeps_step (c := .lockStatus lockId) trivial fun w₁ w₂ env₁ hle₁ _ hle₂ _ _ _ _ => ?_
    generalize (exec aes words (.lockStatus lockId) env₁ w₁.history.state).2 = status
    cases status with
    | expired => exact keeps_fail hfail _
    | destroyed => exact keeps_fail hfail _
    | active =>
      dsimp only
      rw [EncryptedContent.parse_dumped]
      refine keeps_step (c := .decrypt encrypted) trivial
        fun w₃ w₄ env₃ hle₃ hinv₃ hle₄ _ hentry _ _ => ?_
      cases hcontent : (exec aes words (.decrypt encrypted) env₃ w₃.history.state).2 with
      | none => exact keeps_fail hfail _
      | some content =>
        have hle₀ : w ≤ w₃ := (hle₁.trans hle₂).trans hle₃
        have hle : w ≤ w₄ := hle₀.trans hle₄
        have hpast : w.history.past ⊆ w₄.history.past :=
          fun entry hmem => past_subset hle hmem
        rw [exec_decrypt] at hcontent
        obtain ⟨key, expiry', hkey, hnow, hopened⟩ := TimeLockEngine.decrypt_some hcontent
        rw [hlockId] at hkey
        -- the key is the one under which the content was encrypted
        obtain ⟨rfl, rfl⟩ := Prod.mk.inj ((hheld.mono (state_le hle₀).timelock).2 _ hkey)
        obtain rfl : deal.request.content = content :=
          Option.mem_unique hopens hopened
        have hrespected : Respected w₄.history thread deal.creator proposal.boardroomId
            deal.request proposal.lockId := by
          rw [hlock]
          exact ⟨_, hentry, made, hpast hmade, encrypted, expiry', rfl, rfl, hlockId,
            hinv₃.coherent.live hkey hnow, hrequest, hlocks, hnow⟩
        have hrest : Keeps aes words _ thread _ _ w₄ :=
          keeps_watermark (hentitled.mono hpast (state_le hle))
            (hbacks.mono hpast (state_le hle) proposal.status) hrespected
        rw [hlock] at hrest
        exact hrest

/-- **Unlocking keeps the server intact**, and what it returns is released. -/
theorem keeps_unlockProposal (user : User) (proposalId : Uuid) (thread : ℕ) (w : Annotated) :
    Keeps aes words (UnlockPost words thread user proposalId) thread
      (.unlockProposal user proposalId) (unlockProposal aes user proposalId) w := by
  have hfail : ∀ log e, UnlockPost words thread user proposalId log (.error e) := by
    rintro log e document ⟨⟩
  refine keeps_reading hfail (fun _ _ => ⟨_, rfl⟩) fun w₁ env₁ proposal _ _ hproposal => ?_
  rcases proposal with _ | proposal
  · exact keeps_fail hfail _
  obtain ⟨hmem₁, rfl⟩ := Table.get?_eq_some_iff.mp (some_mk_inj hproposal).2
  refine keeps_reading hfail (fun _ _ => ⟨_, rfl⟩) fun w₂ env₂ boardroom hle₂ _ hboardroom => ?_
  rcases boardroom with _ | boardroom
  · exact keeps_fail hfail _
  obtain ⟨hroom₂, hroom_id⟩ :=
    Table.get?_eq_some_iff.mp (some_mk_inj hboardroom).2
  refine keeps_reading hfail (fun _ _ => ⟨_, rfl⟩) fun w₃ env₃ member hle₃ _ hmember => ?_
  rcases member with _ | member
  · exact keeps_fail hfail _
  obtain ⟨hmember₃, hkey⟩ := Table.get?_eq_some_iff.mp (some_mk_inj hmember).2
  obtain rfl : member = ⟨boardroom.id, user.id⟩ := by
    cases member
    cases hkey
    rfl
  refine keeps_reading hfail (fun _ _ => ⟨_, rfl⟩) fun w₄ env₄ allShares hle₄ hinv₄ hshares => ?_
  obtain ⟨hrows, hnodup⟩ := submitted_of_run hshares
  dsimp only
  split
  · exact keeps_fail hfail _
  next henough =>
    have hle₂₄ : w₂ ≤ w₄ := hle₃.trans hle₄
    obtain ⟨status, hstored⟩ := (state_le (hle₂.trans hle₂₄)).proposals _ hmem₁
    obtain ⟨deal, hdeal, hbacks⟩ := hinv₄.backed _ hstored
    have hbacks : Backs aes w₄.history proposal deal :=
      hbacks.mono (fun _ hentry => hentry) le_rfl proposal.status
    have hroom₄ := (state_le hle₂₄).boardrooms ▸ hroom₂
    have hdealt : ∀ row ∈ submittedShares allShares, deal.Dealt aes row := by
      intro row hrow
      obtain ⟨hmem, hof, -⟩ := hrows row hrow
      obtain ⟨deal', hdeal', hdealt⟩ := hinv₄.dealt row hmem
      rw [hof, hdeal] at hdeal'
      exact Option.some.inj hdeal' ▸ hdealt
    have hthreshold : boardroom.thresholdM = deal.threshold := by
      rw [eq_of_key_eq hroom₄ hbacks.boardroom hroom_id]
    have hentitled : Entitled w₄.history user proposal boardroom :=
      entitled_of_submitted hinv₄ ⟨status, hstored⟩ hroom₄ hroom_id
        ((state_le hle₄).members ▸ hmember₃) hbacks hrows hdealt hnodup (not_lt.mp henough)
    rw [hthreshold] at henough ⊢
    cases hplain : reconstruct aes (submittedShares allShares) deal.threshold with
    | error e => exact keeps_fail hfail _
    | ok plaintext =>
      rw [reconstruct_dealt hbacks.fair hdealt hnodup (not_lt.mp henough) hplain]
      exact keeps_opening hentitled hbacks

end

/-! ## The whole office -/

/-- What is promised of the outcome of a request. -/
def Promise (words : WordClass) (thread : ℕ) : Request → Log → Except Failure Response → Prop
  | .unlockProposal user proposalId => UnlockPost words thread user proposalId
  | _ => fun _ _ => True

/-- Every request keeps the server intact. -/
theorem keeps_routine (aes : AesGcm) (words : WordClass) (thread : ℕ) (request : Request)
    (w : Annotated) :
    Keeps aes words (Promise words thread request) thread request (routine aes request) w := by
  cases request with
  | createProposal user boardroomId req => exact keeps_createProposal user boardroomId req thread w
  | approveProposal user proposalId => exact keeps_approveProposal user proposalId thread w
  | unlockProposal user proposalId => exact keeps_unlockProposal user proposalId thread w
  | destroyLock lockId =>
    exact keeps_step (c := .destroy lockId) trivial fun _ _ _ _ _ _ _ _ _ _ => fun _ _ => trivial
  | cleanupKeys => exact keeps_step (c := .cleanup) trivial fun _ _ _ _ _ _ _ _ _ _ => fun _ _ => trivial

/-- A server with boardrooms and members, before the first proposal. -/
def opening (boardrooms : Table Boardroom.id) (members : Table Member.key) (stegano : SteganoEngine) :
    BoardroomServer where
  boardrooms := boardrooms
  members := members
  proposals := Table.empty
  shares := ShareTable.empty
  timelock := ⟨⟨Dict.empty⟩, Dict.empty⟩
  stegano := stegano

/-- An office in which nothing was asked for yet. -/
def openingOffice (boardrooms : Table Boardroom.id) (members : Table Member.key)
    (stegano : SteganoEngine) : Office :=
  Pool.start (opening boardrooms members stegano)

theorem intact_opening (aes : AesGcm) (boardrooms : Table Boardroom.id) (members : Table Member.key)
    (stegano : SteganoEngine) :
    Intact aes ⟨⟨[], opening boardrooms members stegano⟩, ⟨fun _ => none⟩⟩ where
  coherent _ _ h := by cases h
  backed _ h := by cases h
  dealt _ h := by cases h
  handedIn _ h := by cases h
  known _ _ h := by cases h

/-- **Nobody reads a proposal too early.**  In every interleaving of the steps of any
requests, a document that `unlock_proposal` returns to a user is released: the user is
a member of the boardroom; at least as many different members as the threshold says
have had their approval recorded; a time-lock was there and not over when the content
was decrypted; and the content is what was proposed, marked for the user. -/
theorem unlocked_released (aes : AesGcm) (words : WordClass) (boardrooms : Table Boardroom.id)
    (members : Table Member.key) (stegano : SteganoEngine)
    (moves : List (Move Request Circumstances))
    (hfresh : Along (Pool.step (exec aes words) (routine aes)) (Pool.Admitted FreshLock)
      (openingOffice boardrooms members stegano) moves)
    {thread : ℕ} {user : User} {proposalId : Uuid} {document : Unlocked}
    (hdone : ((openingOffice boardrooms members stegano).run (exec aes words) (routine aes)
      moves).threads[thread]? = some (.unlockProposal user proposalId, .done (.ok (.unlocked document)))) :
    Released words ((openingOffice boardrooms members stegano).run (exec aes words) (routine aes)
      moves).history thread user proposalId document.content := by
  have hstart : Sound (exec aes words) FreshLock (Intact aes) (Promise words)
      (openingOffice boardrooms members stegano) :=
    sound_start (intact_opening aes boardrooms members stegano)
  have hrun := hstart.run (fun thread request w _ => keeps_routine aes words thread request w) hfresh
  exact hrun.outcome hdone document rfl

/-! ### An example -/

/-- Two members of boardroom `7`. -/
def alice : User := ⟨1, "alice", "peer-a"⟩

def bob : User := ⟨2, "bob", "peer-b"⟩

/-- A boardroom that needs two approvals. -/
def boardroomSeven : Table Boardroom.id := ⟨[⟨7, 2⟩], by decide⟩

/-- Alice and bob are its members. -/
def seats : Table Member.key := ⟨[⟨7, alice.id⟩, ⟨7, bob.id⟩], by decide⟩

/-- A proposal without a time-lock has no time to live that is too short. -/
theorem ttl_ge_none : ∀ ttl ∈ (none : Option ℤ), 60 ≤ ttl := by decide

/-- A proposal without a time-lock. -/
def budget : ProposalRequest := ⟨"Budget", "Spend it", none, ttl_ge_none⟩

/-- A proposal with a time-lock of a minute. -/
def merger : ProposalRequest := ⟨"Merger", "Sell it", some 60, by decide⟩

/-- The steps of a thread, with the UUIDs that are drawn. -/
def stepsOf (thread : ℕ) (fresh : List Uuid) : List (Move Request Circumstances) :=
  fresh.map fun id => .resume thread
    { now := ⟨0, datetimeMax_pos⟩
      fails := false
      fresh := id
      members := Plan.stored _
      shares := Plan.stored _
      lock := ⟨List.replicate 32 'a', rfl, fixedCoins.aesKey, fixedCoins.aesKey_length, []⟩
      coins := fixedCoins }

/-- Two proposals are made at the same time, both members approve one of them at the
same time, and one of the two reads it. -/
def session : List (Move Request Circumstances) :=
  .arrive (.createProposal alice 7 budget) :: .arrive (.createProposal bob 7 merger) ::
  stepsOf 0 [0, 0, 0, 0, 10] ++ stepsOf 1 [0, 0, 0, 0, 0, 20, 21, 22] ++ stepsOf 0 [11, 12] ++
  .arrive (.approveProposal alice 10) :: .arrive (.approveProposal bob 10) ::
  stepsOf 2 [0, 0] ++ stepsOf 3 [0, 0, 0, 0, 0, 0] ++ stepsOf 2 [0, 0, 0] ++
  .arrive (.unlockProposal bob 10) :: stepsOf 4 [0, 0, 0, 0, 0]

/-- The thread has returned a document to the user. -/
def returnsTo (office : Office) (thread : ℕ) (user : User) (proposalId : Uuid) : Bool :=
  match office.threads[thread]? with
  | some (.unlockProposal user' proposalId', .done (.ok (.unlocked _))) =>
    decide (user' = user ∧ proposalId' = proposalId)
  | _ => false

theorem exists_of_returnsTo {office : Office} {thread : ℕ} {user : User} {proposalId : Uuid}
    (h : returnsTo office thread user proposalId = true) :
    ∃ document, office.threads[thread]?
      = some (.unlockProposal user proposalId, .done (.ok (.unlocked document))) := by
  unfold returnsTo at h
  split at h
  · next document hget =>
      obtain ⟨rfl, rfl⟩ := of_decide_eq_true h
      exact ⟨document, hget⟩
  · cases h

/-- The office after the session. -/
def afterSession : Office :=
  (openingOffice boardroomSeven seats ⟨[]⟩).run (exec plainAes WordClass.least) (routine plainAes)
    session

/-- One of the members reads the proposal. -/
theorem unlocked_released_bob :
    ∃ document, afterSession.threads[4]?
        = some (.unlockProposal bob 10, .done (.ok (.unlocked document))) ∧
      Released WordClass.least afterSession.history 4 bob 10 document.content := by
  obtain ⟨document, hdone⟩ : ∃ document, afterSession.threads[4]?
      = some (.unlockProposal bob 10, .done (.ok (.unlocked document))) :=
    exists_of_returnsTo (by decide +kernel)
  exact ⟨document, hdone, unlocked_released plainAes .least boardroomSeven seats ⟨[]⟩ session
    (by decide +kernel) hdone⟩

end TrustFlow.TrustDocs.Boardrooms
