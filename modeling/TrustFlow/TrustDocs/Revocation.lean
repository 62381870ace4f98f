import TrustFlow.TrustDocs.RecycleBin

/-!
# Revocation

`revoke_share` revokes one active share of a user.  A user may have more than one
that is not revoked: a share that was suspended with its document stays suspended
when the document is restored without access, and the document can then be shared
with the user again.

* `AllRevoked.handle` — revoked shares stay revoked, and a share request alone
  brings a new one.
* `revoked_stays_out` — **after a revocation** the user stays out until someone
  shares the document with them again, if the share that was revoked was the last
  one of theirs that was not revoked already.
* `revoked_comes_back` — a user who had two.
-/

namespace TrustFlow.TrustDocs

open Library Custody Stegano List

namespace Server

variable {S : SignatureScheme} {words : WordClass} {server : Server S}
  {amb : Ambient} {user : User} {documentId : Uuid}

/-- All shares of the document with the user are revoked. -/
def AllRevoked (server : Server S) (documentId userId : Uuid) : Prop :=
  ∀ share ∈ server.fileShares.rows, share.documentId = documentId → share.recipientId = userId →
    share.status = .revoked

/-- The shares of the document with the user that are not revoked. -/
def openShares (server : Server S) (documentId userId : Uuid) : List FileShare :=
  server.fileShares.rows.filter fun share =>
    decide (share.documentId = documentId ∧ share.recipientId = userId ∧ share.status ≠ .revoked)

theorem AllRevoked.noActive {userId : Uuid} (h : AllRevoked server documentId userId) :
    NoActive server documentId userId := by
  intro share hshare hdocument hrecipient hactive
  have hrevoked := h share hshare hdocument hrecipient
  cases hactive.symm.trans hrevoked

/-- **Revoked shares stay revoked**, and only a share request brings a new one. -/
theorem AllRevoked.handle {userId : Uuid} (h : AllRevoked server documentId userId) {call : Call}
    (hcall : ¬ SharesWith words documentId userId server call) :
    AllRevoked (server.handle words call).1 documentId userId := by
  intro row hrow hdocument hrecipient
  rcases mem_shares_handle hrow with ⟨old, hold, status, hmoves, rfl⟩ | hnew
  · have hrevoked : old.status = .revoked := h old hold hdocument hrecipient
    cases hmoves with
    | stay => exact hrevoked
    | revoke => rfl
    | suspend hactive => rw [hrevoked] at hactive; cases hactive
    | resume hsuspended => rw [hrevoked] at hsuspended; cases hsuspended
  · exact absurd ⟨row, hnew, hdocument, hrecipient⟩ hcall

/-- A revocation that succeeds. -/
theorem revokeShare_ok {targetUserId : Uuid} {share : FileShare}
    (h : (server.revokeShare amb user documentId targetUserId).2 = .ok share) :
    (∃ doc, server.document documentId = some doc ∧ doc.ownerId = user.id) ∧
      server.activeShare amb.plan documentId targetUserId = some share ∧
      (server.revokeShare amb user documentId targetUserId).1
        = server.setShareStatus .revoked [share] := by
  unfold revokeShare at h ⊢
  split at h
  · cases h
  · rename_i doc hdoc
    rw [ownerOnly] at h ⊢
    by_cases howner : doc.ownerId = user.id
    · rw [if_pos howner] at h ⊢
      dsimp only at h ⊢
      split at h
      · cases h
      · rename_i found hfound
        obtain rfl := Except.ok.inj h
        exact ⟨⟨doc, hdoc, howner⟩, hfound, rfl⟩
    · rw [if_neg howner] at h
      cases h

/-- The revocation of the only open share. -/
theorem allRevoked_revoke {targetUserId : Uuid} {share : FileShare}
    (hshare : server.activeShare amb.plan documentId targetUserId = some share)
    (honly : (server.openShares documentId targetUserId).length ≤ 1) :
    AllRevoked (server.setShareStatus .revoked [share]) documentId targetUserId := by
  obtain ⟨hmem, hshareDocument, hactive, hshareRecipient⟩ := mem_of_activeShare hshare
  intro row hrow hdocument hrecipient
  obtain ⟨old, hold, rfl⟩ := (mem_setShareStatus fun other hother => by
    rw [mem_singleton.mp hother]
    exact hmem).mp hrow
  split
  · rfl
  · rename_i hother
    rw [if_neg hother] at hdocument hrecipient
    by_contra hopen
    -- two different shares, both open
    have hfirst : share ∈ server.openShares documentId targetUserId :=
      mem_filter.mpr ⟨hmem, decide_eq_true ⟨hshareDocument, hshareRecipient, by
        rw [hactive]
        decide⟩⟩
    have hsecond : old ∈ server.openShares documentId targetUserId :=
      mem_filter.mpr ⟨hold, decide_eq_true ⟨hdocument, hrecipient, hopen⟩⟩
    generalize server.openShares documentId targetUserId = shares at *
    match shares, honly with
    | [], _ => cases hfirst
    | [only], _ =>
      rw [mem_singleton] at hfirst hsecond
      exact hother (mem_singleton.mpr (hsecond.trans hfirst.symm))

/-- **A revoked user stays out**, until someone shares the document with them again:
if no other share of theirs was open, active or suspended, when they were
revoked. -/
theorem revoked_stays_out {owner : User} {response : Response} {calls : List Call}
    {request : Request} {amb' : Ambient}
    (hrevoke : (server.handle words ⟨amb, owner, .revoke documentId user.id⟩).2 = .ok response)
    (huser : user.id ≠ owner.id)
    (honly : (server.openShares documentId user.id).length ≤ 1)
    (hcalls : Along (fun server call => (server.handle words call).1)
      (fun server call => ¬ SharesWith words documentId user.id server call)
      (server.handle words ⟨amb, owner, .revoke documentId user.id⟩).1 calls)
    (hrequest : Reads documentId request) :
    Denied (((server.handle words ⟨amb, owner, .revoke documentId user.id⟩).1.serve words
      calls).handle words ⟨amb', user, request⟩).2 := by
  obtain ⟨share, hshare⟩ : ∃ share,
      (server.revokeShare amb owner documentId user.id).2 = .ok share := by
    simp only [Server.handle] at hrevoke
    cases hreply : (server.revokeShare amb owner documentId user.id).2 with
    | error failure => rw [hreply] at hrevoke; cases hrevoke
    | ok share => exact ⟨share, rfl⟩
  obtain ⟨⟨doc, hdoc, howner⟩, hactive, hresult⟩ := revokeShare_ok hshare
  have hafter : (server.handle words ⟨amb, owner, .revoke documentId user.id⟩).1
      = server.setShareStatus .revoked [share] := hresult
  rw [hafter] at hcalls ⊢
  have hrun : AllRevoked ((server.setShareStatus .revoked [share]).serve words calls) documentId
        user.id ∧
      ∃ status, ((server.setShareStatus .revoked [share]).serve words calls).document documentId
        = some { doc with status := status } := by
    refine along_foldl (I := fun server => AllRevoked server documentId user.id ∧
      ∃ status, server.document documentId = some { doc with status := status }) ?_ ?_ hcalls
    · rintro server call ⟨hrevoked, status, hdocument⟩ hcall
      exact ⟨hrevoked.handle hcall, (document_handle hdocument call).imp fun _ h => h.2⟩
    · exact ⟨allRevoked_revoke hactive honly, doc.status, hdoc⟩
  obtain ⟨hrevoked, status, hdocument⟩ := hrun
  exact denied_of_noActive hdocument (fun h => huser (h.symm.trans howner)) hrevoked.noActive hrequest

/-- Bob is shared the minutes and revoked; alice deletes the minutes and restores them with
access, and bob asks for them. -/
theorem revoked_stays_out_bob :
    Denied (((((office.serve .least [⟨at0 11, alice, .share 7 "bob"⟩]).handle .least
      ⟨at0 0, alice, .revoke 7 bob.id⟩).1.serve .least [⟨at0 0, alice, .delete 7⟩,
        ⟨at0 0, alice, .restore 7 true⟩]).handle .least ⟨at0 0, bob, .get 7⟩).2) := by
  obtain ⟨response, hrevoke⟩ : Succeeds .least
      (office.serve .least [⟨at0 11, alice, .share 7 "bob"⟩])
        ⟨at0 0, alice, .revoke 7 bob.id⟩ := by decide
  exact revoked_stays_out hrevoke (by decide) (by decide)
    ⟨not_sharesWith fun _ h => (by cases h), not_sharesWith fun _ h => (by cases h), trivial⟩ .get

/-! ## Two shares of one user -/

/-- **Revoked and back.**  Alice deletes the minutes, restores them without access and
shares them with bob once more: bob has a suspended share and an active one.  Alice
revokes the active one, and the next restore with access revives the other. -/
theorem revoked_comes_back :
    Along (fun server call => (server.handle .least call).1) (Succeeds .least) office
      [⟨at0 11, alice, .share 7 bob.username⟩, ⟨at0 0, alice, .delete 7⟩,
        ⟨at0 0, alice, .restore 7 false⟩, ⟨at0 12, alice, .share 7 bob.username⟩,
        ⟨at0 0, alice, .revoke 7 bob.id⟩, ⟨at0 0, alice, .delete 7⟩, ⟨at0 0, alice, .restore 7 true⟩,
        ⟨at0 0, bob, .get 7⟩] := by
  decide +kernel

/-! ## What a purge leaves -/

/-- The shares that `purge_document` finds. -/
def foundByPurge (server : Server S) (plan : Plan FileShare) (documentId : Uuid) : List FileShare :=
  server.fileShares.findMany plan (fun share => share.createdAt.1) findManyLimit
    fun share => decide (share.documentId = documentId)

/-- No file and no open share of the document is left. -/
structure Gone (server : Server S) (documentId : Uuid) : Prop where
  original : server.files.get? (.original documentId) = none
  copies : ∀ recipientId, server.files.get? (.shared documentId recipientId) = none
  shares : ∀ row ∈ server.fileShares.rows, row.documentId = documentId → row.status = .revoked

/-- `purge_document` of a recycled document, by its owner. -/
theorem purgeDocument_eq {doc : Document} (hdoc : server.document documentId = some doc)
    (hrecycled : doc.status = .recycled) (howner : doc.ownerId = user.id) :
    server.purgeDocument amb user documentId =
      ({ (server.setDocumentStatus documentId .deleted).setShareStatus .revoked
            (server.foundByPurge amb.plan documentId) with
          files := server.files.erase (.original documentId) },
        .ok (server.foundByPurge amb.plan documentId).length) := by
  rw [purgeDocument, recycledDocument, hdoc]
  dsimp only
  rw [if_pos hrecycled, ok_bind, ownerOnly, if_pos howner]
  rfl

variable (words) in
/-- After a purge the document is gone if and only if no copy was written for a recipient, and
the shares that the purge does not find are revoked already. -/
theorem gone_purge_iff {doc : Document} {owner : User} (amb : Ambient)
    (hdoc : server.document documentId = some doc) (hrecycled : doc.status = .recycled)
    (howner : doc.ownerId = owner.id) :
    Succeeds words server ⟨amb, owner, .purge documentId⟩ ∧
      ((server.handle words ⟨amb, owner, .purge documentId⟩).1.Gone documentId ↔
        (∀ recipientId, server.files.get? (.shared documentId recipientId) = none) ∧
          ∀ row ∈ server.fileShares.rows, row.documentId = documentId →
            row ∈ server.foundByPurge amb.plan documentId ∨ row.status = .revoked) := by
  have hpurge : server.purgeDocument amb owner documentId = _ :=
    purgeDocument_eq hdoc hrecycled howner
  have hfound : ∀ share ∈ server.foundByPurge amb.plan documentId,
      share ∈ server.fileShares.rows := fun share hshare => (Table.mem_of_mem_findMany hshare).1
  rw [Succeeds]
  simp only [handle, hpurge]
  refine ⟨⟨_, rfl⟩, fun hgone => ⟨fun recipientId => ?_, fun row hrow hdocument => ?_⟩,
    fun hrest => ⟨?_, fun recipientId => ?_, fun row hrow hdocument => ?_⟩⟩
  · rw [← hgone.copies recipientId]
    exact (Dict.get?_erase_of_ne _ (by simp)).symm
  · by_cases hmem : row ∈ server.foundByPurge amb.plan documentId
    · exact .inl hmem
    · exact .inr (hgone.shares row ((mem_setShareStatus hfound).mpr ⟨row, hrow, if_neg hmem⟩)
        hdocument)
  · exact (Dict.get?_erase _ _ _).trans (if_pos rfl)
  · exact (Dict.get?_erase_of_ne _ (by simp)).trans (hrest.1 recipientId)
  · obtain ⟨old, hold, rfl⟩ := (mem_setShareStatus hfound).mp hrow
    split
    · rfl
    · next hmissed =>
      rw [if_neg hmissed] at hdocument
      exact (hrest.2 old hold hdocument).resolve_left hmissed

/-- The share is among the hundred oldest of its document, of whatever status, counting those
of its own age. -/
def AmongFirst (server : Server S) (share : FileShare) : Prop :=
  (server.fileShares.notLater (fun s => s.createdAt.1)
    (fun s => decide (s.documentId = share.documentId)) share).length ≤ findManyLimit

instance (server : Server S) (share : FileShare) : Decidable (AmongFirst server share) :=
  inferInstanceAs (Decidable (_ ≤ _))

/-- A deletion changes nothing of a share but its status. -/
theorem amongFirst_binned (plan : Plan FileShare) {share row : FileShare}
    (hdocument : row.documentId = share.documentId) (hcreated : row.createdAt = share.createdAt) :
    AmongFirst (server.binned plan documentId) row ↔ AmongFirst server share := by
  have hrows : (server.binned plan documentId).fileShares.rows = server.fileShares.rows.map _ :=
    Table.rows_updateAll (t := server.fileShares) (f := fun s => { s with status := .suspended })
      (fun _ => rfl) ((server.sharesWith plan documentId .active).map FileShare.id)
  rw [AmongFirst, AmongFirst, Table.notLater, Table.notLater, hrows, filter_map, filter_map,
    length_map, filter_filter, filter_filter, hdocument, hcreated]
  have hsame : ∀ s : FileShare, ∀ changed : Prop, [Decidable changed] →
      (if changed then { s with status := .suspended } else s).documentId = s.documentId ∧
        (if changed then { s with status := .suspended } else s).createdAt = s.createdAt := by
    intro s changed _
    split <;> exact ⟨rfl, rfl⟩
  simp only [Function.comp_apply, hsame]

/-- **What a purge leaves.**  After its deletion a document is gone with a purge, in whatever order
the database returns the rows, if and only if no copy was written for a recipient, and every share
that is not revoked is among the hundred oldest of the document. -/
theorem purge_gone_iff {doc : Document} {owner : User}
    (hdoc : server.document documentId = some doc) (hactive : doc.status = .active)
    (howner : doc.ownerId = owner.id) :
    (∀ amb amb', Succeeds words (server.handle words ⟨amb, owner, .delete documentId⟩).1
        ⟨amb', owner, .purge documentId⟩) ∧
      ((∀ amb amb', ((server.handle words ⟨amb, owner, .delete documentId⟩).1.handle words
          ⟨amb', owner, .purge documentId⟩).1.Gone documentId) ↔
        (∀ recipientId, server.files.get? (.shared documentId recipientId) = none) ∧
          ∀ share ∈ server.fileShares.rows, share.documentId = documentId →
            share.status ≠ .revoked → AmongFirst server share) := by
  have hdelete : ∀ amb, (server.handle words ⟨amb, owner, .delete documentId⟩).1
      = server.binned amb.plan documentId := by
    intro amb
    simp only [handle, deleteDocument_eq hdoc hactive howner]
  have hpurge := fun amb amb' : Ambient =>
    gone_purge_iff words amb' (document_binned hdoc amb.plan) rfl howner
  simp only [hdelete, hpurge, true_and, implies_true]
  have hfiles : ∀ plan, (server.binned plan documentId).files = server.files := fun _ => rfl
  simp only [hfiles]
  have hmem : ∀ {plan row}, row ∈ (server.binned plan documentId).fileShares.rows ↔ _ :=
    fun {plan row} => mem_setShareStatus fun share hshare => (mem_of_mem_sharesWith hshare).1
  constructor
  · intro hgone
    refine ⟨(hgone (at0 0) (at0 0)).1, fun share hshare hdocument hopen => ?_⟩
    by_contra hlimit
    -- the database returns the share after all others
    obtain ⟨row, hrow, hstatus, hsame⟩ : ∃ row ∈ (server.binned (at0 0).plan documentId).fileShares.rows,
        row.status ≠ .revoked ∧ row.documentId = share.documentId ∧ row.createdAt = share.createdAt := by
      by_cases hfound : share ∈ server.sharesWith (at0 0).plan documentId .active
      · exact ⟨_, hmem.mpr ⟨share, hshare, if_pos hfound⟩, by simp, rfl, rfl⟩
      · exact ⟨_, hmem.mpr ⟨share, hshare, if_neg hfound⟩, hopen, rfl, rfl⟩
    rcases (hgone (at0 0) ⟨(at0 0).now, 0, Table.planWithLast row⟩).2 row hrow
      (hsame.1.trans hdocument) with hfound | hrevoked
    · rw [← amongFirst_binned (at0 0).plan hsame.1 hsame.2, AmongFirst, hsame.1, hdocument] at hlimit
      exact Table.notMem_findMany_last (Nat.lt_of_not_le hlimit) hfound
    · exact hstatus hrevoked
  · rintro ⟨hcopies, hfirst⟩ amb amb'
    refine ⟨hcopies, fun row hrow hdocument => ?_⟩
    obtain ⟨old, hold, hchanged⟩ := hmem.mp hrow
    have hsame : row.documentId = old.documentId ∧ row.createdAt = old.createdAt := by
      rw [← hchanged]
      split <;> exact ⟨rfl, rfl⟩
    by_cases hrevoked : old.status = .revoked
    · right
      rw [← hchanged, if_neg fun hfound => ?_, hrevoked]
      cases hrevoked.symm.trans (mem_of_mem_sharesWith hfound).2.2
    · left
      have holdest := hfirst old hold (hsame.1.symm.trans hdocument) hrevoked
      rw [← amongFirst_binned amb.plan hsame.1 hsame.2, AmongFirst, hdocument] at holdest
      exact Table.mem_findMany hrow (decide_eq_true hdocument) holdest

/-- The office with a share whose copy was never written. -/
def barredOffice : Server .tagged :=
  { office with
    fileShares := ⟨[⟨11, 7, alice.id, bob.id, "child", .active, ⟨0, datetimeMax_pos⟩⟩], by decide⟩ }

/-- The minutes are gone with the purge, and the share is revoked. -/
theorem purge_gone_barred : (((barredOffice.handle .least ⟨at0 0, alice, .delete 7⟩).1.handle
    .least ⟨at0 0, alice, .purge 7⟩).1).Gone 7 :=
  (purge_gone_iff (rfl : barredOffice.document 7 = some minutes) rfl rfl).2.mpr
    ⟨fun _ => rfl, by decide⟩ (at0 0) (at0 0)

/-- Bob's copy of the minutes is still there. -/
theorem purge_leaves_copy :
    Along (fun server call => (server.handle .least call).1) (Succeeds .least) office
      [⟨at0 11, alice, .share 7 bob.username⟩, ⟨at0 0, alice, .delete 7⟩, ⟨at0 0, alice, .purge 7⟩] ∧
    (office.serve .least [⟨at0 11, alice, .share 7 bob.username⟩,
      ⟨at0 0, alice, .delete 7⟩, ⟨at0 0, alice, .purge 7⟩]).files.get? (.shared 7 bob.id) ≠ none := by
  decide

end Server

end TrustFlow.TrustDocs
