import TrustFlow.TrustDocs.Access

/-!
# The recycle bin

A document that is deleted and restored without its shares should be its owner's
alone.  `delete_document` suspends the active shares that `find_many` returns, and
`find_many` returns a hundred rows at most, the oldest first.

* `deleteDocument_eq`, `restoreDocument_eq` — the two handlers, when they are not
  refused.
* `NoActive.handle` — a user without an active share gets one only by a share
  request, or by a restore with access.
* `fresh_restore_denies_iff` — **after a fresh restore** everyone else is out, whatever
  comes later but those two requests, exactly if every active share of somebody else
  is among the hundred that are suspended.
-/

namespace TrustFlow.TrustDocs

open Library Custody Stegano

namespace Server

variable {S : SignatureScheme} {words : WordClass} {server : Server S}
  {amb : Ambient} {user owner : User} {documentId : Uuid} {doc : Document}

/-! ## Moving in and out -/

section

variable (hdoc : server.document documentId = some doc)
include hdoc

theorem document_setDocumentStatus_self (status : DocumentStatus) :
    (server.setDocumentStatus documentId status).document documentId
      = some { doc with status := status } := by
  rw [document_setDocumentStatus hdoc, if_pos rfl]

/-- The server after a deletion. -/
def binned (server : Server S) (plan : Plan FileShare) (documentId : Uuid) : Server S :=
  (server.setDocumentStatus documentId .recycled).setShareStatus .suspended
    (server.sharesWith plan documentId .active)

/-- `delete_document` of an active document, by its owner. -/
theorem deleteDocument_eq (hactive : doc.status = .active) (howner : doc.ownerId = owner.id) :
    server.deleteDocument amb owner documentId
      = (server.binned amb.plan documentId,
          .ok (server.sharesWith amb.plan documentId .active).length) := by
  rw [deleteDocument, liveDocument_of_active hdoc hactive, ok_bind, ownerOnly, if_pos howner]
  rfl

theorem document_binned (plan : Plan FileShare) :
    (server.binned plan documentId).document documentId = some { doc with status := .recycled } :=
  document_setDocumentStatus_self hdoc .recycled

/-- `restore_document` of a recycled document, by its owner. -/
theorem restoreDocument_eq (hrecycled : doc.status = .recycled) (howner : doc.ownerId = owner.id)
    (restoreAccess : Bool) :
    server.restoreDocument amb owner documentId restoreAccess
      = if restoreAccess then
          ((server.setDocumentStatus documentId .active).setShareStatus .active
              (server.sharesWith amb.plan documentId .suspended),
            .ok (server.sharesWith amb.plan documentId .suspended).length)
        else (server.setDocumentStatus documentId .active, .ok 0) := by
  have hbin : server.recycledDocument documentId = .ok doc := by
    rw [recycledDocument, hdoc]
    dsimp only
    rw [if_pos hrecycled]
  rw [restoreDocument, hbin, ok_bind, ownerOnly, if_pos howner]
  rfl

variable (words) in
/-- The server after a deletion and a fresh restore by the owner. -/
def restoredFresh (server : Server S) (amb₁ amb₂ : Ambient) (owner : User) (documentId : Uuid) :
    Server S :=
  ((server.handle words ⟨amb₁, owner, .delete documentId⟩).1.handle words
    ⟨amb₂, owner, .restore documentId false⟩).1

theorem restoredFresh_eq (hactive : doc.status = .active) (howner : doc.ownerId = owner.id)
    (amb₁ amb₂ : Ambient) :
    server.restoredFresh words amb₁ amb₂ owner documentId
      = (server.binned amb₁.plan documentId).setDocumentStatus documentId .active := by
  have hdelete : (server.handle words ⟨amb₁, owner, .delete documentId⟩).1
      = server.binned amb₁.plan documentId := by
    simp only [handle, deleteDocument_eq hdoc hactive howner]
  have hbinned := document_binned hdoc amb₁.plan
  rw [restoredFresh, hdelete]
  simp only [handle, restoreDocument_eq hbinned rfl howner]
  rfl

end

/-! ## Staying out -/

variable (words) in
/-- The call opens the document to the user: it shares it with them, or restores it
with access. -/
def Opens (documentId userId : Uuid) (server : Server S) (call : Call) : Prop :=
  SharesWith words documentId userId server call ∨
    (call.request = .restore documentId true ∧ Succeeds words server call)

/-- **A user without an active share gets one by two requests only.** -/
theorem NoActive.handle {userId : Uuid} (h : NoActive server documentId userId) {call : Call}
    (hcall : ¬ Opens words documentId userId server call) :
    NoActive (server.handle words call).1 documentId userId := by
  intro row hrow hdocument hrecipient hactive
  rcases mem_shares_handle hrow with ⟨old, hold, status, hmoves, rfl⟩ | hnew
  · have hold' : old.status ≠ .active := h old hold hdocument hrecipient
    cases hmoves with
    | stay => exact hold' hactive
    | revoke => cases hactive
    | suspend _ => cases hactive
    | resume _ hrequest hsucceeds =>
      have hid : old.documentId = documentId := hdocument
      rw [hid] at hrequest
      exact hcall (.inr ⟨hrequest, hsucceeds⟩)
  · exact hcall (.inl ⟨row, hnew, hdocument, hrecipient⟩)

/-- The share is among the hundred oldest active ones of its document, counting those
of its own age. -/
def AmongOldest (server : Server S) (share : FileShare) : Prop :=
  (server.fileShares.notLater (fun s => s.createdAt.1) (isShareOf share.documentId .active)
    share).length ≤ findManyLimit

instance (server : Server S) (share : FileShare) : Decidable (AmongOldest server share) :=
  inferInstanceAs (Decidable (_ ≤ _))

/-- Nobody is left with an active share. -/
theorem noActive_binned {plan : Plan FileShare} {userId : Uuid}
    (hoverlooked : ∀ share ∈ server.fileShares.rows, share.documentId = documentId →
      share.status = .active → share.recipientId = userId → AmongOldest server share) :
    NoActive (server.binned plan documentId) documentId userId := by
  intro row hrow hdocument hrecipient hactive
  obtain ⟨old, hold, rfl⟩ := (mem_setShareStatus fun share hshare =>
    (mem_of_mem_sharesWith hshare).1).mp hrow
  split at hactive
  · cases hactive
  · rename_i hmissed
    rw [if_neg hmissed] at hdocument hrecipient
    have holdest := hoverlooked old hold hdocument hactive hrecipient
    rw [AmongOldest, hdocument] at holdest
    exact hmissed (Table.mem_findMany hold (decide_eq_true ⟨hdocument, hactive⟩) holdest)

/-- A share that does not fit may keep its recipient in. -/
theorem activeShare_binned {share : FileShare} (hshare : share ∈ server.fileShares.rows)
    (hactive : share.status = .active) (hlimit : ¬ AmongOldest server share)
    (plan : Plan FileShare) :
    ∃ found, (server.binned (Table.planWithLast share) share.documentId).activeShare plan
      share.documentId share.recipientId = some found := by
  have hmissed : share ∉ server.sharesWith (Table.planWithLast share) share.documentId .active :=
    Table.notMem_findMany_last (Nat.lt_of_not_le hlimit)
  have hrow : share ∈ (server.binned (Table.planWithLast share) share.documentId).fileShares.rows :=
    (mem_setShareStatus fun share hshare => (mem_of_mem_sharesWith hshare).1).mpr
      ⟨share, hshare, if_neg hmissed⟩
  refine Option.ne_none_iff_exists'.mp fun hnone => ?_
  exact activeShare_eq_none_iff.mp hnone share hrow rfl rfl hactive

/-- The owner's document is read by a user with an active share. -/
theorem getDocument_ok {share : FileShare} (hdoc : server.document documentId = some doc)
    (hactive : doc.status = .active)
    (hshare : server.activeShare amb.plan documentId user.id = some share) :
    ∃ response, server.getDocument amb user documentId = .ok response := by
  have hid : doc.id = documentId := (Table.get?_eq_some_iff.mp hdoc).2
  rw [getDocument, liveDocument_of_active hdoc hactive, ok_bind, grantFor, hid, hshare]
  split <;> exact ⟨_, rfl⟩

/-- **After a fresh restore** of a deleted document every request of everyone else is
denied, until the document is shared with them or restored with access, exactly if
every active share of somebody else was among the hundred oldest when the document
was deleted. -/
theorem fresh_restore_denies_iff (hdoc : server.document documentId = some doc)
    (hactive : doc.status = .active) (howner : doc.ownerId = owner.id) :
    (∀ (amb₁ amb₂ amb₃ : Ambient) (user : User) (calls : List Call) (request : Request),
        user.id ≠ owner.id →
        Along (fun server call => (server.handle words call).1)
          (fun server call => ¬ Opens words documentId user.id server call)
          (server.restoredFresh words amb₁ amb₂ owner documentId) calls →
        Reads documentId request →
        Denied (((server.restoredFresh words amb₁ amb₂ owner documentId).serve words
          calls).handle words ⟨amb₃, user, request⟩).2) ↔
      ∀ share ∈ server.fileShares.rows, share.documentId = documentId → share.status = .active →
        share.recipientId ≠ owner.id → AmongOldest server share := by
  constructor
  · intro hdenied share hshare hdocument hshareActive hrecipient
    by_contra hlimit
    -- the database returns the share last, and its recipient asks for the document
    obtain rfl := hdocument
    let amb₀ : Ambient := ⟨⟨0, by decide⟩, 0, Table.planWithLast share⟩
    let recipient : User := ⟨share.recipientId, [], []⟩
    obtain ⟨status, detail, hreply⟩ := hdenied amb₀ amb₀ amb₀ recipient [] (.get share.documentId)
      hrecipient trivial .get
    rw [restoredFresh_eq hdoc hactive howner] at hreply
    obtain ⟨found, hfound⟩ := activeShare_binned hshare hshareActive hlimit amb₀.plan
    have hopen := document_setDocumentStatus_self (document_binned hdoc amb₀.plan) .active
    obtain ⟨response, hresponse⟩ : ∃ response, ((server.binned amb₀.plan
        share.documentId).setDocumentStatus share.documentId .active).getDocument amb₀ recipient
          share.documentId = .ok response := getDocument_ok hopen rfl hfound
    simp only [serve, List.foldl_nil, handle, hresponse] at hreply
    cases hreply
  · intro hoverlooked amb₁ amb₂ amb₃ user calls request huser hcalls hrequest
    have hstart : NoActive (server.restoredFresh words amb₁ amb₂ owner documentId) documentId
          user.id ∧
        ∃ status, (server.restoredFresh words amb₁ amb₂ owner documentId).document documentId
          = some { doc with status := status } := by
      rw [restoredFresh_eq hdoc hactive howner]
      refine ⟨?_, .active, document_setDocumentStatus_self (document_binned hdoc amb₁.plan) .active⟩
      exact noActive_binned fun share hshare hdocument hshareActive hrecipient =>
        hoverlooked share hshare hdocument hshareActive (hrecipient ▸ huser)
    obtain ⟨hno, status, hdocument⟩ := along_foldl
      (I := fun server => NoActive server documentId user.id ∧
        ∃ status, server.document documentId = some { doc with status := status })
      (fun server call h hcall =>
        ⟨h.1.handle hcall, h.2.elim fun _ hdocument =>
          (document_handle hdocument call).imp fun _ h => h.2⟩) hstart hcalls
    exact denied_of_noActive hdocument (fun h => huser (h.symm.trans howner)) hno hrequest

/-- Bob is shared the minutes; after a fresh restore bob reads them no more, and neither after
alice has deleted and restored them once more. -/
theorem fresh_restore_denies_bob :
    Denied (((((office.serve .least [⟨at0 11, alice, .share 7 "bob"⟩]).restoredFresh
      .least (at0 0) (at0 0) alice 7).serve .least [⟨at0 0, alice, .delete 7⟩,
        ⟨at0 0, alice, .restore 7 false⟩]).handle .least ⟨at0 0, bob, .download 7⟩).2) := by
  have hdoc : (office.serve .least [⟨at0 11, alice, .share 7 "bob"⟩]).document 7
      = some minutes := by decide
  refine (fresh_restore_denies_iff hdoc rfl rfl).mpr (by decide) (at0 0) (at0 0) (at0 0) bob _
    (.download 7) (by decide) ⟨?_, ?_, trivial⟩ .download
  · rintro (hshares | ⟨hrequest, -⟩)
    · exact not_sharesWith (fun _ h => by cases h) hshares
    · cases hrequest
  · rintro (hshares | ⟨hrequest, -⟩)
    · exact not_sharesWith (fun _ h => by cases h) hshares
    · cases hrequest

/-- The minutes are shared with a hundred and one users. -/
def crowdedOffice : Server .tagged :=
  { office with
    fileShares :=
      ⟨(List.finRange 101).map fun (i : Fin 101) =>
        { id := .ofNat 128 i
          documentId := 7
          ownerId := 1
          recipientId := .ofNat 128 (1000 + i)
          childCocNodeHash := "child"
          status := .active
          createdAt := ⟨i, Nat.lt_trans i.isLt (by decide)⟩ },
        by decide⟩ }

/-- **One of a hundred and one is left in**, after the minutes were deleted and
restored without access. -/
theorem fresh_restore_leaves_one :
    Along (fun server call => (server.handle .least call).1) (Succeeds .least)
      crowdedOffice
      [⟨at0 0, alice, .delete 7⟩, ⟨at0 0, alice, .restore 7 false⟩,
        ⟨at0 0, ⟨1100, "zoe", "peer-zoe"⟩, .get 7⟩] := by
  decide +kernel

end Server

end TrustFlow.TrustDocs
