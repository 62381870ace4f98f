import TrustFlow.Library.Outcome
import TrustFlow.Library.Runs
import TrustFlow.TrustDocs.Documents

/-!
# Who has access to a document

What the requests do to the shares of a document, and what follows for a user who
is not its owner.

* `Moves`, `mem_shares_handle` — a share changes its status in four ways only, or is
  new by a successful share request.
* `document_handle` — of a document no more than the status changes.
* `denied_of_noActive` — without an active share the user is turned away.
* `reads_by_chain` — **no access without a chain of shares** from the owner.

A step is one request by any user, answered or turned away.  Both kinds of results are
about whole histories: what one request does to the tables is proved once, by the kind of
request, and the rest is by induction on the history.  The chain is read from the requests
and their answers, not from the tables.
-/

namespace TrustFlow.TrustDocs

open Library Custody Stegano Table

namespace Server

variable {S : SignatureScheme} {words : WordClass} {server : Server S}
  {amb : Ambient} {user : User} {documentId : Uuid}

/-! ## Checks -/

variable {doc : Document} {share : Option FileShare} {recipientUsername : Str} {recipient : User}
  {status : ShareStatus} {row : FileShare} {plan : Plan FileShare}

theorem liveDocument_of_active (hdoc : server.document documentId = some doc)
    (hactive : doc.status = .active) : server.liveDocument documentId = .ok doc := by
  rw [liveDocument, hdoc]
  dsimp only
  rw [hactive, if_neg (by decide)]

theorem liveDocument_of_some (hdoc : server.document documentId = some doc) :
    server.liveDocument documentId = .error (.http 404 "Document not found") ∨
      (server.liveDocument documentId = .ok doc ∧ doc.status = .active) := by
  by_cases hactive : doc.status = .active
  · exact .inr ⟨liveDocument_of_active hdoc hactive, hactive⟩
  · left
    rw [liveDocument, hdoc]
    dsimp only
    rw [if_pos]
    cases h : doc.status with
    | active => exact absurd h hactive
    | recycled => exact .inr rfl
    | deleted => exact .inl rfl

/-- A document that is there. -/
theorem liveDocument_ok (h : server.liveDocument documentId = .ok doc) :
    server.document documentId = some doc ∧ doc.status = .active := by
  cases hdoc : server.document documentId with
  | none =>
    rw [liveDocument, hdoc] at h
    cases h
  | some found =>
    rcases liveDocument_of_some hdoc with hlive | ⟨hlive, hactive⟩
    · cases hlive.symm.trans h
    · obtain rfl := Except.ok.inj (hlive.symm.trans h)
      exact ⟨rfl, hactive⟩

/-- A document in the recycle bin. -/
theorem recycledDocument_ok (h : server.recycledDocument documentId = .ok doc) :
    server.document documentId = some doc ∧ doc.status = .recycled := by
  rw [recycledDocument] at h
  split at h
  · cases h
  · rename_i found hfound
    split at h
    · rename_i hrecycled
      obtain rfl := Except.ok.inj h
      exact ⟨hfound, hrecycled⟩
    · cases h

/-- The owner needs no share. -/
theorem grantFor_ok {detail : String} (h : server.grantFor amb user doc detail = .ok share) :
    share = none ↔ doc.ownerId = user.id := by
  rw [grantFor] at h
  split at h
  · rename_i howner
    exact iff_of_true (Except.ok.inj h).symm howner
  · rename_i howner
    split at h
    · cases h
    · cases h
      exact iff_of_false (Option.some_ne_none _) howner

/-- What the checks of a share request have found. -/
theorem checkShare_ok
    (h : server.checkShare amb user documentId recipientUsername = .ok (doc, share, recipient)) :
    server.document documentId = some doc ∧ (share = none ↔ doc.ownerId = user.id) ∧
      server.userByName recipientUsername = some recipient := by
  obtain ⟨found, hlive, h⟩ := bind_eq_ok.mp h
  obtain ⟨grant, hgrant, h⟩ := bind_eq_ok.mp h
  split at h
  · cases h
  · rename_i named hnamed
    split at h
    · cases h
    · split at h
      · cases h
      · cases h
        exact ⟨(liveDocument_ok hlive).1, grantFor_ok hgrant, hnamed⟩

/-! ## One request -/

/-- How a request may move a share; `succeeds` says that it is not refused. -/
inductive Moves (request : Request) (succeeds : Prop) (share : FileShare) : ShareStatus → Prop
  | stay : Moves request succeeds share share.status
  | revoke : Moves request succeeds share .revoked
  | suspend : share.status = .active → Moves request succeeds share .suspended
  | resume : share.status = .suspended → request = .restore share.documentId true → succeeds →
      Moves request succeeds share .active

/-- The shares after an update of some of them. -/
theorem mem_setShareStatus {shares : List FileShare}
    (hshares : ∀ share ∈ shares, share ∈ server.fileShares.rows) :
    row ∈ (server.setShareStatus status shares).fileShares.rows ↔
      ∃ old ∈ server.fileShares.rows,
        (if old ∈ shares then { old with status := status } else old) = row := by
  have hmem : ∀ old ∈ server.fileShares.rows, old.id ∈ shares.map FileShare.id ↔ old ∈ shares := by
    intro old hold
    rw [List.mem_map]
    constructor
    · rintro ⟨share, hshare, hid⟩
      rwa [← eq_of_key_eq (hshares share hshare) hold hid]
    · exact fun h => ⟨old, h, rfl⟩
  have hupdate : row ∈ (server.setShareStatus status shares).fileShares.rows ↔
      ∃ old ∈ server.fileShares.rows, (if old.id ∈ shares.map FileShare.id
        then { old with status := status } else old) = row :=
    mem_updateAll (t := server.fileShares) (f := fun s => { s with status := status }) fun _ => rfl
  rw [hupdate]
  constructor
  · rintro ⟨old, hold, hrow⟩
    exact ⟨old, hold, by simpa only [hmem old hold] using hrow⟩
  · rintro ⟨old, hold, hrow⟩
    exact ⟨old, hold, by simpa only [hmem old hold] using hrow⟩

theorem mem_of_mem_sharesWith {share : FileShare}
    (h : share ∈ server.sharesWith plan documentId status) :
    share ∈ server.fileShares.rows ∧ share.documentId = documentId ∧ share.status = status := by
  obtain ⟨hmem, hp⟩ := mem_of_mem_findMany h
  exact ⟨hmem, of_decide_eq_true hp⟩

theorem mem_of_activeShare {userId : Uuid} {share : FileShare}
    (h : server.activeShare plan documentId userId = some share) :
    share ∈ server.fileShares.rows ∧ share.documentId = documentId ∧ share.status = .active ∧
      share.recipientId = userId := by
  obtain ⟨hmem, hp⟩ := findOne_spec h
  rw [Bool.and_eq_true] at hp
  obtain ⟨hdocument, hstatus⟩ := of_decide_eq_true hp.1
  exact ⟨hmem, hdocument, hstatus, of_decide_eq_true hp.2⟩

theorem activeShare_eq_none_iff {userId : Uuid} :
    server.activeShare plan documentId userId = none ↔
      ∀ share ∈ server.fileShares.rows, share.documentId = documentId →
        share.recipientId = userId → share.status ≠ .active := by
  rw [activeShare, findOne_eq_none_iff]
  simp only [isShareOf, Bool.and_eq_false_iff, decide_eq_false_iff_not, not_and]
  constructor
  · intro h share hshare hdocument hrecipient hstatus
    exact (h share hshare).elim (fun h => h hdocument hstatus) fun h => h hrecipient
  · intro h share hshare
    by_cases hrecipient : share.recipientId = userId
    · exact .inl fun hdocument => h share hshare hdocument hrecipient
    · exact .inr hrecipient

/-- The shares after an update are old ones that moved. -/
theorem exists_moved {shares : List FileShare} {request : Request} {succeeds : Prop}
    (hshares : ∀ share ∈ shares, share ∈ server.fileShares.rows)
    (hmoves : ∀ share ∈ shares, Moves request succeeds share status)
    (hrow : row ∈ (server.setShareStatus status shares).fileShares.rows) :
    ∃ old ∈ server.fileShares.rows, ∃ status, Moves request succeeds old status ∧
      row = { old with status := status } := by
  obtain ⟨old, hold, rfl⟩ := (mem_setShareStatus hshares).mp hrow
  split
  · rename_i hfound
    exact ⟨old, hold, status, hmoves old hfound, rfl⟩
  · exact ⟨old, hold, old.status, .stay, rfl⟩

/-- Writing a missing node again changes the custody nodes only. -/
theorem parentNode_ok {parentHash : Str} {server' : Server S} {parent : CoCNode}
    (h : server.parentNode amb user doc parentHash = .ok (server', parent)) :
    ∃ coc, server' = { server with coc := coc } := by
  unfold parentNode at h
  split at h
  · cases h
  · rw [← (Prod.mk.inj (Except.ok.inj h)).1]
    exact ⟨server.coc, rfl⟩
  · rw [← (Prod.mk.inj (Except.ok.inj h)).1]
    exact ⟨_, rfl⟩

variable (words server amb user) in
/-- The marked text, and what else forwarding changes. -/
theorem forwardNode_eq (parent : CoCNode) (recipientPeerId content : Str) :
    ∃ coc child,
      server.forwardNode words amb user parent recipientPeerId content = ({ server with
            coc := coc
            engine := server.engine.registerPeer recipientPeerId }, child,
          SteganoEngine.embedText words .all content recipientPeerId (isoformat amb.now.1)
            (parent.depth + 1)) :=
  ⟨_, _, rfl⟩

/-- A share request that fails leaves the tables of documents and shares alone, and the
uploads. -/
theorem shareDocument_error {failure : Failure}
    (h : (server.shareDocument words amb user documentId recipientUsername).2
      = .error failure) :
    (server.shareDocument words amb user documentId recipientUsername).1.fileShares
        = server.fileShares ∧
      (server.shareDocument words amb user documentId recipientUsername).1.documents
        = server.documents ∧
      ∀ id, (server.shareDocument words amb user documentId recipientUsername).1.files.get?
        (.original id) = server.files.get? (.original id) := by
  unfold shareDocument at h ⊢
  split
  · exact ⟨rfl, rfl, fun _ => rfl⟩
  · rename_i hcheck
    rw [hcheck] at h
    dsimp only at h ⊢
    split
    · exact ⟨rfl, rfl, fun _ => rfl⟩
    · rename_i hparent
      obtain ⟨coc, rfl⟩ := parentNode_ok hparent
      rw [hparent] at h
      dsimp only at h ⊢
      split
      · exact ⟨rfl, rfl, fun _ => rfl⟩
      · rename_i hfile
        rw [hfile] at h
        dsimp only at h ⊢
        split
        · exact ⟨rfl, rfl, fun _ => Dict.get?_set_of_ne _ _ (by simp)⟩
        · rename_i hinsert
          rw [hinsert] at h
          cases h

/-- What a successful share request has found and done. -/
structure Shared (words : WordClass) (server : Server S) (amb : Ambient)
    (user : User) (documentId : Uuid) (recipientUsername : Str) (new : FileShare)
    (server' : Server S) where
  doc : Document
  share : Option FileShare
  recipient : User
  bytes : Bytes
  depth : ℤ
  coc : CocStore
  fileShares : Table FileShare.id
  check : server.checkShare amb user documentId recipientUsername = .ok (doc, share, recipient)
  source : server.files.get? (sourceFile user doc share) = some bytes
  inserted : server.fileShares.insert? new = some fileShares
  isNew : ∃ childHash, new = ⟨amb.fresh, doc.id, user.id, recipient.id, childHash, .active, amb.now⟩
  result : server' = { server with
      coc := coc
      engine := server.engine.registerPeer recipient.peerId
      fileShares := fileShares
      files := server.files.set (.shared doc.id recipient.id)
        (encodeUtf8 (SteganoEngine.embedText words .all (readText bytes) recipient.peerId
          (isoformat amb.now.1) depth)) }

/-- A share request that succeeds. -/
theorem shareDocument_ok {new : FileShare}
    (h : (server.shareDocument words amb user documentId recipientUsername).2 = .ok new) :
    Nonempty (Shared words server amb user documentId recipientUsername new
      (server.shareDocument words amb user documentId recipientUsername).1) := by
  unfold shareDocument at h ⊢
  split at h
  · cases h
  · rename_i doc share recipient hcheck
    dsimp only at h ⊢
    split at h
    · cases h
    · rename_i parent hparent
      obtain ⟨coc, rfl⟩ := parentNode_ok hparent
      dsimp only at h ⊢
      split at h
      · cases h
      · rename_i bytes hfile
        obtain ⟨coc', child, hforward⟩ := forwardNode_eq words { server with coc := coc } amb user
          parent recipient.peerId (readText bytes)
        rw [hforward] at h ⊢
        dsimp only at h ⊢
        split at h
        · cases h
        · rename_i fileShares hinsert
          obtain rfl := Except.ok.inj h
          exact ⟨⟨doc, share, recipient, bytes, parent.depth + 1, coc', fileShares, hcheck, hfile,
            hinsert, ⟨_, rfl⟩, rfl⟩⟩

variable (words) in
/-- The call is not refused. -/
def Succeeds (server : Server S) (call : Call) : Prop :=
  ∃ response, (server.handle words call).2 = .ok response

instance {call : Call} : Decidable (Succeeds words server call) :=
  match h : (server.handle words call).2 with
  | .ok response => isTrue ⟨response, h⟩
  | .error _ => isFalse fun ⟨_, hok⟩ => by rw [h] at hok; cases hok

/-- The reply of a share request that succeeds. -/
theorem shareDocument_of_succeeds
    (h : Succeeds words server ⟨amb, user, .share documentId recipientUsername⟩) :
    ∃ new, (server.shareDocument words amb user documentId recipientUsername).2 = .ok new := by
  obtain ⟨response, h⟩ := h
  simp only [handle] at h
  cases hreply : (server.shareDocument words amb user documentId recipientUsername).2 with
  | error failure => rw [hreply] at h; cases h
  | ok new => exact ⟨new, rfl⟩

/-- **What a request does to the shares.**  They move, and one may be new. -/
theorem mem_shares_handle {call : Call}
    (hrow : row ∈ (server.handle words call).1.fileShares.rows) :
    (∃ old ∈ server.fileShares.rows, ∃ status,
        Moves call.request (Succeeds words server call) old status ∧
          row = { old with status := status }) ∨
      (server.handle words call).2 = .ok (.shared row) := by
  obtain ⟨amb, user, request⟩ := call
  have hstay : row ∈ server.fileShares.rows → ∃ old ∈ server.fileShares.rows, ∃ status,
      Moves request (Succeeds words server ⟨amb, user, request⟩) old status ∧
        row = { old with status := status } :=
    fun h => ⟨row, h, row.status, .stay, rfl⟩
  cases request with
  | upload filename mimeType content =>
    refine .inl (hstay ?_)
    simp only [handle, uploadDocument] at hrow
    split at hrow
    · exact hrow
    · split at hrow
      · exact hrow
      · exact hrow
  | get documentId =>
    simp only [handle] at hrow
    exact .inl (hstay hrow)
  | download documentId =>
    simp only [handle] at hrow
    exact .inl (hstay hrow)
  | trace documentId =>
    refine .inl (hstay ?_)
    simp only [handle, getDocumentTrace] at hrow
    split at hrow
    · exact hrow
    · exact hrow
    · split at hrow
      · exact hrow
      · exact hrow
  | share documentId recipientUsername =>
    simp only [handle] at hrow ⊢
    cases hreply : (server.shareDocument words amb user documentId recipientUsername).2 with
    | error failure =>
      rw [(shareDocument_error hreply).1] at hrow
      exact .inl (hstay hrow)
    | ok new =>
      obtain ⟨shared⟩ := shareDocument_ok hreply
      rw [shared.result] at hrow
      rcases (mem_of_insert? shared.inserted).mp hrow with hold | rfl
      · exact .inl (hstay hold)
      · exact .inr rfl
  | revoke documentId targetUserId =>
    left
    simp only [handle, revokeShare] at hrow
    split at hrow
    · exact hstay hrow
    · split at hrow
      · exact hstay hrow
      · split at hrow
        · exact hstay hrow
        · rename_i share hshare
          refine exists_moved ?_ ?_ hrow
          · intro other hother
            rw [List.mem_singleton.mp hother]
            exact (mem_of_activeShare hshare).1
          · exact fun _ _ => .revoke
  | delete documentId =>
    left
    simp only [handle, deleteDocument] at hrow
    split at hrow
    · exact hstay hrow
    · refine exists_moved ?_ ?_ hrow
      · exact fun share hshare => (mem_of_mem_sharesWith hshare).1
      · exact fun share hshare => .suspend (mem_of_mem_sharesWith hshare).2.2
  | restore documentId restoreAccess =>
    left
    simp only [handle, restoreDocument] at hrow
    split at hrow
    · exact hstay hrow
    · rename_i hcheck
      cases restoreAccess with
      | false => exact hstay hrow
      | true =>
        refine exists_moved ?_ ?_ hrow
        · exact fun share hshare => (mem_of_mem_sharesWith hshare).1
        · intro share hshare
          obtain ⟨-, hdocument, hstatus⟩ := mem_of_mem_sharesWith hshare
          refine .resume hstatus (by rw [hdocument]) ?_
          simp only [Succeeds, handle, restoreDocument, hcheck, if_true]
          exact ⟨_, rfl⟩
  | purge documentId =>
    left
    simp only [handle, purgeDocument] at hrow
    split at hrow
    · exact hstay hrow
    · refine exists_moved ?_ ?_ hrow
      · exact fun share hshare => (mem_of_mem_findMany hshare).1
      · exact fun _ _ => .revoke

section

variable (hdoc : server.document documentId = some doc)
include hdoc

theorem document_setDocumentStatus (otherId : Uuid) (status : DocumentStatus) :
    (server.setDocumentStatus otherId status).document documentId
      = some { doc with status := if documentId = otherId then status else doc.status } := by
  obtain ⟨hmem, rfl⟩ := Table.get?_eq_some_iff.mp hdoc
  have hupdated : Table.change Document.id otherId (fun d => { d with status := status }) doc
      ∈ (server.setDocumentStatus otherId status).documents.rows := List.mem_map_of_mem hmem
  rw [Table.change] at hupdated
  split
  · rename_i hsame
    rw [if_pos hsame] at hupdated
    exact Table.get?_eq_some_iff.mpr ⟨hupdated, rfl⟩
  · rename_i hsame
    rw [if_neg hsame] at hupdated
    exact Table.get?_eq_some_iff.mpr ⟨hupdated, rfl⟩

/-- How a request may move a document. -/
inductive StatusMoves : DocumentStatus → DocumentStatus → Prop
  | stay (status : DocumentStatus) : StatusMoves status status
  | recycle : StatusMoves .active .recycled
  | restore : StatusMoves .recycled .active
  | purge : StatusMoves .recycled .deleted

/-- One document gets a status that it may move to. -/
theorem exists_statusMoves {otherId : Uuid}
    {status : DocumentStatus} (hmoves : documentId = otherId → StatusMoves doc.status status) :
    ∃ status', StatusMoves doc.status status' ∧
      (server.setDocumentStatus otherId status).document documentId
        = some { doc with status := status' } := by
  refine ⟨_, ?_, document_setDocumentStatus hdoc otherId status⟩
  split
  · exact hmoves ‹_›
  · exact .stay _

/-- **A request changes no more of a document than its status.** -/
theorem document_handle (call : Call) :
    ∃ status, StatusMoves doc.status status ∧
      (server.handle words call).1.document documentId
        = some { doc with status := status } := by
  obtain ⟨amb, user, request⟩ := call
  have hstay : ∃ status, StatusMoves doc.status status ∧
      server.document documentId = some { doc with status := status } :=
    ⟨doc.status, .stay _, hdoc⟩
  cases request with
  | upload filename mimeType content =>
    simp only [handle, uploadDocument]
    split
    · exact hstay
    · split
      · exact hstay
      · rename_i documents hinsert
        obtain ⟨hmem, hid⟩ := Table.get?_eq_some_iff.mp hdoc
        exact ⟨doc.status, .stay _, Table.get?_eq_some_iff.mpr
          ⟨(mem_of_insert? hinsert).mpr (.inl hmem), hid⟩⟩
  | get documentId => exact hstay
  | download documentId => exact hstay
  | trace documentId =>
    simp only [handle, getDocumentTrace]
    split
    · exact hstay
    · exact hstay
    · split <;> exact hstay
  | share otherId recipientUsername =>
    simp only [handle]
    cases hreply : (server.shareDocument words amb user otherId recipientUsername).2 with
    | error failure =>
      rw [document, (shareDocument_error hreply).2.1]
      exact hstay
    | ok new =>
      obtain ⟨shared⟩ := shareDocument_ok hreply
      rw [shared.result]
      exact hstay
  | revoke otherId targetUserId =>
    simp only [handle, revokeShare]
    split
    · exact hstay
    · split
      · exact hstay
      · split <;> exact hstay
  | delete otherId =>
    simp only [handle, deleteDocument]
    split
    · exact hstay
    · rename_i hcheck
      obtain ⟨found, hlive, -⟩ := bind_eq_ok.mp hcheck
      refine exists_statusMoves hdoc fun hsame => ?_
      obtain rfl := Option.mem_unique hdoc (hsame ▸ (liveDocument_ok hlive).1)
      rw [(liveDocument_ok hlive).2]
      exact .recycle
  | restore otherId restoreAccess =>
    simp only [handle, restoreDocument]
    split
    · exact hstay
    · rename_i hcheck
      obtain ⟨found, hbin, -⟩ := bind_eq_ok.mp hcheck
      have hmoves : documentId = otherId → StatusMoves doc.status .active := by
        intro hsame
        obtain rfl := Option.mem_unique hdoc (hsame ▸ (recycledDocument_ok hbin).1)
        rw [(recycledDocument_ok hbin).2]
        exact .restore
      cases restoreAccess with
      | false => exact exists_statusMoves hdoc hmoves
      | true => exact exists_statusMoves hdoc hmoves
  | purge otherId =>
    simp only [handle, purgeDocument]
    split
    · exact hstay
    · rename_i hcheck
      obtain ⟨found, hbin, -⟩ := bind_eq_ok.mp hcheck
      refine exists_statusMoves hdoc fun hsame => ?_
      obtain rfl := Option.mem_unique hdoc (hsame ▸ (recycledDocument_ok hbin).1)
      rw [(recycledDocument_ok hbin).2]
      exact .purge

end

/-! ## Being turned away -/

/-- The request fails with an `HTTPException`. -/
def Denied (reply : Reply Response) : Prop := ∃ status detail, reply = .error (.http status detail)

/-- The user has no active share of the document. -/
def NoActive (server : Server S) (documentId userId : Uuid) : Prop :=
  ∀ share ∈ server.fileShares.rows, share.documentId = documentId → share.recipientId = userId →
    share.status ≠ .active

/-- The requests by which a user reads a document or passes it on. -/
inductive Reads (documentId : Uuid) : Request → Prop
  | get : Reads documentId (.get documentId)
  | download : Reads documentId (.download documentId)
  | trace : Reads documentId (.trace documentId)
  | share (recipientUsername : Str) : Reads documentId (.share documentId recipientUsername)

/-- **Without an active share** everyone but the owner is turned away. -/
theorem denied_of_noActive (hdoc : server.document documentId = some doc)
    (howner : doc.ownerId ≠ user.id) (hno : NoActive server documentId user.id) {request : Request}
    (hrequest : Reads documentId request) :
    Denied (server.handle words ⟨amb, user, request⟩).2 := by
  obtain rfl : doc.id = documentId := (Table.get?_eq_some_iff.mp hdoc).2
  have hgrant : ∀ detail, server.grantFor amb user doc detail = .error (.http 403 detail.toList) :=
    fun detail => by rw [grantFor, if_neg howner, activeShare_eq_none_iff.mpr hno]
  rcases liveDocument_of_some hdoc with hlive | ⟨hlive, -⟩
  · refine ⟨404, "Document not found", ?_⟩
    cases hrequest with
    | get => simp only [handle, getDocument, hlive]; rfl
    | download => simp only [handle, downloadDocument, hlive]; rfl
    | trace => simp only [handle, getDocumentTrace, hlive]; rfl
    | share => simp only [handle, shareDocument, checkShare, hlive]; rfl
  · cases hrequest with
    | get => exact ⟨403, _, by simp only [handle, getDocument, hlive, ok_bind, hgrant]; rfl⟩
    | download =>
      simp only [handle, downloadDocument, hlive, ok_bind, hgrant]
      split
      · exact ⟨409, _, rfl⟩
      · exact ⟨403, _, rfl⟩
    | trace => exact ⟨403, _, by simp only [handle, getDocumentTrace, hlive, ok_bind, hgrant]; rfl⟩
    | share =>
      exact ⟨403, _, by
        simp only [handle, shareDocument, checkShare, hlive, ok_bind, hgrant]
        rfl⟩

variable (words) in
/-- The call shares the document with the user. -/
def SharesWith (documentId userId : Uuid) (server : Server S) (call : Call) : Prop :=
  ∃ share, (server.handle words call).2 = .ok (.shared share) ∧
    share.documentId = documentId ∧ share.recipientId = userId

/-! ## Chains of shares -/

variable (words) in
/-- The user is the owner, or was given the document by someone who had it, in an earlier
request. -/
inductive Granted (base : Server S) (documentId ownerId : Uuid) : List Call → Uuid → Prop
  | owner (calls : List Call) : Granted base documentId ownerId calls ownerId
  | shared {before : List Call} {call : Call} {userId : Uuid} (after : List Call)
      (hsharer : Granted base documentId ownerId before call.user.id)
      (hshares : SharesWith words documentId userId (base.serve words before) call) :
      Granted base documentId ownerId (before ++ call :: after) userId

variable {base : Server S} {request : Request} {calls : List Call}

theorem Granted.append {ownerId userId : Uuid}
    (h : Granted words base documentId ownerId calls userId) (later : List Call) :
    Granted words base documentId ownerId (calls ++ later) userId := by
  cases h with
  | owner => exact .owner _
  | shared after hsharer hshares =>
    rw [List.append_assoc]
    exact .shared (after ++ later) hsharer hshares

/-- Whoever is not turned away is the owner, or has a share. -/
theorem owner_or_share (hdoc : server.document documentId = some doc)
    (hrequest : Reads documentId request)
    (hsucceeds : Succeeds words server ⟨amb, user, request⟩) :
    doc.ownerId = user.id ∨ ∃ share ∈ server.fileShares.rows,
      share.documentId = documentId ∧ share.recipientId = user.id := by
  by_contra hnot
  rw [not_or] at hnot
  obtain ⟨response, hok⟩ := hsucceeds
  obtain ⟨status, detail, hdenied⟩ := denied_of_noActive hdoc hnot.1
    (fun _ hshare hof huser => absurd ⟨_, hshare, hof, huser⟩ hnot.2) hrequest
  cases hdenied.symm.trans hok

/-- A new share is the reply to a share request about its document. -/
theorem reads_of_shared {call : Call}
    (h : (server.handle words call).2 = .ok (.shared row)) :
    Reads row.documentId call.request := by
  obtain ⟨amb, user, request⟩ := call
  cases request with
  | share documentId recipientUsername =>
    obtain ⟨new, hnew, heq⟩ := map_eq_ok.mp h
    obtain ⟨found⟩ := shareDocument_ok hnew
    obtain ⟨childHash, hisNew⟩ := found.isNew
    obtain rfl : new = row := Response.shared.inj heq
    obtain rfl : new.documentId = documentId := by
      rw [hisNew]
      exact (Table.get?_eq_some_iff.mp (checkShare_ok found.check).1).2
    exact .share recipientUsername
  | _ =>
    obtain ⟨_, _, heq⟩ := map_eq_ok.mp h
    cases heq

/-- Other requests share with nobody. -/
theorem not_sharesWith {call : Call} {userId : Uuid}
    (h : ∀ documentId, ¬ Reads documentId call.request) :
    ¬ SharesWith words documentId userId server call :=
  fun ⟨_, hreply, _⟩ => h _ (reads_of_shared hreply)

/-- The document stays, and every share of it was granted along a chain. -/
theorem granted_serve (hdoc : base.document documentId = some doc)
    (hunshared : ∀ share ∈ base.fileShares.rows, share.documentId ≠ documentId) (calls : List Call) :
    (∃ status, (base.serve words calls).document documentId = some { doc with status }) ∧
      ∀ share ∈ (base.serve words calls).fileShares.rows, share.documentId = documentId →
        Granted words base documentId doc.ownerId calls share.recipientId := by
  induction calls using List.reverseRecOn with
  | nil => exact ⟨⟨doc.status, hdoc⟩, fun _ hshare hof => absurd hof (hunshared _ hshare)⟩
  | append_singleton calls call ih =>
    obtain ⟨⟨status, hdocument⟩, hgranted⟩ := ih
    rw [serve, List.foldl_concat, ← serve]
    refine ⟨(document_handle hdocument call).imp fun _ h => h.2, fun share hshare hof => ?_⟩
    rcases mem_shares_handle hshare with ⟨old, hold, _, -, rfl⟩ | hnew
    · exact (hgranted old hold hof).append [call]
    · -- the sharer was not turned away
      refine .shared [] ?_ ⟨share, hnew, hof, rfl⟩
      rcases owner_or_share hdocument (hof ▸ reads_of_shared hnew) ⟨_, hnew⟩ with
        howner | ⟨held, hheld, hof', huser⟩
      · exact howner ▸ .owner calls
      · exact huser ▸ hgranted held hheld hof'

/-- **No access without a chain of shares.**  Whatever requests were made about a document that
was not shared at first, whoever reads it or passes it on is its owner, or was given it by an
earlier request of someone who had it. -/
theorem reads_by_chain (hdoc : base.document documentId = some doc)
    (hunshared : ∀ share ∈ base.fileShares.rows, share.documentId ≠ documentId) (calls : List Call)
    (hrequest : Reads documentId request)
    (hsucceeds : Succeeds words (base.serve words calls) ⟨amb, user, request⟩) :
    Granted words base documentId doc.ownerId calls user.id := by
  obtain ⟨⟨status, hdocument⟩, hgranted⟩ := granted_serve hdoc hunshared calls
  rcases owner_or_share hdocument hrequest hsucceeds with howner | ⟨share, hshare, hof, huser⟩
  · exact howner ▸ .owner calls
  · exact huser ▸ hgranted share hshare hof

/-- Bob reads the minutes after alice has shared them. -/
theorem reads_by_chain_bob :
    Granted .least office 7 alice.id [⟨at0 11, alice, .share 7 bob.username⟩] bob.id :=
  reads_by_chain (rfl : office.document 7 = some minutes) (fun _ h => by cases h) _ .get
    (by decide : Succeeds .least (office.serve .least
      [⟨at0 11, alice, .share 7 bob.username⟩]) ⟨at0 0, bob, .get 7⟩)

end Server

end TrustFlow.TrustDocs
