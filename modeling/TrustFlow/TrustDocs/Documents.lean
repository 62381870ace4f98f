import TrustFlow.TrustDocs.Server

/-!
# The document routes

The handlers of `trustdocs/documents/routes.py`: upload, read, share, revoke, and the
recycle bin.  A document is active, recycled or deleted; a share is active,
suspended or revoked.  Deleting a document suspends its shares, restoring it may
bring them back.

* `liveDocument`, `grantFor` — the two checks that most handlers start with: the
  document is there, and the user owns it or holds an active share.
* `shareDocument` — a copy is marked for the recipient, with a custody node and a
  share; a recipient who shares on passes on a copy of their own copy.
* `serve` — one request after the other.

Audit lines, log lines and notification timestamps are left out, and so are the
listing and search handlers.

A step is one request, served to its end (`handle`); requests that overlap, query by
query, are in `TrustDocs.Chat`.  Which characters make up words is a parameter
(`WordClass`), and so are the signatures.
-/

namespace TrustFlow.TrustDocs

open Library Custody Stegano

namespace Server

variable {S : SignatureScheme} (words : WordClass) (server : Server S)
  (amb : Ambient) (user : User)

/-! ## Checks -/

variable (documentId : Uuid)

/-- The document, unless it is deleted or recycled. -/
def liveDocument : Reply Document :=
  match server.document documentId with
  | none => .error (.http 404 "Document not found")
  | some doc =>
    if doc.status = .deleted ∨ doc.status = .recycled then
      .error (.http 404 "Document not found")
    else .ok doc

variable (doc : Document)

/-- The active share by which the user has access; `none` for the owner. -/
def grantFor (detail : String) : Reply (Option FileShare) :=
  if doc.ownerId = user.id then .ok none
  else
    match server.activeShare amb.plan doc.id user.id with
    | none => .error (.http 403 detail.toList)
    | some share => .ok (some share)

/-- Handlers for the owner alone. -/
def ownerOnly (detail : String) : Reply Unit :=
  if doc.ownerId = user.id then .ok () else .error (.http 403 detail.toList)

/-- The document, if it is in the recycle bin. -/
def recycledDocument : Reply Document :=
  match server.document documentId with
  | none => .error (.http 404 "Document not found")
  | some doc =>
    if doc.status = .recycled then .ok doc else .error (.http 404 "Document not found")

/-! ## Reading -/

/-- `DocumentResponse`. -/
structure DocumentResponse where
  document : Document
  ownerUsername : Str
  isOwner : Bool
  shareCount : ℕ

/-- `_doc_to_response`. -/
def docToResponse : DocumentResponse where
  document := doc
  ownerUsername := ((server.userById doc.ownerId).map User.username).getD "unknown"
  isOwner := decide (doc.ownerId = user.id)
  shareCount := (server.sharesWith amb.plan doc.id .active).length

/-- `get_document`. -/
def getDocument : Reply DocumentResponse := do
  let doc ← server.liveDocument documentId
  let _ ← server.grantFor amb user doc "Access denied — you are not a recipient of this document"
  return server.docToResponse amb user doc

/-- `download_document`: the file of the upload. -/
def downloadDocument : Reply Bytes := do
  let doc ← server.liveDocument documentId
  if (server.tombstones.get? doc.contentHash).any fun deleteAfter =>
      decide (amb.now.1 ≤ deleteAfter.1) then
    .error (.http 409
      "This document has been deleted and is pending full propagation across all nodes.")
  else
    let _ ← server.grantFor amb user doc "Access denied"
    match server.files.get? (.original doc.id) with
    | none => .error .unhandled
    | some content => .ok content

/-- `get_trace_for_document`: the nodes below a root, from a stack. -/
def traceFrom (store : CocStore) :
    ℕ → List CoCNode → List Str → Except CustodyError (List CoCNode × List (Str × Str))
  | 0, _, _ => .ok ([], [])
  | _, [], _ => .ok ([], [])
  | fuel + 1, node :: stack, seen =>
    if node.nodeHash ∈ seen then traceFrom store fuel stack seen
    else do
      let children := (store.nodes.rows.filter fun child =>
        decide (child.parentHash = some node.nodeHash)).map NodeRow.nodeHash
      let found ← children.mapM store.getNode
      let (nodes, edges) ← traceFrom store fuel
        ((found.filterMap id).reverse ++ stack) (node.nodeHash :: seen)
      return (node :: nodes, children.map (fun child => (node.nodeHash, child)) ++ edges)

/-- The trace of a document; empty if the root is not stored.  Every node is pushed
by its one parent, so that the number of nodes bounds the loop. -/
def traceOf (rootHash : Str) : Reply (List CoCNode × List (Str × Str)) :=
  let trace := do
    match ← server.coc.getNode rootHash with
    | none => return ([], [])
    | some root => traceFrom server.coc (server.coc.nodes.rows.length + 2) [root] []
  trace.mapError fun _ => .unhandled

/-- `get_document_trace`: others than the owner see no edges.  For the owner a missing
root is written again. -/
def getDocumentTrace : Server S × Reply (List CoCNode × List (Str × Str)) :=
  match (do
    let doc ← server.liveDocument documentId
    let share ← server.grantFor amb user doc "Access denied"
    return (doc, share.isNone, ← server.traceOf doc.cocNodeHash) :
      Reply (Document × Bool × List CoCNode × List (Str × Str))) with
  | .error failure => (server, .error failure)
  | .ok (_, false, nodes, _) => (server, .ok (nodes, []))
  | .ok (doc, true, nodes, edges) =>
    if nodes.isEmpty then
      let root := { CoCNode.new S doc.contentHash user.peerId server.systemSigningKey [] none
        amb.now with nodeHash := doc.cocNodeHash }
      let server := { server with coc := server.coc.addNode root }
      (server, server.traceOf doc.cocNodeHash)
    else (server, .ok (nodes, edges))

/-! ## Uploads and shares -/

/-- `max_file_size_mb`. -/
def maxFileSizeMb : ℕ := 50

/-- The upload is larger than allowed. -/
def exceedsLimit (content : Bytes) : Bool :=
  decide (maxFileSizeMb * 1024 * 1024 < content.length)

/-- `upload_document`. -/
def uploadDocument (filename mimeType : Str) (content : Bytes) : Server S × Reply Document :=
  if exceedsLimit content then
    (server, .error (.http 413 "File exceeds 50MB limit"))
  else
    let node := CoCNode.new S (hashContent (decodeReplace content)) user.peerId
      server.systemSigningKey [] none amb.now
    let written := { server with
      files := server.files.set (.original amb.fresh) content
      coc := server.coc.addNode node }
    let doc : Document :=
      { id := amb.fresh
        ownerId := user.id
        filename := if filename = [] then "untitled" else filename
        mimeType := if mimeType = [] then "application/octet-stream" else mimeType
        sizeBytes := content.length
        contentHash := node.contentHash
        cocNodeHash := node.nodeHash
        status := .active
        createdAt := amb.now }
    match written.documents.insert? doc with
    | none => (written, .error .unhandled)
    | some documents => ({ written with documents := documents }, .ok doc)

/-- The checks of `share_document`: the document, the share of a user who is not the
owner, and the recipient. -/
def checkShare (recipientUsername : Str) :
    Reply (Document × Option FileShare × User) := do
  let doc ← server.liveDocument documentId
  let share ← server.grantFor amb user doc "Access denied — you cannot share this document"
  match server.userByName recipientUsername with
  | none => .error (.http 404 ("User '" ++ recipientUsername ++ "' not found"))
  | some recipient =>
    if recipient.id = user.id then .error (.http 400 "Cannot share with yourself")
    else if (server.activeShare amb.plan doc.id recipient.id).isSome then
      .error (.http 409 ("Already shared with " ++ recipientUsername))
    else .ok (doc, share, recipient)

/-- The node that is forwarded.  A missing one is written again, with the hash that
the document or the share names. -/
def parentNode (parentHash : Str) : Reply (Server S × CoCNode) :=
  match server.coc.getNode parentHash with
  | .error _ => .error .unhandled
  | .ok (some node) => .ok (server, node)
  | .ok none =>
    let node := { CoCNode.new S doc.contentHash user.peerId server.systemSigningKey [] none amb.now
      with nodeHash := parentHash }
    .ok ({ server with coc := server.coc.addNode node }, node)

/-- `TrustFlowService.share_document`: the marked text and its node. -/
def forwardNode (parent : CoCNode) (recipientPeerId content : Str) : Server S × CoCNode × Str :=
  let (engine, watermarked) := server.engine.embedWatermark words .all content recipientPeerId
    (isoformat amb.now.1) (parent.depth + 1)
  let child := { CoCNode.new S (hashContent watermarked) user.peerId server.systemSigningKey
    [recipientPeerId] (some parent.nodeHash) amb.now with depth := parent.depth + 1 }
  ({ server with
      engine := engine
      coc := (server.coc.addNode child).addRecipient parent.nodeHash recipientPeerId }, child,
    watermarked)

/-- The file that is passed on: the upload by the owner, their own copy by a
recipient. -/
def sourceFile (share : Option FileShare) : StoredFile :=
  if share.isNone then .original doc.id else .shared doc.id user.id

/-- `share_document`. -/
def shareDocument (recipientUsername : Str) : Server S × Reply FileShare :=
  match server.checkShare amb user documentId recipientUsername with
  | .error failure => (server, .error failure)
  | .ok (doc, share, recipient) =>
    let parentHash := (share.map FileShare.childCocNodeHash).getD doc.cocNodeHash
    match server.parentNode amb user doc parentHash with
    | .error failure => (server, .error failure)
    | .ok (server, parent) =>
      match server.files.get? (sourceFile user doc share) with
      | none => (server, .error .unhandled)
      | some bytes =>
        let (server, child, watermarked) :=
          server.forwardNode words amb user parent recipient.peerId (readText bytes)
        let server := { server with
          files := server.files.set (.shared doc.id recipient.id) (encodeUtf8 watermarked) }
        let new : FileShare :=
          { id := amb.fresh
            documentId := doc.id
            ownerId := user.id
            recipientId := recipient.id
            childCocNodeHash := child.nodeHash
            status := .active
            createdAt := amb.now }
        match server.fileShares.insert? new with
        | none => (server, .error .unhandled)
        | some fileShares => ({ server with fileShares := fileShares }, .ok new)

/-- `revoke_share`: one active share of the target, of a document in any status. -/
def revokeShare (documentId targetUserId : Uuid) : Server S × Reply FileShare :=
  match server.document documentId with
  | none => (server, .error (.http 404 "Document not found"))
  | some doc =>
    match ownerOnly user doc "Only the owner can revoke shares" with
    | .error failure => (server, .error failure)
    | .ok () =>
      match server.activeShare amb.plan documentId targetUserId with
      | none => (server, .error (.http 404 "Share not found"))
      | some share => (server.setShareStatus .revoked [share], .ok share)

/-! ## The recycle bin -/

/-- `delete_document`; the reply is the number of suspended shares. -/
def deleteDocument : Server S × Reply ℕ :=
  match (do
    let doc ← server.liveDocument documentId
    ownerOnly user doc "Only the document owner can delete" : Reply Unit) with
  | .error failure => (server, .error failure)
  | .ok () =>
    let server := server.setDocumentStatus documentId .recycled
    let shares := server.sharesWith amb.plan documentId .active
    (server.setShareStatus .suspended shares, .ok shares.length)

/-- `restore_document`; the reply is the number of shares that are active again. -/
def restoreDocument (restoreAccess : Bool) : Server S × Reply ℕ :=
  match (do
    let doc ← server.recycledDocument documentId
    ownerOnly user doc "Only the document owner can restore" : Reply Unit) with
  | .error failure => (server, .error failure)
  | .ok () =>
    let server := server.setDocumentStatus documentId .active
    let shares := server.sharesWith amb.plan documentId .suspended
    if restoreAccess then (server.setShareStatus .active shares, .ok shares.length)
    else (server, .ok 0)

/-- `purge_document`; the reply is the number of revoked shares.  The shares are found
without regard to their status, and up to the same limit. -/
def purgeDocument : Server S × Reply ℕ :=
  match (do
    let doc ← server.recycledDocument documentId
    ownerOnly user doc "Only the document owner can purge" : Reply Unit) with
  | .error failure => (server, .error failure)
  | .ok () =>
    let server := server.setDocumentStatus documentId .deleted
    let shares := server.fileShares.findMany amb.plan (fun share => share.createdAt.1)
      findManyLimit fun share => decide (share.documentId = documentId)
    let server := server.setShareStatus .revoked shares
    ({ server with files := server.files.erase (.original documentId) }, .ok shares.length)

/-! ## Requests -/

end Server

/-- A request. -/
inductive Request where
  | upload (filename mimeType : Str) (content : Bytes)
  | get (documentId : Uuid)
  | download (documentId : Uuid)
  | trace (documentId : Uuid)
  | share (documentId : Uuid) (recipientUsername : Str)
  | revoke (documentId targetUserId : Uuid)
  | delete (documentId : Uuid)
  | restore (documentId : Uuid) (restoreAccess : Bool)
  | purge (documentId : Uuid)

/-- What a request returns. -/
inductive Response where
  | document (response : Server.DocumentResponse)
  | content (bytes : Bytes)
  | trace (nodes : List CoCNode) (edges : List (Str × Str))
  | uploaded (document : Document)
  | shared (share : FileShare)
  | revoked (share : FileShare)
  | moved (shares : ℕ)

/-- A request of a user, and what it finds around it. -/
structure Call where
  amb : Ambient
  user : User
  request : Request

namespace Server

variable {S : SignatureScheme} (words : WordClass) (server : Server S)

/-- One request. -/
def handle (call : Call) : Server S × Reply Response :=
  match call.request with
  | .upload filename mimeType content =>
    let (server, reply) :=
      server.uploadDocument call.amb call.user filename mimeType content
    (server, reply.map .uploaded)
  | .get documentId =>
    (server, (server.getDocument call.amb call.user documentId).map .document)
  | .download documentId =>
    (server, (server.downloadDocument call.amb call.user documentId).map .content)
  | .trace documentId =>
    let (server, reply) := server.getDocumentTrace call.amb call.user documentId
    (server, reply.map fun (nodes, edges) => .trace nodes edges)
  | .share documentId recipientUsername =>
    let (server, reply) :=
      server.shareDocument words call.amb call.user documentId recipientUsername
    (server, reply.map .shared)
  | .revoke documentId targetUserId =>
    let (server, reply) := server.revokeShare call.amb call.user documentId targetUserId
    (server, reply.map .revoked)
  | .delete documentId =>
    let (server, reply) := server.deleteDocument call.amb call.user documentId
    (server, reply.map .moved)
  | .restore documentId restoreAccess =>
    let (server, reply) := server.restoreDocument call.amb call.user documentId restoreAccess
    (server, reply.map .moved)
  | .purge documentId =>
    let (server, reply) := server.purgeDocument call.amb call.user documentId
    (server, reply.map .moved)

/-- Requests, one after the other. -/
def serve (server : Server S) (calls : List Call) : Server S :=
  calls.foldl (fun server call => (server.handle words call).1) server

/-! ## An office -/

/-- The owner of the minutes. -/
def alice : User := ⟨1, "alice", "peer-alice"⟩

/-- A colleague. -/
def bob : User := ⟨2, "bob", "peer-bob"⟩

/-- Another colleague. -/
def carol : User := ⟨3, "carol", "peer-carol"⟩

/-- A document of alice's. -/
def minutes : Document where
  id := 7
  ownerId := 1
  filename := "minutes.txt"
  mimeType := "text/plain"
  sizeBytes := 11
  contentHash := hashContent "hello world"
  cocNodeHash := "root"
  status := .active
  createdAt := ⟨0, datetimeMax_pos⟩

/-- A server with the minutes, which are not shared yet. -/
def office : Server .tagged where
  users := [alice, bob, carol]
  documents := ⟨[minutes], by decide⟩
  fileShares := .empty
  tombstones := .empty
  coc := ⟨.empty, []⟩
  files := Dict.empty.set (.original 7) (encodeUtf8 "hello world")
  engine := ⟨[]⟩
  systemSigningKey := (1 : UInt8)

/-- A request at time zero, with the next UUID. -/
def at0 (fresh : Uuid) : Ambient := ⟨⟨0, datetimeMax_pos⟩, fresh, Plan.stored _⟩

/-! ## Uploads with the same hash -/

section

variable {S : SignatureScheme} {server : Server S} {amb : Ambient} {user : User}
  {filename mimeType : Str} {content : Bytes} {doc : Document}

/-- The content hash of an upload is that of the text. -/
theorem contentHash_of_upload
    (h : (server.uploadDocument amb user filename mimeType content).2 = .ok doc) :
    doc.contentHash = hashContent (decodeReplace content) := by
  unfold uploadDocument at h
  split at h
  · cases h
  · dsimp only at h
    split at h
    · cases h
    · rw [← Except.ok.inj h]
      rfl

/-- An upload succeeds if the file is small enough and its id is new. -/
theorem uploadDocument_succeeds_iff :
    (∃ doc, (server.uploadDocument amb user filename mimeType content).2 = .ok doc) ↔
      exceedsLimit content = false ∧ amb.fresh ∉ server.documents.rows.map Document.id := by
  unfold uploadDocument
  constructor
  · rintro ⟨doc, h⟩
    split at h
    · cases h
    · rename_i hlimit
      dsimp only at h
      split at h
      · cases h
      · rename_i documents hinsert
        exact ⟨Bool.eq_false_iff.mpr hlimit, Table.notMem_of_insert? hinsert⟩
  · rintro ⟨hlimit, hfresh⟩
    rw [if_neg (Bool.eq_false_iff.mp hlimit)]
    dsimp only
    split
    · rename_i hinsert
      refine absurd hinsert (Option.ne_none_iff_exists'.mpr ?_)
      exact Table.insert?_of_notMem hfresh
    · exact ⟨_, rfl⟩

/-- **When uploads are identified by their bytes.**  A file that is UTF-8 without `U+FFFD` is
the only one with its hash: no other upload, of whatever file, has it, unless SHA-256 collides
on the two texts.  Of any file that is not, there is a different one that the same request
accepts and records with the same hash. -/
theorem upload_identity_iff
    (h : (server.uploadDocument amb user filename mimeType content).2 = .ok doc) :
    (PlainUtf8 content →
      ∀ (server' : Server S) (amb' : Ambient) (user' : User) (filename' mimeType' : Str)
        (content' : Bytes) (doc' : Document),
        (server'.uploadDocument amb' user' filename' mimeType' content').2 = .ok doc' →
        Set.InjOn sha256Hex
          {encodeUtf8 (decodeReplace content), encodeUtf8 (decodeReplace content')} →
        (doc.contentHash = doc'.contentHash ↔ content = content')) ∧
      (¬ PlainUtf8 content →
        ∃ content' doc', content' ≠ content ∧
          (server.uploadDocument amb user filename mimeType content').2 = .ok doc' ∧
          doc'.contentHash = doc.contentHash) := by
  constructor
  · intro hplain server' amb' user' filename' mimeType' content' doc' h' hinj
    rw [contentHash_of_upload h, contentHash_of_upload h']
    constructor
    · intro hhash
      have htext := encodeUtf8_injective (hinj (.inl rfl) (.inr rfl) hhash)
      exact (hplain.eq_of_decodeReplace htext.symm).symm
    · rintro rfl
      rfl
  · intro hplain
    obtain ⟨content', hne, hlength, htext⟩ := exists_decodeReplace_eq hplain
    obtain ⟨hlimit, hfresh⟩ := uploadDocument_succeeds_iff.mp ⟨doc, h⟩
    have hle : content.length ≤ maxFileSizeMb * 1024 * 1024 := not_lt.mp (of_decide_eq_false hlimit)
    have hlimit' : exceedsLimit content' = false := decide_eq_false (not_lt.mpr (hlength.trans hle))
    obtain ⟨doc', h'⟩ := uploadDocument_succeeds_iff.mpr ⟨hlimit', hfresh⟩
    refine ⟨content', doc', hne, h', ?_⟩
    rw [contentHash_of_upload h, contentHash_of_upload h', htext]

end

/-- Alice uploads a text in UTF-8 and bob the same text in Latin-1: the hashes differ, and
another file has that of bob's. -/
theorem upload_identity_latin : ∃ doc doc' content' doc'',
    (office.uploadDocument (at0 8) alice [] [] (encodeUtf8 "é")).2 = .ok doc ∧
      (office.uploadDocument (at0 8) bob [] [] [0xE9]).2 = .ok doc' ∧
      doc.contentHash ≠ doc'.contentHash ∧ content' ≠ [0xE9] ∧
      (office.uploadDocument (at0 8) bob [] [] content').2 = .ok doc'' ∧
      doc''.contentHash = doc'.contentHash := by
  have hdoc : (office.uploadDocument (at0 8) alice [] [] (encodeUtf8 "é")).2 = .ok _ := rfl
  have hdoc' : (office.uploadDocument (at0 8) bob [] [] [0xE9]).2 = .ok _ := rfl
  have hplain : PlainUtf8 (encodeUtf8 "é") := ⟨_, rfl, by decide⟩
  have htext : decodeReplace [0xE9] = [replacementChar] := by decide
  have hlatin : ¬ PlainUtf8 [0xE9] := by
    rintro ⟨s, hs, hplain⟩
    rw [hs, decodeReplace_encodeUtf8] at htext
    rw [htext] at hplain
    exact hplain (List.mem_singleton_self _)
  have hinj : Set.InjOn sha256Hex {encodeUtf8 (decodeReplace (encodeUtf8 "é")),
      encodeUtf8 (decodeReplace [0xE9])} := by
    rw [decodeReplace_encodeUtf8, htext]
    refine Set.injOn_pair.mpr fun h => absurd h ?_
    decide
  have hsame := (upload_identity_iff hdoc).1 hplain _ _ _ _ _ _ _ hdoc' hinj
  obtain ⟨content', doc'', hne, hdoc'', hhash⟩ := (upload_identity_iff hdoc').2 hlatin
  exact ⟨_, _, content', doc'', hdoc, hdoc', fun h => absurd (hsame.mp h) (by decide), hne,
    hdoc'', hhash⟩

/-- A byte that is no UTF-8, and the file that holds the replacement character. -/
theorem uploads_share_hash : ∃ doc doc',
    (office.uploadDocument (at0 8) alice [] [] [0xFF]).2 = .ok doc ∧
      (office.uploadDocument (at0 8) alice [] [] [0xEF, 0xBF, 0xBD]).2 = .ok doc' ∧
      doc.contentHash = doc'.contentHash := by
  have hread : decodeReplace [0xFF] = decodeReplace [0xEF, 0xBF, 0xBD] := by decide
  exact ⟨_, _, rfl, rfl, congrArg hashContent hread⟩

end Server

end TrustFlow.TrustDocs
