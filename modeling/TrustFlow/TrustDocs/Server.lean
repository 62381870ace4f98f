import TrustFlow.Library.Table
import TrustFlow.Stegano.Engine

/-!
# The state of a document server

What the routes of `trustdocs/documents/routes.py` read and write: the tables of
`trustdocs/database.py`, the custody nodes of `interfaces/postgres_backend.py`, the
files of the storage directory, and the watermarking engine.

* `Document`, `FileShare`, `User` — rows, with the columns that a route reads.
* `CocStore` — `add_node` and `get_node` of the backend; recipients and children are
  collected by queries.

Files are named by what their path is made of: the id of the upload, or the
document and the recipient of a shared copy.

The time, a fresh UUID and the order of the rows that the database returns come with
each request (`Ambient`); the signature scheme is a parameter.  The audit log, the
comments and the fallback of `database.py` without a database are left out.
-/

namespace TrustFlow.TrustDocs

open Library Custody Stegano Option

/-- A UUID. -/
abbrev Uuid := BitVec 128

/-- The status of a document. -/
inductive DocumentStatus where
  | active
  | recycled
  | deleted
  deriving DecidableEq

/-- The status of a share. -/
inductive ShareStatus where
  | active
  | suspended
  | revoked
  deriving DecidableEq

/-- A row of `users`. -/
structure User where
  id : Uuid
  username : Str
  peerId : Str
  deriving DecidableEq

/-- A row of `documents`. -/
structure Document where
  id : Uuid
  ownerId : Uuid
  filename : Str
  mimeType : Str
  sizeBytes : ℕ
  contentHash : Str
  cocNodeHash : Str
  status : DocumentStatus
  createdAt : Instant
  deriving DecidableEq

/-- A row of `file_shares`. -/
structure FileShare where
  id : Uuid
  documentId : Uuid
  ownerId : Uuid
  recipientId : Uuid
  childCocNodeHash : Str
  status : ShareStatus
  createdAt : Instant
  deriving DecidableEq

/-- A file of the storage directory. -/
inductive StoredFile where
  | original (documentId : Uuid)
  | shared (documentId recipientId : Uuid)
  deriving DecidableEq

/-! ## Custody nodes -/

/-- A row of `coc_nodes`; the timestamp is read back as it was written. -/
structure NodeRow where
  nodeHash : Str
  contentHash : Str
  parentHash : Option Str
  ownerPeerId : Str
  signature : Option Str
  depth : ℤ
  schemaVersion : ℤ
  createdAt : Str

/-- The tables `coc_nodes` and `coc_recipients`. -/
structure CocStore where
  nodes : Table NodeRow.nodeHash
  recipients : List (Str × Str)

namespace CocStore

variable (store : CocStore)

/-- `INSERT INTO coc_recipients ... ON CONFLICT DO NOTHING`. -/
def addRecipient (nodeHash peerId : Str) : CocStore :=
  if (nodeHash, peerId) ∈ store.recipients then store
  else { store with recipients := store.recipients ++ [(nodeHash, peerId)] }

/-- `add_node`; a node that is stored already is kept. -/
def addNode (node : CoCNode) : CocStore :=
  let row : NodeRow :=
    { nodeHash := node.nodeHash
      contentHash := node.contentHash
      parentHash := node.parentHash
      ownerPeerId := node.ownerId
      signature := (node.signature.filter (· ≠ [])).map hexEncode
      depth := node.depth
      schemaVersion := node.schemaVersion
      createdAt := node.timestamp }
  let stored := { store with nodes := (store.nodes.insert? row).getD store.nodes }
  node.recipientIds.foldl (fun store peerId => store.addRecipient node.nodeHash peerId) stored

/-- `get_node`: the row, with the recipients and the children of the node. -/
def getNode (nodeHash : Str) : Except CustodyError (Option CoCNode) :=
  match store.nodes.get? nodeHash with
  | none => .ok none
  | some row =>
    (CoCNode.fromDict
      { schemaVersion := some row.schemaVersion
        nodeHash := row.nodeHash
        contentHash := row.contentHash
        parentHash := row.parentHash
        ownerId := row.ownerPeerId
        recipientIds := some
          ((store.recipients.filter fun entry => decide (entry.1 = nodeHash)).map Prod.snd)
        timestamp := row.createdAt
        childrenHashes := some
          ((store.nodes.rows.filter fun child => decide (child.parentHash = some nodeHash)).map
            NodeRow.nodeHash)
        depth := some row.depth
        signature := row.signature }).map some

/-- The stored signatures are hexadecimal. -/
def Readable : Prop :=
  ∀ row ∈ store.nodes.rows, ∀ text, row.signature = some text → (hexDecode text).isSome = true

variable {store : CocStore}

theorem Readable.addRecipient (h : store.Readable) (nodeHash peerId : Str) :
    (store.addRecipient nodeHash peerId).Readable := by
  rw [CocStore.addRecipient]
  split <;> exact h

theorem Readable.addNode (h : store.Readable) (node : CoCNode) : (store.addNode node).Readable := by
  rw [CocStore.addNode]
  have hrecipients : ∀ (peers : List Str) (store : CocStore), store.Readable →
      (peers.foldl (fun store peerId => store.addRecipient node.nodeHash peerId) store).Readable := by
    intro peers
    induction peers with
    | nil => exact fun _ h => h
    | cons peerId peers ih => exact fun store h => ih _ (h.addRecipient _ _)
  refine hrecipients _ _ fun row hrow text htext => ?_
  dsimp only at hrow
  cases hinsert : store.nodes.insert? _ with
  | none =>
    rw [hinsert, getD_none] at hrow
    exact h row hrow text htext
  | some nodes =>
    rw [hinsert, getD_some] at hrow
    rcases (Table.mem_of_insert? hinsert).mp hrow with hold | rfl
    · exact h row hold text htext
    · obtain ⟨signature, -, rfl⟩ := map_eq_some_iff.mp htext
      rw [hexDecode_hexEncode, isSome_some]

end CocStore

/-! ## The server -/

/-- The tables, files and services of a server. -/
structure Server (S : SignatureScheme) where
  users : List User
  documents : Table Document.id
  fileShares : Table FileShare.id
  tombstones : Dict Str Instant
  coc : CocStore
  files : Dict StoredFile Bytes
  engine : SteganoEngine
  systemSigningKey : S.SigningKey

/-- What a request finds around it: the time, a fresh UUID, and the order in which
the database returns shares. -/
structure Ambient where
  now : Instant
  fresh : Uuid
  plan : Plan FileShare

/-- How a request fails: with an `HTTPException`, or with an exception that no one
catches. -/
inductive Failure where
  | http (status : ℕ) (detail : Str)
  | unhandled
  deriving DecidableEq

/-- The outcome of a request. -/
abbrev Reply (α : Type) := Except Failure α

namespace Server

variable {S : SignatureScheme} (server : Server S) (documentId : Uuid)

/-- `find_one("documents", id=...)`. -/
def document : Option Document := server.documents.get? documentId

/-- `find_one("users", id=...)`. -/
def userById (userId : Uuid) : Option User := server.users.find? fun u => decide (u.id = userId)

/-- `find_one("users", username=...)`. -/
def userByName (username : Str) : Option User :=
  server.users.find? fun u => decide (u.username = username)

/-- The filter `document_id=..., status=...`. -/
def isShareOf (status : ShareStatus) (share : FileShare) : Bool :=
  decide (share.documentId = documentId ∧ share.status = status)

/-- `find_one("file_shares", document_id=..., recipient_id=..., status="active")`. -/
def activeShare (plan : Plan FileShare) (documentId userId : Uuid) : Option FileShare :=
  server.fileShares.findOne plan fun share =>
    isShareOf documentId .active share && decide (share.recipientId = userId)

/-- The limit of `find_many`. -/
def findManyLimit : ℕ := 100

/-- `find_many("file_shares", document_id=..., status=...)`. -/
def sharesWith (plan : Plan FileShare) (documentId : Uuid) (status : ShareStatus) :
    List FileShare :=
  server.fileShares.findMany plan (fun share => share.createdAt.1) findManyLimit
    (isShareOf documentId status)

/-- `update_one("documents", ..., status=...)`. -/
def setDocumentStatus (status : DocumentStatus) : Server S :=
  { server with
    documents := server.documents.update (fun d => { d with status := status }) (fun _ => rfl)
      documentId }

/-- `update_one("file_shares", ..., status=...)`, for every share of a list. -/
def setShareStatus (status : ShareStatus) (shares : List FileShare) : Server S :=
  { server with
    fileShares := server.fileShares.updateAll (fun s => { s with status := status }) (fun _ => rfl)
      (shares.map FileShare.id) }

end Server

end TrustFlow.TrustDocs
