import Mathlib.Data.Finset.Sort
import TrustFlow.Library.DateTime
import TrustFlow.Library.Json
import TrustFlow.Library.Sha256
import TrustFlow.Library.Signature

/-!
# Chain-of-custody nodes

`CoCNode` of `core/coc_node.py`: a signed record that its owner hands a content
to its recipients, with the hash of the node it was forwarded from.  Nodes
travel as the dictionaries of `to_dict`.

* `CoCNode.new` — the constructor with a signing key; the hash of a node is the
  digest of its signature and its content hash.
* `CoCNode.verifySignature` — for both schemas.
* `CoCNode.toDict`, `CoCNode.fromDict` — the wire form; `fromDict_toDict` says
  that a node signed with a key survives the trip.

A Python set is listed in an order that the program does not fix.  Where a set
is listed, the order is an argument (`SetOrder`).
-/

namespace TrustFlow.Custody

open Library

/-- `CryptoCore.hash_content`. -/
def hashContent (content : Str) : Str := sha256Hex (encodeUtf8 content)

/-- The exceptions of the custody functions; `value` is the `ValueError` of
`bytes.fromhex`. -/
inductive CustodyError where
  | replayAttack (message : Str)
  | tokenExpired (message : Str)
  | permission (message : Str)
  | value
  deriving DecidableEq

/-- An order in which sets of strings are listed. -/
structure SetOrder where
  list : Finset Str → List Str
  nodup : ∀ s, (list s).Nodup
  mem_list : ∀ s a, a ∈ list s ↔ a ∈ s

/-- Sets listed in the order of their strings. -/
def SetOrder.sorted : SetOrder where
  list s := s.sort fun a b => keyLe a b = true
  nodup s := s.sort_nodup _
  mem_list _ _ := Finset.mem_sort _

/-- A node.  Both constructors of the source sort the recipients. -/
structure CoCNode where
  schemaVersion : ℤ
  nodeHash : Str
  contentHash : Str
  parentHash : Option Str
  ownerId : Str
  recipientIds : List Str
  timestamp : Str
  childrenHashes : Finset Str
  depth : ℤ
  signature : Option Bytes
  sorted : recipientIds.Pairwise fun s t => keyLe s t = true
  deriving DecidableEq

/-- The dictionary of a node.  Keys that `from_dict` reads with a default may
be missing. -/
structure NodeDict where
  schemaVersion : Option ℤ
  nodeHash : Str
  contentHash : Str
  parentHash : Option Str
  ownerId : Str
  recipientIds : Option (List Str)
  timestamp : Str
  childrenHashes : Option (List Str)
  depth : Option ℤ
  signature : Option Str
  deriving DecidableEq

namespace CoCNode

/-- `NODE_SCHEMA_VERSION`. -/
def currentSchema : ℤ := 2

/-- `_get_signing_data`. -/
def signingData (n : CoCNode) : Str :=
  List.intercalate ['|'] [showInt n.schemaVersion, n.contentHash, n.parentHash.getD [], n.ownerId,
    List.intercalate [','] n.recipientIds, n.timestamp]

/-- A node before it is signed. -/
def unsigned (contentHash ownerId : Str) (recipientIds : List Str) (parentHash : Option Str)
    (now : Instant) : CoCNode where
  schemaVersion := currentSchema
  nodeHash := []
  contentHash := contentHash
  parentHash := parentHash
  ownerId := ownerId
  recipientIds := sortStrings recipientIds
  timestamp := isoformat now.1
  childrenHashes := ∅
  depth := 0
  signature := none
  sorted := pairwise_sortStrings recipientIds

/-- The constructor, with a signing key and the default depth. -/
def new (S : SignatureScheme) (contentHash ownerId : Str) (key : S.SigningKey)
    (recipientIds : List Str) (parentHash : Option Str) (now : Instant) : CoCNode :=
  let node := unsigned contentHash ownerId recipientIds parentHash now
  let signature := S.sign key (encodeUtf8 node.signingData)
  { node with
    signature := some signature
    nodeHash := hashContent (hexEncode signature ++ ['|'] ++ contentHash) }

/-- The text that nodes of the first schema are signed with. -/
def legacyData (n : CoCNode) : Str :=
  n.contentHash ++ n.parentHash.getD [] ++ n.ownerId ++ List.intercalate [','] n.recipientIds
    ++ n.timestamp

/-- `verify_signature`. -/
def verifySignature (S : SignatureScheme) (key : S.VerifyKey) (n : CoCNode) : Bool :=
  match n.signature.filter (· ≠ []) with
  | none => false
  | some signature =>
    S.verify key (encodeUtf8 (if 2 ≤ n.schemaVersion then n.signingData else n.legacyData)) signature

/-- `add_child`, on the parent. -/
def withChild (parent : CoCNode) (childHash : Str) : CoCNode :=
  { parent with childrenHashes := insert childHash parent.childrenHashes }

/-- `add_child`, on the child. -/
def below (child parent : CoCNode) : CoCNode := { child with depth := parent.depth + 1 }

variable (order : SetOrder)

/-- `to_dict`. -/
def toDict (n : CoCNode) : NodeDict where
  schemaVersion := some n.schemaVersion
  nodeHash := n.nodeHash
  contentHash := n.contentHash
  parentHash := n.parentHash
  ownerId := n.ownerId
  recipientIds := some n.recipientIds
  timestamp := n.timestamp
  childrenHashes := some (order.list n.childrenHashes)
  depth := some n.depth
  signature := (n.signature.filter (· ≠ [])).map hexEncode

/-- `from_dict`. -/
def fromDict (d : NodeDict) : Except CustodyError CoCNode :=
  let node (signature : Option Bytes) : CoCNode :=
    { schemaVersion := d.schemaVersion.getD 1
      nodeHash := d.nodeHash
      contentHash := d.contentHash
      parentHash := d.parentHash
      ownerId := d.ownerId
      recipientIds := sortStrings (d.recipientIds.getD [])
      timestamp := d.timestamp
      childrenHashes := (d.childrenHashes.getD []).toFinset
      depth := d.depth.getD 0
      signature := signature
      sorted := pairwise_sortStrings _ }
  match d.signature.filter (· ≠ []) with
  | none => .ok (node none)
  | some text =>
    match hexDecode text with
    | none => .error .value
    | some signature => .ok (node (some signature))

/-- A node that is read keeps the hashes it is given. -/
theorem hashes_fromDict {d : NodeDict} {node : CoCNode} (h : fromDict d = .ok node) :
    node.nodeHash = d.nodeHash ∧ node.contentHash = d.contentHash := by
  rw [fromDict] at h
  dsimp only at h
  split at h
  · rw [← Except.ok.inj h]
    exact ⟨rfl, rfl⟩
  · split at h
    · cases h
    · rw [← Except.ok.inj h]
      exact ⟨rfl, rfl⟩

section

variable (S : SignatureScheme) (contentHash ownerId : Str) (key : S.SigningKey)
  (recipientIds : List Str) (parentHash : Option Str) (now : Instant)

@[simp] theorem contentHash_new :
    (new S contentHash ownerId key recipientIds parentHash now).contentHash = contentHash := rfl

end

/-- The node, with an empty signature read as none. -/
def plain (n : CoCNode) : CoCNode := { n with signature := n.signature.filter (· ≠ []) }

theorem plain_of_signed {n : CoCNode} (hn : n.signature ≠ some []) : n.plain = n := by
  have hfilter : n.signature.filter (· ≠ []) = n.signature := by
    cases hsignature : n.signature with
    | none => rfl
    | some signature =>
      refine Option.filter_eq_some_iff.mpr ⟨rfl, decide_eq_true fun hnil => hn ?_⟩
      rw [hsignature, hnil]
  rw [plain, hfilter]

/-- **The wire form keeps a node**, but for an empty signature: it is sent as `None`. -/
theorem fromDict_toDict_plain (n : CoCNode) : fromDict (n.toDict order) = .ok n.plain := by
  have hsorted : sortStrings n.recipientIds = n.recipientIds := n.sorted.insertionSort_eq
  have hchildren : (order.list n.childrenHashes).toFinset = n.childrenHashes := by
    ext a
    rw [List.mem_toFinset, order.mem_list]
  cases n with
  | mk schemaVersion nodeHash contentHash parentHash ownerId recipientIds timestamp childrenHashes
      depth signature sorted =>
      cases signature with
      | none => simp_all [fromDict, toDict, plain]
      | some signature =>
        by_cases hempty : signature = []
        · simp_all [fromDict, toDict, plain, Option.filter_some]
        · have hhex := hexEncode_ne_nil hempty
          simp_all [fromDict, toDict, plain, Option.filter_some]

theorem fromDict_toDict {n : CoCNode} (hn : n.signature ≠ some []) :
    fromDict (n.toDict order) = .ok n := by
  rw [fromDict_toDict_plain, plain_of_signed hn]

end CoCNode

end TrustFlow.Custody
