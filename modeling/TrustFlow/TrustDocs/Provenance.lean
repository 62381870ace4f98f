import Mathlib.Algebra.Order.BigOperators.Group.List
import TrustFlow.Library.Runs
import TrustFlow.TrustDocs.Server

/-!
# Stored provenance

`TrustFlowService` of `trustdocs/trustflow_service.py`: uploads and shares write signed
nodes, and a stored node is put together again from the tables.

* `createDocumentNode`, `shareDocument` — the two operations.  A share also records its
  recipients for the node that is shared.
* `CocStore.verifies` — the node is stored, and its signature is valid.
* `Faithful` — a call that records for a node only what the node was signed with: no
  recipient twice, and for the node that is shared no new one.
* `provenance_verifiable` — after calls like that, every node that was returned verifies.
* `share_breaks_parent` — a share with a new recipient leaves its parent with a signature
  that does not fit.
-/

namespace TrustFlow.TrustDocs

open Library Custody Stegano List CocStore

namespace CocStore

variable (store : CocStore)

/-- `insert("coc_recipients", ...)`, with its exceptions ignored: of a row that exists, and
of a node that does not. -/
def insertRecipient (nodeHash peerId : Str) : CocStore :=
  if (store.nodes.get? nodeHash).isSome then store.addRecipient nodeHash peerId else store

/-- The recipients of a node, as they are recorded. -/
def recorded (nodeHash : Str) : List Str :=
  (store.recipients.filter fun entry => decide (entry.1 = nodeHash)).map Prod.snd

/-- `get_node` finds the node, and `verify_signature` is true of it. -/
def verifies (S : SignatureScheme) (key : S.VerifyKey) (store : CocStore) (nodeHash : Str) : Bool :=
  match store.getNode nodeHash with
  | .ok (some node) => node.verifySignature S key
  | _ => false

/-- Recipients are recorded for stored nodes only. -/
def Linked : Prop :=
  ∀ entry ∈ store.recipients, (store.nodes.get? entry.1).isSome = true

end CocStore

/-! ## The service -/

/-- `TrustFlowService`; the audit log is not read back. -/
structure TrustFlowService (S : SignatureScheme) where
  storage : CocStore
  engine : SteganoEngine
  systemSigningKey : S.SigningKey

namespace TrustFlowService

variable {S : SignatureScheme} (service : TrustFlowService S) (words : WordClass)

/-- `create_document_node`. -/
def createDocumentNode (now : Instant) (ownerPeerId content : Str) (recipientIds : Option (List Str)) :
    TrustFlowService S × CoCNode :=
  let node := CoCNode.new S (hashContent content) ownerPeerId service.systemSigningKey
    (recipientIds.getD []) none now
  ({ service with storage := service.storage.addNode node }, node)

/-- `share_document`, with the times of the mark and of the node; `none` is the
`IndexError` of no recipients. -/
def shareDocument (markedAt now : Instant) (ownerPeerId : Str) (parent : CoCNode)
    (recipientPeerIds : List Str) (content : Str) :
    TrustFlowService S × Option (CoCNode × Str) :=
  match recipientPeerIds with
  | [] => (service, none)
  | primary :: _ =>
    let (engine, watermarked) := service.engine.embedWatermark words .all content primary
      (isoformat markedAt.1) (parent.depth + 1)
    let child := { CoCNode.new S (hashContent watermarked) ownerPeerId service.systemSigningKey
      recipientPeerIds (some parent.nodeHash) now with depth := parent.depth + 1 }
    let storage := recipientPeerIds.foldl
      (fun storage peerId => storage.insertRecipient parent.nodeHash peerId)
      (service.storage.addNode child)
    ({ service with storage := storage, engine := engine }, some (child, watermarked))

end TrustFlowService

/-! ## What is recorded -/

/-- The list with the new ones among others at its end. -/
def recordAll (recorded peers : List Str) : List Str :=
  peers.foldl (fun recorded peerId =>
    if recorded.contains peerId then recorded else recorded ++ [peerId]) recorded

variable (recipients : List Str)

/-- The recipients as they are signed. -/
def joined : Str := List.intercalate [','] (sortStrings recipients)

/-- Recording the peer leaves the recipients as they are signed.  The empty id and no
recipients at all are joined to the same text. -/
def Harmless (recorded : List Str) (peerId : Str) : Prop :=
  peerId ∈ recorded ∨ recorded = [] ∧ peerId = []

section

variable {recorded peers : List Str}

theorem recordAll_of_subset (h : ∀ peerId ∈ peers, peerId ∈ recorded) :
    recordAll recorded peers = recorded := by
  induction peers with
  | nil => rfl
  | cons peerId peers ih =>
    rw [recordAll, foldl_cons, if_pos (contains_iff_mem.mpr (h peerId mem_cons_self))]
    exact ih fun other hother => h other (mem_cons_of_mem _ hother)

theorem recordAll_of_nodup (h : (recorded ++ peers).Nodup) :
    recordAll recorded peers = recorded ++ peers := by
  induction peers generalizing recorded with
  | nil => exact (append_nil recorded).symm
  | cons peerId peers ih =>
    have hnew : peerId ∉ recorded := fun hmem =>
      disjoint_of_nodup_append h hmem mem_cons_self
    rw [recordAll, foldl_cons, if_neg (mt contains_iff_mem.mp hnew)]
    rw [append_cons recorded peerId peers] at h ⊢
    exact ih h

variable (recorded peers) in
theorem prefix_recordAll : recorded <+: recordAll recorded peers := by
  induction peers generalizing recorded with
  | nil => exact prefix_refl recorded
  | cons peerId peers ih =>
    rw [recordAll, foldl_cons]
    split
    · exact ih recorded
    · exact (prefix_append recorded [peerId]).trans (ih _)

theorem joined_recordAll (h : ∀ peerId ∈ peers, Harmless recorded peerId) :
    joined (recordAll recorded peers) = joined recorded := by
  induction peers generalizing recorded with
  | nil => rfl
  | cons peerId peers ih =>
    have hrest : ∀ other ∈ peers, Harmless recorded other :=
      fun other hother => h other (mem_cons_of_mem _ hother)
    rw [recordAll, foldl_cons]
    rcases h peerId mem_cons_self with hmem | ⟨rfl, rfl⟩
    · rw [if_pos (contains_iff_mem.mpr hmem)]
      exact ih hrest
    · rw [if_neg (mt contains_iff_mem.mp not_mem_nil)]
      refine ih fun other hother => ?_
      rcases hrest other hother with hmem | ⟨-, rfl⟩
      · exact absurd hmem not_mem_nil
      · exact .inl mem_cons_self

theorem mem_recordAll {peerId : Str} :
    peerId ∈ recordAll recorded peers ↔ peerId ∈ recorded ∨ peerId ∈ peers := by
  induction peers generalizing recorded with
  | nil => simp [recordAll]
  | cons other peers ih =>
    rw [recordAll, foldl_cons]
    split
    case isTrue hmem =>
      rw [← recordAll, ih, mem_cons]
      constructor
      · exact Or.imp_right .inr
      · rintro (hold | rfl | hnew)
        · exact .inl hold
        · exact .inl (contains_iff_mem.mp hmem)
        · exact .inr hnew
    case isFalse hnew =>
      rw [← recordAll, ih, mem_append, mem_singleton, mem_cons, or_assoc]

/-- The characters of the recipients, with one more for each. -/
def weight : ℕ := (recipients.map fun peerId => peerId.length + 1).sum

theorem length_joined : (joined recipients).length = weight recipients - 1 := by
  have hlength : ∀ parts : List Str,
      (List.intercalate [','] parts).length = (parts.map fun part => part.length + 1).sum - 1 := by
    intro parts
    induction parts with
    | nil => rfl
    | cons part parts ih =>
      cases parts with
      | nil => simp [List.intercalate]
      | cons next parts =>
        rw [intercalate_cons_cons]
        simp only [length_append, ih, map_cons, sum_cons, length_singleton]
        omega
  rw [joined, hlength, weight]
  exact congrArg (· - 1) ((perm_insertionSort _ recipients).map _).sum_eq

/-- **The recipients as they are signed change**, unless what is recorded is harmless. -/
theorem joined_recordAll_ne {peerId : Str} (hpeer : peerId ∈ peers) (h : ¬ Harmless recorded peerId) :
    joined (recordAll recorded peers) ≠ joined recorded := by
  obtain ⟨extra, hextra⟩ := prefix_recordAll recorded peers
  have hmem : peerId ∈ extra := by
    have hall := mem_recordAll.mpr (.inr hpeer : peerId ∈ recorded ∨ peerId ∈ peers)
    rw [← hextra] at hall
    exact (mem_append.mp hall).resolve_left fun hold => h (.inl hold)
  have hheavy : peerId.length + 1 ≤ weight extra :=
    le_sum_of_mem (mem_map_of_mem hmem)
  have hsum : weight (recordAll recorded peers) = weight recorded + weight extra := by
    rw [← hextra, weight, map_append, sum_append]
    rfl
  intro heq
  have hlengths := congrArg List.length heq
  rw [length_joined, length_joined, hsum] at hlengths
  cases recorded with
  | nil =>
    have hid : peerId ≠ [] := fun hnil => h (.inr ⟨rfl, hnil⟩)
    have hpos := length_pos_of_ne_nil hid
    rw [show weight [] = 0 from rfl] at hlengths
    omega
  | cons first rest =>
    have hfirst : 1 ≤ weight (first :: rest) := by
      rw [weight, map_cons, sum_cons]
      omega
    omega

end

namespace CocStore

variable {store : CocStore} {nodeHash other : Str}

theorem mem_recorded {peerId : Str} :
    peerId ∈ store.recorded nodeHash ↔ (nodeHash, peerId) ∈ store.recipients := by
  rw [recorded, mem_map]
  constructor
  · rintro ⟨entry, hentry, rfl⟩
    obtain ⟨hmem, hhash⟩ := mem_filter.mp hentry
    rwa [← of_decide_eq_true hhash]
  · exact fun hmem => ⟨_, mem_filter.mpr ⟨hmem, decide_eq_true rfl⟩, rfl⟩

@[simp] theorem nodes_addRecipient (peerId : Str) :
    (store.addRecipient nodeHash peerId).nodes = store.nodes := by
  rw [addRecipient]
  split <;> rfl

theorem recorded_addRecipient_self (peerId : Str) :
    (store.addRecipient nodeHash peerId).recorded nodeHash
      = recordAll (store.recorded nodeHash) [peerId] := by
  rw [addRecipient, recordAll, foldl_cons, foldl_nil]
  by_cases hmem : (nodeHash, peerId) ∈ store.recipients
  · rw [if_pos hmem, if_pos (contains_iff_mem.mpr (mem_recorded.mpr hmem))]
  · rw [if_neg hmem, if_neg fun h => hmem (mem_recorded.mp (contains_iff_mem.mp h))]
    simp [recorded]

theorem recorded_addRecipient_of_ne (peerId : Str) (h : nodeHash ≠ other) :
    (store.addRecipient nodeHash peerId).recorded other = store.recorded other := by
  rw [addRecipient]
  split
  · rfl
  · rw [recorded, filter_append, filter_cons_of_neg (by simpa using h), filter_nil, append_nil]
    rfl

variable (store nodeHash) in
/-- What recording a list of peers for a node does. -/
theorem foldl_addRecipient (peers : List Str) :
    (peers.foldl (fun store peerId => store.addRecipient nodeHash peerId) store).nodes = store.nodes ∧
      (peers.foldl (fun store peerId => store.addRecipient nodeHash peerId) store).recorded nodeHash
        = recordAll (store.recorded nodeHash) peers ∧
      ∀ other, nodeHash ≠ other →
        (peers.foldl (fun store peerId => store.addRecipient nodeHash peerId) store).recorded other
          = store.recorded other := by
  induction peers generalizing store with
  | nil => exact ⟨rfl, rfl, fun _ _ => rfl⟩
  | cons peerId peers ih =>
    obtain ⟨hnodes, hself, hother⟩ := ih (store.addRecipient nodeHash peerId)
    rw [foldl_cons]
    refine ⟨hnodes.trans (nodes_addRecipient peerId), hself.trans ?_, fun other hne => ?_⟩
    · rw [recorded_addRecipient_self]
      rfl
    · rw [hother other hne, recorded_addRecipient_of_ne peerId hne]

theorem foldl_insertRecipient (peers : List Str) :
    peers.foldl (fun store peerId => store.insertRecipient nodeHash peerId) store
      = if (store.nodes.get? nodeHash).isSome then
          peers.foldl (fun store peerId => store.addRecipient nodeHash peerId) store
        else store := by
  induction peers generalizing store with
  | nil => exact (ite_self store).symm
  | cons peerId peers ih =>
    rw [foldl_cons, foldl_cons, ih, insertRecipient]
    split
    case isTrue hstored => rw [nodes_addRecipient, if_pos hstored]
    case isFalse hmissing => rfl

variable (node : CoCNode)

/-- The row that is written for a node. -/
def rowOf : NodeRow where
  nodeHash := node.nodeHash
  contentHash := node.contentHash
  parentHash := node.parentHash
  ownerPeerId := node.ownerId
  signature := (node.signature.filter (· ≠ [])).map hexEncode
  depth := node.depth
  schemaVersion := node.schemaVersion
  createdAt := node.timestamp

theorem addNode_eq :
    store.addNode node
      = node.recipientIds.foldl (fun store peerId => store.addRecipient node.nodeHash peerId)
        { store with nodes := (store.nodes.insert? (rowOf node)).getD store.nodes } := rfl

/-- The recipients of the node are recorded for it, and for no other. -/
theorem recorded_addNode :
    (store.addNode node).recorded node.nodeHash
        = recordAll (store.recorded node.nodeHash) node.recipientIds ∧
      ∀ other, node.nodeHash ≠ other →
        (store.addNode node).recorded other = store.recorded other := by
  rw [addNode_eq]
  exact (foldl_addRecipient _ _ node.recipientIds).2

variable {node : CoCNode}

/-- The node is stored already: its row stays. -/
theorem nodes_addNode_of_get? {row : NodeRow}
    (h : store.nodes.get? node.nodeHash = some row) : (store.addNode node).nodes = store.nodes := by
  rw [addNode_eq, (foldl_addRecipient _ _ _).1, Table.insert?_of_get? h]
  rfl

/-- The node is new: its row is added. -/
theorem get?_addNode (h : store.nodes.get? node.nodeHash = none) (k : Str) :
    (store.addNode node).nodes.get? k
      = if node.nodeHash = k then some (rowOf node) else store.nodes.get? k := by
  have hnew : (rowOf node).nodeHash ∉ store.nodes.rows.map NodeRow.nodeHash :=
    Table.notMem_of_get?_eq_none h
  obtain ⟨nodes, hnodes⟩ := Table.insert?_of_notMem hnew
  rw [addNode_eq, (foldl_addRecipient _ _ _).1, hnodes]
  exact Table.get?_of_insert? hnodes k

theorem get?_addNode_of_ne {k : Str} (hk : node.nodeHash ≠ k) :
    (store.addNode node).nodes.get? k = store.nodes.get? k := by
  cases hget : store.nodes.get? node.nodeHash with
  | none => exact (get?_addNode hget k).trans (if_neg hk)
  | some row => rw [nodes_addNode_of_get? hget]

end CocStore

/-! ## Signed rows -/

/-- The signed text of a row with the recipients that are recorded. -/
def NodeRow.text (row : NodeRow) (recipients : List Str) : Str :=
  List.intercalate ['|'] [showInt row.schemaVersion, row.contentHash, row.parentHash.getD [],
    row.ownerPeerId, joined recipients, row.createdAt]

/-- The row of the node carries the signature of what is recorded. -/
def Signed (S : SignatureScheme) (key : S.SigningKey) (store : CocStore) (nodeHash : Str) : Prop :=
  ∃ row, store.nodes.get? nodeHash = some row ∧ row.schemaVersion = CoCNode.currentSchema ∧
    row.signature = some (hexEncode (S.sign key (encodeUtf8 (row.text (store.recorded nodeHash)))))

section

variable {S : SignatureScheme} {store : CocStore} {nodeHash : Str}

/-- Verifying a stored node. -/
theorem verifies_eq {row : NodeRow} (hrow : store.nodes.get? nodeHash = some row)
    (hschema : row.schemaVersion = CoCNode.currentSchema) {signature : Bytes}
    (hsignature : row.signature = some (hexEncode signature)) (hne : signature ≠ [])
    (key : S.VerifyKey) :
    store.verifies S key nodeHash
      = S.verify key (encodeUtf8 (row.text (store.recorded nodeHash))) signature := by
  have hfilter : row.signature.filter (· ≠ []) = some (hexEncode signature) := by
    rw [hsignature]
    exact Option.filter_eq_some_iff.mpr ⟨rfl, decide_eq_true (hexEncode_ne_nil hne)⟩
  have hkept : (some signature).filter (· ≠ []) = some signature :=
    Option.filter_eq_some_iff.mpr ⟨rfl, decide_eq_true hne⟩
  have hcurrent : (2 : ℤ) ≤ row.schemaVersion := hschema.ge
  rw [CocStore.verifies, CocStore.getNode, hrow]
  dsimp only
  rw [CoCNode.fromDict]
  dsimp only
  rw [hfilter]
  dsimp only
  rw [hexDecode_hexEncode]
  dsimp only [Except.map]
  rw [CoCNode.verifySignature, hkept]
  dsimp only
  rw [Option.getD_some, if_pos hcurrent]
  rfl

theorem Signed.verifies {key : S.SigningKey} (h : Signed S key store nodeHash) :
    store.verifies S (S.verifyKey key) nodeHash = true := by
  obtain ⟨row, hrow, hschema, hsignature⟩ := h
  rw [verifies_eq hrow hschema hsignature (S.sign_ne_nil key _)]
  exact S.verify_sign key _

end

/-! ## Calls -/

/-- A call of the service. -/
inductive ServiceCall where
  | createDocumentNode (ownerPeerId content : Str) (recipientIds : Option (List Str))
  | shareDocument (markedAt : Instant) (ownerPeerId : Str) (parent : CoCNode)
      (recipientPeerIds : List Str) (content : Str)

/-- The service, with the nodes that it has returned. -/
structure ServiceRun (S : SignatureScheme) where
  service : TrustFlowService S
  returned : List CoCNode

namespace ServiceRun

variable {S : SignatureScheme} (words : WordClass)

/-- A call at a time. -/
def step (run : ServiceRun S) : Instant × ServiceCall → ServiceRun S
  | (now, .createDocumentNode ownerPeerId content recipientIds) =>
    let (service, node) := run.service.createDocumentNode now ownerPeerId content recipientIds
    ⟨service, run.returned ++ [node]⟩
  | (now, .shareDocument markedAt ownerPeerId parent recipientPeerIds content) =>
    match run.service.shareDocument words markedAt now ownerPeerId parent recipientPeerIds content
      with
    | (service, none) => ⟨service, run.returned⟩
    | (service, some (child, _)) => ⟨service, run.returned ++ [child]⟩

/-- A series of calls. -/
def run (start : ServiceRun S) (calls : List (Instant × ServiceCall)) : ServiceRun S :=
  calls.foldl (step words) start

/-- The call lets no recipient be recorded that is not signed: none is named twice, and
those of a share are recipients of the parent, if that is stored. -/
def Faithful (run : ServiceRun S) : Instant × ServiceCall → Prop
  | (_, .createDocumentNode _ _ recipientIds) => (recipientIds.getD []).Nodup
  | (_, .shareDocument _ _ parent recipientPeerIds _) => recipientPeerIds.Nodup ∧
      ((run.service.storage.nodes.get? parent.nodeHash).isSome = true →
        ∀ peerId ∈ recipientPeerIds, Harmless (run.service.storage.recorded parent.nodeHash) peerId)

/-- Nodes with the same hash have the same recipients, and their hashes were not in use
at the start. -/
def Distinct (start : CocStore) (nodes : List CoCNode) : Prop :=
  (∀ node ∈ nodes, start.nodes.get? node.nodeHash = none) ∧
    ∀ a ∈ nodes, ∀ b ∈ nodes, a.nodeHash = b.nodeHash → a.recipientIds = b.recipientIds

/-- The nodes that were returned are stored as they were signed. -/
structure Kept (start : CocStore) (key : S.SigningKey) (storage : CocStore) (returned : List CoCNode) :
    Prop where
  linked : storage.Linked
  signed : ∀ node ∈ returned, Signed S key storage node.nodeHash
  recorded : ∀ node ∈ returned, ∀ peerId ∈ node.recipientIds,
    peerId ∈ storage.recorded node.nodeHash
  origin : ∀ nodeHash, (storage.nodes.get? nodeHash).isSome = true →
    (start.nodes.get? nodeHash).isSome = true ∨ ∃ node ∈ returned, node.nodeHash = nodeHash

variable {start storage : CocStore} {key : S.SigningKey} {returned : List CoCNode}

/-- What is recorded for a node that is not stored. -/
theorem recorded_of_linked (h : storage.Linked) {nodeHash : Str}
    (hmissing : storage.nodes.get? nodeHash = none) : storage.recorded nodeHash = [] := by
  refine eq_nil_iff_forall_not_mem.mpr fun peerId hmem => ?_
  have hstored := h _ (mem_recorded.mp hmem)
  rw [hmissing] at hstored
  cases hstored

/-- Other recipients that are joined to the same texts. -/
theorem Kept.of_joined (h : Kept start key storage returned) {storage' : CocStore}
    (hnodes : storage'.nodes = storage.nodes) (hlinked : storage'.Linked)
    (hsubset : ∀ nodeHash, storage.recorded nodeHash ⊆ storage'.recorded nodeHash)
    (hjoined : ∀ nodeHash, joined (storage'.recorded nodeHash) = joined (storage.recorded nodeHash)) :
    Kept start key storage' returned where
  linked := hlinked
  signed node hnode := by
    obtain ⟨row, hrow, hschema, hsignature⟩ := h.signed node hnode
    refine ⟨row, hnodes ▸ hrow, hschema, hsignature.trans ?_⟩
    rw [NodeRow.text, NodeRow.text, hjoined]
  recorded node hnode peerId hpeer := hsubset _ (h.recorded node hnode peerId hpeer)
  origin := hnodes ▸ h.origin

variable {peers : List Str} {node : CoCNode}

/-- **Recording recipients** that change nothing keeps all nodes as they are. -/
theorem Kept.record (h : Kept start key storage returned) {nodeHash : Str}
    (hpeers : (storage.nodes.get? nodeHash).isSome = true →
      ∀ peerId ∈ peers, Harmless (storage.recorded nodeHash) peerId) :
    Kept start key
      (peers.foldl (fun storage peerId => storage.insertRecipient nodeHash peerId) storage)
      returned := by
  rw [foldl_insertRecipient]
  split
  case isFalse hmissing => exact h
  case isTrue hstored =>
    obtain ⟨hnodes, hself, hother⟩ := foldl_addRecipient storage nodeHash peers
    refine h.of_joined hnodes (fun entry hentry => ?_) (fun k => ?_) (fun k => ?_)
    · rw [hnodes]
      by_cases hk : nodeHash = entry.1
      · exact hk ▸ hstored
      · have hmem := mem_recorded.mpr hentry
        rw [hother _ hk] at hmem
        exact h.linked _ (mem_recorded.mp hmem)
    · by_cases hk : nodeHash = k
      · subst hk
        rw [hself]
        exact (prefix_recordAll _ _).subset
      · rw [hother k hk]
        exact List.Subset.refl _
    · by_cases hk : nodeHash = k
      · subst hk
        rw [hself, joined_recordAll (hpeers hstored)]
      · rw [hother k hk]

/-- The node is signed with the key, over its own fields. -/
def SignedNode (key : S.SigningKey) (node : CoCNode) : Prop :=
  node.schemaVersion = CoCNode.currentSchema ∧
    node.signature = some (S.sign key (encodeUtf8 node.signingData))

/-- A node that is stored already, with the same recipients. -/
theorem Kept.addNode_again (h : Kept start key storage returned) {twin : CoCNode}
    (htwin : twin ∈ returned) (hhash : twin.nodeHash = node.nodeHash)
    (hsame : twin.recipientIds = node.recipientIds) :
    Kept start key (storage.addNode node) (returned ++ [node]) := by
  obtain ⟨row, hrow, -⟩ := h.signed twin htwin
  have hnodes := nodes_addNode_of_get? (hhash ▸ hrow)
  have hall : ∀ peerId ∈ node.recipientIds, peerId ∈ storage.recorded node.nodeHash :=
    hhash ▸ hsame ▸ h.recorded twin htwin
  have hrecorded : ∀ k, (storage.addNode node).recorded k = storage.recorded k := by
    intro k
    by_cases hk : node.nodeHash = k
    · rw [← hk, (recorded_addNode node).1, recordAll_of_subset hall]
    · exact (recorded_addNode node).2 k hk
  have hkept : Kept start key (storage.addNode node) returned := by
    refine h.of_joined hnodes (fun entry hentry => ?_) (fun k => ?_) (fun k => ?_)
    · have hmem := mem_recorded.mpr hentry
      rw [hrecorded] at hmem
      rw [hnodes]
      exact h.linked _ (mem_recorded.mp hmem)
    · rw [hrecorded]
      exact List.Subset.refl _
    · rw [hrecorded]
  refine ⟨hkept.linked, fun other hother => ?_, fun other hother => ?_, fun k hk => ?_⟩
  · rcases mem_append.mp hother with hother | hother
    · exact hkept.signed other hother
    · rw [mem_singleton.mp hother, ← hhash]
      exact hkept.signed twin htwin
  · rcases mem_append.mp hother with hother | hother
    · exact hkept.recorded other hother
    · rw [mem_singleton.mp hother, hrecorded]
      exact hall
  · refine (hkept.origin k hk).imp_right ?_
    rintro ⟨other, hother, rfl⟩
    exact ⟨other, mem_append_left _ hother, rfl⟩

/-- A node that is new. -/
theorem Kept.addNode_new (h : Kept start key storage returned) (hsigned : SignedNode key node)
    (hnodup : node.recipientIds.Nodup) (hnew : storage.nodes.get? node.nodeHash = none) :
    Kept start key (storage.addNode node) (returned ++ [node]) := by
  have hget := CocStore.get?_addNode hnew
  have hself : (storage.addNode node).recorded node.nodeHash = node.recipientIds := by
    rw [(recorded_addNode node).1, recorded_of_linked h.linked hnew]
    exact recordAll_of_nodup hnodup
  have hother : ∀ k, node.nodeHash ≠ k →
      (storage.addNode node).nodes.get? k = storage.nodes.get? k ∧
        (storage.addNode node).recorded k = storage.recorded k :=
    fun k hk => ⟨CocStore.get?_addNode_of_ne hk, (recorded_addNode node).2 k hk⟩
  have hne : ∀ old ∈ returned, node.nodeHash ≠ old.nodeHash := by
    intro old hold heq
    obtain ⟨row, hrow, -⟩ := h.signed old hold
    rw [← heq, hnew] at hrow
    cases hrow
  refine ⟨fun entry hentry => ?_, fun old hold => ?_, fun old hold => ?_, fun k hk => ?_⟩
  · by_cases hk : node.nodeHash = entry.1
    · rw [← hk, hget, if_pos rfl, Option.isSome_some]
    · have hmem := mem_recorded.mpr hentry
      rw [(hother _ hk).2] at hmem
      rw [(hother _ hk).1]
      exact h.linked _ (mem_recorded.mp hmem)
  · rcases mem_append.mp hold with hold | hold
    · obtain ⟨hnodes, hrecorded⟩ := hother _ (hne old hold)
      rw [Signed, hnodes, hrecorded]
      exact h.signed old hold
    · rw [mem_singleton.mp hold]
      refine ⟨_, (hget _).trans (if_pos rfl), hsigned.1, ?_⟩
      have hsorted : sortStrings node.recipientIds = node.recipientIds := node.sorted.insertionSort_eq
      have htext : (CocStore.rowOf node).text node.recipientIds = node.signingData := by
        rw [NodeRow.text, joined, hsorted]
        rfl
      rw [hself, htext, CocStore.rowOf, hsigned.2]
      dsimp only
      rw [Option.filter_some, if_pos (decide_eq_true (S.sign_ne_nil key _))]
      rfl
  · rcases mem_append.mp hold with hold | hold
    · rw [(hother _ (hne old hold)).2]
      exact h.recorded old hold
    · rw [mem_singleton.mp hold, hself]
      exact fun _ hpeer => hpeer
  · by_cases hk' : node.nodeHash = k
    · exact .inr ⟨node, mem_append_right _ (mem_singleton_self node), hk'⟩
    · rw [(hother k hk').1] at hk
      refine (h.origin k hk).imp_right ?_
      rintro ⟨old, hold, rfl⟩
      exact ⟨old, mem_append_left _ hold, rfl⟩

theorem Distinct.of_append {nodes : List CoCNode} (h : Distinct start (nodes ++ [node])) :
    Distinct start nodes :=
  ⟨fun a ha => h.1 a (mem_append_left _ ha),
    fun a ha b hb => h.2 a (mem_append_left _ ha) b (mem_append_left _ hb)⟩

/-- **Storing a node** keeps all others, and the node is stored as it was signed. -/
theorem Kept.addNode (h : Kept start key storage returned) (hsigned : SignedNode key node)
    (hnodup : node.recipientIds.Nodup) (hdistinct : Distinct start (returned ++ [node])) :
    Kept start key (storage.addNode node) (returned ++ [node]) := by
  have hlast : node ∈ returned ++ [node] := mem_append_right _ (mem_singleton_self node)
  cases hget : storage.nodes.get? node.nodeHash with
  | none => exact h.addNode_new hsigned hnodup hget
  | some row =>
    rcases h.origin node.nodeHash (by rw [hget]; rfl) with hstart | ⟨twin, htwin, hhash⟩
    · rw [hdistinct.1 node hlast] at hstart
      cases hstart
    · exact h.addNode_again htwin hhash
        (hdistinct.2 twin (mem_append_left _ htwin) node hlast hhash)

/-- Storing a node, and then recording its recipients for another one. -/
theorem Kept.share (h : Kept start key storage returned) {child : CoCNode}
    (hsigned : SignedNode key child) (hnodup : child.recipientIds.Nodup)
    (hdistinct : Distinct start (returned ++ [child])) {parentHash : Str}
    (hpeers : ∀ peerId ∈ peers, peerId ∈ child.recipientIds)
    (hparent : (storage.nodes.get? parentHash).isSome = true →
      ∀ peerId ∈ peers, Harmless (storage.recorded parentHash) peerId) :
    Kept start key
      (peers.foldl (fun storage peerId => storage.insertRecipient parentHash peerId)
        (storage.addNode child)) (returned ++ [child]) := by
  have hadded := h.addNode hsigned hnodup hdistinct
  refine hadded.record fun hstored peerId hpeer => ?_
  by_cases hhash : child.nodeHash = parentHash
  · have hlast : child ∈ returned ++ [child] :=
      mem_append_right _ (mem_singleton_self child)
    exact .inl (hhash ▸ hadded.recorded child hlast peerId (hpeers peerId hpeer))
  · rw [CocStore.get?_addNode_of_ne hhash] at hstored
    rw [(recorded_addNode child).2 _ hhash]
    exact hparent hstored peerId hpeer

theorem nodup_sortStrings {l : List Str} (h : l.Nodup) : (sortStrings l).Nodup :=
  (perm_insertionSort _ l).nodup_iff.mpr h

/-- The key is kept, and so are the nodes, as long as they are distinct. -/
def Sound (start : CocStore) (key : S.SigningKey) (run : ServiceRun S) : Prop :=
  run.service.systemSigningKey = key ∧
    (Distinct start run.returned → Kept start key run.service.storage run.returned)

variable {words}

/-- **One call.** -/
theorem Sound.step {run : ServiceRun S} (h : Sound start key run) {call : Instant × ServiceCall}
    (hcall : run.Faithful call) : Sound start key (run.step words call) := by
  obtain ⟨hkey, hkept⟩ := h
  obtain ⟨now, call⟩ := call
  cases call with
  | createDocumentNode ownerPeerId content recipientIds =>
    refine ⟨hkey, fun hdistinct => ?_⟩
    exact (hkept hdistinct.of_append).addNode ⟨rfl, hkey ▸ rfl⟩ (nodup_sortStrings hcall) hdistinct
  | shareDocument markedAt ownerPeerId parent recipientPeerIds content =>
    cases recipientPeerIds with
    | nil => exact ⟨hkey, hkept⟩
    | cons primary others =>
      refine ⟨hkey, fun hdistinct => ?_⟩
      obtain ⟨hnodup, hparent⟩ := hcall
      exact (hkept hdistinct.of_append).share ⟨rfl, hkey ▸ rfl⟩ (nodup_sortStrings hnodup)
        hdistinct (fun _ hpeer => mem_sortStrings.mpr hpeer) hparent

/-- Before the first call nothing was returned. -/
theorem sound_start {service : TrustFlowService S} (h : service.storage.Linked) :
    Sound service.storage service.systemSigningKey ⟨service, []⟩ where
  left := rfl
  right _ :=
    { linked := h
      signed := fun _ hnode => by cases hnode
      recorded := fun _ hnode => by cases hnode
      origin := fun _ hstored => .inl hstored }

variable (words) in
/-- **Stored provenance is verifiable** after faithful calls: every node that was returned
is stored, and its signature is valid. -/
theorem provenance_verifiable (service : TrustFlowService S) (hlinked : service.storage.Linked)
    (calls : List (Instant × ServiceCall))
    (hcalls : Along (step words) Faithful ⟨service, []⟩ calls)
    (hdistinct : Distinct service.storage (run words ⟨service, []⟩ calls).returned) :
    ∀ node ∈ (run words ⟨service, []⟩ calls).returned,
      (run words ⟨service, []⟩ calls).service.storage.verifies S
        (S.verifyKey service.systemSigningKey) node.nodeHash = true := by
  have hsound : Sound service.storage service.systemSigningKey (run words ⟨service, []⟩ calls) :=
    along_foldl (fun _ _ h hcall => h.step hcall) (sound_start hlinked) hcalls
  intro node hnode
  exact ((hsound.2 hdistinct).signed node hnode).verifies

/-! ### An upload and a share -/

/-- The beginning of time. -/
def midnight : Instant := ⟨0, datetimeMax_pos⟩

/-- A service that has stored nothing. -/
def freshService (key : S.SigningKey) : TrustFlowService S := ⟨⟨Table.empty, []⟩, ⟨[]⟩, key⟩

/-- A document of alice, for the recipients. -/
def uploaded (key : S.SigningKey) (recipientIds : List Str) : CoCNode :=
  CoCNode.new S (hashContent "hello") "alice" key recipientIds none midnight

/-- Alice uploads a document for the recipients, and shares it with bob. -/
def uploadAndShare (key : S.SigningKey) (recipientIds : List Str) : List (Instant × ServiceCall) :=
  [(midnight, .createDocumentNode "alice" "hello" (some recipientIds)),
    (midnight, .shareDocument midnight "alice" (uploaded key recipientIds) ["bob"]
      "hello")]

/-- If the document was for bob already, both nodes verify. -/
theorem share_with_recipient :
    ((run .least ⟨freshService (S := .tagged) (7 : UInt8), []⟩
        (uploadAndShare (S := .tagged) (7 : UInt8) ["bob"])).returned.all fun node =>
      (run .least ⟨freshService (S := .tagged) (7 : UInt8), []⟩
        (uploadAndShare (S := .tagged) (7 : UInt8) ["bob"])).service.storage.verifies .tagged
          (7 : UInt8) node.nodeHash) = true := by
  rw [all_eq_true]
  refine provenance_verifiable .least (freshService (S := .tagged) (7 : UInt8)) ?_ _ ?_ ?_
  · exact fun _ hentry => by cases hentry
  · refine ⟨nodup_singleton _, ⟨nodup_singleton _, fun _ peerId hpeer => .inl ?_⟩, trivial⟩
    have hrecorded := (recorded_addNode (uploaded (S := .tagged) (7 : UInt8)
      ["bob"]) : _ = recordAll (CocStore.recorded ⟨Table.empty, []⟩ _) _ ∧ _).1
    exact hrecorded ▸ mem_recordAll.mpr (.inr (mem_sortStrings.mpr hpeer))
  · refine ⟨fun _ _ => rfl, fun a ha b hb _ => ?_⟩
    have hbob : ∀ node ∈ (run .least ⟨freshService (S := .tagged) (7 : UInt8), []⟩
        (uploadAndShare (S := .tagged) (7 : UInt8) ["bob"])).returned,
        node.recipientIds = ["bob"] := by
      intro node hnode
      rcases mem_cons.mp hnode with rfl | hnode
      · rfl
      · rw [mem_singleton.mp hnode]
        rfl
    rw [hbob a ha, hbob b hb]

/-- What the document without recipients is signed over. -/
def uploadedText : Bytes :=
  encodeUtf8 (CoCNode.unsigned (hashContent "hello") "alice" [] none midnight).signingData

/-- A scheme that tells that text from all others. -/
abbrev sealing : SignatureScheme := .marking uploadedText

/-- **A share breaks its parent.**  The document was for nobody yet: the share records bob
for it, and its signature does not fit any more. -/
theorem share_breaks_parent :
    uploaded (S := sealing) () [] ∈
        (run .least ⟨freshService (S := sealing) (), []⟩ (uploadAndShare (S := sealing) () [])).returned ∧
      (run .least ⟨freshService (S := sealing) (), []⟩
        (uploadAndShare (S := sealing) () [])).service.storage.verifies sealing ()
          (uploaded (S := sealing) () []).nodeHash = false := by
  refine ⟨mem_cons_self, ?_⟩
  decide +kernel

end ServiceRun

end TrustFlow.TrustDocs
