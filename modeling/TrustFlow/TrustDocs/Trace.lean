import TrustFlow.Library.Forest
import TrustFlow.TrustDocs.Access
import TrustFlow.TrustDocs.Provenance

/-!
# The trace of a document

`get_trace_for_document` and `_augment_nodes` of `trustdocs/trustflow_service.py`: the nodes
below the root of a document, as the tables have them, with the names of their owners.

* `CocStore.childrenOf`, `CocStore.ReadAs` — what is read of a stored node.
* `traceOf_spec` — **the trace lists every node at or below the root exactly once**, as it is
  read from the tables.
* `augmentNodes`, `documentTrace` — the reply of `get_document_trace`, in full.
* `documentTrace_eq` — the reply to a recipient: all nodes, and no edges.
-/

namespace TrustFlow.TrustDocs

open Library Custody List CocStore

namespace CocStore

variable {store : CocStore} {nodeHash child : Str} {row : NodeRow}

/-- The hashes of the nodes that name the node as their parent. -/
def childrenOf (store : CocStore) (nodeHash : Str) : List Str :=
  (store.nodes.rows.filter fun child => decide (child.parentHash = some nodeHash)).map
    NodeRow.nodeHash

theorem mem_childrenOf : child ∈ store.childrenOf nodeHash ↔
    ∃ row, store.nodes.get? child = some row ∧ row.parentHash = some nodeHash := by
  rw [childrenOf, mem_map]
  constructor
  · rintro ⟨row, hrow, rfl⟩
    obtain ⟨hmem, hparent⟩ := mem_filter.mp hrow
    exact ⟨row, Table.get?_eq_some_iff.mpr ⟨hmem, rfl⟩, of_decide_eq_true hparent⟩
  · rintro ⟨row, hget, hparent⟩
    obtain ⟨hmem, hhash⟩ := Table.get?_eq_some_iff.mp hget
    exact ⟨row, mem_filter.mpr ⟨hmem, decide_eq_true hparent⟩, hhash⟩

theorem nodup_childrenOf (store : CocStore) (nodeHash : Str) : (store.childrenOf nodeHash).Nodup :=
  store.nodes.nodup.sublist (filter_sublist.map _)

/-- A row names one parent. -/
theorem eq_of_mem_childrenOf {other : Str} (h : child ∈ store.childrenOf nodeHash)
    (h' : child ∈ store.childrenOf other) : nodeHash = other := by
  obtain ⟨row, hrow, hparent⟩ := mem_childrenOf.mp h
  obtain ⟨row', hrow', hparent'⟩ := mem_childrenOf.mp h'
  obtain rfl := Option.mem_unique hrow hrow'
  exact Option.mem_unique hparent hparent'

/-- A node as it is put together from its row, its recipients and its children. -/
structure ReadAs (store : CocStore) (row : NodeRow) (node : CoCNode) : Prop where
  nodeHash : node.nodeHash = row.nodeHash
  parentHash : node.parentHash = row.parentHash
  ownerId : node.ownerId = row.ownerPeerId
  recipientIds : node.recipientIds = sortStrings (store.recorded row.nodeHash)
  childrenHashes : node.childrenHashes = (store.childrenOf row.nodeHash).toFinset
  depth : node.depth = row.depth
  schemaVersion : node.schemaVersion = row.schemaVersion

/-- A stored node is read. -/
theorem Readable.readAs (h : store.Readable) (hrow : store.nodes.get? nodeHash = some row) :
    ∃ node, store.getNode nodeHash = .ok (some node) ∧ store.ReadAs row node := by
  obtain ⟨hmem, rfl⟩ := Table.get?_eq_some_iff.mp hrow
  rw [CocStore.getNode, hrow]
  dsimp only
  rw [CoCNode.fromDict]
  dsimp only
  cases htext : row.signature.filter (· ≠ []) with
  | none => exact ⟨_, rfl, rfl, rfl, rfl, rfl, rfl, rfl, rfl⟩
  | some text =>
    obtain ⟨signature, hsignature⟩ := Option.isSome_iff_exists.mp
      (h row hmem text (Option.filter_eq_some_iff.mp htext).1)
    dsimp only
    rw [hsignature]
    exact ⟨_, rfl, rfl, rfl, rfl, rfl, rfl, rfl, rfl⟩

/-- The node is what is stored under its hash. -/
def Stored (store : CocStore) (node : CoCNode) : Prop :=
  store.getNode node.nodeHash = .ok (some node)

/-- The row of a node that is read. -/
theorem Readable.row_of_stored (h : store.Readable) {node : CoCNode} (hnode : store.Stored node) :
    ∃ row, store.nodes.get? node.nodeHash = some row ∧ store.ReadAs row node := by
  cases hrow : store.nodes.get? node.nodeHash with
  | none =>
    rw [Stored, CocStore.getNode, hrow] at hnode
    cases hnode
  | some row =>
    obtain ⟨found, hfound, hread⟩ := h.readAs hrow
    obtain rfl := Option.some.inj (Except.ok.inj (hfound.symm.trans hnode))
    exact ⟨row, rfl, hread⟩

/-- A stored hash has a node. -/
theorem Readable.exists_stored (h : store.Readable) (hrow : store.nodes.get? nodeHash = some row) :
    ∃ node, node.nodeHash = nodeHash ∧ store.Stored node ∧ store.ReadAs row node := by
  obtain ⟨node, hnode, hread⟩ := h.readAs hrow
  have hhash : node.nodeHash = nodeHash :=
    hread.nodeHash.trans (Table.get?_eq_some_iff.mp hrow).2
  exact ⟨node, hhash, (congrArg store.getNode hhash).trans hnode, hread⟩

end CocStore

namespace Server

/-! ## The nodes of a trace -/

section

variable {store : CocStore}

/-- **The loop of the trace** meets the hashes that a search through the children meets. -/
theorem traceFrom_spec (h : store.Readable) (fuel : ℕ) {stack : List CoCNode} {seen : List Str}
    (hstack : ∀ node ∈ stack, store.Stored node) :
    ∃ nodes edges, traceFrom store fuel stack seen = .ok (nodes, edges) ∧
      nodes.map CoCNode.nodeHash = search store.childrenOf fuel (stack.map CoCNode.nodeHash) seen ∧
      ∀ node ∈ nodes, store.Stored node := by
  induction fuel generalizing stack seen with
  | zero => exact ⟨[], [], rfl, rfl, fun _ h => absurd h not_mem_nil⟩
  | succ fuel ih =>
    cases stack with
    | nil => exact ⟨[], [], rfl, rfl, fun _ h => absurd h not_mem_nil⟩
    | cons node stack =>
      have htail : ∀ other ∈ stack, store.Stored other :=
        fun other hother => hstack other (mem_cons_of_mem _ hother)
      rw [traceFrom, map_cons, search]
      by_cases hseen : node.nodeHash ∈ seen
      · rw [if_pos hseen, if_pos hseen]
        exact ih htail
      · rw [if_neg hseen, if_neg hseen]
        -- every child has a row, and is read
        have hchild : ∀ child ∈ store.childrenOf node.nodeHash, ∃ found,
            found.nodeHash = child ∧ store.Stored found := by
          intro child hmem
          obtain ⟨row, hrow, -⟩ := mem_childrenOf.mp hmem
          obtain ⟨found, hhash, hfound, -⟩ := h.exists_stored hrow
          exact ⟨found, hhash, hfound⟩
        have : Nonempty CoCNode := ⟨node⟩
        choose! found hhash hfound using hchild
        have hloop : (store.childrenOf node.nodeHash).mapM store.getNode
            = .ok ((store.childrenOf node.nodeHash).map fun child => some (found child)) := by
          refine mapM_eq_ok fun child hmem => ?_
          rw [← hfound child hmem, hhash child hmem]
        have hpushed : ∀ other ∈ ((store.childrenOf node.nodeHash).map found).reverse ++ stack,
            store.Stored other := by
          intro other hother
          rcases mem_append.mp hother with hother | hother
          · obtain ⟨child, hmem, rfl⟩ := mem_map.mp (mem_reverse.mp hother)
            exact hfound child hmem
          · exact htail other hother
        have hhashes : ((store.childrenOf node.nodeHash).map found).map CoCNode.nodeHash
            = store.childrenOf node.nodeHash := by
          rw [map_map]
          exact (map_congr_left hhash).trans (map_id _)
        obtain ⟨nodes, edges, hrest, hmet, hstored⟩ : ∃ nodes edges,
            traceFrom store fuel (((store.childrenOf node.nodeHash).map found).reverse ++ stack)
              (node.nodeHash :: seen) = .ok (nodes, edges) ∧ _ := ih hpushed
        rw [map_append, map_reverse, hhashes] at hmet
        refine ⟨node :: nodes,
          (store.childrenOf node.nodeHash).map (fun child => (node.nodeHash, child)) ++ edges,
          ?_, ?_, ?_⟩
        · have hids : ((store.childrenOf node.nodeHash).map fun child =>
              some (found child)).filterMap id = (store.childrenOf node.nodeHash).map found := by
            rw [filterMap_map]
            exact congrFun filterMap_eq_map _
          rw [← CocStore.childrenOf]
          dsimp only
          rw [hloop, ok_bind, hids, hrest]
          rfl
        · rw [map_cons, hmet]
        · intro other hother
          rcases mem_cons.mp hother with rfl | hother
          · exact hstack other mem_cons_self
          · exact hstored other hother

end

section

variable {S : SignatureScheme} {server : Server S}

/-- **The trace of a root** that has no parent lists every node at or below it exactly
once. -/
theorem traceOf_spec (h : server.coc.Readable) {rootHash : Str} {root : NodeRow}
    (hroot : server.coc.nodes.get? rootHash = some root) (hparent : root.parentHash = none) :
    ∃ nodes edges, server.traceOf rootHash = .ok (nodes, edges) ∧
      (nodes.map CoCNode.nodeHash).Nodup ∧
      (∀ nodeHash, nodeHash ∈ nodes.map CoCNode.nodeHash ↔
        AtOrBelow server.coc.childrenOf rootHash nodeHash) ∧
      ∀ node ∈ nodes, server.coc.Stored node := by
  obtain ⟨node, hhash, hstored, -⟩ := h.exists_stored hroot
  obtain ⟨nodes, edges, htrace, hmet, hall⟩ :
      ∃ nodes edges, traceFrom server.coc (server.coc.nodes.rows.length + 2) [node] []
        = .ok (nodes, edges) ∧ _ := traceFrom_spec h _ fun other hother => by
    rw [mem_singleton.mp hother]
    exact hstored
  rw [map_singleton, hhash] at hmet
  have hfound : server.coc.getNode rootHash = .ok (some node) := hhash ▸ hstored
  refine ⟨nodes, edges, ?_, ?_⟩
  · rw [traceOf, hfound, ok_bind]
    dsimp only
    rw [htrace]
    rfl
  · have hnoParent : ∀ other, rootHash ∉ server.coc.childrenOf other := by
      intro other hmem
      obtain ⟨row, hrow, hother⟩ := mem_childrenOf.mp hmem
      obtain rfl := Option.mem_unique hrow hroot
      cases hparent.symm.trans hother
    have hrows : ∀ nodeHash, AtOrBelow server.coc.childrenOf rootHash nodeHash →
        nodeHash ∈ server.coc.nodes.rows.map NodeRow.nodeHash := by
      intro nodeHash hbelow
      cases hbelow with
      | refl =>
        obtain ⟨hmem, hkey⟩ := Table.get?_eq_some_iff.mp hroot
        exact mem_map.mpr ⟨root, hmem, hkey⟩
      | tail _ hstep =>
        obtain ⟨row, hrow, -⟩ := mem_childrenOf.mp hstep
        obtain ⟨hmem, hkey⟩ := Table.get?_eq_some_iff.mp hrow
        exact mem_map.mpr ⟨row, hmem, hkey⟩
    have hfuel : (server.coc.nodes.rows.map NodeRow.nodeHash).length
        < server.coc.nodes.rows.length + 2 := by
      rw [length_map]
      omega
    obtain ⟨hnodup, hreach⟩ := search_spec (nodup_childrenOf server.coc)
      (fun _ _ _ => eq_of_mem_childrenOf) hrows hnoParent hfuel
    rw [hmet]
    exact ⟨hnodup, hreach, hall⟩

/-! ## The reply -/

/-- What `_augment_nodes` has read: the names of the users and whether they are online, by peer
id, and the file names of documents, by the hash of their root. -/
structure Directory where
  userMap : Str → Option (Str × Bool)
  docMap : Str → Option Str

/-- A node of the reply. -/
structure TraceNode where
  node : CoCNode
  ownerUsername : Str
  isOnline : Bool
  filename : Str

/-- `_augment_nodes`. -/
def augmentNodes (directory : Directory) (nodes : List CoCNode) : List TraceNode :=
  nodes.map fun node =>
    let ownerInfo := (directory.userMap node.ownerId).getD ("Unknown", false)
    { node := node
      ownerUsername := ownerInfo.1
      isOnline := ownerInfo.2
      filename := (directory.docMap node.nodeHash).getD [] }

/-- `TraceResponse`. -/
structure TraceResponse where
  nodes : List TraceNode
  edges : List (Str × Str)

/-- The reply of `get_document_trace`, with its nodes augmented. -/
def documentTrace (server : Server S) (amb : Ambient) (user : User) (directory : Directory)
    (documentId : Uuid) : Reply TraceResponse :=
  (server.getDocumentTrace amb user documentId).2.map fun (nodes, edges) =>
    ⟨augmentNodes directory nodes, edges⟩

/-- The reply to a user with an active share. -/
theorem documentTrace_eq {amb : Ambient} {user : User} {directory : Directory} {documentId : Uuid}
    {doc : Document} {share : FileShare} (hdoc : server.document documentId = some doc)
    (hactive : doc.status = .active) (howner : doc.ownerId ≠ user.id)
    (hshare : server.activeShare amb.plan documentId user.id = some share)
    {nodes : List CoCNode} {edges : List (Str × Str)}
    (htrace : server.traceOf doc.cocNodeHash = .ok (nodes, edges)) :
    server.documentTrace amb user directory documentId
      = .ok ⟨augmentNodes directory nodes, []⟩ := by
  obtain rfl : doc.id = documentId := (Table.get?_eq_some_iff.mp hdoc).2
  have hgrant : server.grantFor amb user doc "Access denied" = .ok (some share) := by
    rw [grantFor, if_neg howner, hshare]
  rw [documentTrace, getDocumentTrace, liveDocument_of_active hdoc hactive, ok_bind, hgrant, ok_bind,
    htrace]
  rfl

end

end Server

end TrustFlow.TrustDocs
