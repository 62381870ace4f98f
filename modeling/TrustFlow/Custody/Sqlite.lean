import TrustFlow.Custody.Storage
import TrustFlow.Library.Outcome
import TrustFlow.Library.Table

/-!
# Two storages

`SQLiteStorage` of `interfaces/storage_backend.py` keeps the dictionaries of nodes in a table
and finds the nodes with a content by a query, where `InMemoryStorage` keeps the nodes and an
index.

* `SQLiteStorage` — the tables and the queries.
* `Simulates` — the tables hold the dictionaries of the stored nodes; every operation keeps
  this (`Simulates.step`).
* `backends_agree` — after the same operations both storages give the same answers, where an
  empty signature is read as none: the dictionary of a node has no other way to say it.
* `empty_signature_differs` — for a node with an empty signature the answers are not equal.

A step is one call (`StorageOp`), committed as it is made; the order in which the sets of a
node are listed comes with it.  The connection and the tombstones are left out.
-/

namespace TrustFlow.Custody

open Library List InMemoryStorage

/-- A row of `nodes`; the column `data` holds the dictionary as JSON. -/
structure SqliteNode where
  nodeHash : Str
  contentHash : Str
  data : NodeDict

/-- A row of `content`. -/
structure SqliteContent where
  contentHash : Str
  content : Str

/-- `SQLiteStorage`. -/
structure SQLiteStorage where
  nodes : Table SqliteNode.nodeHash
  content : Table SqliteContent.contentHash

namespace SQLiteStorage

/-- New tables. -/
def empty : SQLiteStorage := ⟨.empty, .empty⟩

/-- `add_node`; the children are listed in some order. -/
def addNode (order : SetOrder) (s : SQLiteStorage) (node : CoCNode) : SQLiteStorage :=
  { s with nodes := s.nodes.replace ⟨node.nodeHash, node.contentHash, node.toDict order⟩ }

section

variable (s : SQLiteStorage)

/-- `get_node`. -/
def getNode (nodeHash : Str) : Except CustodyError (Option CoCNode) :=
  match s.nodes.get? nodeHash with
  | none => .ok none
  | some row => (CoCNode.fromDict row.data).map some

/-- `remove_node`. -/
def removeNode (nodeHash : Str) : SQLiteStorage :=
  { s with nodes := s.nodes.delete nodeHash }

/-- `get_all_nodes`. -/
def getAllNodes : Except CustodyError (List CoCNode) :=
  s.nodes.rows.mapM fun row => CoCNode.fromDict row.data

/-- `add_content`. -/
def addContent (contentHash content : Str) : SQLiteStorage :=
  { s with content := s.content.replace ⟨contentHash, content⟩ }

variable (contentHash : Str)

/-- `get_content`. -/
def getContent : Option Str :=
  (s.content.get? contentHash).map SqliteContent.content

/-- `remove_content`. -/
def removeContent : SQLiteStorage :=
  { s with content := s.content.delete contentHash }

/-- `is_content_referenced`. -/
def isContentReferenced : Bool :=
  s.nodes.rows.any fun row => decide (row.contentHash = contentHash)

/-- `get_nodes_by_content`. -/
def getNodesByContent : Except CustodyError (List CoCNode) :=
  (s.nodes.rows.filter fun row => decide (row.contentHash = contentHash)).mapM fun row =>
    CoCNode.fromDict row.data

end

end SQLiteStorage

/-! ## Operations -/

/-- An operation of a storage. -/
inductive StorageOp where
  | addNode (order : SetOrder) (node : CoCNode)
  | removeNode (nodeHash : Str)
  | addContent (contentHash content : Str)
  | removeContent (contentHash : Str)

/-- The operation on the storage in memory. -/
def InMemoryStorage.step (s : InMemoryStorage) : StorageOp → InMemoryStorage
  | .addNode _ node => s.addNode node
  | .removeNode nodeHash => s.removeNode nodeHash
  | .addContent contentHash content => s.addContent contentHash content
  | .removeContent contentHash => s.removeContent contentHash

/-- The operation on the tables. -/
def SQLiteStorage.step (s : SQLiteStorage) : StorageOp → SQLiteStorage
  | .addNode order node => s.addNode order node
  | .removeNode nodeHash => s.removeNode nodeHash
  | .addContent contentHash content => s.addContent contentHash content
  | .removeContent contentHash => s.removeContent contentHash

/-- The row is that of the node. -/
def RowOf (node : CoCNode) (row : SqliteNode) : Prop :=
  row.contentHash = node.contentHash ∧ ∃ order, row.data = node.toDict order

/-- The tables hold what the storage in memory holds. -/
structure Simulates (mem : InMemoryStorage) (sql : SQLiteStorage) : Prop where
  nodes : ∀ h, Option.Rel RowOf (mem.getNode h) (sql.nodes.get? h)
  content : ∀ c, sql.getContent c = mem.getContent c

namespace Simulates

variable {mem : InMemoryStorage} {sql : SQLiteStorage}

theorem start : Simulates .empty .empty := ⟨fun _ => .none, fun _ => rfl⟩

/-- **One operation** on both. -/
theorem step (h : Simulates mem sql) (op : StorageOp) : Simulates (mem.step op) (sql.step op) := by
  cases op with
  | addNode order node =>
    refine ⟨fun x => ?_, h.content⟩
    show Option.Rel RowOf ((mem.addNode node).getNode x) ((Table.replace _ _).get? x)
    rw [getNode_addNode, Table.get?_replace]
    by_cases hx : node.nodeHash = x
    · rw [if_pos hx, if_pos hx]
      exact .some ⟨rfl, order, rfl⟩
    · rw [if_neg hx, if_neg hx]
      exact h.nodes x
  | removeNode nodeHash =>
    refine ⟨fun x => ?_, h.content⟩
    show Option.Rel RowOf ((mem.removeNode nodeHash).getNode x) ((Table.delete _ _).get? x)
    rw [getNode_removeNode, Table.get?_delete]
    by_cases hx : nodeHash = x
    · rw [if_pos hx, if_pos hx]
      exact .none
    · rw [if_neg hx, if_neg hx]
      exact h.nodes x
  | addContent contentHash content =>
    refine ⟨h.nodes, fun c => ?_⟩
    show Option.map _ ((Table.replace _ _).get? c) = (mem.addContent contentHash content).getContent c
    rw [getContent_addContent, Table.get?_replace]
    by_cases hc : contentHash = c
    · rw [if_pos hc, if_pos hc, Option.map_some]
    · rw [if_neg hc, if_neg hc]
      exact h.content c
  | removeContent contentHash =>
    refine ⟨h.nodes, fun c => ?_⟩
    show Option.map _ ((Table.delete _ _).get? c) = (mem.removeContent contentHash).getContent c
    rw [getContent_removeContent, Table.get?_delete]
    by_cases hc : contentHash = c
    · rw [if_pos hc, if_pos hc, Option.map_none]
    · rw [if_neg hc, if_neg hc]
      exact h.content c

/-- **Every series of operations** on both. -/
theorem run (h : Simulates mem sql) (ops : List StorageOp) :
    Simulates (ops.foldl InMemoryStorage.step mem) (ops.foldl SQLiteStorage.step sql) := by
  induction ops generalizing mem sql with
  | nil => exact h
  | cons op ops ih => exact ih (h.step op)

/-! ## The answers -/

variable {node : CoCNode} {row : SqliteNode}

theorem fromDict_of_rowOf (h : RowOf node row) : CoCNode.fromDict row.data = .ok node.plain := by
  obtain ⟨-, order, hdata⟩ := h
  rw [hdata, CoCNode.fromDict_toDict_plain]

section

variable (h : Simulates mem sql)
include h

/-- Every row is that of a stored node. -/
theorem exists_node (hrow : row ∈ sql.nodes.rows) :
    ∃ node, mem.getNode node.nodeHash = some node ∧ RowOf node row := by
  have hrel := h.nodes row.nodeHash
  rw [Table.get?_eq_some_iff.mpr ⟨hrow, rfl⟩] at hrel
  cases hnode : mem.getNode row.nodeHash with
  | none =>
    rw [hnode] at hrel
    cases hrel
  | some node =>
    rw [hnode] at hrel
    cases hrel with
    | some hof => exact ⟨node, (nodeHash_of_getNode hnode).symm ▸ hnode, hof⟩

/-- Every stored node has a row. -/
theorem exists_row {nodeHash : Str}
    (hnode : mem.getNode nodeHash = some node) : ∃ row ∈ sql.nodes.rows, RowOf node row := by
  have hrel := h.nodes nodeHash
  rw [hnode] at hrel
  cases hrow : sql.nodes.get? nodeHash with
  | none =>
    rw [hrow] at hrel
    cases hrel
  | some row =>
    rw [hrow] at hrel
    cases hrel with
    | some hof => exact ⟨row, (Table.get?_eq_some_iff.mp hrow).1, hof⟩

theorem getNode_eq (nodeHash : Str) :
    sql.getNode nodeHash = .ok ((mem.getNode nodeHash).map CoCNode.plain) := by
  have hrel := h.nodes nodeHash
  rw [SQLiteStorage.getNode]
  generalize mem.getNode nodeHash = node at hrel
  generalize sql.nodes.get? nodeHash = row at hrel
  cases hrel with
  | none => rfl
  | some hof =>
    show Except.map some (CoCNode.fromDict _) = _
    rw [fromDict_of_rowOf hof]
    rfl

/-- The rows with a property that the nodes decide, read back. -/
theorem exists_mapM_rows {p : SqliteNode → Bool} {q : CoCNode → Prop}
    (hp : ∀ node row, RowOf node row → (p row = true ↔ q node)) :
    ∃ nodes, (sql.nodes.rows.filter p).mapM (fun row => CoCNode.fromDict row.data) = .ok nodes ∧
      ∀ n, n ∈ nodes ↔ ∃ node, (mem.getNode node.nodeHash = some node ∧ q node) ∧ node.plain = n := by
  have hreturns : ∀ row ∈ sql.nodes.rows.filter p, ∃ n, CoCNode.fromDict row.data = .ok n := by
    intro row hrow
    obtain ⟨node, -, hof⟩ := h.exists_node (mem_filter.mp hrow).1
    exact ⟨node.plain, fromDict_of_rowOf hof⟩
  obtain ⟨nodes, hnodes, hmem⟩ := exists_mapM_eq_ok hreturns
  refine ⟨nodes, hnodes, fun n => ?_⟩
  rw [hmem]
  constructor
  · rintro ⟨row, hrow, hread⟩
    obtain ⟨hrow, hprow⟩ := mem_filter.mp hrow
    obtain ⟨node, hnode, hof⟩ := h.exists_node hrow
    rw [fromDict_of_rowOf hof] at hread
    exact ⟨node, ⟨hnode, (hp node row hof).mp hprow⟩, Except.ok.inj hread⟩
  · rintro ⟨node, ⟨hnode, hq⟩, rfl⟩
    obtain ⟨row, hrow, hof⟩ := h.exists_row hnode
    exact ⟨row, mem_filter.mpr ⟨hrow, (hp node row hof).mpr hq⟩, fromDict_of_rowOf hof⟩

end

theorem contentHash_iff (c : Str) (h : RowOf node row) :
    decide (row.contentHash = c) = true ↔ node.contentHash = c := by
  rw [decide_eq_true_iff, h.1]

theorem getAllNodes_eq (h : Simulates mem sql) :
    ∃ nodes, sql.getAllNodes = .ok nodes ∧ ∀ n, n ∈ nodes ↔ n ∈ mem.getAllNodes.map CoCNode.plain := by
  obtain ⟨nodes, hnodes, hmem⟩ := h.exists_mapM_rows (p := fun _ => true) (q := fun _ => True)
    fun _ _ _ => iff_of_true rfl trivial
  rw [filter_true] at hnodes
  refine ⟨nodes, hnodes, fun n => ?_⟩
  simp only [hmem, mem_map, mem_getAllNodes, and_true]

theorem getNodesByContent_eq (h : Simulates mem sql) (order : SetOrder) (c : Str) :
    ∃ nodes, sql.getNodesByContent c = .ok nodes ∧
      ∀ n, n ∈ nodes ↔ n ∈ (mem.getNodesByContent order c).map CoCNode.plain := by
  obtain ⟨nodes, hnodes, hmem⟩ := h.exists_mapM_rows fun _ _ => contentHash_iff c
  refine ⟨nodes, hnodes, fun n => ?_⟩
  simp only [hmem, mem_map, mem_getNodesByContent]

theorem isContentReferenced_eq (h : Simulates mem sql) (c : Str) :
    sql.isContentReferenced c = mem.isContentReferenced c := by
  rw [Bool.eq_iff_iff, isContentReferenced_iff, SQLiteStorage.isContentReferenced, any_eq_true]
  constructor
  · rintro ⟨row, hrow, hc⟩
    obtain ⟨node, hnode, hof⟩ := h.exists_node hrow
    exact ⟨_, node, hnode, (contentHash_iff c hof).mp hc⟩
  · rintro ⟨nodeHash, node, hnode, hc⟩
    obtain ⟨row, hrow, hof⟩ := h.exists_row hnode
    exact ⟨row, hrow, (contentHash_iff c hof).mpr hc⟩

end Simulates

/-- **The same answers**, but for an empty signature: the tables give it as `None`. -/
structure Agree (mem : InMemoryStorage) (sql : SQLiteStorage) : Prop where
  getNode : ∀ h, sql.getNode h = .ok ((mem.getNode h).map CoCNode.plain)
  getContent : ∀ c, sql.getContent c = mem.getContent c
  isContentReferenced : ∀ c, sql.isContentReferenced c = mem.isContentReferenced c
  getAllNodes : ∃ nodes, sql.getAllNodes = .ok nodes ∧
    ∀ n, n ∈ nodes ↔ n ∈ mem.getAllNodes.map CoCNode.plain
  getNodesByContent : ∀ order c, ∃ nodes, sql.getNodesByContent c = .ok nodes ∧
    ∀ n, n ∈ nodes ↔ n ∈ (mem.getNodesByContent order c).map CoCNode.plain
  referenced : ∀ c, mem.isContentReferenced c = true ↔ ∃ n ∈ mem.getAllNodes, n.contentHash = c

/-- **The storages agree** after every series of operations: they answer the same, with an
empty signature read as none, and a content is referenced exactly if a stored node has it. -/
theorem backends_agree (ops : List StorageOp) :
    Agree (ops.foldl InMemoryStorage.step .empty) (ops.foldl SQLiteStorage.step .empty) := by
  have h := Simulates.start.run ops
  refine ⟨h.getNode_eq, h.content, h.isContentReferenced_eq, h.getAllNodes_eq,
    h.getNodesByContent_eq, fun c => ?_⟩
  rw [isContentReferenced_iff]
  constructor
  · rintro ⟨nodeHash, n, hget, hc⟩
    exact ⟨n, mem_getAllNodes.mpr ((nodeHash_of_getNode hget).symm ▸ hget), hc⟩
  · rintro ⟨n, hn, hc⟩
    exact ⟨_, n, mem_getAllNodes.mp hn, hc⟩

/-- A node with an empty signature does not come back as it was added. -/
theorem getNode_addNode_ne (order : SetOrder) {node : CoCNode} (hempty : node.signature = some []) :
    (SQLiteStorage.empty.addNode order node).getNode node.nodeHash ≠ .ok (some node) := by
  intro heq
  have h : (SQLiteStorage.empty.addNode order node).getNode node.nodeHash = .ok (some node.plain) := by
    have hget := (Simulates.start.step (.addNode order node)).getNode_eq node.nodeHash
    rwa [InMemoryStorage.step, getNode_addNode, if_pos rfl, Option.map_some] at hget
  have hplain : node.plain = node := Option.some.inj (Except.ok.inj (h.symm.trans heq))
  have hsignature : node.plain.signature = none := by
    rw [CoCNode.plain, hempty]
    rfl
  rw [hplain, hempty] at hsignature
  cases hsignature

/-- A dictionary whose signature is a blank: `bytes.fromhex` skips it. -/
def blankSigned : NodeDict where
  schemaVersion := some 2
  nodeHash := "n"
  contentHash := "c"
  parentHash := none
  ownerId := "o"
  recipientIds := none
  timestamp := "t"
  childrenHashes := none
  depth := none
  signature := some [' ']

/-- **An empty signature is lost in the tables**: a node that `from_dict` reads, and that the
storage in memory returns as it was added, comes back from the tables without a signature. -/
theorem empty_signature_differs :
    ∃ node, CoCNode.fromDict blankSigned = .ok node ∧
      (InMemoryStorage.empty.addNode node).getNode node.nodeHash = some node ∧
      ∀ order, (SQLiteStorage.empty.addNode order node).getNode node.nodeHash ≠ .ok (some node) := by
  refine ⟨_, rfl, ?_, fun order => getNode_addNode_ne order rfl⟩
  rw [getNode_addNode, if_pos rfl]

end TrustFlow.Custody
