import TrustFlow.Custody.CoCNode
import TrustFlow.Library.Sql

/-!
# Opening an old database

`SQLiteStorage.__init__` of `interfaces/storage_backend.py` creates the tables and indexes that
are missing (`_create_tables`) and then brings a database of the first version up to date
(`_migrate_schema`): the table `nodes` gets the columns `content_hash` and `owner_id`, filled
from the JSON of each node.

* `createTables`, `migrateSchema`, `openStorage` — the source, statement by statement.
* `VersionOne` — a database of the first version: its nodes are valid, and it has no version.
* `Migrated` — what a migration should do.
* `backfill_ok` — the loop over the rows, by what is done and what is left.
* `migrated_iff` — the migration is right, but it is only reached if the database has indexes
  of both names already: `_create_tables` indexes the columns before they are there.
-/

namespace TrustFlow.Custody

open Library List Database

/-! ## Nodes as JSON -/

namespace NodeDict

/-- A string. -/
def readStr : Json → Option Str
  | .str s => some s
  | _ => none

/-- An integer. -/
def readNumber : Json → Option ℤ
  | .int z => some z
  | _ => none

/-- A list of strings. -/
def readStrs : Json → Option (List Str)
  | .arr vs => vs.mapM readStr
  | _ => none

/-- A value that may be missing. -/
def readMissing {α : Type} (read : Json → Option α) : Option Json → Option (Option α)
  | none => some none
  | some v => (read v).map some

/-- A value that may be missing or `null`. -/
def readNullable {α : Type} (read : Json → Option α) : Option Json → Option (Option α)
  | none => some none
  | some .null => some none
  | some v => (read v).map some

/-- The dictionary that `from_dict` reads, if the value is one of a node. -/
def ofJson : Json → Option NodeDict
  | .obj fields => do
      let field (name : String) : Option Json := Assoc.get? name.toList fields
      let schemaVersion ← readMissing readNumber (field "schema_version")
      let nodeHash ← (field "node_hash").bind readStr
      let contentHash ← (field "content_hash").bind readStr
      let parentHash ← readNullable readStr (field "parent_hash")
      let ownerId ← (field "owner_id").bind readStr
      let recipientIds ← readMissing readStrs (field "recipient_ids")
      let timestamp ← (field "timestamp").bind readStr
      let childrenHashes ← readMissing readStrs (field "children_hashes")
      let depth ← readMissing readNumber (field "depth")
      let signature ← readNullable readStr (field "signature")
      some ⟨schemaVersion, nodeHash, contentHash, parentHash, ownerId, recipientIds, timestamp,
        childrenHashes, depth, signature⟩
  | _ => none

end NodeDict

/-- `CoCNode.from_dict(json.loads(data))`; `none` is an exception. -/
def readNode (data : Str) : Option CoCNode := do
  let v ← loads data
  let d ← NodeDict.ofJson v
  (CoCNode.fromDict d).toOption

/-! ## Opening -/

/-- The exceptions of `SQLiteStorage.__init__`. -/
inductive OpenError where
  | operational (e : SqlError)
  | jsonDecode
  | attribute
  | type
  | value
  deriving DecidableEq

/-- A statement that is executed. -/
def execute {α : Type} (x : Except SqlError α) : Except OpenError α := x.mapError .operational

variable (db : Database)

/-- `_create_tables`. -/
def createTables : Except OpenError Database := do
  let db ← execute (db.createTable "schema_meta" ["key", "value"])
  let db ← execute (db.createTable "nodes" ["node_hash", "content_hash",
    "owner_id", "data", "created_at"])
  let db ← execute (db.createIndex "idx_nodes_content_hash" "nodes" "content_hash")
  let db ← execute (db.createIndex "idx_nodes_owner_id" "nodes" "owner_id")
  let db ← execute (db.createTable "content" ["content_hash", "content", "created_at"])
  let db ← execute (db.createTable "tombstones" ["content_hash", "data", "delete_after"])
  execute (db.createIndex "idx_tombstones_delete_after" "tombstones" "delete_after")

/-- The value of a parameter in a column of type `TEXT`; lists and dictionaries have none. -/
def bindText : Json → Except OpenError (Option Str)
  | .null => .ok none
  | .bool b => .ok (some (if b then ['1'] else ['0']))
  | .int z => .ok (some (showInt z))
  | .float f => .ok (some f.text)
  | .str s => .ok (some s)
  | .arr _ => .error .type
  | .obj _ => .error .type

/-- The columns of a node, from the JSON in its column `data`. -/
def columnsOf (row : SqlRow) : Except OpenError (Option Str × Option Str) :=
  match row.get? "data" with
  | none => .error .type
  | some data =>
    match loads data with
    | none => .error .jsonDecode
    | some (.obj fields) => do
        let contentHash ← bindText ((Assoc.get? "content_hash".toList fields).getD (.str []))
        let ownerId ← bindText ((Assoc.get? "owner_id".toList fields).getD (.str []))
        .ok (contentHash, ownerId)
    | some _ => .error .attribute

/-- The loop that fills the new columns. -/
def backfill : List SqlRow → Database → Except OpenError Database
  | [], db => .ok db
  | row :: rest, db => do
      let (contentHash, ownerId) ← columnsOf row
      let db ← execute (db.update "nodes" "node_hash" (row.get? "node_hash")
        [("content_hash", contentHash), ("owner_id", ownerId)])
      backfill rest db

/-- `SQLITE_SCHEMA_VERSION`. -/
def sqliteSchemaVersion : ℤ := 2

/-- The version of a database. -/
def currentVersion : Except OpenError ℤ := do
  let rows ← execute (db.select "schema_meta" ["value", "key"]
    fun row => decide (row.get? "key" = some "version".toList))
  match rows.head? with
  | none => .ok 1
  | some row =>
    match row.get? "value" with
    | none => .error .type
    | some text =>
      match readInt text with
      | none => .error .value
      | some version => .ok version

/-- The new columns of `nodes`. -/
def addNodeColumns : Except OpenError Database := do
  let db ← execute (db.addColumn "nodes" "content_hash")
  let db ← execute (db.addColumn "nodes" "owner_id")
  let rows ← execute (db.select "nodes" ["node_hash", "data"] fun _ => true)
  let db ← backfill rows db
  let db ← execute (db.createIndex "idx_nodes_content_hash" "nodes" "content_hash")
  execute (db.createIndex "idx_nodes_owner_id" "nodes" "owner_id")

/-- The row with the version. -/
def versionRow : SqlRow :=
  (Dict.empty.set "key".toList "version".toList).set "value" (showInt sqliteSchemaVersion)

/-- `_migrate_schema`. -/
def migrateSchema : Except OpenError Database := do
  let current ← currentVersion db
  if current < sqliteSchemaVersion then do
    let db ← if "content_hash".toList ∉ db.tableInfo "nodes" then addNodeColumns db
      else .ok db
    execute (db.insertOrReplace "schema_meta" "key" versionRow)
  else .ok db

/-- `SQLiteStorage.__init__`, on the database that the file holds. -/
def openStorage : Except OpenError Database := do
  let db ← createTables db
  migrateSchema db

/-! ## Queries -/

/-- The nodes of the rows; the error is an exception of `from_dict` or `json.loads`. -/
def readRows (rows : List SqlRow) : Except OpenError (List CoCNode) :=
  rows.mapM fun row =>
    match (row.get? "data").bind readNode with
    | none => .error .value
    | some node => .ok node

/-- The nodes with a value in a column. -/
def nodesBy (column value : Str) (db : Database) : Except OpenError (List CoCNode) := do
  let rows ← execute (db.select "nodes" ["data", column]
    fun row => decide (row.get? column = some value))
  readRows rows

/-- `get_node`. -/
def getNode (nodeHash : Str) (db : Database) : Except OpenError (Option CoCNode) := do
  let rows ← execute (db.select "nodes" ["data", "node_hash"]
    fun row => decide (row.get? "node_hash" = some nodeHash))
  let nodes ← readRows (rows.take 1)
  .ok nodes.head?

/-- `is_content_referenced`. -/
def isContentReferenced (contentHash : Str) (db : Database) : Except OpenError Bool := do
  let rows ← execute (db.select "nodes" ["content_hash"]
    fun row => decide (row.get? "content_hash" = some contentHash))
  .ok rows.head?.isSome

/-- `get_nodes_by_content`. -/
def getNodesByContent (contentHash : Str) (db : Database) : Except OpenError (List CoCNode) :=
  nodesBy "content_hash" contentHash db

/-- `get_nodes_by_owner`. -/
def getNodesByOwner (ownerId : Str) (db : Database) : Except OpenError (List CoCNode) :=
  nodesBy "owner_id" ownerId db

/-! ## The first version -/

/-- A node of an old database: its columns, and the node that its JSON is read as. -/
structure OldNode where
  nodeHash : Str
  data : Str
  createdAt : Str
  node : CoCNode
  reads : readNode data = some node

/-- The row of an old node. -/
def OldNode.row (old : OldNode) : SqlRow :=
  ((Dict.empty.set "node_hash".toList old.nodeHash).set "data" old.data).set
    "created_at" old.createdAt

/-- The columns of `nodes` in an old database. -/
def oldColumns : List Str := ["node_hash", "data", "created_at"]

/-- The names of the indexes of the source. -/
def indexNames : List Str :=
  ["idx_nodes_content_hash", "idx_nodes_owner_id", "idx_tombstones_delete_after"]

/-- The names of the tables of the source. -/
def tableNames : List Str :=
  ["schema_meta", "nodes", "content", "tombstones"]

/-- A database of the first version.  The other tables of the source may be there or not, and
there may be any other tables and any indexes. -/
structure VersionOne where
  olds : List OldNode
  unique : (olds.map OldNode.nodeHash).Nodup
  others : Dict Str SqlTable
  indexes : Dict Str (Str × Str)
  schemaMeta : ∀ r, others.get? "schema_meta" = some r →
    "key".toList ∈ r.columns ∧ "value".toList ∈ r.columns ∧
      ∀ row ∈ r.rows, row.get? "key" ≠ some "version".toList
  tombstones : ∀ r, others.get? "tombstones" = some r → "delete_after".toList ∈ r.columns
  noTable : ∀ name ∈ indexNames, others.get? name = none
  noIndex : ∀ name ∈ tableNames, indexes.get? name = none

/-- The database. -/
def VersionOne.database (v : VersionOne) : Database :=
  ⟨v.others.set "nodes" ⟨oldColumns, v.olds.map OldNode.row⟩, v.indexes⟩

/-- What a migration should do: opening succeeds, every node is found as it was, by its hash,
its content and its owner, and opening again changes nothing. -/
def Migrated (v : VersionOne) : Prop :=
  ∃ db, openStorage v.database = .ok db ∧
    (∀ nodeHash, getNode nodeHash db
      = .ok ((v.olds.find? fun old => decide (old.nodeHash = nodeHash)).map OldNode.node)) ∧
    (∀ contentHash, isContentReferenced contentHash db
      = .ok (v.olds.any fun old => decide (old.node.contentHash = contentHash))) ∧
    (∀ contentHash, getNodesByContent contentHash db
      = .ok ((v.olds.filter fun old => decide (old.node.contentHash = contentHash)).map
          OldNode.node)) ∧
    (∀ ownerId, getNodesByOwner ownerId db
      = .ok ((v.olds.filter fun old => decide (old.node.ownerId = ownerId)).map OldNode.node)) ∧
    openStorage db = .ok db

/-! ## The loop over the rows -/

@[simp] theorem execute_ok {α : Type} (a : α) : execute (.ok a) = .ok a := rfl

theorem readStr_eq_some {v : Option Json} {s : Str}
    (h : ∃ a, v = some a ∧ NodeDict.readStr a = some s) : v = some (.str s) := by
  obtain ⟨v, rfl, hread⟩ := h
  cases v with
  | str s' => rw [Option.some.inj hread]
  | _ => cases hread

theorem ids_fromDict {d : NodeDict} {node : CoCNode} (h : CoCNode.fromDict d = .ok node) :
    node.contentHash = d.contentHash ∧ node.ownerId = d.ownerId := by
  rw [CoCNode.fromDict] at h
  dsimp only at h
  split at h
  · rw [← Except.ok.inj h]
    exact ⟨rfl, rfl⟩
  · split at h
    · cases h
    · rw [← Except.ok.inj h]
      exact ⟨rfl, rfl⟩

/-- The hash of the content and the owner stand in the JSON of a node. -/
theorem fields_of_readNode {data : Str} {node : CoCNode} (h : readNode data = some node) :
    ∃ fields, loads data = some (.obj fields) ∧
      Assoc.get? "content_hash".toList fields = some (.str node.contentHash) ∧
      Assoc.get? "owner_id".toList fields = some (.str node.ownerId) := by
  obtain ⟨v, hloads, h⟩ := Option.bind_eq_some_iff.mp h
  obtain ⟨d, hdict, h⟩ := Option.bind_eq_some_iff.mp h
  have hnode : CoCNode.fromDict d = .ok node := by
    cases hfrom : CoCNode.fromDict d with
    | error e => rw [hfrom] at h; cases h
    | ok node' => rw [hfrom] at h; exact congrArg Except.ok (Option.some.inj h)
  obtain ⟨hcontent, howner⟩ := ids_fromDict hnode
  cases v with
  | obj fields =>
    refine ⟨fields, hloads, ?_⟩
    -- the fields are read one after the other; those of interest are the third and the fifth
    simp only [NodeDict.ofJson, Option.bind_eq_bind, Option.bind_eq_some_iff] at hdict
    obtain ⟨_, -, _, -, contentHash, hreadContent, _, -, ownerId, hreadOwner, _, -, _, -, _, -, _, -,
      _, -, hdict⟩ := hdict
    rw [hcontent, howner, ← Option.some.inj hdict]
    exact ⟨readStr_eq_some hreadContent, readStr_eq_some hreadOwner⟩
  | _ => cases hdict

namespace OldNode

/-- The row with the new columns. -/
def newRow (old : OldNode) : SqlRow :=
  (old.row.set "content_hash" old.node.contentHash).set "owner_id" old.node.ownerId

variable (old : OldNode)

theorem nodeHash_row : old.row.get? "node_hash".toList = some old.nodeHash := rfl

theorem data_row : old.row.get? "data".toList = some old.data := rfl

theorem nodeHash_newRow : old.newRow.get? "node_hash".toList = some old.nodeHash := rfl

theorem data_newRow : old.newRow.get? "data".toList = some old.data := rfl

theorem contentHash_newRow : old.newRow.get? "content_hash".toList = some old.node.contentHash := rfl

theorem ownerId_newRow : old.newRow.get? "owner_id".toList = some old.node.ownerId := rfl

theorem columnsOf_row :
    columnsOf old.row = .ok (some old.node.contentHash, some old.node.ownerId) := by
  obtain ⟨fields, hloads, hcontent, howner⟩ := fields_of_readNode old.reads
  rw [columnsOf, data_row]
  dsimp only
  rw [hloads]
  dsimp only
  rw [hcontent, howner]
  rfl

end OldNode

/-- The columns of `nodes` after the migration. -/
def newColumns : List Str := oldColumns ++ ["content_hash".toList] ++ ["owner_id".toList]

variable {db : Database}

/-- **The loop fills the new columns.**  The rows of `done` have theirs already. -/
theorem backfill_ok (done todo : List OldNode)
    (hunique : ((done ++ todo).map OldNode.nodeHash).Nodup) (hnodes : db.tables.get? "nodes".toList
      = some ⟨newColumns, done.map OldNode.newRow ++ todo.map OldNode.row⟩) :
    ∃ db', backfill (todo.map OldNode.row) db = .ok db' ∧ db'.indexes = db.indexes ∧
      db'.tables.get? "nodes".toList = some ⟨newColumns, (done ++ todo).map OldNode.newRow⟩ ∧
      ∀ other, "nodes".toList ≠ other → db'.tables.get? other = db.tables.get? other := by
  induction todo generalizing done db with
  | nil =>
    refine ⟨db, rfl, rfl, ?_, fun _ _ => rfl⟩
    simpa using hnodes
  | cons old todo ih =>
    -- no other row has the hash of this one, so the update changes it alone
    have hother : ∀ other ∈ done ++ todo, other.nodeHash ≠ old.nodeHash := by
      intro other hmem hsame
      rw [map_append, map_cons] at hunique
      have hnotMem := (nodup_middle.mp hunique).notMem
      rw [← map_append] at hnotMem
      exact hnotMem (hsame ▸ mem_map_of_mem hmem)
    have hrows : ((done.map OldNode.newRow ++ (old :: todo).map OldNode.row).map fun row =>
        if (row.get? "node_hash").isSome ∧ row.get? "node_hash" = old.row.get? "node_hash" then
          Database.assign [("content_hash", some old.node.contentHash),
            ("owner_id", some old.node.ownerId)] row
        else row)
        = (done ++ [old]).map OldNode.newRow ++ todo.map OldNode.row := by
      rw [map_append, map_cons, map_cons, map_map, map_map, map_append, append_assoc]
      congr 1
      · refine map_congr_left fun other hmem => ?_
        rw [Function.comp_apply, OldNode.nodeHash_newRow, OldNode.nodeHash_row]
        exact if_neg fun hsame => hother other (mem_append_left _ hmem) (Option.some.inj hsame.2)
      · congr 1
        · rw [OldNode.nodeHash_row, if_pos ⟨rfl, rfl⟩]
          rfl
        · refine map_congr_left fun other hmem => ?_
          rw [Function.comp_apply, OldNode.nodeHash_row, OldNode.nodeHash_row]
          exact if_neg fun hsame =>
            hother other (mem_append_right _ hmem) (Option.some.inj hsame.2)
    rw [map_cons, backfill, OldNode.columnsOf_row, ok_bind]
    dsimp only
    have hvalues : ∀ entry ∈ [("content_hash".toList, some old.node.contentHash),
        ("owner_id", some old.node.ownerId)], entry.1 ∈ newColumns := by
      intro entry hentry
      rcases mem_pair.mp hentry with rfl | rfl
      · exact (show "content_hash".toList ∈ newColumns by decide)
      · exact (show "owner_id".toList ∈ newColumns by decide)
    rw [update_ok hnodes (show _ ∈ newColumns by decide) hvalues, hrows, execute_ok, ok_bind]
    obtain ⟨db', hfill, hindexes, htable, hothers⟩ := ih (done ++ [old])
      (by rwa [append_assoc] ) Database.get?_setTable_self
    refine ⟨db', hfill, hindexes, ?_, fun other hne => ?_⟩
    · rw [htable, append_assoc]
      rfl
    · rw [hothers other hne, Database.get?_setTable_of_ne hne]

/-! ## Opening a database that is complete -/

/-- All tables and indexes of the source are there. -/
structure Complete (db : Database) : Prop where
  schemaMeta : ∃ r, db.tables.get? "schema_meta" = some r ∧ "key".toList ∈ r.columns ∧
    "value".toList ∈ r.columns
  nodes : ∃ r, db.tables.get? "nodes" = some r
  content : ∃ r, db.tables.get? "content" = some r
  tombstones : ∃ r, db.tables.get? "tombstones" = some r
  indexes : ∀ name ∈ indexNames, (db.indexes.get? name).isSome = true
  noTable : ∀ name ∈ indexNames, db.tables.get? name = none

/-- Then there is nothing to create. -/
theorem createTables_of_complete (h : Complete db) : createTables db = .ok db := by
  obtain ⟨_, hmeta, -⟩ := h.schemaMeta
  obtain ⟨_, hnodes⟩ := h.nodes
  obtain ⟨_, hcontent⟩ := h.content
  obtain ⟨_, htombstones⟩ := h.tombstones
  rw [createTables, createTable_present hmeta, execute_ok, ok_bind,
    createTable_present hnodes, execute_ok, ok_bind,
    createIndex_present hnodes (h.noTable _ (by decide)) (h.indexes _ (by decide)),
    execute_ok, ok_bind,
    createIndex_present hnodes (h.noTable _ (by decide)) (h.indexes _ (by decide)),
    execute_ok, ok_bind, createTable_present hcontent, execute_ok, ok_bind,
    createTable_present htombstones, execute_ok, ok_bind,
    createIndex_present htombstones (h.noTable _ (by decide)) (h.indexes _ (by decide)),
    execute_ok]

/-- The version, as far as there is a row for it. -/
theorem currentVersion_eq {r : SqlTable} (hmeta : db.tables.get? "schema_meta" = some r)
    (hkey : "key".toList ∈ r.columns) (hvalue : "value".toList ∈ r.columns) :
    currentVersion db =
      match (r.rows.filter fun row =>
        decide (row.get? "key" = some "version".toList)).head? with
      | none => .ok 1
      | some row =>
        match row.get? "value" with
        | none => .error .type
        | some text =>
          match readInt text with
          | none => .error .value
          | some version => .ok version := by
  rw [currentVersion, select_ok hmeta, execute_ok, ok_bind]
  intro column hcolumn
  rcases mem_pair.mp hcolumn with rfl | rfl
  · exact hvalue
  · exact hkey

/-! ## Creating what is missing -/

namespace VersionOne

variable (v : VersionOne)

/-- The two indexes that `_create_tables` wants on columns that are not there yet. -/
def Indexed : Prop :=
  (v.indexes.get? "idx_nodes_content_hash").isSome = true ∧
    (v.indexes.get? "idx_nodes_owner_id").isSome = true

instance : Decidable v.Indexed := instDecidableAnd

theorem get?_nodes : v.database.tables.get? "nodes" = some ⟨oldColumns, v.olds.map OldNode.row⟩ :=
  Dict.get?_set_self _ _ _

theorem get?_other {name : Str} (h : "nodes" ≠ name) :
    v.database.tables.get? name = v.others.get? name :=
  Dict.get?_set_of_ne _ _ h

/-- The database once there is a table for the version. -/
structure Begun (db : Database) : Prop where
  indexes : db.indexes = v.indexes
  schemaMeta : ∃ r, db.tables.get? "schema_meta" = some r ∧ "key".toList ∈ r.columns ∧
    "value".toList ∈ r.columns ∧ ∀ row ∈ r.rows, row.get? "key" ≠ some "version".toList
  nodes : db.tables.get? "nodes" = some ⟨oldColumns, v.olds.map OldNode.row⟩
  noTable : ∀ name ∈ indexNames, db.tables.get? name = none
  others : ∀ name, "schema_meta".toList ≠ name → "nodes" ≠ name →
    db.tables.get? name = v.others.get? name

theorem exists_begun : ∃ db,
    v.database.createTable "schema_meta" ["key", "value"] = .ok db ∧ v.Begun db := by
  have hfree : v.database.indexes.get? "schema_meta" = none := v.noIndex _ (by decide)
  obtain ⟨db, hcreate, hindexes, hmeta, hothers⟩ :=
    createTable_ok hfree ["key", "value"]
  refine ⟨db, hcreate, hindexes, ⟨_, hmeta, ?_⟩, ?_, ?_, ?_⟩
  · rw [v.get?_other (by decide)]
    cases hold : v.others.get? "schema_meta".toList with
    | some r => exact v.schemaMeta r hold
    | none =>
      refine ⟨mem_cons_self, mem_cons_of_mem _ mem_cons_self, fun row hrow => ?_⟩
      cases hrow
  · rw [hothers _ (by decide)]
    exact v.get?_nodes
  · intro name hname
    rw [hothers name (ne_of_mem_of_not_mem hname (by decide)).symm,
      v.get?_other (ne_of_mem_of_not_mem hname (by decide)).symm, v.noTable name hname]
  · intro name hne hne'
    rw [hothers name hne, v.get?_other hne']

/-- **Without the two indexes the database cannot be opened.** -/
theorem createTables_error (h : ¬ v.Indexed) :
    ∃ column, createTables v.database = .error (.operational (.noSuchColumn column)) := by
  obtain ⟨db, hcreate, hbegun⟩ := v.exists_begun
  rw [createTables, hcreate, execute_ok, ok_bind, createTable_present hbegun.nodes,
    execute_ok, ok_bind]
  cases hfirst : v.indexes.get? "idx_nodes_content_hash" with
  | none =>
    rw [createIndex_missing hbegun.nodes (hbegun.noTable _ (by decide))
      (by rw [hbegun.indexes, hfirst]) (show _ ∉ oldColumns by decide)]
    exact ⟨_, rfl⟩
  | some index =>
    have hpresent : (db.indexes.get? "idx_nodes_content_hash").isSome = true := by
      rw [hbegun.indexes, hfirst]
      rfl
    have hsecond : v.indexes.get? "idx_nodes_owner_id" = none := by
      rw [← Option.not_isSome_iff_eq_none]
      intro hsecond
      exact h ⟨by rw [hfirst]; rfl, hsecond⟩
    rw [createIndex_present hbegun.nodes (hbegun.noTable _ (by decide)) hpresent,
      execute_ok, ok_bind,
      createIndex_missing hbegun.nodes (hbegun.noTable _ (by decide))
        (by rw [hbegun.indexes, hsecond]) (show _ ∉ oldColumns by decide)]
    exact ⟨_, rfl⟩

/-- With them everything that is missing is created. -/
theorem createTables_ok (h : v.Indexed) : ∃ db, createTables v.database = .ok db ∧ Complete db ∧
    db.tables.get? "nodes" = some ⟨oldColumns, v.olds.map OldNode.row⟩ ∧
    currentVersion db = .ok 1 := by
  obtain ⟨db₁, hcreate, hbegun⟩ := v.exists_begun
  obtain ⟨r, hmeta, hkey, hvalue, hversion⟩ := hbegun.schemaMeta
  have hindexes₁ := hbegun.indexes
  obtain ⟨db₂, hcontent, hindexes₂, htable₂, hothers₂⟩ := createTable_ok
    (show db₁.indexes.get? "content" = none by rw [hindexes₁]; exact v.noIndex _ (by decide))
    ["content_hash", "content", "created_at".toList]
  obtain ⟨db₃, htombstones, hindexes₃, htable₃, hothers₃⟩ := createTable_ok
    (show db₂.indexes.get? "tombstones" = none by
      rw [hindexes₂, hindexes₁]; exact v.noIndex _ (by decide))
    ["content_hash", "data", "delete_after"]
  have hkept : ∀ name, "content".toList ≠ name → "tombstones" ≠ name →
      db₃.tables.get? name = db₁.tables.get? name := by
    intro name hne hne'
    rw [hothers₃ name hne', hothers₂ name hne]
  have hnoTable : ∀ name ∈ indexNames, db₃.tables.get? name = none := by
    intro name hname
    rw [hkept name (ne_of_mem_of_not_mem hname (by decide)).symm
      (ne_of_mem_of_not_mem hname (by decide)).symm, hbegun.noTable name hname]
  have hcolumn : "delete_after".toList ∈ ((db₂.tables.get? "tombstones").getD
      ⟨["content_hash", "data", "delete_after"], []⟩).columns := by
    rw [hothers₂ _ (by decide), hbegun.others _ (by decide) (by decide)]
    cases hold : v.others.get? "tombstones" with
    | some r => exact v.tombstones r hold
    | none => exact mem_of_getElem? (i := 2) rfl
  obtain ⟨db₄, hindex, htables₄, hnew, hindexes₄⟩ := createIndex_ok htable₃
    (hnoTable "idx_tombstones_delete_after" (by decide)) hcolumn
  have hmeta₄ : db₄.tables.get? "schema_meta" = some r := by
    rw [htables₄, hkept _ (by decide) (by decide), hmeta]
  have hnodes₄ : db₄.tables.get? "nodes" = some ⟨oldColumns, v.olds.map OldNode.row⟩ := by
    rw [htables₄, hkept _ (by decide) (by decide), hbegun.nodes]
  refine ⟨db₄, ?_, ⟨⟨r, hmeta₄, hkey, hvalue⟩, ⟨_, hnodes₄⟩, ?_, ?_, ?_, ?_⟩, hnodes₄, ?_⟩
  · rw [createTables, hcreate, execute_ok, ok_bind, createTable_present hbegun.nodes,
      execute_ok, ok_bind, createIndex_present hbegun.nodes (hbegun.noTable _ (by decide))
        (by rw [hindexes₁]; exact h.1), execute_ok, ok_bind,
      createIndex_present hbegun.nodes (hbegun.noTable _ (by decide))
        (by rw [hindexes₁]; exact h.2), execute_ok, ok_bind,
      hcontent, execute_ok, ok_bind, htombstones, execute_ok, ok_bind, hindex, execute_ok]
  · exact ⟨_, by rw [htables₄, hothers₃ _ (by decide), htable₂]⟩
  · exact ⟨_, by rw [htables₄, htable₃]⟩
  · intro name hname
    rcases mem_cons.mp hname with rfl | hname
    · rw [hindexes₄ _ (by decide), hindexes₃, hindexes₂, hindexes₁]
      exact h.1
    rcases mem_pair.mp hname with rfl | rfl
    · rw [hindexes₄ _ (by decide), hindexes₃, hindexes₂, hindexes₁]
      exact h.2
    · exact hnew
  · intro name hname
    rw [htables₄]
    exact hnoTable name hname
  · have hnone : (r.rows.filter fun row =>
        decide (row.get? "key" = some "version".toList)) = [] := by
      apply filter_eq_nil_iff.mpr
      intro row hrow hsame
      exact hversion row hrow (of_decide_eq_true hsame)
    rw [currentVersion_eq hmeta₄ hkey hvalue, hnone]
    rfl

end VersionOne

/-! ## The migration -/

/-- What the migration leaves of a complete database. -/
theorem Complete.keep {db' : Database} (h : Complete db) (hindexes : db'.indexes = db.indexes)
    {r : SqlTable} (hnodes : db'.tables.get? "nodes" = some r)
    (hothers : ∀ other, "nodes".toList ≠ other → db'.tables.get? other = db.tables.get? other) :
    Complete db' where
  schemaMeta := by
    rw [hothers _ (by decide)]
    exact h.schemaMeta
  nodes := ⟨r, hnodes⟩
  content := by
    rw [hothers _ (by decide)]
    exact h.content
  tombstones := by
    rw [hothers _ (by decide)]
    exact h.tombstones
  indexes := by
    rw [hindexes]
    exact h.indexes
  noTable name hname := by
    rw [hothers name (ne_of_mem_of_not_mem hname (by decide)).symm, h.noTable name hname]

section

variable (hcomplete : Complete db) {olds : List OldNode}
  (hunique : (olds.map OldNode.nodeHash).Nodup)
  (hnodes : db.tables.get? "nodes" = some ⟨oldColumns, olds.map OldNode.row⟩)
include hcomplete hunique hnodes

/-- The new columns are added and filled. -/
theorem addNodeColumns_ok :
    ∃ db', addNodeColumns db = .ok db' ∧ Complete db' ∧
      db'.tables.get? "nodes".toList = some ⟨newColumns, olds.map OldNode.newRow⟩ ∧
      ∀ other, "nodes".toList ≠ other → db'.tables.get? other = db.tables.get? other := by
  have hfirst : db.addColumn "nodes".toList "content_hash"
      = .ok (db.setTable "nodes" ⟨oldColumns ++ ["content_hash".toList], olds.map OldNode.row⟩) :=
    addColumn_ok hnodes (show _ ∉ oldColumns by decide)
  obtain ⟨db₁, hdb₁⟩ : ∃ db₁, db.setTable "nodes"
      ⟨oldColumns ++ ["content_hash".toList], olds.map OldNode.row⟩ = db₁ := ⟨_, rfl⟩
  have hnodes₁ : db₁.tables.get? "nodes"
      = some ⟨oldColumns ++ ["content_hash".toList], olds.map OldNode.row⟩ := by
    rw [← hdb₁]
    exact Database.get?_setTable_self
  have hsecond : db₁.addColumn "nodes" "owner_id"
      = .ok (db₁.setTable "nodes" ⟨newColumns, olds.map OldNode.row⟩) :=
    addColumn_ok hnodes₁ (show _ ∉ oldColumns ++ ["content_hash".toList] by decide)
  obtain ⟨db₂, hdb₂⟩ : ∃ db₂,
      db₁.setTable "nodes" ⟨newColumns, olds.map OldNode.row⟩ = db₂ := ⟨_, rfl⟩
  have hnodes₂ : db₂.tables.get? "nodes" = some ⟨newColumns, olds.map OldNode.row⟩ := by
    rw [← hdb₂]
    exact Database.get?_setTable_self
  have hselect : db₂.select "nodes" ["node_hash", "data"] (fun _ => true)
      = .ok (olds.map OldNode.row) := by
    rw [select_ok hnodes₂ (show ∀ column ∈ _, column ∈ newColumns by decide), filter_true]
  obtain ⟨db₃, hfill, hindexes₃, hnodes₃, hothers₃⟩ := backfill_ok [] olds hunique hnodes₂
  have hindexes : db₃.indexes = db.indexes := by
    rw [hindexes₃, ← hdb₂, ← hdb₁]
    rfl
  have hothers : ∀ other, "nodes".toList ≠ other →
      db₃.tables.get? other = db.tables.get? other := by
    intro other hne
    rw [hothers₃ other hne, ← hdb₂, Database.get?_setTable_of_ne hne, ← hdb₁,
      Database.get?_setTable_of_ne hne]
  have hcomplete₃ := hcomplete.keep hindexes hnodes₃ hothers
  refine ⟨db₃, ?_, hcomplete₃, hnodes₃, hothers⟩
  rw [addNodeColumns, hfirst, hdb₁, execute_ok, ok_bind, hsecond, hdb₂, execute_ok, ok_bind, hselect,
    execute_ok, ok_bind, hfill, ok_bind,
    createIndex_present hnodes₃ (hcomplete₃.noTable _ (by decide))
      (hcomplete₃.indexes _ (by decide)), execute_ok, ok_bind,
    createIndex_present hnodes₃ (hcomplete₃.noTable _ (by decide))
      (hcomplete₃.indexes _ (by decide)), execute_ok]

/-- **The migration** of a complete database with old nodes. -/
theorem migrateSchema_ok (hversion : currentVersion db = .ok 1) :
    ∃ db', migrateSchema db = .ok db' ∧ Complete db' ∧ currentVersion db' = .ok 2 ∧
      db'.tables.get? "nodes".toList = some ⟨newColumns, olds.map OldNode.newRow⟩ := by
  obtain ⟨db₁, hadd, hcomplete₁, hnodes₁, -⟩ := addNodeColumns_ok hcomplete hunique hnodes
  obtain ⟨r, hmeta, hkey, hvalue⟩ := hcomplete₁.schemaMeta
  have hcolumns : ∀ column ∈ versionRow.keys, column ∈ r.columns := by
    intro column hcolumn
    rcases mem_pair.mp hcolumn with rfl | rfl
    · exact hkey
    · exact hvalue
  have hinsert := insertOrReplace_ok hmeta hcolumns "key".toList
  obtain ⟨rows, hrows⟩ : ∃ rows, (r.rows.filter fun other =>
      decide (other.get? "key" ≠ versionRow.get? "key")) = rows := ⟨_, rfl⟩
  rw [hrows] at hinsert
  have hkept : ∀ other, "schema_meta".toList ≠ other →
      (db₁.setTable "schema_meta" ⟨r.columns, rows ++ [versionRow]⟩).tables.get? other
        = db₁.tables.get? other := fun other hne => Database.get?_setTable_of_ne hne
  refine ⟨db₁.setTable "schema_meta" ⟨r.columns, rows ++ [versionRow]⟩, ?_, ?_, ?_, ?_⟩
  · have hinfo : "content_hash".toList ∉ db.tableInfo "nodes" := by
      rw [tableInfo_eq hnodes]
      exact (show _ ∉ oldColumns by decide)
    rw [migrateSchema, hversion, ok_bind, if_pos (by decide), if_pos hinfo, hadd, ok_bind]
    exact congrArg execute hinsert
  · refine ⟨⟨_, Database.get?_setTable_self, hkey, hvalue⟩, ?_, ?_, ?_, hcomplete₁.indexes, ?_⟩
    · rw [hkept _ (by decide)]
      exact hcomplete₁.nodes
    · rw [hkept _ (by decide)]
      exact hcomplete₁.content
    · rw [hkept _ (by decide)]
      exact hcomplete₁.tombstones
    · intro name hname
      rw [hkept name (ne_of_mem_of_not_mem hname (by decide)).symm, hcomplete₁.noTable name hname]
  · -- the old rows have other keys, so the new one is found
    have hold : (rows.filter fun row =>
        decide (row.get? "key" = some "version".toList)) = [] := by
      apply filter_eq_nil_iff.mpr
      intro row hrow hsame
      rw [← hrows] at hrow
      exact of_decide_eq_true (mem_filter.mp hrow).2 (of_decide_eq_true hsame)
    have hmeta' : (db₁.setTable "schema_meta" ⟨r.columns, rows ++ [versionRow]⟩).tables.get?
        "schema_meta" = some ⟨r.columns, rows ++ [versionRow]⟩ := Database.get?_setTable_self
    rw [currentVersion_eq hmeta' hkey hvalue, filter_append, hold]
    rfl
  · rw [hkept _ (by decide), hnodes₁]

end

/-- A database of the current version is opened as it is. -/
theorem openStorage_of_current (hcomplete : Complete db) (hversion : currentVersion db = .ok 2) :
    openStorage db = .ok db := by
  rw [openStorage, createTables_of_complete hcomplete, ok_bind, migrateSchema, hversion, ok_bind,
    if_neg (by decide)]

/-! ## The queries -/

section

variable {db : Database} {olds : List OldNode}

theorem readRows_newRow (olds : List OldNode) :
    readRows (olds.map OldNode.newRow) = .ok (olds.map OldNode.node) := by
  rw [readRows]
  induction olds with
  | nil => rfl
  | cons old olds ih =>
    rw [map_cons, mapM_cons, ih, OldNode.data_newRow, Option.bind_some, old.reads]
    rfl

variable (hnodes : db.tables.get? "nodes" = some ⟨newColumns, olds.map OldNode.newRow⟩)
include hnodes

/-- A query of rows by a column. -/
theorem select_newRow {named : List Str} (hnamed : ∀ column ∈ named, column ∈ newColumns)
    {p : SqlRow → Bool} {q : OldNode → Bool} (hpq : ∀ old, p old.newRow = q old) :
    db.select "nodes" named p = .ok ((olds.filter q).map OldNode.newRow) := by
  rw [select_ok hnodes hnamed, filter_map]
  refine congrArg (fun rows => Except.ok (rows.map OldNode.newRow)) (filter_congr fun old _ => ?_)
  exact hpq old

theorem nodesBy_newRow {column : Str} (hcolumn : column ∈ newColumns) {value : Str}
    {q : OldNode → Bool} (hq : ∀ old, decide (old.newRow.get? column = some value) = q old) :
    nodesBy column value db = .ok ((olds.filter q).map OldNode.node) := by
  have hnamed : ∀ name ∈ ["data".toList, column], name ∈ newColumns := by
    intro name hname
    rcases mem_pair.mp hname with rfl | rfl
    · decide
    · exact hcolumn
  rw [nodesBy, select_newRow hnodes hnamed hq, execute_ok, ok_bind, readRows_newRow]

theorem getNode_newRow (nodeHash : Str) : getNode nodeHash db
    = .ok ((olds.find? fun old => decide (old.nodeHash = nodeHash)).map OldNode.node) := by
  have hq : ∀ old : OldNode, decide (old.newRow.get? "node_hash".toList = some nodeHash)
      = decide (old.nodeHash = nodeHash) := by
    intro old
    rw [OldNode.nodeHash_newRow]
    simp
  rw [getNode, select_newRow hnodes (by decide) hq, execute_ok, ok_bind, ← map_take,
    readRows_newRow, ok_bind, List.head?_map, List.head?_take, if_neg (by decide),
    List.head?_filter]

theorem isContentReferenced_newRow (contentHash : Str) : isContentReferenced contentHash db
    = .ok (olds.any fun old => decide (old.node.contentHash = contentHash)) := by
  have hq : ∀ old : OldNode, decide (old.newRow.get? "content_hash".toList = some contentHash)
      = decide (old.node.contentHash = contentHash) := by
    intro old
    rw [OldNode.contentHash_newRow]
    simp
  rw [isContentReferenced, select_newRow hnodes (by decide) hq, execute_ok, ok_bind, List.head?_map,
    List.head?_filter, Option.isSome_map, isSome_find?]

end

/-! ## Old databases -/

/-- **The migration is right exactly if it is reached**: if there are indexes of both names,
so that `_create_tables` leaves the missing columns alone. -/
theorem migrated_iff (v : VersionOne) : Migrated v ↔ v.Indexed := by
  constructor
  · rintro ⟨db, hopen, -⟩
    by_contra hnot
    obtain ⟨column, herror⟩ := v.createTables_error hnot
    rw [openStorage, herror] at hopen
    cases hopen
  · intro h
    obtain ⟨db₁, hcreate, hcomplete₁, hnodes₁, hversion₁⟩ := v.createTables_ok h
    obtain ⟨db, hmigrate, hcomplete, hversion, hnodes⟩ :=
      migrateSchema_ok hcomplete₁ v.unique hnodes₁ hversion₁
    refine ⟨db, by rw [openStorage, hcreate, ok_bind, hmigrate], getNode_newRow hnodes,
      isContentReferenced_newRow hnodes, fun contentHash => ?_, fun ownerId => ?_,
      openStorage_of_current hcomplete hversion⟩
    · refine nodesBy_newRow hnodes (by decide) fun old => ?_
      rw [OldNode.contentHash_newRow]
      simp
    · refine nodesBy_newRow hnodes (by decide) fun old => ?_
      rw [OldNode.ownerId_newRow]
      simp

/-- A node of the first version. -/
def oldMinutes : OldNode where
  nodeHash := "n1"
  data := dumps false (.obj [("node_hash", .str "n1"),
    ("content_hash", .str "c1"), ("parent_hash", .null),
    ("owner_id", .str "alice"), ("recipient_ids", .arr [.str "bob"]),
    ("timestamp", .str "2024-01-01T00:00:00+00:00"), ("depth", .int 0)])
  createdAt := "2024-01-01T00:00:00+00:00"
  node := ⟨1, "n1", "c1", none, "alice", ["bob"],
    "2024-01-01T00:00:00+00:00", ∅, 0, none, List.pairwise_singleton _ _⟩
  reads := by decide +kernel

/-- A database with one node, as the first version leaves it. -/
def oldDatabase : VersionOne where
  olds := [oldMinutes]
  unique := List.nodup_singleton _
  others := Dict.empty
  indexes := Dict.empty
  schemaMeta _ h := by cases h
  tombstones _ h := by cases h
  noTable _ _ := rfl
  noIndex _ _ := rfl

/-- **A database of the first version cannot be opened.** -/
theorem old_database_refused :
    openStorage oldDatabase.database = .error (.operational (.noSuchColumn "content_hash")) := by
  decide

end TrustFlow.Custody
