import TrustFlow.Library.Dict
import TrustFlow.Library.Outcome
import TrustFlow.Library.Text

/-!
# A database whose schema changes

Tables with named columns, indexes with names of their own, and the statements that create
and change them.

* `Database` — the tables and the indexes by name.  A row has the columns that are not NULL.
* `createTable`, `createIndex` — with `IF NOT EXISTS`: what has the name is left alone, and a
  name is not both a table and an index.
* `addColumn`, `update`, `insertOrReplace`, `select`, `tableInfo` — on one table.

Each statement has a lemma for the case in which it succeeds.  All changes of a table are
`setTable`, so what is true of the other tables follows from `get?_setTable_of_ne` alone.
-/

namespace TrustFlow.Library

/-- A row: the columns that are not NULL. -/
abbrev SqlRow := Dict Str Str

/-- A table. -/
structure SqlTable where
  columns : List Str
  rows : List SqlRow
  deriving DecidableEq

/-- A database; an index has a table and a column. -/
structure Database where
  tables : Dict Str SqlTable
  indexes : Dict Str (Str × Str)
  deriving DecidableEq

/-- Why a statement fails. -/
inductive SqlError where
  | noSuchTable (name : Str)
  | noSuchColumn (name : Str)
  | nameTaken (name : Str)
  | duplicateColumn (name : Str)
  deriving DecidableEq

namespace Database

/-- The database with another content of a table. -/
def setTable (db : Database) (name : Str) (r : SqlTable) : Database :=
  { db with tables := db.tables.set name r }

/-- `CREATE TABLE IF NOT EXISTS`. -/
def createTable (name : Str) (columns : List Str) (db : Database) : Except SqlError Database :=
  if (db.tables.get? name).isSome then .ok db
  else if (db.indexes.get? name).isSome then .error (.nameTaken name)
  else .ok (db.setTable name ⟨columns, []⟩)

/-- The table, for a statement that names some of its columns. -/
def table (name : Str) (named : List Str) (db : Database) : Except SqlError SqlTable :=
  match db.tables.get? name with
  | none => .error (.noSuchTable name)
  | some r =>
    match named.find? fun column => decide (column ∉ r.columns) with
    | some column => .error (.noSuchColumn column)
    | none => .ok r

/-- `CREATE INDEX IF NOT EXISTS`. -/
def createIndex (name tableName column : Str) (db : Database) : Except SqlError Database := do
  let _ ← db.table tableName []
  if (db.tables.get? name).isSome then .error (.nameTaken name)
  else if (db.indexes.get? name).isSome then .ok db
  else do
    let _ ← db.table tableName [column]
    .ok { db with indexes := db.indexes.set name (tableName, column) }

/-- `ALTER TABLE ... ADD COLUMN`. -/
def addColumn (tableName column : Str) (db : Database) : Except SqlError Database := do
  let r ← db.table tableName []
  if column ∈ r.columns then .error (.duplicateColumn column)
  else .ok (db.setTable tableName ⟨r.columns ++ [column], r.rows⟩)

/-- `PRAGMA table_info`: the columns, none for a table that is not there. -/
def tableInfo (tableName : Str) (db : Database) : List Str :=
  ((db.tables.get? tableName).map SqlTable.columns).getD []

/-- `SELECT ... FROM ... WHERE ...`, with the columns that it names. -/
def select (tableName : Str) (named : List Str) (p : SqlRow → Bool) (db : Database) :
    Except SqlError (List SqlRow) := do
  let r ← db.table tableName named
  .ok (r.rows.filter p)

/-- The row with other values in some columns. -/
def assign (values : List (Str × Option Str)) (row : SqlRow) : SqlRow :=
  values.foldl (fun row entry =>
    match entry.2 with
    | some value => row.set entry.1 value
    | none => row.erase entry.1) row

/-- `UPDATE ... SET ... WHERE key = ?`; no key equals NULL. -/
def update (tableName key : Str) (k : Option Str) (values : List (Str × Option Str))
    (db : Database) : Except SqlError Database := do
  let r ← db.table tableName (key :: values.map Prod.fst)
  .ok (db.setTable tableName ⟨r.columns, r.rows.map fun row =>
    if (row.get? key).isSome ∧ row.get? key = k then assign values row else row⟩)

/-- `INSERT OR REPLACE INTO`, by the primary key. -/
def insertOrReplace (tableName key : Str) (row : SqlRow) (db : Database) :
    Except SqlError Database := do
  let r ← db.table tableName row.keys
  .ok (db.setTable tableName ⟨r.columns,
    (r.rows.filter fun other => decide (other.get? key ≠ row.get? key)) ++ [row]⟩)

/-! ## What the statements do -/

section

variable {db : Database} {name tableName column : Str} {r : SqlTable}

@[simp] theorem get?_setTable_self : (db.setTable name r).tables.get? name = some r :=
  Dict.get?_set_self _ _ _

theorem get?_setTable_of_ne {other : Str} (h : name ≠ other) :
    (db.setTable name r).tables.get? other = db.tables.get? other :=
  Dict.get?_set_of_ne _ _ h

section

variable (h : db.tables.get? name = some r)
include h

theorem table_ok {named : List Str}
    (hnamed : ∀ column ∈ named, column ∈ r.columns) : db.table name named = .ok r := by
  have hnone : named.find? (fun column => decide (column ∉ r.columns)) = none := by
    simpa using hnamed
  rw [table, h]
  dsimp only
  rw [hnone]

theorem table_missing (hcolumn : column ∉ r.columns) :
    db.table name [column] = .error (.noSuchColumn column) := by
  simp [table, h, hcolumn]

theorem createTable_present (columns : List Str) :
    createTable name columns db = .ok db := by
  simp [createTable, h]

end

/-- A table is created if it is not there, and left alone otherwise. -/
theorem createTable_ok (hname : db.indexes.get? name = none) (columns : List Str) :
    ∃ db', createTable name columns db = .ok db' ∧ db'.indexes = db.indexes ∧
      db'.tables.get? name = some ((db.tables.get? name).getD ⟨columns, []⟩) ∧
      ∀ other, name ≠ other → db'.tables.get? other = db.tables.get? other := by
  cases h : db.tables.get? name with
  | some r => exact ⟨db, createTable_present h columns, rfl, h, fun _ _ => rfl⟩
  | none =>
    refine ⟨db.setTable name ⟨columns, []⟩, ?_, rfl, get?_setTable_self, fun other hne => ?_⟩
    · simp [createTable, h, hname]
    · exact get?_setTable_of_ne hne

variable (htable : db.tables.get? tableName = some r)
include htable

section

variable (hname : db.tables.get? name = none)
include hname

theorem createIndex_present
    (hindex : (db.indexes.get? name).isSome = true) (column : Str) :
    createIndex name tableName column db = .ok db := by
  rw [createIndex, table_ok htable (by simp)]
  simp [hname, hindex]

/-- **An index on a missing column is an error**, unless there is one of the name. -/
theorem createIndex_missing
    (hindex : db.indexes.get? name = none) (hcolumn : column ∉ r.columns) :
    createIndex name tableName column db = .error (.noSuchColumn column) := by
  rw [createIndex, table_ok htable (by simp), table_missing htable hcolumn]
  simp [hname, hindex]

theorem createIndex_ok (hcolumn : column ∈ r.columns) :
    ∃ db', createIndex name tableName column db = .ok db' ∧ db'.tables = db.tables ∧
      (db'.indexes.get? name).isSome = true ∧
      ∀ other, name ≠ other → db'.indexes.get? other = db.indexes.get? other := by
  cases hindex : db.indexes.get? name with
  | some index =>
    refine ⟨db, ?_, rfl, by simp [hindex], fun _ _ => rfl⟩
    exact createIndex_present htable hname (by simp [hindex]) column
  | none =>
    refine ⟨{ db with indexes := db.indexes.set name (tableName, column) }, ?_, rfl, by simp,
      fun other hne => Dict.get?_set_of_ne _ _ hne⟩
    rw [createIndex, table_ok htable (by simp), table_ok htable (by simpa using hcolumn)]
    simp [hname, hindex]

end

theorem addColumn_ok (hcolumn : column ∉ r.columns) :
    addColumn tableName column db = .ok (db.setTable tableName ⟨r.columns ++ [column], r.rows⟩) := by
  rw [addColumn, table_ok htable (by simp)]
  simp [hcolumn]

theorem tableInfo_eq : tableInfo tableName db = r.columns := by
  simp [tableInfo, htable]

theorem select_ok {named : List Str}
    (hnamed : ∀ column ∈ named, column ∈ r.columns) (p : SqlRow → Bool) :
    select tableName named p db = .ok (r.rows.filter p) := by
  rw [select, table_ok htable hnamed, ok_bind]

theorem update_ok {key : Str} {values : List (Str × Option Str)} (hkey : key ∈ r.columns)
    (hvalues : ∀ entry ∈ values, entry.1 ∈ r.columns) (k : Option Str) :
    update tableName key k values db = .ok (db.setTable tableName ⟨r.columns, r.rows.map fun row =>
      if (row.get? key).isSome ∧ row.get? key = k then assign values row else row⟩) := by
  have hnamed : ∀ column ∈ key :: values.map Prod.fst, column ∈ r.columns := by
    intro column hcolumn
    rcases List.mem_cons.mp hcolumn with rfl | hcolumn
    · exact hkey
    · obtain ⟨entry, hentry, rfl⟩ := List.mem_map.mp hcolumn
      exact hvalues entry hentry
  rw [update, table_ok htable hnamed, ok_bind]

theorem insertOrReplace_ok {row : SqlRow}
    (hrow : ∀ column ∈ row.keys, column ∈ r.columns) (key : Str) :
    insertOrReplace tableName key row db = .ok (db.setTable tableName ⟨r.columns,
      (r.rows.filter fun other => decide (other.get? key ≠ row.get? key)) ++ [row]⟩) := by
  rw [insertOrReplace, table_ok htable hrow, ok_bind]

end

end Database

end TrustFlow.Library
