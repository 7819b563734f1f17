import StrataDb.Tables

/-!
# The system catalog's relations (`crates/strata-db/src/catalog/system.rs`)

A scan of one lists the catalog's metadata and turns every entry into a row, which always has the
shape its relation's schema announces (`typed_rows`).
-/

namespace StrataDb.Sql

open ByteCodec
open Runs (bind_eq_ok)

/-! ### Metadata -/

structure ProjectMeta where
  id : ProjectId
  name : String
deriving DecidableEq

structure DatasetMeta where
  id : DatasetId
  name : String
deriving DecidableEq

structure Index where
  name : String
  columns : List Nat
deriving DecidableEq

structure TableMeta where
  id : TableId
  truncationId : TruncationId
  name : String
  indexes : List Index
deriving DecidableEq

structure ColumnMeta where
  tableId : TableId
  position : UInt32
  name : String
  ty : LogicalType
  nullable : Bool
  default : Option String
deriving DecidableEq

structure ColumnStats where
  schemaname : String
  tablename : String
  attname : String
  nullFrac : UInt32
  avgWidth : Int32
  nDistinct : UInt32
  mostCommonVals : String
  mostCommonFreqs : String
  histogramBounds : String
  correlation : UInt32
deriving DecidableEq

structure CatalogReader where
  listProjects : Outcome (List ProjectMeta)
  listDatasets : ProjectId → Outcome (List DatasetMeta)
  listTables : ProjectId → DatasetId → Outcome (List TableMeta)
  listColumns : TableId → Outcome (List ColumnMeta)
  listColumnStats : Outcome (List ColumnStats)

/-! ### Types -/

structure PgType where
  oid : Int64
  name : String
  display : String
  len : Int64
  category : String
  elem : Int64

/-- The array type of an element type; `anyarray` if there is none. -/
def arrayOid (elemOid : Int64) : Int64 :=
  if elemOid = 16 then 1000
  else if elemOid = 17 then 1001
  else if elemOid = 20 then 1016
  else if elemOid = 21 then 1005
  else if elemOid = 23 then 1007
  else if elemOid = 25 then 1009
  else if elemOid = 700 then 1021
  else if elemOid = 701 then 1022
  else if elemOid = 1082 then 1182
  else if elemOid = 1083 then 1183
  else if elemOid = 1184 then 1185
  else if elemOid = 1700 then 1231
  else if elemOid = 2950 then 2951
  else 2277

def pgType : LogicalType → PgType
  | .bool => ⟨16, "bool", "boolean", 1, "B", 0⟩
  | .bytes => ⟨17, "bytea", "bytea", -1, "U", 0⟩
  | .int64 => ⟨20, "int8", "bigint", 8, "N", 0⟩
  | .int16 => ⟨21, "int2", "smallint", 2, "N", 0⟩
  | .int32 => ⟨23, "int4", "integer", 4, "N", 0⟩
  | .text => ⟨25, "text", "text", -1, "S", 0⟩
  | .json => ⟨114, "json", "json", -1, "U", 0⟩
  | .float32 => ⟨700, "float4", "real", 4, "N", 0⟩
  | .float64 => ⟨701, "float8", "double precision", 8, "N", 0⟩
  | .date => ⟨1082, "date", "date", 4, "D", 0⟩
  | .time => ⟨1083, "time", "time without time zone", 8, "D", 0⟩
  | .timestamp => ⟨1184, "timestamptz", "timestamp with time zone", 8, "D", 0⟩
  | .interval => ⟨1186, "interval", "interval", 16, "T", 0⟩
  | .numeric => ⟨1700, "numeric", "numeric", -1, "N", 0⟩
  | .uuid => ⟨2950, "uuid", "uuid", 16, "U", 0⟩
  | .array element =>
    let inner := pgType element
    ⟨arrayOid inner.oid, "array", "ARRAY", -1, "A", inner.oid⟩

def BASE_TYPES : List LogicalType :=
  [.bool, .bytes, .int64, .int16, .int32, .text, .json, .float32, .float64, .date, .time,
    .timestamp, .interval, .numeric, .uuid]

def oidOf (uuid : Uuid) : Int64 := Int64.ofNat (beNat uuid.bytes % 2 ^ 31)

/-! ### Relations -/

inductive SystemRelation where
  | infoSchemata
  | infoTables
  | infoColumns
  | pgDatabase
  | pgNamespace
  | pgClass
  | pgAttribute
  | pgType
  | pgStats
deriving DecidableEq, Repr

def SYSTEM_PROJECT_ID : ProjectId := ⟨⟨List.replicate 6 0xff ++ List.replicate 10 0, rfl⟩⟩

/-- `Field::new`: a nullable column without a default. -/
def Field.new (name : String) (ty : LogicalType) : Field := ⟨name, ty, true, none⟩

namespace SystemRelation

/-- The relation a name stands for.  The names of `information_schema` need their
    dataset, the others stand alone or under `pg_catalog`. -/
def resolve (dataset : Option String) (table : String) : Option SystemRelation :=
  let inInfo := dataset = some "information_schema"
  let pgOk := dataset = none ∨ dataset = some "pg_catalog"
  if table = "schemata" ∧ inInfo then some .infoSchemata
  else if table = "tables" ∧ inInfo then some .infoTables
  else if table = "columns" ∧ inInfo then some .infoColumns
  else if (table = "pg_database" ∨ table = "st_database") ∧ pgOk then some .pgDatabase
  else if (table = "pg_namespace" ∨ table = "st_namespace") ∧ pgOk then some .pgNamespace
  else if (table = "pg_class" ∨ table = "st_class") ∧ pgOk then some .pgClass
  else if (table = "pg_attribute" ∨ table = "st_attribute") ∧ pgOk then some .pgAttribute
  else if (table = "pg_type" ∨ table = "st_type") ∧ pgOk then some .pgType
  else if (table = "pg_stats" ∨ table = "st_stats") ∧ pgOk then some .pgStats
  else none

def shape : SystemRelation → List (String × LogicalType)
  | .infoSchemata => [("catalog_name", .text), ("schema_name", .text), ("schema_owner", .text)]
  | .infoTables =>
    [("table_catalog", .text), ("table_schema", .text), ("table_name", .text),
      ("table_type", .text)]
  | .infoColumns =>
    [("table_catalog", .text), ("table_schema", .text), ("table_name", .text),
      ("column_name", .text), ("ordinal_position", .int32), ("column_default", .text),
      ("is_nullable", .text), ("data_type", .text), ("udt_name", .text)]
  | .pgDatabase => [("oid", .int64), ("datname", .text)]
  | .pgNamespace => [("oid", .int64), ("nspname", .text), ("nspowner", .text)]
  | .pgClass =>
    [("oid", .int64), ("relname", .text), ("relnamespace", .int64), ("relkind", .text),
      ("relnatts", .int32), ("relhasindex", .bool), ("reltuples", .int64)]
  | .pgAttribute =>
    [("attrelid", .int64), ("attname", .text), ("atttypid", .int64), ("attnum", .int32),
      ("attnotnull", .bool), ("atthasdef", .bool), ("attisdropped", .bool)]
  | .pgType =>
    [("oid", .int64), ("typname", .text), ("typlen", .int32), ("typtype", .text),
      ("typcategory", .text), ("typelem", .int64)]
  | .pgStats =>
    [("schemaname", .text), ("tablename", .text), ("attname", .text), ("null_frac", .float32),
      ("avg_width", .int32), ("n_distinct", .float32), ("most_common_vals", .text),
      ("most_common_freqs", .text), ("histogram_bounds", .text), ("correlation", .float32)]

def schema (relation : SystemRelation) : Schema :=
  ⟨relation.shape.map fun column => Field.new column.1 column.2⟩

end SystemRelation

/-! ### Rows -/

def ColumnStats.toRow (stats : ColumnStats) : Tuple :=
  [.text stats.schemaname, .text stats.tablename, .text stats.attname, .float32 stats.nullFrac,
    .int32 stats.avgWidth, .float32 stats.nDistinct, .text stats.mostCommonVals,
    .text stats.mostCommonFreqs, .text stats.histogramBounds, .float32 stats.correlation]

def typeRows : List Tuple :=
  BASE_TYPES.map fun ty =>
    let pg := pgType ty
    [.int64 pg.oid, .text pg.name, .int32 pg.len.toInt32, .text "b", .text pg.category,
      .int64 pg.elem]

def ColumnMeta.ordinal (c : ColumnMeta) : Int32 := (c.position + 1).toInt32

section Enumeration

variable (catalog : CatalogReader)

def userProjects : Outcome (List ProjectMeta) := do
  return (← catalog.listProjects).filter fun p => p.id ≠ SYSTEM_PROJECT_ID

def rowsOf {α : Type} (f : α → Outcome (List Tuple)) : List α → Outcome (List Tuple)
  | [] => .ok []
  | a :: as => do
    let rows ← f a
    return rows ++ (← rowsOf f as)

def namespaces (f : ProjectMeta → DatasetMeta → Outcome (List Tuple)) : Outcome (List Tuple) := do
  rowsOf (fun p => do rowsOf (f p) (← catalog.listDatasets p.id)) (← userProjects catalog)

def tables (f : ProjectMeta → DatasetMeta → TableMeta → Outcome (List Tuple)) :
    Outcome (List Tuple) :=
  namespaces catalog fun p d => do rowsOf (f p d) (← catalog.listTables p.id d.id)

def columns (f : ProjectMeta → DatasetMeta → TableMeta → ColumnMeta → Outcome (List Tuple)) :
    Outcome (List Tuple) :=
  tables catalog fun p d t => do rowsOf (f p d t) (← catalog.listColumns t.id)

end Enumeration

def SystemRelation.rows (catalog : CatalogReader) : SystemRelation → Outcome (List Tuple)
  | .pgType => .ok typeRows
  | .pgStats => do return (← catalog.listColumnStats).map ColumnStats.toRow
  | .infoSchemata => namespaces catalog fun p d =>
    .ok [[.text p.name, .text d.name, .text "strata"]]
  | .pgDatabase => do
    rowsOf (fun p => .ok [[.int64 (oidOf p.id.uuid), .text p.name]]) (← userProjects catalog)
  | .pgNamespace => namespaces catalog fun _ d =>
    .ok [[.int64 (oidOf d.id.uuid), .text d.name, .text "strata"]]
  | .infoTables => tables catalog fun p d t =>
    .ok [[.text p.name, .text d.name, .text t.name, .text "BASE TABLE"]]
  | .pgClass => tables catalog fun _ d t => do
    let natts := (← catalog.listColumns t.id).length
    return [[.int64 (oidOf t.id.uuid), .text t.name, .int64 (oidOf d.id.uuid), .text "r",
      .int32 (Int32.ofNat natts), .bool (!t.indexes.isEmpty), .int64 (-1)]]
  | .infoColumns => columns catalog fun p d t c =>
    .ok [[.text p.name, .text d.name, .text t.name, .text c.name, .int32 c.ordinal, .null,
      .text (if c.nullable then "YES" else "NO"), .text (Sql.pgType c.ty).display,
      .text (Sql.pgType c.ty).name]]
  | .pgAttribute => columns catalog fun _ _ t c =>
    .ok [[.int64 (oidOf t.id.uuid), .text c.name, .int64 (Sql.pgType c.ty).oid, .int32 c.ordinal,
      .bool (!c.nullable), .bool c.default.isSome, .bool false]]

/-! ### The rows have the announced shape -/

/-- A listing that fails, fails with a fault in `E`. -/
structure CatalogReader.Fails (catalog : CatalogReader) (E : Fault → Prop) : Prop where
  projects : ∀ f, catalog.listProjects = .error f → E f
  datasets : ∀ p f, catalog.listDatasets p = .error f → E f
  tables : ∀ p d f, catalog.listTables p d = .error f → E f
  columns : ∀ t f, catalog.listColumns t = .error f → E f
  columnStats : ∀ f, catalog.listColumnStats = .error f → E f

section Shape

variable {catalog : CatalogReader} {E : Fault → Prop} {P : Tuple → Prop}

/-- Rows with a property, or a fault. -/
def EveryRow (E : Fault → Prop) (P : Tuple → Prop) : Outcome (List Tuple) → Prop
  | .ok rows => ∀ row ∈ rows, P row
  | .error f => E f

theorem EveryRow.bind {α : Type} {x : Outcome α} {f : α → Outcome (List Tuple)}
    (hx : ∀ g, x = .error g → E g) (h : ∀ a, EveryRow E P (f a)) : EveryRow E P (x >>= f) := by
  cases x with
  | ok a => exact h a
  | error g => exact hx g rfl

theorem everyRow_singleton {row : Tuple} (h : P row) : EveryRow E P (.ok [row]) := by
  intro r hr
  rwa [List.mem_singleton.mp hr]

theorem everyRow_rowsOf {α : Type} {f : α → Outcome (List Tuple)} (h : ∀ a, EveryRow E P (f a))
    (as : List α) : EveryRow E P (rowsOf f as) := by
  induction as with
  | nil => exact nofun
  | cons a as ih =>
    rw [rowsOf]
    have ha := h a
    cases hrows : f a with
    | error g =>
      rw [hrows] at ha
      exact ha
    | ok front =>
      rw [hrows] at ha
      cases hrest : rowsOf f as with
      | error g =>
        rw [hrest] at ih
        exact ih
      | ok rest =>
        rw [hrest] at ih
        intro row hrow
        exact (List.mem_append.mp hrow).elim (ha row) (ih row)

variable (hfails : catalog.Fails E)

include hfails

theorem everyRow_userProjects {f : List ProjectMeta → Outcome (List Tuple)}
    (h : ∀ ps, EveryRow E P (f ps)) : EveryRow E P (userProjects catalog >>= f) := by
  refine .bind (fun g hg => ?_) h
  cases hlist : catalog.listProjects with
  | error g' =>
    rw [userProjects, hlist] at hg
    cases hg
    exact hfails.projects g hlist
  | ok ps =>
    rw [userProjects, hlist] at hg
    cases hg

theorem everyRow_namespaces {f : ProjectMeta → DatasetMeta → Outcome (List Tuple)}
    (h : ∀ p d, EveryRow E P (f p d)) : EveryRow E P (namespaces catalog f) :=
  everyRow_userProjects hfails fun _ =>
    everyRow_rowsOf (fun p => .bind (hfails.datasets p.id) fun _ => everyRow_rowsOf (h p) _) _

theorem everyRow_tables {f : ProjectMeta → DatasetMeta → TableMeta → Outcome (List Tuple)}
    (h : ∀ p d t, EveryRow E P (f p d t)) : EveryRow E P (tables catalog f) :=
  everyRow_namespaces hfails fun p d =>
    .bind (hfails.tables p.id d.id) fun _ => everyRow_rowsOf (h p d) _

theorem everyRow_columns
    {f : ProjectMeta → DatasetMeta → TableMeta → ColumnMeta → Outcome (List Tuple)}
    (h : ∀ p d t c, EveryRow E P (f p d t c)) : EveryRow E P (columns catalog f) :=
  everyRow_tables hfails fun p d t => .bind (hfails.columns t.id) fun _ => everyRow_rowsOf
    (h p d t) _

end Shape

def Value.isDocument : Value → Bool
  | .json _ | .array _ => true
  | _ => false

/-- A row is typed when its values fit one after the other and none is a document; for rows
    that are written out this evaluates. -/
def typedBy : List Field → Tuple → Bool
  | [], [] => true
  | field :: fields, v :: vs => v.fits field.ty && !v.isDocument && typedBy fields vs
  | _, _ => false

theorem typed_of_typedBy {rt : Runtime} {fields : List Field} {row : Tuple}
    (h : typedBy fields row = true) : Typed rt fields row := by
  induction fields generalizing row with
  | nil =>
    cases row with
    | nil => exact .nil
    | cons v vs => cases h
  | cons field fields ih =>
    cases row with
    | nil => cases h
    | cons v vs =>
      obtain ⟨hv, hvs⟩ := Bool.and_eq_true_iff.mp h
      obtain ⟨hfits, hplain⟩ := Bool.and_eq_true_iff.mp hv
      refine .cons ⟨hfits, ?_⟩ (ih hvs)
      cases v <;> trivial

/-- **Every row of a system relation has the shape of its schema**, and a failure is one
    of the catalog's listings. -/
theorem typed_rows (rt : Runtime) {catalog : CatalogReader} {E : Fault → Prop}
    (hfails : catalog.Fails E) (relation : SystemRelation) :
    EveryRow E (Typed rt relation.schema.fields) (relation.rows catalog) := by
  cases relation with
  | pgType =>
    intro row hrow
    obtain ⟨ty, hty, rfl⟩ := List.mem_map.mp hrow
    exact typed_of_typedBy rfl
  | pgStats =>
    refine .bind hfails.columnStats fun stats row hrow => ?_
    obtain ⟨s, -, rfl⟩ := List.mem_map.mp hrow
    exact typed_of_typedBy rfl
  | infoSchemata =>
    exact everyRow_namespaces hfails fun p d => everyRow_singleton (typed_of_typedBy rfl)
  | pgDatabase =>
    exact everyRow_userProjects hfails fun _ =>
      everyRow_rowsOf (fun p => everyRow_singleton (typed_of_typedBy rfl)) _
  | pgNamespace =>
    exact everyRow_namespaces hfails fun p d => everyRow_singleton (typed_of_typedBy rfl)
  | infoTables =>
    exact everyRow_tables hfails fun p d t => everyRow_singleton (typed_of_typedBy rfl)
  | pgClass =>
    exact everyRow_tables hfails fun p d t =>
      .bind (hfails.columns t.id) fun _ => everyRow_singleton (typed_of_typedBy rfl)
  | infoColumns =>
    exact everyRow_columns hfails fun p d t c => everyRow_singleton (typed_of_typedBy rfl)
  | pgAttribute =>
    exact everyRow_columns hfails fun p d t c => everyRow_singleton (typed_of_typedBy rfl)

end StrataDb.Sql
