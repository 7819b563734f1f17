import StrataDb.Commands
import StrataDb.SystemCatalog
import StrataDb.TableApi

/-!
# The catalog (`crates/strata-db/src/catalog/mod.rs`, and the system tables of `consts.rs`)

Projects, datasets, tables and columns are rows of system tables: a key of raw bytes and the
metadata as JSON. One row of `_tables` is one incarnation of a table; the live one has the largest
truncation id. `TableStorage` is what the catalog asks of its storage, and `engineStorage` is the
engine's. The identifiers that are minted are arguments.
-/

namespace StrataDb.Sql

open ByteCodec OrderedMap
open Commands (Command)
open Filesystem (BlockStore EvictionPolicy Crc32c)
open Store (StorageEngine)
open Lsm (FastBloom)

/-- Lookups, scans and writes of rows, as the catalog calls them. -/
structure TableStorage (σ : Type) where
  get : TableReader → Value → Command σ Fault (Option Tuple)
  scan : TableReader → ScanOptions → Command σ Fault RowStream
  put : TableWriter → Tuple → Command σ Fault Unit
  delete : TableWriter → Value → Command σ Fault Unit

/-- The engine's tables. -/
def engineStorage {V P : Type} {n : Nat} [BlockStore V] [EvictionPolicy P (Fin n)] (rt : Runtime)
    (B : FastBloom) (crc32 : Bytes → UInt32) (crc : Crc32c) (hash : Bytes → UInt32) :
    TableStorage (StorageEngine V P n) where
  get h key engine := TableReader.get rt B crc hash h engine key
  scan h options engine := TableReader.scan rt B crc hash h engine options
  put h tuple engine := TableWriter.put rt crc32 crc hash h engine tuple
  delete h key engine := TableWriter.delete crc32 h engine key

/-- The ids of the system tables: six bytes `ff`, zeros and a number. -/
def reserved (n : UInt8) : Uuid :=
  ⟨List.replicate 6 0xff ++ List.replicate 9 0 ++ [n], rfl⟩

def CATALOG_DATASET_ID : DatasetId := ⟨reserved 0⟩
def PROJECTS_TABLE_ID : TableId := ⟨reserved 1⟩
def DATASETS_TABLE_ID : TableId := ⟨reserved 2⟩
def TABLES_TABLE_ID : TableId := ⟨reserved 3⟩
def COLUMNS_TABLE_ID : TableId := ⟨reserved 6⟩

/-- A raw key, and metadata as JSON. -/
def systemTableSchema : Schema :=
  ⟨[.new "pk" .bytes, .new "meta" .json]⟩

/-- A table of the catalog's own dataset. -/
def systemTable (tableId : TableId) (name : String) : Table :=
  ⟨SYSTEM_PROJECT_ID, CATALOG_DATASET_ID, tableId, .INITIAL, name, systemTableSchema⟩

def projectsMetaTable : Table := systemTable PROJECTS_TABLE_ID "_projects"
def datasetsMetaTable : Table := systemTable DATASETS_TABLE_ID "_datasets"
def tablesMetaTable : Table := systemTable TABLES_TABLE_ID "_tables"
def columnsMetaTable : Table := systemTable COLUMNS_TABLE_ID "_columns"

/-- The table's id and the column's position. -/
def columnKey (tableId : TableId) (position : UInt32) : Bytes :=
  tableId.uuid.bytes ++ beBytes 4 position.toNat

/-- The project's id and the dataset's name. -/
def datasetKey (projectId : ProjectId) (name : String) : Bytes :=
  projectId.uuid.bytes ++ utf8 name

/-- The prefix of the rows of one dataset's tables. -/
def datasetScope (projectId : ProjectId) (datasetId : DatasetId) : Bytes :=
  projectId.uuid.bytes ++ datasetId.uuid.bytes

/-- A row of `_tables` has a key for each incarnation. -/
def tableKey (projectId : ProjectId) (datasetId : DatasetId) (name : String)
    (truncationId : TruncationId) : Bytes :=
  datasetScope projectId datasetId ++ utf8 name ++ beBytes 8 truncationId.count.toNat

/-! ### Rows of system tables -/

/-- `to_value` and `from_value` at one type. -/
structure ValueSerde (α : Type) where
  toValue : α → Except String Json
  fromValue : Json → Except String α

/-- The value has a document, which is read from its own text, and the value from it. -/
def ValueSerde.ReadsBack {α : Type} (rt : Runtime) (serde : ValueSerde α) (a : α) : Prop :=
  ∃ json, serde.toValue a = .ok json ∧ rt.parseJson json.text = some json
    ∧ serde.fromValue json = .ok a

structure MetaSerde where
  project : ValueSerde ProjectMeta
  dataset : ValueSerde DatasetMeta
  table : ValueSerde TableMeta
  column : ValueSerde ColumnMeta

def serdeError (msg : String) : Fault :=
  .error (.codec (.serde msg))

def catalogError {α : Type} (e : CatalogError) : Outcome α :=
  .error (.error (.catalog e))

def alreadyExists {α : Type} (kind : ResourceKind) (name : String) : Outcome α :=
  catalogError (.alreadyExists kind name)

def notFound {α : Type} (kind : ResourceKind) (name : String) : Outcome α :=
  catalogError (.notFound kind name)

def truncationExhausted {α : Type} (name : String) : Outcome α :=
  catalogError (.truncationExhausted name)

section Rows

variable {α : Type} (serde : ValueSerde α)

/-- `to_value`, then a row. -/
def metaToTuple (userKey : Bytes) (info : α) : Outcome Tuple := do
  let json ← (serde.toValue info).mapError serdeError
  return [.bytes userKey, .json json]

/-- The second column of a row, then `from_value`. -/
def tupleToMeta (tuple : Tuple) : Outcome α :=
  match tuple with
  | _ :: .json j :: _ => (serde.fromValue j).mapError serdeError
  | _ => .error (serdeError "expected Json meta column in catalog row")

variable {σ : Type} (S : TableStorage σ) (systemTable : Table)

def writeMeta (userKey : Bytes) (info : α) : Command σ Fault Unit := do
  let tuple ← .lift (metaToTuple serde userKey info)
  S.put (.new systemTable) tuple

def removeMeta (userKey : Bytes) : Command σ Fault Unit :=
  S.delete (.new systemTable) (.bytes userKey)

def listMetas (userKeyPrefix : Bytes) : Command σ Fault (List α) := do
  let rows ← S.scan (.new systemTable) (ScanOptions.withPrefix {} userKeyPrefix)
  .lift (rows.mapM fun row => row >>= tupleToMeta serde)

/-- The metadata under a key. -/
def lookupMeta (userKey : Bytes) : Command σ Fault (Option α) := do
  match ← S.get (.new systemTable) (.bytes userKey) with
  | none => return none
  | some tuple => return some (← .lift (tupleToMeta serde tuple))

end Rows

section Catalog

variable {σ : Type} (S : TableStorage σ) (serde : MetaSerde)

def Field.toMeta (tableId : TableId) (position : UInt32) (field : Field) : ColumnMeta :=
  ⟨tableId, position, field.name, field.ty, field.nullable, field.default⟩

def ColumnMeta.toField (c : ColumnMeta) : Field :=
  ⟨c.name, c.ty, c.nullable, c.default⟩

/-- One row per column, under its position. -/
def writeColumns (tableId : TableId) (schema : Schema) : Command σ Fault Unit :=
  schema.fields.zipIdx.forM fun (field, i) =>
    let position := UInt32.ofNat i
    writeMeta serde.column S columnsMetaTable (columnKey tableId position)
      (field.toMeta tableId position)

def listColumns (tableId : TableId) : Command σ Fault (List ColumnMeta) :=
  listMetas serde.column S columnsMetaTable tableId.uuid.bytes

/-- The columns of a table, in the order of their keys. -/
def assembleSchema (tableId : TableId) : Command σ Fault Schema := do
  let columns ← listColumns S serde tableId
  return ⟨columns.map ColumnMeta.toField⟩

/-- The rows are listed and then removed one by one. -/
def clearColumns (tableId : TableId) : Command σ Fault Unit := do
  let existing ← listColumns S serde tableId
  existing.forM fun col => removeMeta S columnsMetaTable (columnKey tableId col.position)

/-! ### Reading -/

def getProject (name : String) : Command σ Fault (Option ProjectMeta) :=
  lookupMeta serde.project S projectsMetaTable (utf8 name)

def getDataset (projectId : ProjectId) (name : String) : Command σ Fault (Option DatasetMeta) :=
  lookupMeta serde.dataset S datasetsMetaTable (datasetKey projectId name)

/-- Every row of the name, live or not. -/
def tableIncarnations (projectId : ProjectId) (datasetId : DatasetId) (name : String) :
    Command σ Fault (List TableMeta) := do
  let metas ← listMetas serde.table S tablesMetaTable (datasetScope projectId datasetId)
  return metas.filter (·.name = name)

/-- `max_by_key`: the last one of the largest truncation id. -/
def newest (metas : List TableMeta) : Option TableMeta :=
  metas.foldl (fun best info =>
    match best with
    | none => some info
    | some b => if info.truncationId.count < b.truncationId.count then some b else some info) none

def getTable (projectId : ProjectId) (datasetId : DatasetId) (name : String) :
    Command σ Fault (Option TableMeta) := do
  return newest (← tableIncarnations S serde projectId datasetId name)

/-- A name that is not there is an error of its kind. -/
def found {α : Type} (kind : ResourceKind) (name : String) : Option α → Outcome α
  | some a => .ok a
  | none => notFound kind name

/-- Project, dataset and table, each looked up by its name. -/
def resolveTable (project dataset table : String) : Command σ Fault Table := do
  let projectMeta ← .lift (found .project project (← getProject S serde project))
  let datasetMeta ← .lift (found .dataset dataset (← getDataset S serde projectMeta.id dataset))
  let tableMeta ← .lift
    (found .table table (← getTable S serde projectMeta.id datasetMeta.id table))
  let schema ← assembleSchema S serde tableMeta.id
  return ⟨projectMeta.id, datasetMeta.id, tableMeta.id, tableMeta.truncationId,
    tableMeta.name, schema⟩

/-- One step of the fold that keeps the newest of each name. -/
def keepLive (live : List TableMeta) (info : TableMeta) : List TableMeta :=
  match live.find? (·.name = info.name) with
  | none => live ++ [info]
  | some existing =>
    if existing.truncationId.count < info.truncationId.count then
      live.map fun m => if m.name = info.name then info else m
    else live

/-- The live incarnation of each name.  The source keeps them in a `HashMap`, whose order
    is not specified; here they are in that of the names' first rows. -/
def liveIncarnations (metas : List TableMeta) : List TableMeta :=
  metas.foldl keepLive []

def listTables (projectId : ProjectId) (datasetId : DatasetId) :
    Command σ Fault (List TableMeta) := do
  let metas ← listMetas serde.table S tablesMetaTable (datasetScope projectId datasetId)
  return liveIncarnations metas

/-! ### Writing -/

/-- An existing name is an error. -/
def createProject (name : String) (fresh : ProjectId) : Command σ Fault ProjectMeta := do
  if (← getProject S serde name).isSome then
    .lift (alreadyExists .project name)
  else
    let info : ProjectMeta := ⟨fresh, name⟩
    writeMeta serde.project S projectsMetaTable (utf8 name) info
    return info

/-- Datasets of the project are left as they are. -/
def dropProject (name : String) : Command σ Fault Unit := do
  if (← getProject S serde name).isNone then
    .lift (notFound .project name)
  else
    removeMeta S projectsMetaTable (utf8 name)

def createDataset (projectId : ProjectId) (name : String) (fresh : DatasetId) :
    Command σ Fault DatasetMeta := do
  if (← getDataset S serde projectId name).isSome then
    .lift (alreadyExists .dataset name)
  else
    let info : DatasetMeta := ⟨fresh, name⟩
    writeMeta serde.dataset S datasetsMetaTable (datasetKey projectId name) info
    return info

def dropDataset (projectId : ProjectId) (name : String) : Command σ Fault Unit := do
  if (← getDataset S serde projectId name).isNone then
    .lift (notFound .dataset name)
  else
    removeMeta S datasetsMetaTable (datasetKey projectId name)

/-- The row of one incarnation. -/
def putTableMeta (projectId : ProjectId) (datasetId : DatasetId) (info : TableMeta) :
    Command σ Fault Unit :=
  writeMeta serde.table S tablesMetaTable (tableKey projectId datasetId info.name info.truncationId)
    info

/-- The columns are written before the row that makes them a table. -/
def createTable (projectId : ProjectId) (datasetId : DatasetId) (name : String) (schema : Schema)
    (fresh : TableId) : Command σ Fault TableMeta := do
  if (← getTable S serde projectId datasetId name).isSome then
    .lift (alreadyExists .table name)
  else
    writeColumns S serde fresh schema
    let info : TableMeta := ⟨fresh, .INITIAL, name, []⟩
    putTableMeta S serde projectId datasetId info
    return info

/-- The number after the live incarnation's, and its id. -/
def nextIncarnation (name : String) (fresh : TableId) :
    Option TableMeta → Outcome (TruncationId × TableId)
  | some current =>
    match current.truncationId.next with
    | some truncationId => .ok (truncationId, current.id)
    | none => truncationExhausted name
  | none => .ok (.INITIAL, fresh)

/-- `CREATE OR REPLACE`: new columns, and then a new incarnation under the same id. -/
def replaceTable (projectId : ProjectId) (datasetId : DatasetId) (name : String) (schema : Schema)
    (fresh : TableId) : Command σ Fault TableMeta := do
  let (truncationId, id) ← .lift
    (nextIncarnation name fresh (← getTable S serde projectId datasetId name))
  clearColumns S serde id
  writeColumns S serde id schema
  let info : TableMeta := ⟨id, truncationId, name, []⟩
  putTableMeta S serde projectId datasetId info
  return info

/-- All incarnations, in the order of their keys. -/
def dropTable (projectId : ProjectId) (datasetId : DatasetId) (name : String) :
    Command σ Fault Unit := do
  let incarnations ← tableIncarnations S serde projectId datasetId name
  if incarnations.isEmpty then
    .lift (notFound .table name)
  else
    incarnations.forM fun info =>
      removeMeta S tablesMetaTable (tableKey projectId datasetId name info.truncationId)

end Catalog

end StrataDb.Sql
