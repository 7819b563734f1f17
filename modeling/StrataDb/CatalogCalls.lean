import StrataDb.CatalogContent

/-!
# The catalog's functions on a database

What each function of the catalog reads, as a function of the database it runs on, and the writes
it performs, in order.
-/

namespace StrataDb.Sql

open ByteCodec
open Commands

/-! ### What is read -/

@[simp] theorem found_some_bind {α β : Type} (kind : ResourceKind) (name : String) (a : α)
    (f : α → Outcome β) : (found kind name (some a) >>= f) = f a := rfl

@[simp] theorem found_none_bind {α β : Type} (kind : ResourceKind) (name : String)
    (f : α → Outcome β) : (found kind name none >>= f) = notFound kind name := rfl

namespace Database

variable (D : Database)

def project (name : String) : Option ProjectMeta :=
  D.metas .projects (utf8 name)

def dataset (projectId : ProjectId) (name : String) : Option DatasetMeta :=
  D.metas .datasets (datasetKey projectId name)

noncomputable def tables (projectId : ProjectId) (datasetId : DatasetId) :
    List (Bytes × TableMeta) :=
  entries (D.metas .tables) (datasetScope projectId datasetId)

noncomputable def incarnations (projectId : ProjectId) (datasetId : DatasetId) (name : String) :
    List TableMeta :=
  ((D.tables projectId datasetId).map Prod.snd).filter (·.name = name)

noncomputable def liveTable (projectId : ProjectId) (datasetId : DatasetId) (name : String) :
    Option TableMeta :=
  newest (D.incarnations projectId datasetId name)

noncomputable def columns (tableId : TableId) : List ColumnMeta :=
  (entries (D.metas .columns) tableId.uuid.bytes).map Prod.snd

noncomputable def schema (tableId : TableId) : Schema :=
  ⟨(D.columns tableId).map ColumnMeta.toField⟩

noncomputable def resolve (project dataset table : String) : Outcome Table := do
  let p ← found .project project (D.project project)
  let d ← found .dataset dataset (D.dataset p.id dataset)
  let t ← found .table table (D.liveTable p.id d.id table)
  return ⟨p.id, d.id, t.id, t.truncationId, t.name, D.schema t.id⟩

end Database

theorem uuid_ne_nil (u : Uuid) : u.bytes ≠ [] := by
  intro h
  have hlen := u.length_eq
  rw [h] at hlen
  cases hlen

theorem datasetScope_ne_nil (projectId : ProjectId) (datasetId : DatasetId) :
    datasetScope projectId datasetId ≠ [] :=
  List.append_ne_nil_of_left_ne_nil (uuid_ne_nil _) _

section Reading

variable {rt : Runtime} {serde : MetaSerde} {σ : Type} {S : TableStorage σ}
  {Holds : Nat → (Bytes → Option Bytes) → σ → Prop} {D : Database} {room : Nat}
    (storage : ReadLaws rt S Holds)
include storage

theorem getProject_observes (name : String) :
    Observes (Represented rt serde Holds room D) (getProject S serde name) (.ok (D.project name)) :=
  lookupMeta_observes storage .projects (utf8 name)

theorem getDataset_observes (projectId : ProjectId) (name : String) :
    Observes (Represented rt serde Holds room D) (getDataset S serde projectId name)
      (.ok (D.dataset projectId name)) :=
  lookupMeta_observes storage .datasets (datasetKey projectId name)

theorem tableIncarnations_observes (projectId : ProjectId) (datasetId : DatasetId) (name : String) :
    Observes (Represented rt serde Holds room D)
      (tableIncarnations S serde projectId datasetId name)
      (.ok (D.incarnations projectId datasetId name)) :=
  (listMetas_observes storage .tables (datasetScope_ne_nil projectId datasetId)).bind_ok (.lift _)

theorem getTable_observes (projectId : ProjectId) (datasetId : DatasetId) (name : String) :
    Observes (Represented rt serde Holds room D) (getTable S serde projectId datasetId name)
      (.ok (D.liveTable projectId datasetId name)) :=
  (tableIncarnations_observes storage projectId datasetId name).bind_ok (.lift _)

theorem listColumns_observes (tableId : TableId) :
    Observes (Represented rt serde Holds room D) (listColumns S serde tableId)
      (.ok (D.columns tableId)) :=
  listMetas_observes storage .columns (uuid_ne_nil _)

end Reading

/-! ### What is written -/

def columnWrites (tableId : TableId) (schema : Schema) : List DatabaseWrite :=
  schema.fields.zipIdx.map fun (field, i) =>
    .info .columns (columnKey tableId (.ofNat i)) (some (field.toMeta tableId (.ofNat i)))

noncomputable def Database.clearWrites (D : Database) (tableId : TableId) : List DatabaseWrite :=
  (D.columns tableId).map fun col => .info .columns (columnKey tableId col.position) none

def tableWrite (projectId : ProjectId) (datasetId : DatasetId) (info : TableMeta) : DatabaseWrite :=
  .info .tables (tableKey projectId datasetId info.name info.truncationId) (some info)

noncomputable def Database.dropWrites (D : Database) (projectId : ProjectId) (datasetId : DatasetId)
    (name : String) : List DatabaseWrite :=
  (D.incarnations projectId datasetId name).map fun info =>
    .info .tables (tableKey projectId datasetId name info.truncationId) none

def createWrites (projectId : ProjectId) (datasetId : DatasetId) (name : String) (schema : Schema)
    (fresh : TableId) : List DatabaseWrite :=
  columnWrites fresh schema ++ [tableWrite projectId datasetId ⟨fresh, .INITIAL, name, []⟩]

/-- A new incarnation: the old columns are removed, the new ones written, then the
    incarnation. -/
noncomputable def Database.replaceWrites (D : Database) (projectId : ProjectId)
    (datasetId : DatasetId) (name : String) (schema : Schema) (truncationId : TruncationId)
    (tableId : TableId) : List DatabaseWrite :=
  D.clearWrites tableId ++ (columnWrites tableId schema
    ++ [tableWrite projectId datasetId ⟨tableId, truncationId, name, []⟩])

/-- The columns of the schema read back, whatever table they are written for. -/
def ColumnsReadBack (rt : Runtime) (serde : MetaSerde) (schema : Schema) : Prop :=
  ∀ field ∈ schema.fields, ∀ tableId position,
    serde.column.ReadsBack rt (field.toMeta tableId position)

/-- Every incarnation of a table of the name reads back. -/
def TableReadsBack (rt : Runtime) (serde : MetaSerde) (name : String) : Prop :=
  ∀ tableId truncationId, serde.table.ReadsBack rt ⟨tableId, truncationId, name, []⟩

section Writing

variable {rt : Runtime} {serde : MetaSerde} {σ : Type} {S : TableStorage σ}
  {Holds : Nat → (Bytes → Option Bytes) → σ → Prop} {D : Database}
    (storage : StorageLaws rt S Holds)
  (laws : rt.CodecLaws)
include storage

theorem dropTable_performs (projectId : ProjectId) (datasetId : DatasetId) (name : String) :
    Does rt serde Holds D (dropTable S serde projectId datasetId name)
      (D.dropWrites projectId datasetId name)
      (if D.incarnations projectId datasetId name = [] then notFound .table name else .ok ()) := by
  refine .bind_read (fun _ => tableIncarnations_observes storage.toReadLaws projectId datasetId
    name) ?_
  cases hlist : D.incarnations projectId datasetId name with
  | nil =>
    rw [Database.dropWrites, hlist]
    exact .lift (notFound .table name)
  | cons info infos =>
    rw [Database.dropWrites, hlist, if_neg (List.cons_ne_nil info infos)]
    exact .forM storage.relaxes_represented (info :: infos) fun _ _ _ => removeMeta_performs storage
      .tables _

theorem clearColumns_performs (tableId : TableId) :
    Does rt serde Holds D (clearColumns S serde tableId) (D.clearWrites tableId) (.ok ()) :=
  .bind_read (fun _ => listColumns_observes storage.toReadLaws tableId)
    (.forM storage.relaxes_represented (D.columns tableId) fun _ _ _ => removeMeta_performs storage
      .columns _)

variable {name : String} {projectId : ProjectId} {datasetId : DatasetId}

theorem createTable_exists {info : TableMeta}
    (hsome : D.liveTable projectId datasetId name = some info) (schema : Schema) (fresh : TableId) :
    Does rt serde Holds D (createTable S serde projectId datasetId name schema fresh)
      [] (alreadyExists .table name) := by
  refine .bind_read (fun _ => getTable_observes storage.toReadLaws projectId datasetId name) ?_
  rw [hsome]
  exact .lift _

theorem dropProject_performs (name : String) :
    Does rt serde Holds D (dropProject S serde name)
      (if (D.project name).isNone then [] else [.info .projects (utf8 name) none])
      (if (D.project name).isNone then notFound .project name else .ok ()) := by
  refine .bind_read (fun _ => getProject_observes storage.toReadLaws name) ?_
  cases D.project name with
  | none => exact .lift _
  | some info => exact removeMeta_performs storage .projects _

theorem dropDataset_performs (projectId : ProjectId) (name : String) :
    Does rt serde Holds D (dropDataset S serde projectId name)
      (if (D.dataset projectId name).isNone then [] else
        [.info .datasets (datasetKey projectId name) none])
      (if (D.dataset projectId name).isNone then notFound .dataset name else .ok ()) := by
  refine .bind_read (fun _ => getDataset_observes storage.toReadLaws projectId name) ?_
  cases D.dataset projectId name with
  | none => exact .lift _
  | some info => exact removeMeta_performs storage .datasets _

variable {h : TableHandle}

theorem put_performs (hproject : h.projectId ≠ SYSTEM_PROJECT_ID) {tuple : Tuple} {u bytes : Bytes}
    (henc : h.encodeRow rt tuple = .ok (u, bytes)) :
    Does rt serde Holds D (S.put h tuple) [.row h.identity u (some bytes)] (.ok ()) := by
  rintro room s ⟨m, hs, hrep⟩
  obtain ⟨r, s', hput, hcases⟩ := storage.put h tuple hs
  rcases hcases with ⟨rfl, u', bytes', henc', -, hs'⟩ | ⟨⟨f, hf, rfl⟩, hs'⟩
  · obtain ⟨rfl, rfl⟩ := Prod.mk.inj (Except.ok.inj (henc.symm.trans henc'))
    exact ⟨_, .ok (), s', hput, List.prefix_rfl, ⟨_, hs', hrep.row hproject u (some bytes)⟩,
      Or.inl ⟨rfl, rfl⟩⟩
  · exact ⟨[], .error f, s', hput, List.nil_prefix, ⟨m, hs', hrep⟩, Or.inr ⟨f, hf, rfl⟩⟩

theorem put_refused {tuple : Tuple} {f : Fault} (henc : h.encodeRow rt tuple = .error f) :
    Does rt serde Holds D (S.put h tuple) [] (.error f) := by
  rintro room s ⟨m, hs, hrep⟩
  obtain ⟨f', s', hput, hf, hs'⟩ := storage.put_error h henc hs
  exact ⟨[], .error f', s', hput, List.prefix_rfl, ⟨m, hs', hrep⟩, Or.inr ⟨f', hf, rfl⟩⟩

theorem delete_performs (hproject : h.projectId ≠ SYSTEM_PROJECT_ID) {key : Value} {u : Bytes}
    (hkey : userKey key = .ok u) :
    Does rt serde Holds D (S.delete h key) [.row h.identity u none] (.ok ()) := by
  rintro room s ⟨m, hs, hrep⟩
  obtain ⟨r, s', hdelete, hcases⟩ := storage.delete h key hs
  rcases hcases with ⟨rfl, u', hkey', hs'⟩ | ⟨⟨f, hf, rfl⟩, hs'⟩
  · obtain rfl := Except.ok.inj (hkey.symm.trans hkey')
    exact ⟨_, .ok (), s', hdelete, List.prefix_rfl, ⟨_, hs', hrep.row hproject u none⟩,
      Or.inl ⟨rfl, rfl⟩⟩
  · exact ⟨[], .error f, s', hdelete, List.nil_prefix, ⟨m, hs', hrep⟩, Or.inr ⟨f, hf, rfl⟩⟩

theorem delete_refused {key : Value} {f : Fault} (hkey : userKey key = .error f) :
    Does rt serde Holds D (S.delete h key) [] (.error f) := by
  rintro room s ⟨m, hs, hrep⟩
  obtain ⟨r, s', hdelete, ⟨-, u, hkey', -⟩ | ⟨⟨f', hf, rfl⟩, hs'⟩⟩ := storage.delete h key hs
  · cases hkey.symm.trans hkey'
  · exact ⟨[], .error f', s', hdelete, List.prefix_rfl, ⟨m, hs', hrep⟩, Or.inr ⟨f', hf, rfl⟩⟩

theorem replaceTable_exhausted {fresh : TableId} {f : Fault}
    (hnext : nextIncarnation name fresh (D.liveTable projectId datasetId name) = .error f)
    (schema : Schema) :
    Does rt serde Holds D (replaceTable S serde projectId datasetId name schema fresh) []
      (.error f) := by
  refine .bind_read (fun _ => getTable_observes storage.toReadLaws projectId datasetId name) ?_
  rw [hnext]
  exact .of_observes fun _ => (Observes.lift _).bind_error

include laws

theorem createProject_performs {fresh : ProjectId}
    (hreads : serde.project.ReadsBack rt ⟨fresh, name⟩) :
    Does rt serde Holds D (createProject S serde name fresh)
      (if (D.project name).isSome then [] else
        [.info .projects (utf8 name) (some (⟨fresh, name⟩ : ProjectMeta))])
      (if (D.project name).isSome then alreadyExists .project name else .ok ⟨fresh, name⟩) := by
  refine .bind_read (fun _ => getProject_observes storage.toReadLaws name) ?_
  cases D.project name with
  | some info => exact .lift _
  | none =>
    exact .bind storage.relaxes_represented (writeMeta_performs storage laws .projects _ hreads)
      (.lift _)

theorem createDataset_performs (projectId : ProjectId) {fresh : DatasetId}
    (hreads : serde.dataset.ReadsBack rt ⟨fresh, name⟩) :
    Does rt serde Holds D (createDataset S serde projectId name fresh)
      (if (D.dataset projectId name).isSome then []
        else [.info .datasets (datasetKey projectId name) (some (⟨fresh, name⟩ : DatasetMeta))])
      (if (D.dataset projectId name).isSome then alreadyExists .dataset name else .ok
        ⟨fresh, name⟩) := by
  refine .bind_read (fun _ => getDataset_observes storage.toReadLaws projectId name) ?_
  cases D.dataset projectId name with
  | some info => exact .lift _
  | none =>
    exact .bind storage.relaxes_represented (writeMeta_performs storage laws .datasets _ hreads)
      (.lift _)

variable {schema : Schema}

theorem writeColumns_performs (tableId : TableId) (hreads : ColumnsReadBack rt serde schema) :
    Does rt serde Holds D (writeColumns S serde tableId schema)
      (columnWrites tableId schema) (.ok ()) :=
  .forM storage.relaxes_represented schema.fields.zipIdx fun x hx _ =>
    writeMeta_performs storage laws .columns _
      (hreads x.1 (List.fst_mem_of_mem_zipIdx hx) tableId (.ofNat x.2))

theorem putTableMeta_performs (projectId : ProjectId) (datasetId : DatasetId) {info : TableMeta}
    (hreads : serde.table.ReadsBack rt info) :
    Does rt serde Holds D (putTableMeta S serde projectId datasetId info)
      [tableWrite projectId datasetId info] (.ok ()) :=
  writeMeta_performs storage laws .tables _ hreads

theorem createTable_performs (hnone : D.liveTable projectId datasetId name = none)
    (hcolumns : ColumnsReadBack rt serde schema) (htable : TableReadsBack rt serde name)
    (fresh : TableId) :
    Does rt serde Holds D (createTable S serde projectId datasetId name schema fresh)
      (createWrites projectId datasetId name schema fresh) (.ok ⟨fresh, .INITIAL, name, []⟩) := by
  refine .bind_read (fun _ => getTable_observes storage.toReadLaws projectId datasetId name) ?_
  rw [hnone]
  refine .bind storage.relaxes_represented (writeColumns_performs storage laws fresh hcolumns) ?_
  exact .bind storage.relaxes_represented
    (putTableMeta_performs storage laws projectId datasetId (htable _ _)) (.lift _)

theorem replaceTable_performs {fresh : TableId} {truncationId : TruncationId} {tableId : TableId}
    (hnext : nextIncarnation name fresh (D.liveTable projectId datasetId name)
      = .ok (truncationId, tableId))
    (hcolumns : ColumnsReadBack rt serde schema) (htable : TableReadsBack rt serde name) :
    Does rt serde Holds D (replaceTable S serde projectId datasetId name schema fresh)
      (D.replaceWrites projectId datasetId name schema truncationId tableId)
      (.ok ⟨tableId, truncationId, name, []⟩) := by
  refine .bind_read (fun _ => getTable_observes storage.toReadLaws projectId datasetId name) ?_
  rw [hnext]
  refine .bind_read (fun _ => .lift _) ?_
  refine .bind storage.relaxes_represented (clearColumns_performs storage tableId) ?_
  refine .bind storage.relaxes_represented (writeColumns_performs storage laws tableId hcolumns) ?_
  exact .bind storage.relaxes_represented
    (putTableMeta_performs storage laws projectId datasetId (htable _ _)) (.lift _)

end Writing

end StrataDb.Sql
