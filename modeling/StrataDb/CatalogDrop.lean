import StrataDb.CatalogRuns

/-!
# Dropping a table (`Catalog::drop_table`)

The incarnations are removed one by one, as the scan lists them. A key of `_tables` ends in the
big-endian truncation id, so the live one is the last to go: whatever removal fails and wherever
the process stops, the name resolves as before or not at all.
-/

namespace StrataDb.Sql

open ByteCodec LexOrder PrefixRange
open Commands
open Filesystem (Block Crc32c Verifies castagnoli)
open Store (DiskEngine)
open Lsm (FastBloom LsmConfig)
open Runs (Run)
open Crc (crc32)

/-! ### The order of incarnations -/

theorem datasetScope_inj {p p' : ProjectId} {d d' : DatasetId} {rest rest' : Bytes}
    (h : datasetScope p d ++ rest = datasetScope p' d' ++ rest') :
    p = p' ∧ d = d' ∧ rest = rest' := by
  have hlen (a b : Uuid) : a.bytes.length = b.bytes.length := a.length_eq.trans b.length_eq.symm
  rw [datasetScope, datasetScope, List.append_assoc, List.append_assoc] at h
  obtain ⟨hp, h⟩ := List.append_inj h (hlen _ _)
  obtain ⟨hd, h⟩ := List.append_inj h (hlen _ _)
  exact ⟨congrArg ProjectId.mk (Uuid.bytes_inj.mp hp),
    congrArg DatasetId.mk (Uuid.bytes_inj.mp hd), h⟩

theorem TruncationId.count_lt (t : TruncationId) : t.count.toNat < 256 ^ 8 :=
  t.count.toNat_lt

theorem tableKey_lt {p : ProjectId} {d : DatasetId} {name : String} {t t' : TruncationId} :
    tableKey p d name t < tableKey p d name t' ↔ t.count < t'.count := by
  rw [tableKey, tableKey, append_lt_append, UInt64.lt_iff_toNat_lt]
  exact lt_iff_lt_of_cmp_eq_cmp (order_beBytes t.count_lt t'.count_lt)

section Incarnations

variable {D : Database} {p p' : ProjectId} {d d' : DatasetId} {name name' : String}

theorem Database.WellKeyed.key_of_mem (hkeyed : D.WellKeyed) (hlist : D.Listable)
    {e : Bytes × TableMeta} (he : e ∈ D.tables p d) :
    e.1 = tableKey p d e.2.name e.2.truncationId := by
  obtain ⟨⟨rest, hrest⟩, hinfo⟩ := ((hlist .tables (datasetScope_ne_nil p d)).mem e.1 e.2).mp he
  obtain ⟨p', d', hkey⟩ := hkeyed e.1 e.2 hinfo
  rw [hkey, tableKey, List.append_assoc] at hrest
  obtain ⟨rfl, rfl, -⟩ := datasetScope_inj hrest
  exact hkey

/-- **The incarnations of a name are listed from the oldest to the newest.** -/
theorem Database.WellKeyed.ascending (hkeyed : D.WellKeyed) (hlist : D.Listable) (p : ProjectId)
    (d : DatasetId) (name : String) :
    (D.incarnations p d name).Pairwise fun a b => a.truncationId.count < b.truncationId.count := by
  rw [Database.incarnations, List.pairwise_filter, List.pairwise_map]
  refine (hlist .tables (datasetScope_ne_nil p d)).sorted.imp_of_mem fun {a b} ha hb hlt hna
    hnb => ?_
  rw [hkeyed.key_of_mem hlist ha, hkeyed.key_of_mem hlist hb, of_decide_eq_true hna,
    of_decide_eq_true hnb] at hlt
  exact tableKey_lt.mp hlt

theorem newest_eq_getLast? {infos : List TableMeta}
    (h : infos.Pairwise fun a b => a.truncationId.count < b.truncationId.count) :
    newest infos = infos.getLast? := by
  induction infos using List.reverseRecOn with
  | nil => rfl
  | append_singleton infos x ih =>
    obtain ⟨hinfos, -, hlast⟩ := List.pairwise_append.mp h
    have ih := ih hinfos
    rw [newest] at ih
    rw [newest, List.foldl_append, ih, List.getLast?_concat]
    cases hy : infos.getLast? with
    | none => rfl
    | some y =>
      have hlt := hlast y (List.mem_of_getLast? hy) x (List.mem_singleton.mpr rfl)
      exact if_neg (not_lt.mpr hlt.le)

structure Removed (D : Database) (p : ProjectId) (d : DatasetId) (name : String)
    (rest : List TableMeta)
    (D' : Database) : Prop where
  metas : ∀ t, t ≠ .tables → D'.metas t = D.metas t
  left : D'.incarnations p d name = rest
  others : ∀ p' d' name', ¬ (p' = p ∧ d' = d ∧ name' = name) → D'.incarnations p' d' name'
    = D.incarnations p' d' name'

theorem Removed.liveTable {infos rest : List TableMeta} {D' : Database}
    (h : Removed D p d name rest D') (hkeyed : D.WellKeyed) (hlist : D.Listable)
    (hall : D.incarnations p d name = infos ++ rest) (p' : ProjectId) (d' : DatasetId)
    (name' : String) :
    D'.liveTable p' d' name' = D.liveTable p' d' name' ∨ D'.liveTable p' d' name' = none := by
  by_cases hsame : p' = p ∧ d' = d ∧ name' = name
  · obtain ⟨rfl, rfl, rfl⟩ := hsame
    have hasc := hkeyed.ascending hlist p' d' name'
    rw [hall] at hasc
    rw [Database.liveTable, Database.liveTable, h.left, hall, newest_eq_getLast? hasc,
      newest_eq_getLast? (List.pairwise_append.mp hasc).2.1, List.getLast?_append]
    cases rest.getLast? with
    | none => exact Or.inr rfl
    | some info => exact Or.inl rfl
  · exact Or.inl (congrArg newest (h.others p' d' name' hsame))

/-- **A table whose oldest incarnations were removed resolves as before, or not at all.** -/
theorem Removed.resolve {infos rest : List TableMeta} {D' : Database}
    (h : Removed D p d name rest D') (hkeyed : D.WellKeyed) (hlist : D.Listable)
    (hall : D.incarnations p d name = infos ++ rest) (project dataset table : String) :
    D'.resolve project dataset table = D.resolve project dataset table
      ∨ D'.resolve project dataset table = notFound .table table := by
  have hproject : D'.project project = D.project project := congrFun (h.metas .projects nofun) _
  have hdataset (p' : ProjectId) : D'.dataset p' dataset = D.dataset p' dataset :=
    congrFun (h.metas .datasets nofun) _
  have hschema (id : TableId) : D'.schema id = D.schema id := by
    rw [Database.schema, Database.columns, h.metas .columns nofun]
    rfl
  simp only [Database.resolve, hproject, hdataset, hschema]
  cases D.project project with
  | none => exact Or.inl rfl
  | some pm =>
    simp only [found_some_bind]
    cases D.dataset pm.id dataset with
    | none => exact Or.inl rfl
    | some dm =>
      simp only [found_some_bind]
      rcases h.liveTable hkeyed hlist hall pm.id dm.id table with hlive | hlive
      · exact Or.inl (by rw [hlive])
      · exact Or.inr (by rw [hlive, found_none_bind])

end Incarnations

/-! ### The drop -/

end StrataDb.Sql
