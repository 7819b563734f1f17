import StrataDb.CatalogCalls

/-!
# Databases the catalog reaches

In every database that calls of the catalog and writes to the users' tables lead to, whatever
their outcomes, the rows of `_tables` are under the keys of the incarnations they describe.
-/

namespace StrataDb.Sql

open ByteCodec
open Commands
open Runs
open List (map_append map_const' map_map mem_append mem_map sum_append)

/-! ### Calls -/

inductive CatalogCall where
  | createProject (name : String) (fresh : ProjectId)
  | dropProject (name : String)
  | createDataset (projectId : ProjectId) (name : String) (fresh : DatasetId)
  | dropDataset (projectId : ProjectId) (name : String)
  | createTable (projectId : ProjectId) (datasetId : DatasetId) (name : String) (schema : Schema)
    (fresh : TableId)
  | replaceTable (projectId : ProjectId) (datasetId : DatasetId) (name : String) (schema : Schema)
    (fresh : TableId)
  | dropTable (projectId : ProjectId) (datasetId : DatasetId) (name : String)
  | put (h : TableHandle) (tuple : Tuple)
  | delete (h : TableHandle) (key : Value)

namespace CatalogCall

def after {σ : Type} (S : TableStorage σ) (serde : MetaSerde) : CatalogCall → σ → σ
  | createProject name fresh, s => (Sql.createProject S serde name fresh s).2
  | dropProject name, s => (Sql.dropProject S serde name s).2
  | createDataset p name fresh, s => (Sql.createDataset S serde p name fresh s).2
  | dropDataset p name, s => (Sql.dropDataset S serde p name s).2
  | createTable p d name schema fresh, s => (Sql.createTable S serde p d name schema fresh s).2
  | replaceTable p d name schema fresh, s => (Sql.replaceTable S serde p d name schema fresh s).2
  | dropTable p d name, s => (Sql.dropTable S serde p d name s).2
  | put h tuple, s => (S.put h tuple s).2
  | delete h key, s => (S.delete h key s).2

def cost : CatalogCall → Nat
  | createProject _ _ | createDataset _ _ _ | put _ _ => 1
  | createTable _ _ _ schema _ | replaceTable _ _ _ schema _ => schema.fields.length + 1
  | dropProject _ | dropDataset _ _ | dropTable _ _ _ | delete _ _ => 0

/-- Rows are written to tables outside of the system's project: minted identifiers are
    never reserved ones.  The metadata the call writes read back. -/
def Sound (rt : Runtime) (serde : MetaSerde) : CatalogCall → Prop
  | createProject name fresh => serde.project.ReadsBack rt ⟨fresh, name⟩
  | createDataset _ name fresh => serde.dataset.ReadsBack rt ⟨fresh, name⟩
  | createTable _ _ name schema _ | replaceTable _ _ name schema _ =>
    ColumnsReadBack rt serde schema ∧ TableReadsBack rt serde name
  | put h _ | delete h _ => h.projectId ≠ SYSTEM_PROJECT_ID
  | dropProject _ | dropDataset _ _ | dropTable _ _ _ => True

end CatalogCall

/-! ### Keys -/

def Database.WellKeyed (D : Database) : Prop :=
  ∀ key (info : TableMeta), D.metas .tables key = some info →
    ∃ projectId datasetId, key = tableKey projectId datasetId info.name info.truncationId

def DatabaseWrite.Keyed : DatabaseWrite → Prop
  | .info .tables key (some table) =>
    ∃ projectId datasetId, key = tableKey projectId datasetId (TableMeta.name table)
      (TableMeta.truncationId table)
  | _ => True

theorem Database.WellKeyed.write {D : Database} (h : D.WellKeyed) {w : DatabaseWrite}
    (hw : w.Keyed) :
    (D.write w).WellKeyed := by
  intro key info hinfo
  cases w with
  | row identity u bytes => exact h key info hinfo
  | info t u value =>
    by_cases ht : SystemTable.tables = t
    · subst ht
      rw [Database.metas_info, Function.update_apply] at hinfo
      split_ifs at hinfo with hkey
      · subst hinfo hkey
        exact hw
      · exact h key info hinfo
    · rw [Database.metas_info_of_ne ht] at hinfo
      exact h key info hinfo

theorem Database.WellKeyed.foldl {D : Database} (h : D.WellKeyed) {ws : List DatabaseWrite}
    (hws : ∀ w ∈ ws, w.Keyed) : (ws.foldl Database.write D).WellKeyed := by
  induction ws generalizing D with
  | nil => exact h
  | cons w ws ih =>
    exact ih (h.write (hws w List.mem_cons_self)) fun w' hw' => hws w' (List.mem_cons_of_mem w hw')

section Calls

variable {rt : Runtime} {serde : MetaSerde} {σ : Type} {S : TableStorage σ}
  {Holds : Nat → (Bytes → Option Bytes) → σ → Prop} {D : Database}

theorem Does.keeps {α : Type} (storage : StorageLaws rt S Holds) {c : Command σ Fault α}
    {ws : List DatabaseWrite} {r : Outcome α} (hc : Does rt serde Holds D c ws r)
    (hkeyed : D.WellKeyed) (hws : ∀ w ∈ ws, w.Keyed) {n : Nat}
    (hcost : (ws.map DatabaseWrite.cost).sum ≤ n) {room : Nat} {s : σ}
    (hs : Represented rt serde Holds (room + n) D s) :
    ∃ D', D'.WellKeyed ∧ Represented rt serde Holds room D' (c s).2 := by
  have hs' := storage.relaxes_represented _ _ _ _ (Nat.add_le_add_left hcost room) hs
  obtain ⟨done, out, s', hrun, hdone, hrep, -⟩ := hc room s hs'
  rw [hrun]
  exact ⟨_, hkeyed.foldl fun w hw => hws w (hdone.subset hw), hrep⟩

theorem cost_columnWrites (tableId : TableId) (schema : Schema) :
    ((columnWrites tableId schema).map DatabaseWrite.cost).sum = schema.fields.length := by
  have hone : (columnWrites tableId schema).map DatabaseWrite.cost = schema.fields.zipIdx.map
    fun _ => 1 := by
    rw [columnWrites, map_map]
    rfl
  rw [hone, map_const', List.sum_replicate, smul_eq_mul, Nat.mul_one, List.length_zipIdx]

theorem cost_clearWrites (D : Database) (tableId : TableId) :
    ((D.clearWrites tableId).map DatabaseWrite.cost).sum = 0 := by
  have hzero : (D.clearWrites tableId).map DatabaseWrite.cost = (D.columns tableId).map
    fun _ => 0 := by
    rw [Database.clearWrites, map_map]
    rfl
  rw [hzero, map_const', List.sum_replicate, smul_eq_mul, Nat.mul_zero]

theorem cost_dropWrites (D : Database) (projectId : ProjectId) (datasetId : DatasetId)
    (name : String) : ((D.dropWrites projectId datasetId name).map DatabaseWrite.cost).sum = 0 := by
  have hzero : (D.dropWrites projectId datasetId name).map DatabaseWrite.cost
      = (D.incarnations projectId datasetId name).map fun _ => 0 := by
    rw [Database.dropWrites, map_map]
    rfl
  rw [hzero, map_const', List.sum_replicate, smul_eq_mul, Nat.mul_zero]

theorem keyed_columnWrites (tableId : TableId) (schema : Schema) :
    ∀ w ∈ columnWrites tableId schema, w.Keyed := by
  intro w hw
  obtain ⟨x, -, rfl⟩ := mem_map.mp hw
  exact trivial

theorem keyed_createWrites (projectId : ProjectId) (datasetId : DatasetId) (name : String)
    (schema : Schema) (fresh : TableId) :
    ∀ w ∈ createWrites projectId datasetId name schema fresh, w.Keyed := by
  intro w hw
  rcases mem_append.mp hw with hw | hw
  · exact keyed_columnWrites fresh schema w hw
  · obtain rfl := List.mem_singleton.mp hw
    exact ⟨projectId, datasetId, rfl⟩

theorem keyed_replaceWrites (D : Database) (projectId : ProjectId) (datasetId : DatasetId)
    (name : String) (schema : Schema) (truncationId : TruncationId) (tableId : TableId) :
    ∀ w ∈ D.replaceWrites projectId datasetId name schema truncationId tableId, w.Keyed := by
  intro w hw
  rcases mem_append.mp hw with hw | hw
  · obtain ⟨col, -, rfl⟩ := mem_map.mp hw
    exact trivial
  · rcases mem_append.mp hw with hw | hw
    · exact keyed_columnWrites tableId schema w hw
    · obtain rfl := List.mem_singleton.mp hw
      exact ⟨projectId, datasetId, rfl⟩

/-- **Every call keeps the rows of `_tables` under their keys.** -/
theorem CatalogCall.keeps (storage : StorageLaws rt S Holds) (laws : rt.CodecLaws)
    {call : CatalogCall} (hcall : call.Sound rt serde) (hkeyed : D.WellKeyed) {room : Nat} {s : σ}
    (hs : Represented rt serde Holds (room + call.cost) D s) :
    ∃ D', D'.WellKeyed ∧ Represented rt serde Holds room D' (call.after S serde s) := by
  cases call with
  | createProject name fresh =>
    refine (createProject_performs storage laws hcall).keeps storage hkeyed ?_ ?_ hs <;>
      cases D.project name <;>
        simp [DatabaseWrite.Keyed, CatalogCall.cost, DatabaseWrite.cost_le_one]
  | dropProject name =>
    refine (dropProject_performs storage name).keeps storage hkeyed ?_ ?_ hs <;>
      cases D.project name <;> simp [DatabaseWrite.Keyed, DatabaseWrite.cost]
  | createDataset projectId name fresh =>
    refine (createDataset_performs storage laws projectId hcall).keeps storage hkeyed ?_ ?_ hs <;>
      cases D.dataset projectId name <;>
        simp [DatabaseWrite.Keyed, CatalogCall.cost, DatabaseWrite.cost_le_one]
  | dropDataset projectId name =>
    refine (dropDataset_performs storage projectId name).keeps storage hkeyed ?_ ?_ hs <;>
      cases D.dataset projectId name <;> simp [DatabaseWrite.Keyed, DatabaseWrite.cost]
  | createTable projectId datasetId name schema fresh =>
    cases hlive : D.liveTable projectId datasetId name with
    | some info =>
      exact (createTable_exists storage hlive schema fresh).keeps storage hkeyed (by simp)
        (Nat.zero_le _) hs
    | none =>
      refine (createTable_performs storage laws hlive hcall.1 hcall.2 fresh).keeps storage hkeyed
        (keyed_createWrites projectId datasetId name schema fresh) ?_ hs
      rw [createWrites, map_append, sum_append, cost_columnWrites]
      exact Nat.le_refl _
  | replaceTable projectId datasetId name schema fresh =>
    cases hnext : nextIncarnation name fresh (D.liveTable projectId datasetId name) with
    | error f =>
      exact (replaceTable_exhausted storage hnext schema).keeps storage hkeyed (by simp)
        (Nat.zero_le _) hs
    | ok next =>
      refine (replaceTable_performs storage laws hnext hcall.1 hcall.2).keeps storage hkeyed
        (keyed_replaceWrites D projectId datasetId name schema next.1 next.2) ?_ hs
      rw [Database.replaceWrites, map_append, sum_append, cost_clearWrites, Nat.zero_add,
        map_append, sum_append, cost_columnWrites]
      exact Nat.le_refl _
  | dropTable projectId datasetId name =>
    refine (dropTable_performs storage projectId datasetId name).keeps storage hkeyed ?_ ?_ hs
    · intro w hw
      obtain ⟨info, -, rfl⟩ := mem_map.mp hw
      exact trivial
    · exact (cost_dropWrites D projectId datasetId name).le
  | put h tuple =>
    cases henc : h.encodeRow rt tuple with
    | error f => exact (put_refused storage henc).keeps storage hkeyed (by simp) (Nat.zero_le _) hs
    | ok row =>
      exact (put_performs storage hcall henc).keeps storage hkeyed (by simp [DatabaseWrite.Keyed])
        (Nat.le_refl _) hs
  | delete h key =>
    cases hkey : userKey key with
    | error f =>
      exact (delete_refused storage hkey).keeps storage hkeyed (by simp) (Nat.zero_le _) hs
    | ok u =>
      exact (delete_performs storage hcall hkey).keeps storage hkeyed
        (by simp [DatabaseWrite.Keyed]) (Nat.le_refl _) hs

end Calls

/-! ### Runs -/

inductive CatalogEvent where
  | call (call : CatalogCall)
  | maintain

def CatalogEvent.cost : CatalogEvent → Nat
  | call c => c.cost
  | maintain => 0

end StrataDb.Sql
