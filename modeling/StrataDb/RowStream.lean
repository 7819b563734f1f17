import StrataDb.Heap
import StrataDb.Plan

/-!
# Row streams and the pipelined operators (`crates/strata-db/src/query`: `executor.rs`, `scalar.rs`)

Nothing a stream does can be observed but its items, rows or errors, so a stream is the list of
them. Whoever pulls one stops at the first error.
-/

namespace StrataDb.Sql

open ByteCodec
open Runs (bind_eq_ok)
open List (mem_cons mem_cons_of_mem mem_cons_self)

abbrev RowStream := List (Outcome Tuple)

theorem exists_of_forall₂ {α β : Type} {R : α → β → Prop} {xs : List α} {ys : List β}
    (h : List.Forall₂ R xs ys) {y : β} (hy : y ∈ ys) : ∃ x ∈ xs, R x y := by
  induction h with
  | nil => cases hy
  | @cons a b _ _ hab _ ih =>
    rcases mem_cons.mp hy with rfl | hy
    · exact ⟨a, mem_cons_self, hab⟩
    · obtain ⟨x, hx, hR⟩ := ih hy
      exact ⟨x, mem_cons_of_mem _ hx, hR⟩

structure JoinConfig where
  partitionMemory : Nat
  partitionDisk : Nat
  buildBudget : Nat
  hashPartitions : Nat

/-- What a query reads: the tables, the catalog, its settings; and the functions of the
    crates that its scratch storage uses. -/
structure QueryContext where
  runtime : Runtime
  crc : Filesystem.Crc32c
  hash : Bytes → UInt32
  xxh3 : Bytes → UInt64 → UInt64
  joinConfig : JoinConfig
  scan : Table → RowStream
  catalog : CatalogReader

namespace RowStream

def collect : RowStream → Outcome (List Tuple)
  | [] => .ok []
  | row :: rest => do
    let tuple ← row
    return tuple :: (← collect rest)

def ofRows (rows : List Tuple) : RowStream := rows.map .ok

@[simp] theorem mem_ofRows {rows : List Tuple} {t : Tuple} : .ok t ∈ ofRows rows ↔ t ∈ rows := by
  simp [ofRows]

@[simp] theorem error_notMem_ofRows {rows : List Tuple} {f : Fault} : .error f ∉ ofRows rows := by
  simp [ofRows]

theorem ofRows_inj {rows rows' : List Tuple} (h : ofRows rows = ofRows rows') : rows = rows' :=
  List.map_injective_iff.mpr (fun _ _ => Except.ok.inj) h

theorem collect_ofRows (rows : List Tuple) : collect (ofRows rows) = .ok rows := by
  induction rows with
  | nil => rfl
  | cons row rows ih => exact bind_eq_ok.mpr ⟨row, rfl, bind_eq_ok.mpr ⟨rows, ih, rfl⟩⟩

theorem collect_eq_ok {stream : RowStream} {rows : List Tuple} :
    collect stream = .ok rows ↔ stream = ofRows rows := by
  constructor
  · intro h
    induction stream generalizing rows with
    | nil =>
      cases h
      rfl
    | cons item rest ih =>
      obtain ⟨tuple, rfl, hmore⟩ := bind_eq_ok.mp h
      obtain ⟨tuples, hrest, hreturn⟩ := bind_eq_ok.mp hmore
      cases hreturn
      rw [ih hrest]
      rfl
  · rintro rfl
    exact collect_ofRows rows

theorem mem_of_collect_error {stream : RowStream} {f : Fault} (h : collect stream = .error f) :
    .error f ∈ stream := by
  induction stream with
  | nil => cases h
  | cons item rest ih =>
    cases item with
    | error g =>
      cases h
      exact mem_cons_self
    | ok tuple =>
      cases hrest : collect rest with
      | error g =>
        rw [collect, hrest] at h
        cases h
        exact mem_cons_of_mem _ (ih hrest)
      | ok tuples =>
        rw [collect, hrest] at h
        cases h

theorem ofRows_or_error (stream : RowStream) :
    (∃ rows, stream = ofRows rows) ∨ ∃ f, .error f ∈ stream := by
  cases h : collect stream with
  | ok rows => exact Or.inl ⟨rows, collect_eq_ok.mp h⟩
  | error f => exact Or.inr ⟨f, mem_of_collect_error h⟩

end RowStream

def filter (rt : Runtime) (predicate : Expr) : RowStream → RowStream
  | [] => []
  | .error f :: rest => .error f :: filter rt predicate rest
  | .ok tuple :: rest =>
    match predicate.eval rt tuple with
    | .ok (.bool true) => .ok tuple :: filter rt predicate rest
    | .ok _ => filter rt predicate rest
    | .error f => .error f :: filter rt predicate rest

def evalRow (rt : Runtime) (tuple : Tuple) : List Expr → Outcome Tuple
  | [] => .ok []
  | e :: es => do
    let v ← e.eval rt tuple
    return v :: (← evalRow rt tuple es)

def project (rt : Runtime) (expressions : List Expr) (input : RowStream) : RowStream :=
  input.map fun row => do evalRow rt (← row) expressions

def limit (count : Nat) (input : RowStream) : RowStream := input.take count

def offset : Nat → RowStream → RowStream
  | 0, input => input
  | _ + 1, [] => []
  | count + 1, .ok _ :: rest => offset count rest
  | count + 1, .error f :: rest => .error f :: offset (count + 1) rest

/-! ### What the operators pass on -/

section PassedOn

variable {rt : Runtime} {predicate : Expr} {input : RowStream} {item : Outcome Tuple}

/-- An item of a filtered stream was one before, or is the predicate's failure at a row. -/
theorem mem_filter (h : item ∈ filter rt predicate input) :
    item ∈ input ∨ ∃ tuple f, .ok tuple ∈ input ∧ predicate.eval rt tuple = .error f
      ∧ item = .error f := by
  induction input with
  | nil => cases h
  | cons row rest ih =>
    have hmore : item ∈ filter rt predicate rest → item ∈ row :: rest ∨
        ∃ tuple f, .ok tuple ∈ row :: rest ∧ predicate.eval rt tuple = .error f
          ∧ item = .error f := by
      intro hrest
      refine (ih hrest).imp (mem_cons_of_mem _) ?_
      rintro ⟨tuple, f, hmem, heval⟩
      exact ⟨tuple, f, mem_cons_of_mem _ hmem, heval⟩
    cases row with
    | error g =>
      rw [filter] at h
      rcases mem_cons.mp h with rfl | hrest
      · exact Or.inl mem_cons_self
      · exact hmore hrest
    | ok tuple =>
      rw [filter] at h
      split at h
      · rcases mem_cons.mp h with rfl | hrest
        · exact Or.inl mem_cons_self
        · exact hmore hrest
      · exact hmore h
      · rename_i f heval
        rcases mem_cons.mp h with rfl | hrest
        · exact Or.inr ⟨tuple, f, mem_cons_self, heval, rfl⟩
        · exact hmore hrest

theorem mem_offset {count : Nat} (h : item ∈ offset count input) : item ∈ input := by
  induction input generalizing count with
  | nil => cases count <;> exact h
  | cons row rest ih =>
    cases count with
    | zero => exact h
    | succ count =>
      cases row with
      | ok tuple => exact mem_cons_of_mem _ (ih h)
      | error g =>
        rcases mem_cons.mp h with rfl | hrest
        · exact mem_cons_self
        · exact mem_cons_of_mem _ (ih hrest)

end PassedOn

end StrataDb.Sql
