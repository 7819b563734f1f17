import StrataDb.SortWidth

/-!
# A predicate parts the rows of a plan (`volcano/scalar.rs`: `filter`)

`WHERE p`, `WHERE NOT p` and `WHERE p IS NULL` give every row of the plan under them once.
-/

namespace StrataDb.Sql

open Runs (bind_eq_ok)
open RowStream (collect_ofRows ofRows)

/-- Whether a row passes a predicate; `NULL` does not. -/
def passes (rt : Runtime) (predicate : Expr) (t : Tuple) : Bool :=
  match predicate.eval rt t with
  | .ok (.bool true) => true
  | _ => false

section Laws

variable {ctx : QueryContext} {rt : Runtime} {rows : List Tuple} {predicate : Expr}

theorem filter_ofRows (h : ∀ t ∈ rows, ∃ v, predicate.eval rt t = .ok v) :
    filter rt predicate (.ofRows rows) = .ofRows (rows.filter (passes rt predicate)) := by
  induction rows with
  | nil => rfl
  | cons t rows ih =>
    obtain ⟨v, hv⟩ := h t List.mem_cons_self
    have hrest := ih fun s hs => h s (List.mem_cons_of_mem _ hs)
    rw [ofRows, List.map_cons, filter, hv, List.filter_cons, passes, hv]
    cases v with
    | bool b =>
      cases b with
      | true => exact congrArg (_ :: ·) hrest
      | false => exact hrest
    | _ => exact hrest

theorem drain_filter {input : PlanNode} (hrows : drain ctx input = .ok rows)
    (heval : ∀ t ∈ rows, ∃ v, predicate.eval ctx.runtime t = .ok v) :
    drain ctx (.filter input predicate) = .ok (rows.filter (passes ctx.runtime predicate)) := by
  refine bind_eq_ok.mpr ⟨_, bind_eq_ok.mpr ⟨_, build_of_drain hrows, rfl⟩, ?_⟩
  rw [filter_ofRows heval, collect_ofRows]

/-- **A predicate parts the rows of every plan**: each row is given by exactly one of
    `WHERE p`, `WHERE NOT p` and `WHERE p IS NULL`. -/
theorem where_partitions_rows (ctx : QueryContext) {input : PlanNode}
    (hrows : drain ctx input = .ok rows)
    (htruth : ∀ t ∈ rows, ∃ v, predicate.eval ctx.runtime t = .ok v ∧ v.fits .bool = true) :
    ∃ yes no unknown, drain ctx (.filter input predicate) = .ok yes ∧
      drain ctx (.filter input (.not predicate)) = .ok no ∧
      drain ctx (.filter input (.isNull predicate false)) = .ok unknown
        ∧ (yes ++ (no ++ unknown)).Perm rows := by
  -- the three truth values
  have hcases : ∀ t ∈ rows, ∃ v, predicate.eval ctx.runtime t = .ok v
    ∧ (v = .null ∨ v = .bool true ∨ v = .bool false) := by
    intro t ht
    obtain ⟨v, hv, hfits⟩ := htruth t ht
    refine ⟨v, hv, ?_⟩
    cases v with
    | bool b => cases b <;> simp
    | null => exact Or.inl rfl
    | _ => cases hfits
  have hno : ∀ t ∈ rows, ∃ v, (Expr.not predicate).eval ctx.runtime t = .ok v := by
    intro t ht
    obtain ⟨v, hv, rfl | rfl | rfl⟩ := hcases t ht <;> exact ⟨_, by rw [Expr.eval, hv]; rfl⟩
  have hunknown : ∀ t ∈ rows, ∃ v, (Expr.isNull predicate false).eval ctx.runtime t = .ok v := by
    intro t ht
    obtain ⟨v, hv, -⟩ := hcases t ht
    exact ⟨_, by rw [Expr.eval, hv]; rfl⟩
  refine ⟨_, _, _, drain_filter hrows fun t ht => (hcases t ht).imp fun _ h => h.1,
    drain_filter hrows hno,
    drain_filter hrows hunknown, ?_⟩
  -- what is not true is false or unknown
  have hparts : ∀ t ∈ rows,
      passes ctx.runtime (.not predicate) t
          = (!passes ctx.runtime (.isNull predicate false) t && !passes ctx.runtime predicate t) ∧
        passes ctx.runtime (.isNull predicate false) t
          = (!!passes ctx.runtime (.isNull predicate false) t && !passes ctx.runtime predicate
            t) := by
    intro t ht
    obtain ⟨v, hv, rfl | rfl | rfl⟩ :=
      hcases t ht <;> constructor <;> simp only [passes, Expr.eval, hv] <;> rfl
  rw [List.filter_congr fun t ht => (hparts t ht).1, List.filter_congr fun t ht => (hparts t ht).2,
    ← List.filter_filter, ← List.filter_filter]
  exact ((List.filter_append_perm _ _).append_left _).trans (List.filter_append_perm _ _)

theorem where_partitions_three_rows : ∃ yes no unknown,
    drain emptyContext (.filter (.values [[.bool true], [.null], [.bool false]]) (.column 0))
      = .ok yes ∧
      drain emptyContext (.filter (.values [[.bool true], [.null], [.bool false]])
        (.not (.column 0))) = .ok no ∧
      drain emptyContext (.filter (.values [[.bool true], [.null], [.bool false]])
        (.isNull (.column 0) false))
        = .ok unknown ∧
      (yes ++ (no ++ unknown)).Perm [[.bool true], [.null], [.bool false]] := by
  refine where_partitions_rows emptyContext rfl ?_
  intro t ht
  fin_cases ht <;> exact ⟨_, rfl, rfl⟩

end Laws

end StrataDb.Sql
