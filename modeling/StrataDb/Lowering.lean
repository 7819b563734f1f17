import StrataDb.BindInsert

/-!
# What `IN`, `BETWEEN` and the simple `CASE` mean (`planner/binder/expr.rs`)

The binder lowers the three forms to comparisons, conjunctions, disjunctions and the searched
`CASE`; the lowered expressions mean what the forms do in SQL's three-valued logic, whenever their
evaluation succeeds.
-/

namespace StrataDb.Sql

open Runs (bind_eq_ok)

/-! ### Three-valued logic -/

abbrev Truth := Option Bool

namespace Truth

def and : Truth → Truth → Truth
  | some false, _ | _, some false => some false
  | some true, some true => some true
  | _, _ => none

def or : Truth → Truth → Truth
  | some true, _ | _, some true => some true
  | some false, some false => some false
  | _, _ => none

def not (t : Truth) : Truth :=
  t.map Bool.not

def negateIf (negated : Bool) (t : Truth) : Truth :=
  if negated then t.not else t

def toValue : Truth → Value
  | some b => .bool b
  | none => .null

theorem or_eq_true {a b : Truth} : a.or b = some true ↔ a = some true ∨ b = some true := by
  rcases a with _ | _ | _ <;> rcases b with _ | _ | _ <;> decide

theorem or_eq_false {a b : Truth} : a.or b = some false ↔ a = some false ∧ b = some false := by
  rcases a with _ | _ | _ <;> rcases b with _ | _ | _ <;> decide

theorem foldl_or_eq_true {α : Type} (f : α → Truth) (xs : List α) (t : Truth) :
    xs.foldl (fun t x => t.or (f x)) t = some true ↔ t = some true ∨ ∃ x ∈ xs, f x = some true := by
  induction xs generalizing t with
  | nil => simp
  | cons x xs ih => rw [List.foldl_cons, ih, or_eq_true, List.exists_mem_cons_iff, or_assoc]

theorem foldl_or_eq_false {α : Type} (f : α → Truth) (xs : List α) (t : Truth) :
    xs.foldl (fun t x => t.or (f x)) t = some false ↔ t = some false ∧ ∀ x ∈ xs,
      f x = some false := by
  induction xs generalizing t with
  | nil => simp
  | cons x xs ih => rw [List.foldl_cons, ih, or_eq_false, List.forall_mem_cons, and_assoc]

end Truth

def eqTruth (rt : Runtime) (x y : Value) : Truth :=
  if x.isNull || y.isNull then none else some (valuesEq rt x y)

def Compares (rt : Runtime) (holds : Ordering → Bool) (x y : Value) (t : Truth) : Prop :=
  if x.isNull || y.isNull then t = none else ∃ ord, cmpValues rt x y = .ok ord
    ∧ t = some (holds ord)

def membership (rt : Runtime) (x : Value) (ys : List Value) : Truth :=
  if ∃ y ∈ ys, eqTruth rt x y = some true then some true
  else if ys ≠ [] ∧ (x.isNull ∨ ∃ y ∈ ys, y.isNull) then none
  else some false

/-! ### The evaluator's connectives -/

section Connectives

variable {rt : Runtime} {tuple : Tuple}

theorem evalBinary_eq (x y : Value) : evalBinary rt .eq x y = .ok (eqTruth rt x y).toValue := by
  have hrun : evalBinary rt .eq x y
      = if x.isNull || y.isNull then .ok .null else .ok (.bool (valuesEq rt x y)) := rfl
  rw [hrun, eqTruth]
  split_ifs
  · rfl
  · rfl

theorem compares_of_eval {op : BinaryOperator} {holds : Ordering → Bool} {x y v : Value}
    (hop : evalBinary rt op x y = if x.isNull || y.isNull then .ok .null
      else do return .bool (holds (← cmpValues rt x y)))
    (h : evalBinary rt op x y = .ok v) : ∃ t : Truth, Compares rt holds x y t ∧ v = t.toValue := by
  rw [hop] at h
  unfold Compares
  split_ifs at h ⊢
  · exact ⟨none, rfl, (Except.ok.inj h).symm⟩
  · obtain ⟨ord, hord, hv⟩ := bind_eq_ok.mp h
    exact ⟨some (holds ord), ⟨ord, hord, rfl⟩, (Except.ok.inj hv).symm⟩

theorem evalBinary_or (a b : Truth) :
    evalBinary rt .or a.toValue b.toValue = .ok (a.or b).toValue := by
  rcases a with _ | _ | _ <;> rcases b with _ | _ | _ <;> rfl

theorem evalBinary_and (a b : Truth) :
    evalBinary rt .and a.toValue b.toValue = .ok (a.and b).toValue := by
  rcases a with _ | _ | _ <;> rcases b with _ | _ | _ <;> rfl

theorem eval_binary_eq_ok {op : BinaryOperator} {lhs rhs : Expr} {v : Value} :
    (Expr.binary op lhs rhs).eval rt tuple = .ok v
      ↔ ∃ l r, lhs.eval rt tuple = .ok l ∧ rhs.eval rt tuple = .ok r
        ∧ evalBinary rt op l r = .ok v := by
  rw [Expr.eval, bind_eq_ok]
  constructor
  · rintro ⟨l, hl, h⟩
    obtain ⟨r, hr, h⟩ := bind_eq_ok.mp h
    exact ⟨l, r, hl, hr, h⟩
  · rintro ⟨l, r, hl, hr, h⟩
    exact ⟨l, hl, bind_eq_ok.mpr ⟨r, hr, h⟩⟩

theorem eval_negateIf {e : Expr} {t : Truth} (h : e.eval rt tuple = .ok t.toValue)
    (negated : Bool) :
    (if negated then Expr.not e else e).eval rt tuple = .ok (t.negateIf negated).toValue := by
  cases negated with
  | false => exact h
  | true =>
    have hnot : (Expr.not e).eval rt tuple = .ok t.not.toValue := by
      rw [Expr.eval, h]
      rcases t with _ | _ | _ <;> rfl
    exact hnot

theorem eval_of_negateIf {e : Expr} {negated : Bool} {out : Value}
    (h : (if negated then Expr.not e else e).eval rt tuple = .ok out) :
    ∃ v, e.eval rt tuple = .ok v := by
  cases negated with
  | false => exact ⟨out, h⟩
  | true =>
    have hnot : (Expr.not e).eval rt tuple = .ok out := h
    rw [Expr.eval] at hnot
    obtain ⟨v, hv, -⟩ := bind_eq_ok.mp hnot
    exact ⟨v, hv⟩

end Connectives

/-! ### `IN` -/

section Membership

variable {rt : Runtime} {tuple : Tuple} {x : Value}

theorem foldl_or_eq_membership (y : Value) (ys : List Value) :
    ys.foldl (fun t y => t.or (eqTruth rt x y)) (eqTruth rt x y) = membership rt x (y :: ys) := by
  have htrue := Truth.foldl_or_eq_true (eqTruth rt x) ys (eqTruth rt x y)
  have hfalse := Truth.foldl_or_eq_false (eqTruth rt x) ys (eqTruth rt x y)
  rw [← List.exists_mem_cons_iff (fun y => eqTruth rt x y = some true)] at htrue
  rw [← List.forall_mem_cons (p := fun y => eqTruth rt x y = some false)] at hfalse
  rw [membership]
  split_ifs with hmem hnull
  · exact htrue.mpr hmem
  · -- an unknown comparison, and none that is true
    rcases hfold : ys.foldl (fun t y => t.or (eqTruth rt x y)) (eqTruth rt x y) with _ | _ | _
    · exact hfold
    · have hall := hfalse.mp hfold
      obtain ⟨-, hx | ⟨z, hz, hznull⟩⟩ := hnull
      · have := hall y List.mem_cons_self
        rw [eqTruth, hx] at this
        cases this
      · have := hall z hz
        rw [eqTruth, hznull, Bool.or_true] at this
        cases this
    · exact absurd (htrue.mp hfold) hmem
  · apply hfalse.mpr
    intro z hz
    have hneither : (x.isNull || z.isNull) = false := by
      rw [Bool.or_eq_false_iff, ← Bool.not_eq_true, ← Bool.not_eq_true]
      exact ⟨fun hx => hnull ⟨List.cons_ne_nil y ys, Or.inl hx⟩,
        fun hzn => hnull ⟨List.cons_ne_nil y ys, Or.inr ⟨z, hz, hzn⟩⟩⟩
    have hnot : eqTruth rt x z ≠ some true := fun heq => hmem ⟨z, hz, heq⟩
    rw [eqTruth, hneither] at hnot ⊢
    simpa using hnot

theorem collect_cons_eq_ok {o : Outcome Value} {os : List (Outcome Value)} {vs : List Value} :
    collect (o :: os) = .ok vs ↔ ∃ v rest, o = .ok v ∧ collect os = .ok rest ∧ vs = v :: rest := by
  rw [collect, bind_eq_ok]
  constructor
  · rintro ⟨v, hv, h⟩
    obtain ⟨rest, hrest, h⟩ := bind_eq_ok.mp h
    exact ⟨v, rest, hv, hrest, (Except.ok.inj h).symm⟩
  · rintro ⟨v, rest, hv, hrest, rfl⟩
    exact ⟨v, hv, bind_eq_ok.mpr ⟨rest, hrest, rfl⟩⟩

theorem exists_lowerInFrom (value prev : Expr) (items : List Expr) :
    ∃ e, lowerInFrom value (some prev) items = some e := by
  induction items generalizing prev with
  | nil => exact ⟨prev, rfl⟩
  | cons item items ih => exact ih _

theorem parts_of_lowerInFrom {value : Expr} (items : List Expr) {prev e : Expr} {out : Value}
    (hlower : lowerInFrom value (some prev) items = some e) (h : e.eval rt tuple = .ok out) :
    (∃ v, prev.eval rt tuple = .ok v) ∧ ∃ ys, collect (outcomes rt tuple items) = .ok ys := by
  induction items generalizing prev with
  | nil =>
    cases hlower
    exact ⟨⟨out, h⟩, [], rfl⟩
  | cons item items ih =>
    obtain ⟨⟨v, hv⟩, ys, hys⟩ := ih hlower
    obtain ⟨l, r, hl, hr, -⟩ := eval_binary_eq_ok.mp hv
    obtain ⟨_, y, -, hy, -⟩ := eval_binary_eq_ok.mp hr
    exact ⟨⟨l, hl⟩, y :: ys, collect_cons_eq_ok.mpr ⟨y, ys, hy, hys, rfl⟩⟩

theorem eval_lowerInFrom {value : Expr} (hx : value.eval rt tuple = .ok x) (items : List Expr)
    {prev : Expr} {t : Truth} (hprev : prev.eval rt tuple = .ok t.toValue) {ys : List Value}
    (hys : collect (outcomes rt tuple items) = .ok ys) :
    ∃ e, lowerInFrom value (some prev) items = some e
      ∧ e.eval rt tuple = .ok (ys.foldl (fun t y => t.or (eqTruth rt x y)) t).toValue := by
  induction items generalizing prev t ys with
  | nil =>
    cases hys
    exact ⟨prev, rfl, hprev⟩
  | cons item items ih =>
    obtain ⟨y, rest, hy, hrest, rfl⟩ := collect_cons_eq_ok.mp hys
    have heq : (Expr.binary .eq value item).eval rt tuple = .ok (eqTruth rt x y).toValue :=
      eval_binary_eq_ok.mpr ⟨x, y, hx, hy, evalBinary_eq x y⟩
    have hor : (Expr.binary .or prev (.binary .eq value item)).eval rt tuple
      = .ok (t.or (eqTruth rt x y)).toValue :=
      eval_binary_eq_ok.mpr ⟨_, _, hprev, heq, evalBinary_or t _⟩
    exact ih hor hrest

theorem eval_lowerInList {value : Expr} {items : List Expr} {negated : Bool} {out : Value}
    (h : (lowerInList negated value items).eval rt tuple = .ok out) :
    ∃ x ys, (items = [] ∨ value.eval rt tuple = .ok x) ∧ collect (outcomes rt tuple items) = .ok ys
      ∧ out = ((membership rt x ys).negateIf negated).toValue := by
  cases items with
  | nil =>
    have hfalse : (Expr.literal (.bool false)).eval rt tuple = .ok (Truth.toValue (some false)) :=
      rfl
    exact ⟨.null, [], Or.inl rfl, rfl, Except.ok.inj (h.symm.trans (eval_negateIf hfalse negated))⟩
  | cons item items =>
    obtain ⟨e, he⟩ := exists_lowerInFrom value (.binary .eq value item) items
    have hlower : lowerInList negated value (item :: items) = if negated then .not e else e := by
      rw [lowerInList, lowerInFrom, he]
      rfl
    rw [hlower] at h
    obtain ⟨v, hv⟩ := eval_of_negateIf h
    obtain ⟨⟨first, hfirst⟩, ys, hys⟩ := parts_of_lowerInFrom items he hv
    obtain ⟨x, y, hx, hy, -⟩ := eval_binary_eq_ok.mp hfirst
    have heq : (Expr.binary .eq value item).eval rt tuple = .ok (eqTruth rt x y).toValue :=
      eval_binary_eq_ok.mpr ⟨x, y, hx, hy, evalBinary_eq x y⟩
    obtain ⟨e', he', heval⟩ := eval_lowerInFrom hx items heq hys
    obtain rfl := Option.some.inj (he.symm.trans he')
    rw [foldl_or_eq_membership] at heval
    exact ⟨x, y :: ys, Or.inr hx, collect_cons_eq_ok.mpr ⟨y, ys, hy, hys, rfl⟩,
      Except.ok.inj (h.symm.trans (eval_negateIf heval negated))⟩

end Membership

/-- **The lowered `BETWEEN` is the conjunction of the two comparisons.** -/
theorem eval_lowerBetween {rt : Runtime} {tuple : Tuple} {negated : Bool} {value low high : Expr}
    {out : Value} (h : (lowerBetween negated value low high).eval rt tuple = .ok out) :
    ∃ x lo hi ge le, value.eval rt tuple = .ok x ∧ low.eval rt tuple = .ok lo
      ∧ high.eval rt tuple = .ok hi
      ∧ Compares rt Ordering.isGE x lo ge ∧ Compares rt Ordering.isLE x hi le
      ∧ out = ((ge.and le).negateIf negated).toValue := by
  obtain ⟨v, hv⟩ := eval_of_negateIf h
  obtain ⟨l, r, hl, hr, -⟩ := eval_binary_eq_ok.mp hv
  obtain ⟨x, lo, hx, hlo, hge⟩ := eval_binary_eq_ok.mp hl
  obtain ⟨x', hi, hx', hhi, hle⟩ := eval_binary_eq_ok.mp hr
  obtain rfl := Except.ok.inj (hx.symm.trans hx')
  obtain ⟨ge, hcmpGe, rfl⟩ := compares_of_eval rfl hge
  obtain ⟨le, hcmpLe, rfl⟩ := compares_of_eval rfl hle
  have hand : (Expr.binary .and (.binary .gtEq value low) (.binary .ltEq value high)).eval rt tuple
      = .ok (ge.and le).toValue := eval_binary_eq_ok.mpr ⟨_, _, hl, hr, evalBinary_and ge le⟩
  exact ⟨x, lo, hi, ge, le, hx, hlo, hhi, hcmpGe, hcmpLe,
    Except.ok.inj (h.symm.trans (eval_negateIf hand negated))⟩

/-! ### Simple `CASE` -/

def BoundWhens (rt : Runtime) (scope : Option Scope) (conditions : List (AstExpr × AstExpr))
    (whens : List (Expr × Expr)) : Prop :=
  List.Forall₂ (fun ast w => ast.1.bind rt scope = .ok w.1 ∧ ast.2.bind rt scope = .ok w.2)
    conditions whens

def Differs (rt : Runtime) (tuple : Tuple) (x : Value) (w : Expr × Expr) : Prop :=
  ∃ y, w.1.eval rt tuple = .ok y ∧ eqTruth rt x y ≠ some true

/-- The result of the first `WHEN` that equals the operand, else that of the `ELSE`. -/
def SelectsCase (rt : Runtime) (tuple : Tuple) (x : Value) (whens : List (Expr × Expr))
    (otherwise : Outcome Value) (out : Value) : Prop :=
  (∃ before w after y, whens = before ++ w :: after ∧ (∀ b ∈ before, Differs rt tuple x b)
      ∧ w.1.eval rt tuple = .ok y ∧ eqTruth rt x y = some true ∧ w.2.eval rt tuple = .ok out)
    ∨ (∀ w ∈ whens, Differs rt tuple x w) ∧ otherwise = .ok out

section Case

variable {rt : Runtime} {tuple : Tuple} {scope : Option Scope}

theorem whens_of_bindConditions {op : Expr} (conditions : List (AstExpr × AstExpr))
    {branches : List (Expr × Expr)}
    (h : bindConditions rt scope (some op) conditions = .ok branches) :
    ∃ whens, BoundWhens rt scope conditions whens
      ∧ branches = whens.map fun w => (.binary .eq op w.1, w.2) := by
  induction conditions generalizing branches with
  | nil =>
    cases h
    exact ⟨[], .nil, rfl⟩
  | cons ast conditions ih =>
    rw [bindConditions] at h
    obtain ⟨cond, hcond, h⟩ := bind_eq_ok.mp h
    obtain ⟨result, hresult, h⟩ := bind_eq_ok.mp h
    obtain ⟨rest, hrest, h⟩ := bind_eq_ok.mp h
    obtain ⟨whens, hwhens, rfl⟩ := ih hrest
    exact ⟨(cond, result) :: whens, .cons ⟨hcond, hresult⟩ hwhens, (Except.ok.inj h).symm⟩

theorem selectsCase_of_firstBranch {op : Expr} {x : Value} (hop : op.eval rt tuple = .ok x)
    (whens : List (Expr × Expr)) {otherwise : Outcome Value} {out : Value}
    (h : firstBranch (branchOutcomes rt tuple (whens.map fun w => (.binary .eq op w.1, w.2)))
      otherwise = .ok out) :
    SelectsCase rt tuple x whens otherwise out := by
  induction whens with
  | nil => exact Or.inr ⟨by simp, h⟩
  | cons w whens ih =>
    rw [List.map_cons, branchOutcomes, firstBranch] at h
    obtain ⟨v, hv, h⟩ := bind_eq_ok.mp h
    obtain ⟨x', y, hx', hy, hvalue⟩ := eval_binary_eq_ok.mp hv
    obtain rfl := Except.ok.inj (hop.symm.trans hx')
    rw [evalBinary_eq] at hvalue
    obtain rfl := Except.ok.inj hvalue
    by_cases heq : eqTruth rt x y = some true
    · rw [heq] at h
      exact Or.inl ⟨[], w, whens, y, rfl, by simp, hy, heq, h⟩
    · have hnext :
          firstBranch (branchOutcomes rt tuple (whens.map fun w => (.binary .eq op w.1, w.2)))
          otherwise
          = .ok out := by
        rcases ht : eqTruth rt x y with _ | _ | _
        · rwa [ht] at h
        · rwa [ht] at h
        · exact absurd ht heq
      rcases ih hnext with ⟨before, w', after, y', rfl, hbefore, hw'⟩ | ⟨hall, helse⟩
      · exact Or.inl ⟨w :: before, w', after, y', rfl,
          List.forall_mem_cons.mpr ⟨⟨y, hy, heq⟩, hbefore⟩, hw'⟩
      · exact Or.inr ⟨List.forall_mem_cons.mpr ⟨⟨y, hy, heq⟩, hall⟩, helse⟩

theorem eval_simpleCase {op : Expr} {whens : List (Expr × Expr)} {elseResult : Option Expr}
    {out : Value}
    (h : (Expr.case (whens.map fun w => (.binary .eq op w.1, w.2)) elseResult).eval rt tuple
      = .ok out) :
    ∃ x, (whens = [] ∨ op.eval rt tuple = .ok x)
      ∧ SelectsCase rt tuple x whens (elseOutcome rt tuple elseResult) out := by
  rw [Expr.eval] at h
  cases whens with
  | nil => exact ⟨.null, Or.inl rfl, Or.inr ⟨by simp, h⟩⟩
  | cons w whens =>
    have hfirst := h
    rw [List.map_cons, branchOutcomes, firstBranch] at hfirst
    obtain ⟨v, hv, -⟩ := bind_eq_ok.mp hfirst
    obtain ⟨x, y, hx, -, -⟩ := eval_binary_eq_ok.mp hv
    exact ⟨x, Or.inr hx, selectsCase_of_firstBranch hx (w :: whens) h⟩

end Case

/-! ### The three forms -/

/-- **`IN`, `BETWEEN` and the simple `CASE` have their SQL meaning.**  Whenever the bound
    expression evaluates: `[NOT] IN` to the three-valued membership of the operand's value in
    the list's, `[NOT] BETWEEN` to the conjunction of the two comparisons, and `CASE x` to the
    result of the first `WHEN` that equals `x`, else to that of the `ELSE`, which is `NULL` if
    there is none. -/
theorem lowered_forms_mean (rt : Runtime) (scope : Option Scope) (tuple : Tuple) :
    (∀ (e : AstExpr) (list : List AstExpr) (negated : Bool) (bound : Expr) (out : Value),
      (AstExpr.inList e list negated).bind rt scope = .ok bound → bound.eval rt tuple = .ok out →
      ∃ value items x ys, e.bind rt scope = .ok value ∧ bindAll rt scope list = .ok items
        ∧ (items = [] ∨ value.eval rt tuple = .ok x) ∧ collect (outcomes rt tuple items) = .ok ys
        ∧ out = ((membership rt x ys).negateIf negated).toValue)
    ∧ (∀ (e low high : AstExpr) (negated : Bool) (bound : Expr) (out : Value),
      (AstExpr.between e negated low high).bind rt scope = .ok bound →
      bound.eval rt tuple = .ok out →
      ∃ value lowest highest x lo hi ge le, e.bind rt scope = .ok value
        ∧ low.bind rt scope = .ok lowest
        ∧ high.bind rt scope = .ok highest ∧ value.eval rt tuple = .ok x
          ∧ lowest.eval rt tuple = .ok lo
        ∧ highest.eval rt tuple = .ok hi ∧ Compares rt Ordering.isGE x lo ge
          ∧ Compares rt Ordering.isLE x hi le
        ∧ out = ((ge.and le).negateIf negated).toValue)
    ∧ ∀ (e : AstExpr) (conditions : List (AstExpr × AstExpr)) (elseResult : Option AstExpr)
      (bound : Expr) (out : Value),
      (AstExpr.case (some e) conditions elseResult).bind rt scope = .ok bound →
      bound.eval rt tuple = .ok out →
      ∃ op whens otherwise x, e.bind rt scope = .ok op ∧ BoundWhens rt scope conditions whens
        ∧ bindOption rt scope elseResult = .ok otherwise ∧ (whens = [] ∨ op.eval rt tuple = .ok x)
        ∧ SelectsCase rt tuple x whens (elseOutcome rt tuple otherwise) out := by
  refine ⟨?_, ?_, ?_⟩
  · intro e list negated bound out hbind heval
    rw [AstExpr.bind] at hbind
    obtain ⟨value, hvalue, hbind⟩ := bind_eq_ok.mp hbind
    obtain ⟨items, hitems, hbind⟩ := bind_eq_ok.mp hbind
    obtain rfl := Except.ok.inj hbind
    obtain ⟨x, ys, hx, hys, hout⟩ := eval_lowerInList heval
    exact ⟨value, items, x, ys, hvalue, hitems, hx, hys, hout⟩
  · intro e low high negated bound out hbind heval
    rw [AstExpr.bind] at hbind
    obtain ⟨value, hvalue, hbind⟩ := bind_eq_ok.mp hbind
    obtain ⟨lowest, hlow, hbind⟩ := bind_eq_ok.mp hbind
    obtain ⟨highest, hhigh, hbind⟩ := bind_eq_ok.mp hbind
    obtain rfl := Except.ok.inj hbind
    obtain ⟨x, lo, hi, ge, le, hparts⟩ := eval_lowerBetween heval
    exact ⟨value, lowest, highest, x, lo, hi, ge, le, hvalue, hlow, hhigh, hparts⟩
  · intro e conditions elseResult bound out hbind heval
    rw [AstExpr.bind] at hbind
    obtain ⟨operand, hoperand, hbind⟩ := bind_eq_ok.mp hbind
    obtain ⟨branches, hbranches, hbind⟩ := bind_eq_ok.mp hbind
    obtain ⟨otherwise, helse, hbind⟩ := bind_eq_ok.mp hbind
    obtain rfl := Except.ok.inj hbind
    rw [bindOption] at hoperand
    obtain ⟨op, hop, hoperand⟩ := bind_eq_ok.mp hoperand
    obtain rfl := Except.ok.inj hoperand
    obtain ⟨whens, hwhens, rfl⟩ := whens_of_bindConditions conditions hbranches
    obtain ⟨x, hx, hselects⟩ := eval_simpleCase heval
    exact ⟨op, whens, otherwise, x, hop, hwhens, helse, hx, hselects⟩

/-- `1 NOT IN (NULL, 1)` is false. -/
theorem lowered_forms_mean_not_in :
    ∃ bound, (AstExpr.inList (.value (.number "1")) [.value .null, .value (.number "1")] true).bind
      (readsNumber 1) none
        = .ok bound
      ∧ bound.eval (readsNumber 1) [] = .ok (.bool false)
      ∧ ∃ value items x ys, (AstExpr.value (.number "1")).bind (readsNumber 1) none = .ok value
        ∧ bindAll (readsNumber 1) none [.value .null, .value (.number "1")] = .ok items
        ∧ (items = [] ∨ value.eval (readsNumber 1) [] = .ok x)
        ∧ collect (outcomes (readsNumber 1) [] items) = .ok ys
        ∧ Value.bool false = ((membership (readsNumber 1) x ys).negateIf true).toValue :=
  ⟨_, rfl, rfl, (lowered_forms_mean (readsNumber 1) none []).1 _ _ _ _ _ rfl rfl⟩

end StrataDb.Sql
