import StrataDb.BindExpr
import StrataDb.EvalSafety

/-!
# What the binder promises (`crates/strata-db/src/query/planner/binder/expr.rs`)

The nodes of a bound expression are columns of its scope, literals of the statement's text and
calls with the arguments they read (`BindRule`, `all_of_bind`), so evaluation panics exactly where
it reaches a value too long or outside the calendar (`eval_never_panics`).
-/

namespace StrataDb.Sql

/-! ### What the binder produces -/

def scopeLen : Option Scope → Nat
  | some scope => scope.len
  | none => 0

/-- A value the text of a statement can write: what a literal is parsed to, or a constant
    that the binder puts in the place of an omitted operand. -/
def Value.Written (rt : Runtime) : Value → Prop
  | .null | .bool _ | .int64 _ | .text _ => True
  | .float64 bits => ∃ s, rt.parseF64 s = some bits
  | .date days => ∃ s, rt.parseDate s = some days
  | .timestamp micros => ∃ s, timestamptzOfText rt s = some micros
  | .time micros => ∃ s, timeOfText rt s = some micros
  | .numeric d => ∃ s, rt.parseDecimal s = some d
  | .uuid u => ∃ s, rt.parseUuid s = some u
  | .interval i => ∃ s, intervalOfText rt s = some i
  | .int16 _ | .int32 _ | .bytes _ | .json _ | .float32 _ | .array _ => False

/-- A node of which the binder promises nothing but its operands. -/
def Expr.Inner : Expr → Prop
  | .column _ | .literal _ | .call _ _ => False
  | _ => True

/-- A property of every node the binder makes over `n` columns. -/
structure BindRule (rt : Runtime) (n : Nat) (P : Expr → Prop) : Prop where
  literal : ∀ v, v.Written rt → P (.literal v)
  column : ∀ i < n, P (.column i)
  call : ∀ func args, func.Takes args.length → P (.call func args)
  inner : ∀ e, e.Inner → P e

section Binding

variable {rt : Runtime} {p : Promise} {scope : Option Scope} {P : Expr → Prop}

theorem meets_resolveFrom (hp : ¬ p.inScope) (relation : Option String) (name : String) {n : Nat} :
    ∀ (cols : List ScopeColumn) (i : Nat) (found : Option Nat), i + cols.length = n →
      (∀ k, found = some k → k < n) → Meets p (resolveFrom relation name i found cols) (· < n)
  | [], _, some k, _, hfound => hfound k rfl
  | [], _, none, _, _ => fun h => absurd h hp
  | col :: cols, i, found, hi, hfound => by
    have hi' : i + 1 + cols.length = n := by simp only [List.length_cons] at hi; omega
    rw [resolveFrom]
    split
    · split
      · exact fun h => absurd h hp
      · exact meets_resolveFrom hp relation name cols (i + 1) (some i) hi' fun k hk => by
          cases hk
          omega
    · exact meets_resolveFrom hp relation name cols (i + 1) found hi' hfound

theorem meets_resolve (hp : ¬ p.inScope) (scope : Scope) (relation : Option String)
    (name : String) :
    Meets p (scope.resolve relation name) (· < scope.len) :=
  meets_resolveFrom hp relation name scope.columns 0 none (Nat.zero_add _) nofun

theorem meets_currentScope (hp : ¬ p.inScope) :
    Meets p (currentScope scope) fun s => s.len = scopeLen scope := by
  cases scope with
  | some s => rfl
  | none => exact fun h => absurd h hp

theorem meets_bindValue (hp : ¬ p.inScope) (v : AstValue) :
    Meets p (bindValue rt v) (·.Written rt) := by
  cases v with
  | number s =>
    rw [bindValue]
    split
    · trivial
    · split
      next f hf => exact ⟨s, hf⟩
      next => exact fun h => absurd h hp
  | _ => trivial

theorem meets_bindTypedString (dataType : DataType) (text : Option String) (debug : String) :
    Meets p (bindTypedString rt dataType text debug) (·.Written rt) := by
  have htext : ∀ what, Meets p (literalText what text) fun _ => True :=
    fun what => meets_orTypeError fun _ _ => trivial
  unfold bindTypedString
  split
  case h_1 => exact (htext _).bind fun s _ => (meets_orTypeError fun d hd => ⟨s, hd⟩).bind fun _
    hd => hd
  case h_2 =>
    split
    · exact (htext _).bind fun s _ => (meets_orTypeError fun t ht => ⟨_, ht⟩).bind fun _ ht => ht
    · trivial
  case h_8 =>
    split
    · trivial
    · exact (htext _).bind fun s _ => (meets_orTypeError fun t ht => ⟨_, ht⟩).bind fun _ ht => ht
  case h_10 => trivial
  all_goals
    exact (htext _).bind fun s _ => (meets_orTypeError fun d hd => ⟨_, hd⟩).bind fun _ hd => hd

theorem meets_bindInterval (value : Option (Option String)) (leadingField : Option String) :
    Meets p (bindInterval rt value leadingField) (·.Written rt) := by
  unfold bindInterval
  split
  · trivial
  · trivial
  · exact (meets_orTypeError fun i hi => ⟨_, hi⟩).bind fun _ hi => hi

theorem meets_bindBinaryOp (op : AstBinaryOperator) : Meets p (bindBinaryOp op) fun _ => True := by
  cases op <;> trivial

theorem meets_bindDataType : ∀ dataType : DataType, Meets p (bindDataType dataType) fun _ => True
  | .array (some element) => by
    rw [bindDataType]
    refine (meets_bindDataType element).bind fun ty _ => ?_
    cases ty <;> trivial
  | .timestamp zone => by rw [bindDataType]; split <;> trivial
  | .time zone => by rw [bindDataType]; split <;> trivial
  | .float (some n) => by
    show Meets p (if n ≤ 24 then .ok LogicalType.float32 else .ok .float64) _
    split <;> trivial
  | .float none | .array none | .other
    _ | .bool | .boolean | .smallInt | .int2 | .int | .integer | .int4
  | .bigInt | .int8 | .text | .varchar | .char | .charVarying | .bytea | .json | .jsonb | .date
  | .real | .float4 | .float32 | .doublePrecision | .double | .float8 | .float64 | .numeric
  | .decimal | .dec | .bigNumeric | .bigDecimal | .uuid | .interval => trivial

theorem takes_of_scalarFunc {name : String} {func : ScalarFunc} {arity : Arity} {argc : Nat}
    (h : scalarFunc name = some (func, arity)) (haccepts : arity.accepts argc = true) :
    func.Takes argc := by
  unfold scalarFunc at h
  split at h <;> cases h
  all_goals simp_all [Arity.accepts, ScalarFunc.Takes, ScalarFunc.arguments]

theorem meets_resolveScalarFunc (name : String) (argc : Nat) :
    Meets p (resolveScalarFunc name argc) (·.Takes argc) := by
  unfold resolveScalarFunc
  split
  next func arity hfunc =>
    split
    next haccepts => exact takes_of_scalarFunc hfunc haccepts
    next => trivial
  next =>
    split
    · split
      · split <;> exact Or.inl rfl
      · trivial
    · trivial

section Lowering

variable {n : Nat} (rule : BindRule rt n P)
include rule

theorem all_lowerInFrom {value : Expr} (hv : value.All P) :
    ∀ (items : List Expr) (acc : Option Expr), allExprs P items → allElse P acc →
      allElse P (lowerInFrom value acc items)
  | [], _, _, hacc => by
    rw [lowerInFrom]
    exact hacc
  | item :: items, none, hitems, _ =>
    all_lowerInFrom hv items _ hitems.2 ⟨rule.inner _ trivial, hv, hitems.1⟩
  | item :: items, some prev, hitems, hacc =>
    all_lowerInFrom hv items _ hitems.2
      ⟨rule.inner _ trivial, hacc, rule.inner _ trivial, hv, hitems.1⟩

theorem all_getD {e : Option Expr} {v : Value} (hv : v.Written rt) (he : allElse P e) :
    (e.getD (.literal v)).All P := by
  cases e with
  | none => exact rule.literal v hv
  | some e => exact he

theorem all_lowerInList {value : Expr} (hv : value.All P) (negated : Bool) {items : List Expr}
    (hitems : allExprs P items) : (lowerInList negated value items).All P := by
  have hin : ((lowerInFrom value none items).getD (.literal (.bool false))).All P :=
    all_getD rule trivial (all_lowerInFrom rule hv items none hitems trivial)
  cases negated with
  | true => exact ⟨rule.inner _ trivial, hin⟩
  | false => exact hin

theorem all_lowerBetween {value low high : Expr} (hv : value.All P) (hl : low.All P)
    (hh : high.All P) (negated : Bool) : (lowerBetween negated value low high).All P := by
  have hb : (Expr.binary .and (.binary .gtEq value low) (.binary .ltEq value high)).All P :=
    ⟨rule.inner _ trivial, ⟨rule.inner _ trivial, hv, hl⟩, rule.inner _ trivial, hv, hh⟩
  cases negated with
  | true => exact ⟨rule.inner _ trivial, hb⟩
  | false => exact hb

theorem all_lowerCondition {operand : Option Expr} {condition : Expr} (ho : allElse P operand)
    (hc : condition.All P) : (lowerCondition operand condition).All P := by
  cases operand with
  | none => exact hc
  | some op => exact ⟨rule.inner _ trivial, ho, hc⟩

end Lowering

theorem arguments_trimFunc (trimWhere : Option TrimWhereField) :
    (trimFunc trimWhere).arguments = 2 := by
  rcases trimWhere with _ | _ | _ | _ <;> rfl

mutual

theorem meets_bind (rule : BindRule rt (scopeLen scope) P) (hp : ¬ p.inScope) : ∀ ast : AstExpr,
    Meets p (ast.bind rt scope) (Expr.All P)
  | .value v => (meets_bindValue hp v).bind fun _ hv => rule.literal _ hv
  | .identifier name =>
    (meets_currentScope hp).bind fun s hs => (meets_resolve hp s none name).bind fun i hi =>
      rule.column i (Nat.lt_of_lt_of_eq hi hs)
  | .compoundIdentifier parts debug => by
    refine (meets_currentScope hp).bind fun s hs => ?_
    split
    next relation name =>
      exact (meets_resolve hp s (some relation) name).bind fun i hi =>
        rule.column i (Nat.lt_of_lt_of_eq hi hs)
    next => trivial
  | .binaryOp op left right =>
    (meets_bindBinaryOp op).bind fun _ _ => (meets_bind rule hp left).bind fun _ hl =>
      (meets_bind rule hp right).bind fun _ hr => ⟨rule.inner _ trivial, hl, hr⟩
  | .unaryOp op expr => by
    have hexpr := meets_bind rule hp expr
    cases op with
    | not => exact hexpr.bind fun _ he => ⟨rule.inner _ trivial, he⟩
    | minus => exact hexpr.bind fun _ he => ⟨rule.inner _ trivial, he⟩
    | other debug => trivial
  | .nested inner => meets_bind rule hp inner
  | .typedString dataType text debug =>
    (meets_bindTypedString dataType text debug).bind fun _ hv => rule.literal _ hv
  | .function name form args => by
    rw [AstExpr.bind]
    refine Meets.bind (P := fun _ => True) ?_ fun name _ => ?_
    · unfold singleIdentUpper
      split <;> trivial
    · split
      · trivial
      split
      · trivial
      split
      · trivial
      · exact (meets_bindArgs rule hp name args).bind fun es hes =>
          (meets_resolveScalarFunc name es.length).bind fun _ hlen => ⟨rule.call _ _ hlen, hes⟩
  | .ceil expr plain => by
    rw [AstExpr.bind]
    split
    · exact (meets_bind rule hp expr).bind fun _ he => ⟨rule.call _ _ (Or.inr rfl), he, trivial⟩
    · trivial
  | .floor expr plain => by
    rw [AstExpr.bind]
    split
    · exact (meets_bind rule hp expr).bind fun _ he => ⟨rule.call _ _ (Or.inr rfl), he, trivial⟩
    · trivial
  | .isNull expr => (meets_bind rule hp expr).bind fun _ he => ⟨rule.inner _ trivial, he⟩
  | .isNotNull expr => (meets_bind rule hp expr).bind fun _ he => ⟨rule.inner _ trivial, he⟩
  | .between expr negated low high =>
    (meets_bind rule hp expr).bind fun _ hv => (meets_bind rule hp low).bind fun _ hl =>
      (meets_bind rule hp high).bind fun _ hh => all_lowerBetween rule hv hl hh negated
  | .inList expr list negated =>
    (meets_bind rule hp expr).bind fun _ hv => (meets_bindAll rule hp list).bind fun _ hs =>
      all_lowerInList rule hv negated hs
  | .like negated any expr pattern escapeChar => by
    rw [AstExpr.bind]
    split
    · trivial
    · exact (meets_bind rule hp expr).bind fun _ he => (meets_bind rule hp pattern).bind
        fun _ hpat =>
        ⟨rule.inner _ trivial, he, hpat⟩
  | .substring expr from_ for_ =>
    (meets_bind rule hp expr).bind fun _ hs => (meets_bindOption rule hp from_).bind fun _ hstart =>
      (meets_bindOption rule hp for_).bind fun _ hlen =>
        ⟨rule.call _ _ (Or.inr rfl), hs, all_getD rule trivial hstart, all_getD rule trivial hlen,
          trivial⟩
  | .trim expr trimWhere trimWhat trimCharacters => by
    rw [AstExpr.bind]
    split
    · trivial
    · exact (meets_bind rule hp expr).bind fun _ hs => (meets_bindOption rule hp trimWhat).bind
        fun _ hchars => ⟨rule.call _ _ (Or.inr (arguments_trimFunc trimWhere)), hs,
          all_getD rule trivial hchars, trivial⟩
  | .case operand conditions elseResult =>
    (meets_bindOption rule hp operand).bind fun _ ho =>
      (meets_bindConditions rule hp ho conditions).bind fun _ hb =>
        (meets_bindOption rule hp elseResult).bind fun _ he => ⟨rule.inner _ trivial, hb, he⟩
  | .cast expr dataType =>
    (meets_bind rule hp expr).bind fun _ he => (meets_bindDataType dataType).bind fun _ _ =>
      ⟨rule.inner _ trivial, he⟩
  | .interval value leadingField => 
    (meets_bindInterval value leadingField).bind fun _ hv => rule.literal _ hv
  | .array elements => (meets_bindAll rule hp elements).bind fun _ hs => ⟨rule.inner _ trivial, hs⟩
  | .other _ => trivial

theorem meets_bindAll (rule : BindRule rt (scopeLen scope) P) (hp : ¬ p.inScope) :
    ∀ asts : List AstExpr, Meets p (bindAll rt scope asts) (allExprs P)
  | [] => trivial
  | ast :: asts =>
    (meets_bind rule hp ast).bind fun _ he => (meets_bindAll rule hp asts).bind fun _ hes =>
    ⟨he, hes⟩

theorem meets_bindArgs (rule : BindRule rt (scopeLen scope) P) (hp : ¬ p.inScope) (name : String) :
    ∀ args : List (Option AstExpr), Meets p (bindArgs rt scope name args) (allExprs P)
  | [] => trivial
  | none :: _ => trivial
  | some ast :: args =>
    (meets_bind rule hp ast).bind fun _ he =>
      (meets_bindArgs rule hp name args).bind fun _ hes => ⟨he, hes⟩

theorem meets_bindOption (rule : BindRule rt (scopeLen scope) P) (hp : ¬ p.inScope) :
    ∀ ast : Option AstExpr, Meets p (bindOption rt scope ast) (allElse P)
  | none => trivial
  | some ast => (meets_bind rule hp ast).bind fun _ he => he

theorem meets_bindConditions (rule : BindRule rt (scopeLen scope) P) (hp : ¬ p.inScope)
    {operand : Option Expr} (ho : allElse P operand) :
    ∀ conditions : List (AstExpr × AstExpr),
      Meets p (bindConditions rt scope operand conditions)
        (allBranches P)
  | [] => trivial
  | (condition, result) :: conditions =>
    (meets_bind rule hp condition).bind fun _ hc => (meets_bind rule hp result).bind fun _ hr =>
      (meets_bindConditions rule hp ho conditions).bind fun _ hb =>
      ⟨all_lowerCondition rule ho hc, hr, hb⟩

end

/-- **Every node of a bound expression follows the rule.** -/
theorem all_of_bind (rule : BindRule rt (scopeLen scope) P) {ast : AstExpr} {e : Expr}
    (h : ast.bind rt scope = .ok e) : e.All P :=
  (meets_bind (p := ⟨True, False⟩) rule id ast).of_ok h

theorem bindRule_bound (n : Nat) : BindRule rt n (Expr.BoundNode n) where
  literal _ _ := trivial
  column _ hi := hi
  call _ _ h := h
  inner e h := by cases e <;> trivial

theorem bound_of_bind {ast : AstExpr} {e : Expr} (h : ast.bind rt scope = .ok e) :
    e.Bound (scopeLen scope) :=
  all_of_bind (bindRule_bound _) h

end Binding

/-! ### Panics -/

/-- **Evaluation of a bound expression panics** on a tuple exactly if it comes to a `REPEAT`
    too long for memory, a date or timestamp to print that is outside the calendar, or a date
    to cast whose midnight is no timestamp. -/
theorem eval_never_panics (rt : Runtime) (scope : Option Scope) (ast : AstExpr) (e : Expr)
    (hbind : ast.bind rt scope = .ok e) (tuple : Tuple) :
    NoPanic (e.eval rt tuple) ↔ e.Safe rt tuple := by
  have hwhen : KeepsWhen ⟨True, False⟩ (e.eval rt tuple) (e.Safe rt tuple) :=
    keepsWhen_eval False.elim e (bound_of_bind hbind)
  exact keeps_noPanic.symm.trans (hwhen.trans true_imp_iff)

/-- `REPEAT('s', n)`. -/
def repeatCall (s n : String) : AstExpr :=
  .function ⟨[some "REPEAT"], "REPEAT"⟩ { clause := false, list := true, distinct := false }
    [some (.value (.singleQuotedString s)), some (.value (.number n))]

/-- A runtime that reads `n` in every number of a statement. -/
def readsNumber (n : Int64) : Runtime :=
  { (default : Runtime) with parseI64 := fun _ => some n }

/-- `CASE WHEN a THEN REPEAT('ab', 9223372036854775807) ELSE 'x' || a END`. -/
def guardedRepeat : AstExpr :=
  .case none [(.identifier "a", repeatCall "ab" "9223372036854775807")]
    (some (.binaryOp .stringConcat (.value (.singleQuotedString "x")) (.identifier "a")))

theorem eval_never_panics_untaken :
    ∃ e, guardedRepeat.bind (readsNumber Int64.maxValue)
        (some ⟨[⟨none, "a", .bool, true, none⟩]⟩) = .ok e
      ∧ NoPanic (e.eval (readsNumber Int64.maxValue) [.bool false]) := by
  refine ⟨.case
    [(.column 0, .call .repeat [.literal (.text "ab"), .literal (.int64 Int64.maxValue)])]
    (some (.binary .concat (.literal (.text "x")) (.column 0))), rfl, ?_⟩
  refine (eval_never_panics _ (some ⟨[⟨none, "a", .bool, true, none⟩]⟩) guardedRepeat _ rfl _).mpr
    ⟨trivial, fun v hv => ⟨?_, fun _ => ?_⟩⟩
  · rintro rfl
    cases hv
  · refine ⟨trivial, fun l hl => ⟨trivial, fun r hr _ _ _ => ?_⟩⟩
    cases hl
    cases hr
    exact ⟨trivial, fun _ _ => trivial⟩

/-- `REPEAT('ab', 9223372036854775807)` is bound, and panics. -/
theorem repeat_overflows :
    ∃ e, (repeatCall "ab" "9223372036854775807").bind (readsNumber Int64.maxValue) none = .ok e
      ∧ e.eval (readsNumber Int64.maxValue) [] = panicked "capacity overflow" :=
  ⟨.call .repeat [.literal (.text "ab"), .literal (.int64 Int64.maxValue)], rfl, rfl⟩

end StrataDb.Sql
