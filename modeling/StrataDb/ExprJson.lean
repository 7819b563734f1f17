import StrataDb.BindDdl
import StrataDb.BindSafety
import StrataDb.IntegerCast
import StrataDb.SerdeJson

/-!
# Expressions as JSON (the derived `Serialize` and `Deserialize` of `Expr`, `Value`, `LogicalType`)

A constant expression is read back as it was written exactly if none of its float literals is an
infinity or a NaN (`readsIff_expr`). The derived readers also take a struct written as a sequence
of its fields, which nothing writes; the model's do not.
-/

namespace StrataDb.Sql

open SerdeJson
open Doc (depth)

/-- `serde_json`, with documents as values of its own type. -/
structure JsonFormat (ν : Type) extends Format ν where
  ofJson : Json → Doc ν
  toJson : Doc ν → Except String Json

variable {ν : Type}

def BinaryOperator.variants : List (String × BinaryOperator) :=
  [("Eq", .eq), ("NotEq", .notEq), ("Lt", .lt), ("LtEq", .ltEq), ("Gt", .gt), ("GtEq", .gtEq),
    ("And", .and), ("Or", .or), ("Add", .add), ("Sub", .sub), ("Mul", .mul), ("Div", .div),
    ("Mod", .mod), ("Concat", .concat)]

def BinaryOperator.variantName : BinaryOperator → String
  | .eq => "Eq" | .notEq => "NotEq" | .lt => "Lt" | .ltEq => "LtEq" | .gt => "Gt" | .gtEq => "GtEq"
  | .and => "And" | .or => "Or" | .add => "Add" | .sub => "Sub" | .mul => "Mul" | .div => "Div"
  | .mod => "Mod" | .concat => "Concat"

def ScalarFunc.variants : List (String × ScalarFunc) :=
  [("Abs", .abs), ("Greatest", .greatest), ("Least", .least), ("Ceil", .ceil), ("Floor", .floor),
    ("Round", .round), ("Coalesce", .coalesce), ("Length", .length), ("Repeat", .repeat),
    ("Upper", .upper), ("Lower", .lower), ("Nullif", .nullif), ("Concat", .concat),
    ("Substr", .substr), ("TrimBoth", .trimBoth), ("TrimLeading", .trimLeading),
    ("TrimTrailing", .trimTrailing)]

def ScalarFunc.variantName : ScalarFunc → String
  | .abs => "Abs" | .greatest => "Greatest" | .least => "Least" | .ceil => "Ceil"
  | .floor => "Floor" | .round => "Round" | .coalesce => "Coalesce" | .length => "Length"
  | .repeat => "Repeat" | .upper => "Upper" | .lower => "Lower" | .nullif => "Nullif"
  | .concat => "Concat" | .substr => "Substr" | .trimBoth => "TrimBoth"
  | .trimLeading => "TrimLeading" | .trimTrailing => "TrimTrailing"

def LogicalType.variants : List (String × LogicalType) :=
  [("Bool", .bool), ("Int16", .int16), ("Int32", .int32), ("Int64", .int64), ("Text", .text),
    ("Bytes", .bytes), ("Json", .json), ("Date", .date), ("Timestamp", .timestamp),
    ("Float32", .float32), ("Float64", .float64), ("Numeric", .numeric), ("Time", .time),
    ("Uuid", .uuid), ("Interval", .interval)]

def readUnit {α : Type} (f : Format ν) (variants : List (String × α)) (d : Doc ν) :
    Except String α := do
  let (name, _) ← f.variant d
  f.expect "unknown variant" d (variants.lookup name)

section Writing

variable (rt : Runtime) (f : JsonFormat ν)

def LogicalType.toDoc : LogicalType → Doc ν
  | .bool => .string "Bool"
  | .int16 => .string "Int16"
  | .int32 => .string "Int32"
  | .int64 => .string "Int64"
  | .text => .string "Text"
  | .bytes => .string "Bytes"
  | .json => .string "Json"
  | .date => .string "Date"
  | .timestamp => .string "Timestamp"
  | .float32 => .string "Float32"
  | .float64 => .string "Float64"
  | .numeric => .string "Numeric"
  | .time => .string "Time"
  | .uuid => .string "Uuid"
  | .interval => .string "Interval"
  | .array element => tagged "Array" element.toDoc

def Interval.toDoc (i : Interval) : Doc ν :=
  .object [("months", f.writeInt i.months.toInt), ("days", f.writeInt i.days.toInt),
    ("micros", f.writeInt i.micros.toInt)]

mutual

def Value.toDoc : Value → Doc ν
  | .null => .string "Null"
  | .bool b => tagged "Bool" (.bool b)
  | .int16 n => tagged "Int16" (f.writeInt n.toInt)
  | .int32 n => tagged "Int32" (f.writeInt n.toInt)
  | .int64 n => tagged "Int64" (f.writeInt n.toInt)
  | .text s => tagged "Text" (.string s)
  | .bytes b => tagged "Bytes" (.array (b.map fun x => f.writeInt x.toNat))
  | .json j => tagged "Json" (f.ofJson j)
  | .date days => tagged "Date" (f.writeInt days.toInt)
  | .timestamp micros => tagged "Timestamp" (f.writeInt micros.toInt)
  | .float32 bits => tagged "Float32" (f.writeF32 bits)
  | .float64 bits => tagged "Float64" (f.writeF64 bits)
  -- `rust_decimal` and `uuid` write their values as texts
  | .numeric d => tagged "Numeric" (.string (rt.decimalToString d))
  | .time micros => tagged "Time" (f.writeInt micros.toInt)
  | .uuid u => tagged "Uuid" (.string (rt.uuidToString u))
  | .interval i => tagged "Interval" (i.toDoc f)
  | .array items => tagged "Array" (.array (valueDocs items))

def valueDocs : List Value → List (Doc ν)
  | [] => []
  | v :: vs => v.toDoc :: valueDocs vs

end

mutual

def Expr.toDoc : Expr → Doc ν
  | .column index => tagged "Column" (.object [("index", f.writeInt index)])
  | .literal value => tagged "Literal" (.object [("value", value.toDoc rt f)])
  | .binary op lhs rhs => tagged "Binary"
      (.object [("op", .string op.variantName), ("lhs", lhs.toDoc), ("rhs", rhs.toDoc)])
  | .not input => tagged "Not" (.object [("input", input.toDoc)])
  | .call func args => tagged "Call"
      (.object [("func", .string func.variantName), ("args", .array (exprDocs args))])
  | .isNull expr negated => tagged "IsNull"
    (.object [("expr", expr.toDoc), ("negated", .bool negated)])
  | .like expr pattern negated => tagged "Like"
      (.object [("expr", expr.toDoc), ("pattern", pattern.toDoc), ("negated", .bool negated)])
  | .neg input => tagged "Neg" (.object [("input", input.toDoc)])
  | .case branches elseResult => tagged "Case"
      (.object [("branches", .array (branchDocs branches)), ("else_result", elseDoc elseResult)])
  | .cast input target => tagged "Cast" (.object [("input", input.toDoc), ("target", target.toDoc)])
  | .array elements => tagged "Array" (.object [("elements", .array (exprDocs elements))])

def exprDocs : List Expr → List (Doc ν)
  | [] => []
  | e :: es => e.toDoc :: exprDocs es

def branchDocs : List (Expr × Expr) → List (Doc ν)
  | [] => []
  | (cond, result) :: branches => .array [cond.toDoc, result.toDoc] :: branchDocs branches

def elseDoc : Option Expr → Doc ν
  | none => .null
  | some e => e.toDoc

end

end Writing

/-! ### Reading

The readers follow the nesting of the document; `fuel` bounds it. -/

section Reading

variable (rt : Runtime) (f : JsonFormat ν)

def fitU8 (n : Int) : Option UInt8 :=
  if 0 ≤ n ∧ n < 256 then some (.ofNat n.toNat) else none

def fitUsize (n : Int) : Option Nat :=
  if 0 ≤ n ∧ n < 2 ^ 64 then some n.toNat else none

def readType : Nat → Doc ν → Except String LogicalType
  | 0, d => f.fail "recursion limit exceeded" d
  | fuel + 1, d => do
    let (name, content) ← f.variant d
    match name with
    | "Array" => return .array (← readType fuel (← f.content content))
    | _ => readUnit f.toFormat LogicalType.variants d

def readInterval (d : Doc ν) : Except String Interval := do
  let months ← f.readInt fitI32 (← f.field "months" d)
  let days ← f.readInt fitI32 (← f.field "days" d)
  let micros ← f.readInt fitI64 (← f.field "micros" d)
  return { months, days, micros }

def readValue : Nat → Doc ν → Except String Value
  | 0, d => f.fail "recursion limit exceeded" d
  | fuel + 1, d => do
    let (name, content) ← f.variant d
    match name with
    | "Null" => return .null
    | "Bool" => return .bool (← f.readBool (← f.content content))
    | "Int16" => return .int16 (← f.readInt fitI16 (← f.content content))
    | "Int32" => return .int32 (← f.readInt fitI32 (← f.content content))
    | "Int64" => return .int64 (← f.readInt fitI64 (← f.content content))
    | "Text" => return .text (← f.readString (← f.content content))
    | "Bytes" => return .bytes (← (← f.items (← f.content content)).mapM (f.readInt fitU8))
    | "Json" => return .json (← f.toJson (← f.content content))
    | "Date" => return .date (← f.readInt fitI32 (← f.content content))
    | "Timestamp" => return .timestamp (← f.readInt fitI64 (← f.content content))
    | "Float32" => return .float32 (← f.readNumber f.toF32 (← f.content content))
    | "Float64" => return .float64 (← f.readNumber f.toF64 (← f.content content))
    | "Numeric" =>
      let s ← f.readString (← f.content content)
      return .numeric (← f.expect "invalid decimal" d (rt.parseDecimal s))
    | "Time" => return .time (← f.readInt fitI64 (← f.content content))
    | "Uuid" =>
      let s ← f.readString (← f.content content)
      return .uuid (← f.expect "invalid uuid" d (rt.parseUuid s))
    | "Interval" => return .interval (← readInterval f (← f.content content))
    | "Array" => return .array (← (← f.items (← f.content content)).mapM (readValue fuel))
    | _ => f.fail "unknown variant" d

def readBranch (read : Doc ν → Except String Expr) (d : Doc ν) : Except String (Expr × Expr) := do
  let (cond, result) ← f.pair d
  let cond ← read cond
  let result ← read result
  return (cond, result)

def readElse (read : Doc ν → Except String Expr) : Doc ν → Except String (Option Expr)
  | .null => .ok none
  | d => return some (← read d)

def readExpr : Nat → Doc ν → Except String Expr
  | 0, d => f.fail "recursion limit exceeded" d
  | fuel + 1, d => do
    let (name, content) ← f.variant d
    let body ← f.content content
    match name with
    | "Column" => return .column (← f.readInt fitUsize (← f.field "index" body))
    | "Literal" => return .literal (← readValue rt f fuel (← f.field "value" body))
    | "Binary" =>
      let op ← readUnit f.toFormat BinaryOperator.variants (← f.field "op" body)
      let lhs ← readExpr fuel (← f.field "lhs" body)
      let rhs ← readExpr fuel (← f.field "rhs" body)
      return .binary op lhs rhs
    | "Not" => return .not (← readExpr fuel (← f.field "input" body))
    | "Call" =>
      let func ← readUnit f.toFormat ScalarFunc.variants (← f.field "func" body)
      let args ← (← f.items (← f.field "args" body)).mapM (readExpr fuel)
      return .call func args
    | "IsNull" =>
      let expr ← readExpr fuel (← f.field "expr" body)
      let negated ← f.readBool (← f.field "negated" body)
      return .isNull expr negated
    | "Like" =>
      let expr ← readExpr fuel (← f.field "expr" body)
      let pattern ← readExpr fuel (← f.field "pattern" body)
      let negated ← f.readBool (← f.field "negated" body)
      return .like expr pattern negated
    | "Neg" => return .neg (← readExpr fuel (← f.field "input" body))
    | "Case" =>
      let branches ← (← f.items (← f.field "branches" body)).mapM (readBranch f (readExpr fuel))
      let elseResult ← readElse (readExpr fuel) (← f.optional "else_result" body)
      return .case branches elseResult
    | "Cast" =>
      let input ← readExpr fuel (← f.field "input" body)
      let target ← readType f fuel (← f.field "target" body)
      return .cast input target
    | "Array" => return .array (← (← f.items (← f.field "elements" body)).mapM (readExpr fuel))
    | _ => f.fail "unknown variant" d

end Reading

def exprSerde (rt : Runtime) (f : JsonFormat ν) : ExprSerde where
  toString e := .ok (f.print (e.toDoc rt f))
  fromStr json := do
    let d ← f.parse json
    readExpr rt f d.depth d

/-! ### What is read back -/

/-- The laws of the format, and that a decimal or a UUID that was parsed from some text is
    parsed from the text it prints. -/
structure JsonFormat.Laws (rt : Runtime) (f : JsonFormat ν) : Prop extends f.toFormat.Laws where
  decimal : ∀ s d, rt.parseDecimal s = some d → rt.parseDecimal (rt.decimalToString d) = some d
  uuid : ∀ s u, rt.parseUuid s = some u → rt.parseUuid (rt.uuidToString u) = some u

/-- No float literal of the node is an infinity or a NaN. -/
def Expr.FiniteNode : Expr → Prop
  | .literal (.float32 bits) => finite32 bits = true
  | .literal (.float64 bits) => finite64 bits = true
  | _ => True

def Expr.Finite (e : Expr) : Prop :=
  e.All Expr.FiniteNode

/-- A node of a constant expression the binder made. -/
def Expr.ConstNode (rt : Runtime) : Expr → Prop
  | .column _ => False
  | .literal v => v.Written rt
  | _ => True

theorem bindRule_const (rt : Runtime) : BindRule rt 0 (Expr.ConstNode rt) where
  literal _ hv := hv
  column i hi := absurd hi (Nat.not_lt_zero i)
  call _ _ _ := trivial
  inner e h := by cases e <;> trivial

section ReadBack

variable {rt : Runtime} {f : JsonFormat ν}

theorem exists_fuel {d : Doc ν} {fuel : Nat} (h : d.depth ≤ fuel) : ∃ k, fuel = k + 1 := by
  have hpos : 0 < d.depth := by cases d <;> simp [depth]
  exact ⟨fuel - 1, by omega⟩

theorem readUnit_operator (op : BinaryOperator) :
    readUnit f.toFormat BinaryOperator.variants (.string op.variantName) = .ok op := by
  cases op <;> rfl

theorem readUnit_func (func : ScalarFunc) :
    readUnit f.toFormat ScalarFunc.variants (.string func.variantName) = .ok func := by
  cases func <;> rfl

theorem readType_toDoc : ∀ (ty : LogicalType) (fuel : Nat), (ty.toDoc : Doc ν).depth ≤ fuel →
    readType f fuel ty.toDoc = .ok ty
  | .array element, fuel, h => by
    obtain ⟨k, rfl⟩ := exists_fuel h
    rw [LogicalType.toDoc, depth_tagged] at h
    have hread := readType_toDoc element k (by omega)
    show (do return LogicalType.array (← readType f k element.toDoc)) = _
    rw [hread]
    rfl
  | .bool, fuel, h | .int16, fuel, h | .int32, fuel, h | .int64, fuel, h | .text, fuel, h
  | .bytes, fuel, h | .json, fuel, h | .date, fuel, h | .timestamp, fuel, h | .float32, fuel, h
  | .float64, fuel, h | .numeric, fuel, h | .time, fuel, h | .uuid, fuel, h | .interval,
    fuel, h => by
    obtain ⟨k, rfl⟩ := exists_fuel h
    rfl

theorem readInterval_toDoc (laws : f.toFormat.Laws) (i : Interval) :
    readInterval f (i.toDoc f) = .ok i := by
  have hread : ReadsIff True (readInterval f (i.toDoc f)) i :=
    .bind_ok rfl <| .bind_ok ((Format.readsIff_int laws (fitI32_toInt i.months)).1 trivial) <|
    .bind_ok rfl <| .bind_ok ((Format.readsIff_int laws (fitI32_toInt i.days)).1 trivial) <|
    .bind_ok rfl <| (Format.readsIff_int laws (fitI64_toInt i.micros)).map _
  exact hread.1 trivial

theorem readsIff_value (laws : f.Laws rt) {v : Value} (hv : v.Written rt) {fuel : Nat}
    (h : (v.toDoc rt f).depth ≤ fuel) :
    ReadsIff (Expr.literal v).FiniteNode (readValue rt f fuel (v.toDoc rt f)) v := by
  obtain ⟨k, rfl⟩ := exists_fuel h
  match v, hv with
  | .null, _ | .bool _, _ | .text _, _ => exact .of_ok rfl
  | .int64 n, _ => exact (Format.readsIff_int laws.toLaws (fitI64_toInt n)).map Value.int64
  | .date d, _ => exact (Format.readsIff_int laws.toLaws (fitI32_toInt d)).map Value.date
  | .timestamp t, _ => exact (Format.readsIff_int laws.toLaws (fitI64_toInt t)).map Value.timestamp
  | .time t, _ => exact (Format.readsIff_int laws.toLaws (fitI64_toInt t)).map Value.time
  | .float64 bits, _ => exact (Format.readsIff_f64 laws.toLaws bits).map Value.float64
  | .numeric d, ⟨s, hs⟩ =>
    refine .of_ok ?_
    show (do return Value.numeric (← f.expect _ _ (rt.parseDecimal (rt.decimalToString d)))) = _
    rw [laws.decimal s d hs]
    rfl
  | .uuid u, ⟨s, hs⟩ =>
    refine .of_ok ?_
    show (do return Value.uuid (← f.expect _ _ (rt.parseUuid (rt.uuidToString u)))) = _
    rw [laws.uuid s u hs]
    rfl
  | .interval i, _ => exact (ReadsIff.of_ok (readInterval_toDoc laws.toLaws i)).map Value.interval

mutual

/-- **A constant expression is read back exactly if its float literals are numbers.**
    By induction on the expression; the fuel covers the depth of what is written. -/
theorem readsIff_expr (laws : f.Laws rt) : ∀ (e : Expr) (fuel : Nat), e.All (Expr.ConstNode rt) →
    (e.toDoc rt f).depth ≤ fuel → ReadsIff e.Finite (readExpr rt f fuel (e.toDoc rt f)) e
  | _, 0, _, h => by
    obtain ⟨k, hk⟩ := exists_fuel h
    cases hk
  | .column _, _, he, _ => he.elim
  | .literal v, k + 1, he, h => by
    simp only [Expr.toDoc, depth_tagged, depth, depthMembers] at h
    exact (readsIff_value laws he (by omega)).map Expr.literal
  | .binary op lhs rhs, k + 1, he, h => by
    simp only [Expr.toDoc, depth_tagged, depth, depthMembers] at h
    have hl := readsIff_expr laws lhs k he.2.1 (by omega)
    have hr := readsIff_expr laws rhs k he.2.2 (by omega)
    have hread : ReadsIff (lhs.Finite ∧ rhs.Finite) (do
          let op ← readUnit f.toFormat BinaryOperator.variants (.string op.variantName)
          let lhs ← readExpr rt f k (lhs.toDoc rt f)
          let rhs ← readExpr rt f k (rhs.toDoc rt f)
          return .binary op lhs rhs) (Expr.binary op lhs rhs) :=
      .bind_ok (readUnit_operator op) (hl.bind (hr.map _))
    exact hread.congr (and_iff_right trivial).symm
  | .not input, k + 1, he, h => by
    simp only [Expr.toDoc, depth_tagged, depth, depthMembers] at h
    exact ((readsIff_expr laws input k he.2 (by omega)).map Expr.not).congr
      (and_iff_right trivial).symm
  | .call func args, k + 1, he, h => by
    simp only [Expr.toDoc, depth_tagged, depth, depthMembers] at h
    have hargs := readsIff_exprs laws args k he.2 (by omega)
    have hread : ReadsIff (allExprs Expr.FiniteNode args) (do
          let func ← readUnit f.toFormat ScalarFunc.variants (.string func.variantName)
          let args ← (exprDocs rt f args).mapM (readExpr rt f k)
          return .call func args) (Expr.call func args) :=
      .bind_ok (readUnit_func func) (hargs.map _)
    exact hread.congr (and_iff_right trivial).symm
  | .isNull expr negated, k + 1, he, h => by
    simp only [Expr.toDoc, depth_tagged, depth, depthMembers] at h
    exact ((readsIff_expr laws expr k he.2 (by omega)).map fun e => Expr.isNull e negated).congr
      (and_iff_right trivial).symm
  | .like expr pattern negated, k + 1, he, h => by
    simp only [Expr.toDoc, depth_tagged, depth, depthMembers] at h
    have hexpr := readsIff_expr laws expr k he.2.1 (by omega)
    have hpattern := readsIff_expr laws pattern k he.2.2 (by omega)
    have hread : ReadsIff (expr.Finite ∧ pattern.Finite) (do
          let expr ← readExpr rt f k (expr.toDoc rt f)
          let pattern ← readExpr rt f k (pattern.toDoc rt f)
          return .like expr pattern negated) (Expr.like expr pattern negated) :=
      hexpr.bind (hpattern.map _)
    exact hread.congr (and_iff_right trivial).symm
  | .neg input, k + 1, he, h => by
    simp only [Expr.toDoc, depth_tagged, depth, depthMembers] at h
    exact ((readsIff_expr laws input k he.2 (by omega)).map Expr.neg).congr
      (and_iff_right trivial).symm
  | .case branches elseResult, k + 1, he, h => by
    simp only [Expr.toDoc, depth_tagged, depth, depthMembers] at h
    have hbranches := readsIff_branches laws branches k he.2.1 (by omega)
    have helse := readsIff_else laws elseResult k he.2.2 (by omega)
    have hread :
        ReadsIff (allBranches Expr.FiniteNode branches ∧ allElse Expr.FiniteNode elseResult) (do
          let branches ← (branchDocs rt f branches).mapM (readBranch f (readExpr rt f k))
          let elseResult ← readElse (readExpr rt f k) (elseDoc rt f elseResult)
          return .case branches elseResult) (Expr.case branches elseResult) :=
      hbranches.bind (helse.map _)
    exact hread.congr (and_iff_right trivial).symm
  | .cast input target, k + 1, he, h => by
    simp only [Expr.toDoc, depth_tagged, depth, depthMembers] at h
    have hinput := readsIff_expr laws input k he.2 (by omega)
    have htarget := readType_toDoc (f := f) target k (by omega)
    have hread : ReadsIff (input.Finite ∧ True) (do
          let input ← readExpr rt f k (input.toDoc rt f)
          let target ← readType f k target.toDoc
          return .cast input target) (Expr.cast input target) :=
      hinput.bind ((ReadsIff.of_ok htarget).map _)
    exact hread.congr (and_comm.trans (and_congr_left' Iff.rfl))
  | .array elements, k + 1, he, h => by
    simp only [Expr.toDoc, depth_tagged, depth, depthMembers] at h
    exact ((readsIff_exprs laws elements k he.2 (by omega)).map Expr.array).congr
      (and_iff_right trivial).symm

theorem readsIff_exprs (laws : f.Laws rt) : ∀ (es : List Expr) (fuel : Nat),
    allExprs (Expr.ConstNode rt) es → depthItems (exprDocs rt f es) ≤ fuel →
      ReadsIff (allExprs Expr.FiniteNode es) ((exprDocs rt f es).mapM (readExpr rt f fuel)) es
  | [], _, _, _ => .of_ok rfl
  | e :: es, fuel, hes, h => by
    simp only [exprDocs, depthItems] at h
    have he := readsIff_expr laws e fuel hes.1 (by omega)
    have hrest := readsIff_exprs laws es fuel hes.2 (by omega)
    rw [exprDocs, List.mapM_cons]
    exact he.bind (hrest.map _)

theorem readsIff_branches (laws : f.Laws rt) : ∀ (branches : List (Expr × Expr)) (fuel : Nat),
    allBranches (Expr.ConstNode rt) branches → depthItems (branchDocs rt f branches) ≤ fuel →
      ReadsIff (allBranches Expr.FiniteNode branches)
        ((branchDocs rt f branches).mapM (readBranch f (readExpr rt f fuel))) branches
  | [], _, _, _ => .of_ok rfl
  | (cond, result) :: branches, fuel, hbs, h => by
    simp only [branchDocs, depthItems, depth] at h
    have hc := readsIff_expr laws cond fuel hbs.1 (by omega)
    have hr := readsIff_expr laws result fuel hbs.2.1 (by omega)
    have hrest := readsIff_branches laws branches fuel hbs.2.2 (by omega)
    have hbranch : ReadsIff (cond.Finite ∧ result.Finite)
        (readBranch f (readExpr rt f fuel) (.array [cond.toDoc rt f, result.toDoc rt f]))
          (cond, result) :=
      .bind_ok rfl (hc.bind (hr.map _))
    rw [branchDocs, List.mapM_cons]
    exact (hbranch.bind (hrest.map _)).congr and_assoc

theorem readsIff_else (laws : f.Laws rt) : ∀ (e : Option Expr) (fuel : Nat),
    allElse (Expr.ConstNode rt) e → (elseDoc rt f e).depth ≤ fuel →
      ReadsIff (allElse Expr.FiniteNode e) (readElse (readExpr rt f fuel) (elseDoc rt f e)) e
  | none, _, _, _ => .of_ok rfl
  | some e, fuel, he, h => by
    have hread := (readsIff_expr laws e fuel he h).map some
    have hdoc : readElse (readExpr rt f fuel) (e.toDoc rt f)
        = do return some (← readExpr rt f fuel (e.toDoc rt f)) := by
      cases e <;> rfl
    rw [elseDoc, hdoc]
    exact hread

end

end ReadBack

end StrataDb.Sql
