import StrataDb.Expression
import StrataDb.Schema

/-!
# Binding scalar expressions (`crates/strata-db/src/query/planner/binder/expr.rs`, `scope.rs`)

Column names become positions in the scope, typed strings literals, and `BETWEEN`, `IN` and the
simple `CASE` operators. The parser's tree is modelled as far as the binder looks into it; what it
refuses outright is the node `other`, with the text the error prints.
-/

namespace StrataDb.Sql

open ByteCodec
open Runs (bind_eq_ok)

def unsupported {α : Type} (msg : String) : Outcome α :=
  .error (.error (.unsupported msg))

/-! ### The parser's tree -/

inductive TimezoneInfo where
  | none
  | withTimeZone
  | withoutTimeZone
  | tz
deriving DecidableEq

/-- `DataType`; the lengths and precisions nothing looks at are left out. -/
inductive DataType where
  | bool | boolean
  | smallInt | int2
  | int | integer | int4
  | bigInt | int8
  | text | varchar | char | charVarying
  | bytea
  | json | jsonb
  | date
  | timestamp (zone : TimezoneInfo)
  | real | float4 | float32
  | doublePrecision | double | float8 | float64
  | float (precision : Option Nat)
  | numeric | decimal | dec | bigNumeric | bigDecimal
  | time (zone : TimezoneInfo)
  | uuid
  | interval
  | array (element : Option DataType)
  | other (debug : String)

/-- A dotted name: each part's identifier, if it is one, and the name as printed. -/
structure ObjectName where
  parts : List (Option String)
  display : String

/-- Literals of the statement. -/
inductive AstValue where
  | number (s : String)
  | singleQuotedString (s : String)
  | boolean (b : Bool)
  | null
  | other (debug : String)

/-- The operators of the parser; `other` is one that the binder refuses. -/
inductive AstBinaryOperator where
  | eq | notEq | lt | ltEq | gt | gtEq
  | and | or
  | plus | minus | multiply | divide | modulo
  | stringConcat
  | other (debug : String)

inductive AstUnaryOperator where
  | not
  | minus
  | other (debug : String)

inductive TrimWhereField where
  | both
  | leading
  | trailing

/-- The parts of a call that the binder asks for. -/
structure CallForm where
  /-- `FILTER`, `OVER`, `WITHIN GROUP` or a null treatment. -/
  clause : Bool
  /-- The arguments are a plain list. -/
  list : Bool
  /-- `DISTINCT` or `ORDER BY` among the arguments. -/
  distinct : Bool

/-- The parser's expressions. -/
inductive AstExpr where
  | value (v : AstValue)
  | identifier (name : String)
  | compoundIdentifier (parts : List String) (debug : String)
  | binaryOp (op : AstBinaryOperator) (left right : AstExpr)
  | unaryOp (op : AstUnaryOperator) (expr : AstExpr)
  | nested (inner : AstExpr)
  /-- The text is `none` if the literal is not a string. -/
  | typedString (dataType : DataType) (text : Option String) (debug : String)
  /-- An argument is `none` if it is named or a wildcard. -/
  | function (name : ObjectName) (form : CallForm) (args : List (Option AstExpr))
  | ceil (expr : AstExpr) (plain : Bool)
  | floor (expr : AstExpr) (plain : Bool)
  | isNull (expr : AstExpr)
  | isNotNull (expr : AstExpr)
  | between (expr : AstExpr) (negated : Bool) (low high : AstExpr)
  | inList (expr : AstExpr) (list : List AstExpr) (negated : Bool)
  | like (negated any : Bool) (expr pattern : AstExpr) (escapeChar : Bool)
  | substring (expr : AstExpr) (from_ for_ : Option AstExpr)
  | trim (expr : AstExpr) (trimWhere : Option TrimWhereField) (trimWhat : Option AstExpr)
      (trimCharacters : Bool)
  | case (operand : Option AstExpr) (conditions : List (AstExpr × AstExpr))
      (elseResult : Option AstExpr)
  | cast (expr : AstExpr) (dataType : DataType)
  /-- The value is `none` unless it is a literal, and its text `none` unless a string. -/
  | interval (value : Option (Option String)) (leadingField : Option String)
  | array (elements : List AstExpr)
  | other (debug : String)

/-! ### Scopes -/

/-- A column, and the relation it is reached by. -/
structure ScopeColumn where
  relation : Option String
  field : Field

structure Scope where
  columns : List ScopeColumn

namespace Scope

def empty : Scope := ⟨[]⟩

/-- All columns of a relation, under its name or alias. -/
def forRelation (relation : Option String) (schema : Schema) : Scope :=
  ⟨schema.fields.map fun field => ⟨relation, field⟩⟩

/-- The columns of a join. -/
def concat (left right : Scope) : Scope :=
  ⟨left.columns ++ right.columns⟩

def len (scope : Scope) : Nat :=
  scope.columns.length

/-- The columns without their relations. -/
def schema (scope : Scope) : Schema :=
  ⟨scope.columns.map ScopeColumn.field⟩

end Scope

/-- The name as errors print it. -/
def displayName (relation : Option String) (name : String) : String :=
  match relation with
  | some r => r ++ "." ++ name
  | none => name

/-- An unqualified name matches in every relation. -/
def ScopeColumn.isNamed (col : ScopeColumn) (relation : Option String) (name : String) : Bool :=
  col.field.name == name &&
    match relation with
    | some r => col.relation == some r
    | none => true

/-- The only position that matches; a second one is an error. -/
def resolveFrom (relation : Option String) (name : String) :
    Nat → Option Nat → List ScopeColumn → Outcome Nat
  | _, some found, [] => .ok found
  | _, none, [] => internalError ("unknown column: " ++ displayName relation name)
  | i, found, col :: cols =>
    if col.isNamed relation name then
      if found.isSome then
        internalError ("ambiguous column: " ++ displayName relation name)
      else
        resolveFrom relation name (i + 1) (some i) cols
    else
      resolveFrom relation name (i + 1) found cols

/-- The position of a column. -/
def Scope.resolve (scope : Scope) (relation : Option String) (name : String) : Outcome Nat :=
  resolveFrom relation name 0 none scope.columns

/-! ### Types, literals and operators -/

def isTzAware : TimezoneInfo → Bool
  | .withTimeZone | .tz => true
  | _ => false

/-- The types the engine has. -/
def bindDataType : DataType → Outcome LogicalType
  | .bool | .boolean => .ok .bool
  | .smallInt | .int2 => .ok .int16
  | .int | .integer | .int4 => .ok .int32
  | .bigInt | .int8 => .ok .int64
  | .text | .varchar | .char | .charVarying => .ok .text
  | .bytea => .ok .bytes
  | .json | .jsonb => .ok .json
  | .date => .ok .date
  | .timestamp zone =>
    if isTzAware zone then .ok .timestamp
    else unsupported "TIMESTAMP WITHOUT TIME ZONE (use TIMESTAMP WITH TIME ZONE)"
  | .real | .float4 | .float32 => .ok .float32
  | .doublePrecision | .double | .float8 | .float64 => .ok .float64
  | .float precision =>
    match precision with
    | some p => if p ≤ 24 then .ok .float32 else .ok .float64
    | none => .ok .float64
  | .numeric | .decimal | .dec | .bigNumeric | .bigDecimal => .ok .numeric
  | .time zone => if isTzAware zone then unsupported "TIME WITH TIME ZONE" else .ok .time
  | .uuid => .ok .uuid
  | .interval => .ok .interval
  | .array (some element) => do
    match ← bindDataType element with
    | .array _ => unsupported "nested arrays"
    | elem => return .array elem
  | .array none => unsupported "ARRAY without an element type"
  | .other debug => unsupported ("column type: " ++ debug)

/-- A number is an integer if it parses as one, or a double. -/
def bindValue (rt : Runtime) : AstValue → Outcome Value
  | .number s =>
    match rt.parseI64 s with
    | some n => .ok (.int64 n)
    | none =>
      match rt.parseF64 s with
      | some f => .ok (.float64 f)
      | none => internalError ("bad numeric literal: " ++ s)
  | .singleQuotedString s => .ok (.text s)
  | .boolean b => .ok (.bool b)
  | .null => .ok .null
  | .other debug => unsupported ("literal: " ++ debug)

def literalText (what : String) (text : Option String) : Outcome String :=
  orTypeError (what ++ " literal must be a string") text

/-- `DATE '…'` and the like: parsed while binding. -/
def bindTypedString (rt : Runtime) (dataType : DataType) (text : Option String) (debug : String) :
    Outcome Value :=
  match dataType with
  | .date => do return .date (← parseDate rt (← literalText "DATE" text))
  | .timestamp zone =>
    if isTzAware zone then do
      return .timestamp (← parseTimestamptz rt (← literalText "TIMESTAMP" text))
    else
      unsupported ("typed literal: " ++ debug)
  | .numeric | .decimal | .dec | .bigNumeric | .bigDecimal => do
    let s ← literalText "NUMERIC" text
    return .numeric (← orTypeError ("invalid NUMERIC literal: " ++ rt.debugStr s)
      (rt.parseDecimal s))
  | .time zone =>
    if isTzAware zone then
      unsupported "TIME WITH TIME ZONE literal"
    else do
      return .time (← parseTime rt (← literalText "TIME" text))
  | .uuid => do
    let s ← literalText "UUID" text
    return .uuid (← orTypeError ("invalid UUID literal: " ++ rt.debugStr s) (rt.parseUuid (trim s)))
  | _ => unsupported ("typed literal: " ++ debug)

/-- `INTERVAL '…' unit`: the unit is appended to the text. -/
def bindInterval (rt : Runtime) (value : Option (Option String)) (leadingField : Option String) :
    Outcome Value :=
  match value with
  | none => unsupported "non-literal INTERVAL value"
  | some none => unsupported "INTERVAL value must be a string"
  | some (some s) => do
    let text := match leadingField with
      | some field => s ++ " " ++ rt.toLowercase field
      | none => s
    return .interval (← parseInterval rt text)

def bindBinaryOp : AstBinaryOperator → Outcome BinaryOperator
  | .eq => .ok .eq
  | .notEq => .ok .notEq
  | .lt => .ok .lt
  | .ltEq => .ok .ltEq
  | .gt => .ok .gt
  | .gtEq => .ok .gtEq
  | .and => .ok .and
  | .or => .ok .or
  | .plus => .ok .add
  | .minus => .ok .sub
  | .multiply => .ok .mul
  | .divide => .ok .div
  | .modulo => .ok .mod
  | .stringConcat => .ok .concat
  | .other debug => unsupported ("binary op: " ++ debug)

/-! ### Functions -/

/-- How many arguments a function takes. -/
inductive Arity where
  | exact (n : Nat)
  | atLeast (n : Nat)
  | any
deriving DecidableEq

def Arity.accepts : Arity → Nat → Bool
  | .exact n, argc => argc == n
  | .atLeast n, argc => n ≤ argc
  | .any, _ => true

def Arity.describe : Arity → String
  | .exact n => "exactly " ++ toString n ++ " argument(s)"
  | .atLeast n => "at least " ++ toString n ++ " argument(s)"
  | .any => "any number of arguments"

/-- The built-in functions by their upper-case names. -/
def scalarFunc : String → Option (ScalarFunc × Arity)
  | "ABS" => some (.abs, .exact 1)
  | "ROUND" => some (.round, .exact 1)
  | "COALESCE" => some (.coalesce, .atLeast 1)
  | "NULLIF" => some (.nullif, .exact 2)
  | "GREATEST" => some (.greatest, .atLeast 1)
  | "LEAST" => some (.least, .atLeast 1)
  | "CONCAT" => some (.concat, .any)
  | "LENGTH" | "CHAR_LENGTH" | "CHARACTER_LENGTH" => some (.length, .exact 1)
  | "REPEAT" => some (.repeat, .exact 2)
  | "UPPER" | "UCASE" => some (.upper, .exact 1)
  | "LOWER" | "LCASE" => some (.lower, .exact 1)
  | _ => none

/-- `MAX` and `MIN` of two or more arguments are `GREATEST` and `LEAST`. -/
def resolveScalarFunc (name : String) (argc : Nat) : Outcome ScalarFunc :=
  match scalarFunc name with
  | some (func, arity) =>
    if arity.accepts argc then
      .ok func
    else
      typeError (name ++ " takes " ++ arity.describe ++ ", got " ++ toString argc)
  | none =>
    if name = "MAX" ∨ name = "MIN" then
      if 2 ≤ argc then
        .ok (if name = "MAX" then .greatest else .least)
      else
        unsupported (name ++ " as an aggregate (needs GROUP BY); " ++ name
          ++ "(a, b, …) is supported")
    else
      unsupported ("function " ++ name)

def singleIdentUpper (rt : Runtime) (name : ObjectName) : Outcome String :=
  match name.parts with
  | [some ident] => .ok (rt.toUppercase ident)
  | [none] => unsupported ("function name: " ++ name.display)
  | _ => unsupported ("qualified function name: " ++ name.display)

/-- `value >= low AND value <= high`. -/
def lowerBetween (negated : Bool) (value low high : Expr) : Expr :=
  let between := .binary .and (.binary .gtEq value low) (.binary .ltEq value high)
  if negated then .not between else between

def lowerInFrom (value : Expr) : Option Expr → List Expr → Option Expr
  | acc, [] => acc
  | none, item :: items => lowerInFrom value (some (.binary .eq value item)) items
  | some prev, item :: items =>
    lowerInFrom value (some (.binary .or prev (.binary .eq value item))) items

/-- The disjunction of the equalities; an empty list is `FALSE`. -/
def lowerInList (negated : Bool) (value : Expr) (items : List Expr) : Expr :=
  let inExpr := (lowerInFrom value none items).getD (.literal (.bool false))
  if negated then .not inExpr else inExpr

def trimFunc : Option TrimWhereField → ScalarFunc
  | none | some .both => .trimBoth
  | some .leading => .trimLeading
  | some .trailing => .trimTrailing

/-- A simple `CASE` compares its operand with each condition. -/
def lowerCondition (operand : Option Expr) (condition : Expr) : Expr :=
  match operand with
  | some op => .binary .eq op condition
  | none => condition

/-! ### Binding -/

/-- Without a scope there are no columns. -/
def currentScope (scope : Option Scope) : Outcome Scope :=
  match scope with
  | some scope => .ok scope
  | none => internalError "no scope for column ref"

def bindUnary (op : AstUnaryOperator) (input : Outcome Expr) : Outcome Expr :=
  match op with
  | .not => return .not (← input)
  | .minus => return .neg (← input)
  | .other debug => unsupported ("unary op: " ++ debug)

def resolveCompound (scope : Option Scope) (parts : List String) (debug : String) :
    Outcome Expr := do
  let scope ← currentScope scope
  match parts with
  | [relation, name] => return .column (← scope.resolve (some relation) name)
  | _ => unsupported ("qualified name: " ++ debug)

mutual

/-- `bind_expr`. -/
def AstExpr.bind (rt : Runtime) (scope : Option Scope) : AstExpr → Outcome Expr
  | .value v => do return .literal (← bindValue rt v)
  | .identifier name => do return .column (← (← currentScope scope).resolve none name)
  | .compoundIdentifier parts debug => resolveCompound scope parts debug
  | .binaryOp op left right => do
    let op ← bindBinaryOp op
    return .binary op (← left.bind rt scope) (← right.bind rt scope)
  | .unaryOp op expr => bindUnary op (expr.bind rt scope)
  | .nested inner => inner.bind rt scope
  | .typedString dataType text debug => do
    return .literal (← bindTypedString rt dataType text debug)
  | .function name form args => do
    let name ← singleIdentUpper rt name
    if form.clause then
      unsupported (name ++ " with a clause")
    else if !form.list then
      unsupported (name ++ " call form")
    else if form.distinct then
      unsupported (name ++ " with DISTINCT / ORDER BY")
    else do
      let args ← bindArgs rt scope name args
      return .call (← resolveScalarFunc name args.length) args
  | .ceil expr plain =>
    if plain then do return .call .ceil [← expr.bind rt scope]
    else unsupported "CEIL/FLOOR with TO / scale"
  | .floor expr plain =>
    if plain then do return .call .floor [← expr.bind rt scope]
    else unsupported "CEIL/FLOOR with TO / scale"
  | .isNull expr => do return .isNull (← expr.bind rt scope) false
  | .isNotNull expr => do return .isNull (← expr.bind rt scope) true
  | .between expr negated low high => do
    let value ← expr.bind rt scope
    return lowerBetween negated value (← low.bind rt scope) (← high.bind rt scope)
  | .inList expr list negated => do
    let value ← expr.bind rt scope
    return lowerInList negated value (← bindAll rt scope list)
  | .like negated any expr pattern escapeChar =>
    if any || escapeChar then
      unsupported "LIKE ANY / ESCAPE"
    else do
      return .like (← expr.bind rt scope) (← pattern.bind rt scope) negated
  | .substring expr from_ for_ => do
    let s ← expr.bind rt scope
    let start ← bindOption rt scope from_
    let len ← bindOption rt scope for_
    return .call .substr
      [s, start.getD (.literal (.int64 1)), len.getD (.literal (.int64 Int64.maxValue))]
  | .trim expr trimWhere trimWhat trimCharacters =>
    if trimCharacters then
      unsupported "TRIM(value, characters)"
    else do
      let s ← expr.bind rt scope
      let chars ← bindOption rt scope trimWhat
      return .call (trimFunc trimWhere) [s, chars.getD (.literal (.text " "))]
  | .case operand conditions elseResult => do
    let operand ← bindOption rt scope operand
    let branches ← bindConditions rt scope operand conditions
    return .case branches (← bindOption rt scope elseResult)
  | .cast expr dataType => do
    let input ← expr.bind rt scope
    return .cast input (← bindDataType dataType)
  | .interval value leadingField => do return .literal (← bindInterval rt value leadingField)
  | .array elements => do return .array (← bindAll rt scope elements)
  | .other debug => unsupported ("expression: " ++ debug)

def bindAll (rt : Runtime) (scope : Option Scope) : List AstExpr → Outcome (List Expr)
  | [] => .ok []
  | e :: es => do
    let bound ← e.bind rt scope
    return bound :: (← bindAll rt scope es)

/-- The arguments of a call, none of which is a wildcard. -/
def bindArgs (rt : Runtime) (scope : Option Scope) (name : String) :
    List (Option AstExpr) → Outcome (List Expr)
  | [] => .ok []
  | none :: _ => unsupported (name ++ " argument form")
  | some e :: es => do
    let bound ← e.bind rt scope
    return bound :: (← bindArgs rt scope name es)

def bindOption (rt : Runtime) (scope : Option Scope) : Option AstExpr → Outcome (Option Expr)
  | none => .ok none
  | some e => do return some (← e.bind rt scope)

def bindConditions (rt : Runtime) (scope : Option Scope) (operand : Option Expr) :
    List (AstExpr × AstExpr) → Outcome (List (Expr × Expr))
  | [] => .ok []
  | (condition, result) :: conditions => do
    let cond ← condition.bind rt scope
    let result ← result.bind rt scope
    return (lowerCondition operand cond, result) :: (← bindConditions rt scope operand conditions)

end

end StrataDb.Sql
