import StrataDb.Plan

/-!
# Binding `SELECT` (`crates/strata-db/src/query/planner/binder/query.rs`)

The `FROM` list gives a plan of scans and joins and the scope of its columns, in which the
predicate, the sort keys and the projection are bound. The sort sits below the projection.
-/

namespace StrataDb.Sql

/-! ### The parser's tree -/

/-- A relation of the `FROM` list. -/
inductive TableFactor where
  | table (name : ObjectName) (alias_ : Option String)
  | other (debug : String)

/-- `ON`, nothing, or what is refused. -/
inductive JoinConstraint where
  | none
  | on (expr : AstExpr)
  /-- `USING` or `NATURAL`. -/
  | other (debug : String)

inductive JoinOperator where
  | join (c : JoinConstraint)
  | inner (c : JoinConstraint)
  | left (c : JoinConstraint)
  | leftOuter (c : JoinConstraint)
  | right (c : JoinConstraint)
  | rightOuter (c : JoinConstraint)
  | fullOuter (c : JoinConstraint)
  | crossJoin
  | other (debug : String)

structure Join where
  relation : TableFactor
  joinOperator : JoinOperator

structure TableWithJoins where
  relation : TableFactor
  joins : List Join

/-- An item of the projection. -/
inductive SelectItem where
  | unnamedExpr (expr : AstExpr)
  | exprWithAlias (expr : AstExpr)
  | wildcard
  | other (debug : String)

/-- A `SELECT`, with the clauses that are refused. -/
structure Select where
  distinct : Bool
  projection : List SelectItem
  from_ : List TableWithJoins
  selection : Option AstExpr
  groupBy : Bool
  having : Bool

inductive SetExpr where
  | select (select : Select)
  | other (debug : String)

structure OrderByExpr where
  expr : AstExpr
  asc : Option Bool
  nullsFirst : Option Bool

inductive OrderByKind where
  | expressions (exprs : List OrderByExpr)
  | all

inductive LimitClause where
  | limitOffset (limit offset : Option AstExpr) (limitBy : Bool)
  | offsetCommaLimit

/-- A query around it. -/
structure Query where
  body : SetExpr
  orderBy : Option OrderByKind
  limitClause : Option LimitClause
  fetch : Bool

/-- A clause the binder does not take. -/
def reject (present : Bool) (clause : String) : Outcome Unit :=
  if present then unsupported clause else .ok ()

/-! ### The `FROM` list -/

section Binding

variable (rt : Runtime) (resolveTable : String → String → String → Outcome Table)

/-- An optional qualifier and a name. -/
def relationName (name : ObjectName) : Outcome (Option String × String) := do
  match ← nameIdents name with
  | [t] => return (none, t)
  | [d, t] => return (some d, t)
  | [_, d, t] => return (some d, t)
  | _ => unsupported ("name needs project.dataset.table, got: " ++ name.display)

/-- A scan of a table, which the catalog resolves. -/
def bindUserTable (name : ObjectName) (alias_ : Option String) : Outcome (LogicalNode × Scope) := do
  let (project, dataset, tableName) ← qualifyTableName name
  let table ← resolveTable project dataset tableName
  return (.scan table, .forRelation (some (alias_.getD tableName)) table.schema)

/-- The system relations shadow the tables. -/
def bindTableFactor : TableFactor → Outcome (LogicalNode × Scope)
  | .other debug => unsupported ("FROM relation: " ++ debug)
  | .table name alias_ => do
    let (dataset, leaf) ← relationName name
    match SystemRelation.resolve dataset leaf with
    | some relation =>
      return (.systemScan relation, .forRelation (some (alias_.getD leaf)) relation.schema)
    | none => bindUserTable resolveTable name alias_

def joinCondition : JoinConstraint → Outcome (Option AstExpr)
  | .none => .ok none
  | .on expr => .ok (some expr)
  | .other debug => unsupported ("join constraint: " ++ debug)

/-- `CROSS JOIN` is an inner join without a predicate. -/
def joinKind : JoinOperator → Outcome (JoinType × Option AstExpr)
  | .join c | .inner c => return (.inner, ← joinCondition c)
  | .left c | .leftOuter c => return (.left, ← joinCondition c)
  | .right c | .rightOuter c => return (.right, ← joinCondition c)
  | .fullOuter c => return (.full, ← joinCondition c)
  | .crossJoin => .ok (.inner, none)
  | .other debug => unsupported ("join operator: " ++ debug)

/-- The joins of a `FROM` item, left-deep; a condition is bound in the combined scope. -/
def bindJoins : LogicalNode → Scope → List Join → Outcome (LogicalNode × Scope)
  | node, scope, [] => .ok (node, scope)
  | node, scope, join :: joins => do
    let (rnode, rscope) ← bindTableFactor resolveTable join.relation
    let (joinType, constraint) ← joinKind join.joinOperator
    let combined := scope.concat rscope
    let on ← bindOption rt (some combined) constraint
    bindJoins (.join node rnode on joinType scope.schema rscope.schema) combined joins

/-- Joins are left-associative; `ON` sees both sides. -/
def bindTableWithJoins (twj : TableWithJoins) : Outcome (LogicalNode × Scope) := do
  let (node, scope) ← bindTableFactor resolveTable twj.relation
  bindJoins rt resolveTable node scope twj.joins

/-- The items after the first; a comma is a cross join. -/
def bindItems : LogicalNode → Scope → List TableWithJoins → Outcome (LogicalNode × Scope)
  | node, scope, [] => .ok (node, scope)
  | node, scope, item :: items => do
    let (rnode, rscope) ← bindTableWithJoins rt resolveTable item
    bindItems (.join node rnode none .inner scope.schema rscope.schema) (scope.concat rscope) items

/-- Without a `FROM` there is one row without columns. -/
def bindFrom : List TableWithJoins → Outcome (LogicalNode × Scope)
  | [] => .ok (.values [[]], .empty)
  | first :: rest => do
    let (node, scope) ← bindTableWithJoins rt resolveTable first
    bindItems rt resolveTable node scope rest

/-! ### The other clauses -/

def bindSelection (scope : Scope) (source : LogicalNode) : Option AstExpr → Outcome LogicalNode
  | some pred => return .filter source (← pred.bind rt (some scope))
  | none => .ok source

/-- `NULL`s are last under `ASC` and first under `DESC`, unless it says otherwise. -/
def bindSortKeys (scope : Scope) : List OrderByExpr → Outcome (List SortKey)
  | [] => .ok []
  | o :: os => do
    let ascending := o.asc.getD true
    let key : SortKey := ⟨← o.expr.bind rt (some scope), ascending, o.nullsFirst.getD !ascending⟩
    return key :: (← bindSortKeys scope os)

def bindOrderBy (scope : Scope) (input : LogicalNode) :
    Option (List OrderByExpr) → Outcome LogicalNode
  | some exprs => return .sort input (← bindSortKeys rt scope exprs) scope.schema
  | none => .ok input

/-- `*` is every column of the scope. -/
def SelectItem.bind (scope : Scope) : SelectItem → Outcome (List Expr)
  | .unnamedExpr e | .exprWithAlias e => return [← e.bind rt (some scope)]
  | .wildcard => .ok ((List.range scope.len).map .column)
  | .other debug => unsupported ("projection item: " ++ debug)

def bindProjection (scope : Scope) : List SelectItem → Outcome (List Expr)
  | [] => .ok []
  | item :: items => do
    let exprs ← item.bind rt scope
    return exprs ++ (← bindProjection scope items)

/-- `FROM`, `WHERE`, `ORDER BY` and the projection, in this order. -/
def bindSelect (select : Select) (orderBy : Option (List OrderByExpr)) : Outcome LogicalNode := do
  reject select.distinct "DISTINCT"
  reject select.groupBy "GROUP BY"
  reject select.having "HAVING"
  let (source, scope) ← bindFrom rt resolveTable select.from_
  let afterWhere ← bindSelection rt scope source select.selection
  let afterOrder ← bindOrderBy rt scope afterWhere orderBy
  return .project afterOrder (← bindProjection rt scope select.projection)

/-- `LIMIT` and `OFFSET` are constants that are not negative. -/
def bindCount (expr : AstExpr) (what : String) : Outcome Nat := do
  let value ← (← expr.bind rt none).eval rt []
  match asI64 value with
  | none => typeError (what ++ " expects an integer, got " ++ rt.debug value)
  | some n =>
    if 0 ≤ n.toInt then return n.toInt.toNat else typeError (what ++ " must be non-negative")

def bindCounted (what : String) (wrap : LogicalNode → Nat → LogicalNode) (node : LogicalNode) :
    Option AstExpr → Outcome LogicalNode
  | some e => return wrap node (← bindCount rt e what)
  | none => .ok node

def bindLimit (node : LogicalNode) : Option LimitClause → Outcome LogicalNode
  | none => .ok node
  | some .offsetCommaLimit => unsupported "`LIMIT offset, count`"
  | some (.limitOffset limit offset limitBy) => do
    reject limitBy "LIMIT BY"
    let node ← bindCounted rt "OFFSET" .offset node offset
    bindCounted rt "LIMIT" .limit node limit

def orderByTerms : Option OrderByKind → Outcome (Option (List OrderByExpr))
  | none => .ok none
  | some (.expressions exprs) => .ok (some exprs)
  | some .all => unsupported "ORDER BY ALL"

/-- `bind_query`. -/
def Query.bind (query : Query) : Outcome LogicalNode := do
  reject query.fetch "FETCH"
  let orderBy ← orderByTerms query.orderBy
  match query.body with
  | .other debug => unsupported ("query body: " ++ debug)
  | .select select => bindLimit rt (← bindSelect rt resolveTable select orderBy) query.limitClause

end Binding

end StrataDb.Sql
