import StrataDb.BindInsert
import StrataDb.CatalogContent
import StrataDb.ExprJson

/-!
# What becomes of a `DEFAULT` (`bind_column` and `resolve_default` of the binder)

`CREATE TABLE` keeps the JSON text of the bound expression; every `INSERT` that omits the column
reads it again. A number literal that overflows a double is an infinity, which JSON has no numeral
for: such a default is accepted and can never be read.
-/

namespace StrataDb.Sql

open Runs (bind_eq_ok)
open SerdeJson

def lastDefault : List ColumnOption → Option AstExpr
  | [] => none
  | .default expr :: options => (lastDefault options).or (some expr)
  | _ :: options => lastDefault options

/-- The field is what the catalog reads from the row it wrote for a column. -/
def Recorded (metas : ValueSerde ColumnMeta) (column field : Field) : Prop :=
  ∃ tableId position json info, metas.toValue (column.toMeta tableId position) = .ok json ∧
    metas.fromValue json = .ok info ∧ field = info.toField

/-- A row of `VALUES` that gives column `i` no value, and every other column an acceptable
    one. -/
def RowOmits (rt : Runtime) (serde : ExprSerde) (fields : List Field)
    (targetCols : Option (List Nat)) (i : Nat) (exprs : List AstExpr) : Prop :=
  exprs.length ≤ expectedValues fields targetCols ∧
    ∃ slots, fillSlots targetCols 0 exprs (List.replicate fields.length none) = .ok slots ∧
      slots[i]? = some none ∧
      ∀ (j : Nat) field slot, j ≠ i → fields[j]? = some field → slots[j]? = some slot →
        ∃ v, slotValue rt serde field slot = .ok v

/-- An `INSERT` all of whose rows omit column `i`. -/
def InsertOmits (rt : Runtime) (serde : ExprSerde) (table : Table) (insert : Insert) (i : Nat) :
    Prop :=
  ∃ targetCols exprss,
    resolveTargetColumns insert.columns table.schema.fields table.name = .ok targetCols ∧
      insert.source = .values exprss ∧
      ∀ exprs ∈ exprss, RowOmits rt serde table.schema.fields targetCols i exprs

/-- Whatever table the column is part of, an `INSERT` that omits it binds rows with `w` in
    its place. -/
def OmittedGets (rt : Runtime) (serde : ExprSerde) (metas : ValueSerde ColumnMeta) (column : Field)
    (w : Value) : Prop :=
  ∀ (table : Table) (insert : Insert) (i : Nat) (field : Field), Recorded metas column field →
    table.schema.fields[i]? = some field → InsertOmits rt serde table insert i →
      ∃ rows, bindInsertInto rt serde table insert = .ok rows ∧ ∀ row ∈ rows, row[i]? = some w

section Defaults

variable {ν : Type} {rt : Runtime} {serde : ExprSerde} {f : JsonFormat ν}

theorem default_of_bindOptions : ∀ (options : List ColumnOption) (nullable : Bool)
    (default : Option String) {result : Bool × Option String},
    bindOptions rt serde options nullable default = .ok result →
      match lastDefault options with
      | some ast => ∃ bound json, ast.bind rt none = .ok bound ∧ serde.toString bound = .ok json ∧
          result.2 = some json
      | none => result.2 = default
  | [], _, _, _, h => by
    cases h
    rfl
  | .null :: options, _, default, _, h => default_of_bindOptions options true default h
  | .notNull :: options, _, default, _, h => default_of_bindOptions options false default h
  | .default expr :: options, nullable, _, _, h => by
    rw [bindOptions] at h
    obtain ⟨bound, hbound, h⟩ := bind_eq_ok.mp h
    split at h
    next json hjson =>
      have hrest := default_of_bindOptions options nullable (some json) h
      rw [lastDefault]
      cases hlast : lastDefault options with
      | some ast => simpa only [hlast, Option.or] using hrest
      | none =>
        rw [hlast] at hrest
        exact ⟨bound, json, hbound, hjson, hrest⟩
    next => cases h
  | .other _ :: _, _, _, _, h => nomatch h

theorem default_of_bindColumn {col : ColumnDef} {field : Field} {ast : AstExpr}
    (h : bindColumn rt serde col = .ok field) (hlast : lastDefault col.options = some ast) :
    ∃ bound json, ast.bind rt none = .ok bound ∧ serde.toString bound = .ok json ∧
      field.default = some json := by
  obtain ⟨ty, -, h⟩ := bind_eq_ok.mp h
  obtain ⟨result, hresult, h⟩ := bind_eq_ok.mp h
  cases h
  have hdefault := default_of_bindOptions col.options true none hresult
  rw [hlast] at hdefault
  exact hdefault

theorem readsIff_fromStr (laws : f.Laws rt) {ast : AstExpr} {bound : Expr} {json : String}
    (hprint : f.parse (f.print (bound.toDoc rt f)) = .ok (bound.toDoc rt f))
    (hbound : ast.bind rt none = .ok bound) (hjson : (exprSerde rt f).toString bound = .ok json) :
    ReadsIff bound.Finite ((exprSerde rt f).fromStr json) bound := by
  cases hjson
  have rule : BindRule rt (scopeLen none) (Expr.ConstNode rt) := bindRule_const rt
  have hconst : bound.All (Expr.ConstNode rt) := all_of_bind rule hbound
  refine .bind_ok hprint ?_
  exact readsIff_expr laws bound _ hconst (Nat.le_refl _)

theorem readsIff_resolveDefault (laws : f.Laws rt) {col : ColumnDef} {field : Field} {ast : AstExpr}
    {bound : Expr} {v w : Value}
    (hprint : f.parse (f.print (bound.toDoc rt f)) = .ok (bound.toDoc rt f))
    (hfield : bindColumn rt (exprSerde rt f) col = .ok field)
    (hlast : lastDefault col.options = some ast) (hbound : ast.bind rt none = .ok bound)
    (hv : bound.eval rt [] = .ok v) (hw : coerceValue rt field v = .ok w) :
    ReadsIff bound.Finite (resolveDefault rt (exprSerde rt f) field) w := by
  obtain ⟨bound', json, hbound', hjson, hdefault⟩ := default_of_bindColumn hfield hlast
  cases hbound.symm.trans hbound'
  have hread := readsIff_fromStr laws hprint hbound hjson
  unfold resolveDefault
  rw [hdefault]
  constructor
  · intro hfinite
    simp only [hread.1 hfinite]
    exact bind_eq_ok.mpr ⟨v, hv, hw⟩
  · intro hinfinite
    obtain ⟨e, he⟩ := hread.2 hinfinite
    exact ⟨_, by simp only [he]; rfl⟩

theorem rowValues_of_slots : ∀ (fields : List Field) (slots : List (Option AstExpr)),
    (∀ (j : Nat) field slot, fields[j]? = some field → slots[j]? = some slot →
      ∃ v, slotValue rt serde field slot = .ok v) →
    ∃ row, rowValues rt serde fields slots = .ok row ∧
      ∀ (j : Nat) field slot v, fields[j]? = some field → slots[j]? = some slot →
        slotValue rt serde field slot = .ok v → row[j]? = some v
  | [], slots, _ => ⟨[], by cases slots <;> rfl, by simp⟩
  | _ :: _, [], _ => ⟨[], rfl, by simp⟩
  | field :: fields, slot :: slots, h => by
    obtain ⟨v, hv⟩ := h 0 field slot rfl rfl
    obtain ⟨row, hrow, hget⟩ := rowValues_of_slots fields slots fun j => h (j + 1)
    refine ⟨v :: row, bind_eq_ok.mpr ⟨v, hv, bind_eq_ok.mpr ⟨row, hrow, rfl⟩⟩, ?_⟩
    intro j field' slot' v' hf hs hv'
    cases j with
    | zero =>
      cases hf
      cases hs
      cases hv.symm.trans hv'
      rfl
    | succ j => exact hget j field' slot' v' hf hs hv'

theorem bindRow_of_rowOmits {table : Table} {targetCols : Option (List Nat)} {i : Nat}
    {exprs : List AstExpr} {field : Field} {w : Value}
    (hfield : table.schema.fields[i]? = some field)
    (h : RowOmits rt serde table.schema.fields targetCols i exprs)
    (hw : resolveDefault rt serde field = .ok w) :
    ∃ row, bindRow rt serde table targetCols exprs = .ok row ∧ row[i]? = some w := by
  obtain ⟨hlen, slots, hslots, hnone, hothers⟩ := h
  have hvalues : ∀ (j : Nat) field' slot, table.schema.fields[j]? = some field' →
    slots[j]? = some slot →
      ∃ v, slotValue rt serde field' slot = .ok v := by
    intro j field' slot hf hs
    by_cases hj : j = i
    · subst hj
      cases hfield.symm.trans hf
      cases hnone.symm.trans hs
      exact ⟨w, hw⟩
    · exact hothers j field' slot hj hf hs
  obtain ⟨row, hrow, hget⟩ := rowValues_of_slots table.schema.fields slots hvalues
  refine ⟨row, ?_, hget i field none w hfield hnone hw⟩
  rw [bindRow, if_neg (Nat.not_lt.mpr hlen)]
  exact bind_eq_ok.mpr ⟨slots, hslots, hrow⟩

theorem bindRows_of_forall {table : Table} {targetCols : Option (List Nat)} {P : Tuple → Prop} :
    ∀ exprss : List (List AstExpr),
      (∀ exprs ∈ exprss, ∃ row, bindRow rt serde table targetCols exprs = .ok row ∧ P row) →
      ∃ rows, bindRows rt serde table targetCols exprss = .ok rows ∧ ∀ row ∈ rows, P row
  | [], _ => ⟨[], rfl, by simp⟩
  | exprs :: exprss, h => by
    obtain ⟨row, hrow, hP⟩ := h exprs List.mem_cons_self
    obtain ⟨rows, hrows, hall⟩ :=
      bindRows_of_forall exprss fun e he => h e (List.mem_cons_of_mem _ he)
    exact ⟨row :: rows, bind_eq_ok.mpr ⟨row, hrow, bind_eq_ok.mpr ⟨rows, hrows, rfl⟩⟩,
      List.forall_mem_cons.mpr ⟨hP, hall⟩⟩

theorem bindInsertInto_of_omits {table : Table} {insert : Insert} {i : Nat} {field : Field}
    {w : Value} (hfield : table.schema.fields[i]? = some field)
    (h : InsertOmits rt serde table insert i) (hw : resolveDefault rt serde field = .ok w) :
    ∃ rows, bindInsertInto rt serde table insert = .ok rows ∧ ∀ row ∈ rows, row[i]? = some w := by
  obtain ⟨targetCols, exprss, htarget, hsource, homits⟩ := h
  obtain ⟨rows, hrows, hall⟩ := bindRows_of_forall exprss fun exprs he =>
    bindRow_of_rowOmits hfield (homits exprs he) hw
  refine ⟨rows, bind_eq_ok.mpr ⟨targetCols, htarget, ?_⟩, hall⟩
  rw [hsource]
  exact hrows

section Recorded

variable {metas : ValueSerde ColumnMeta} {column field : Field}
  (hmetas : ∀ tableId position, ∃ json, metas.toValue (column.toMeta tableId position) = .ok json ∧
    metas.fromValue json = .ok (column.toMeta tableId position))

include hmetas

theorem recorded_eq (h : Recorded metas column field) : field = column := by
  obtain ⟨tableId, position, json, info, hjson, hinfo, rfl⟩ := h
  obtain ⟨json', hjson', hinfo'⟩ := hmetas tableId position
  cases hjson.symm.trans hjson'
  cases hinfo.symm.trans hinfo'
  rfl

theorem recorded_self : Recorded metas column column := by
  obtain ⟨json, hjson, hinfo⟩ := hmetas ⟨reserved 0⟩ 0
  exact ⟨_, _, json, _, hjson, hinfo, rfl⟩

end Recorded

def keyedTable (column : Field) : Table :=
  { oneColumnTable .bool with
    schema := ⟨[{ name := "k", ty := .bool, nullable := false, default := none }, column]⟩ }

theorem insertOne_omits (rt : Runtime) (serde : ExprSerde) (column : Field) :
    InsertOmits rt serde (keyedTable column) (insertOne (.value (.boolean true))) 1 := by
  refine ⟨none, [[.value (.boolean true)]], rfl, rfl, ?_⟩
  intro exprs hexprs
  cases List.mem_singleton.mp hexprs
  refine ⟨Nat.le_succ 1, [some (.value (.boolean true)), none], rfl, rfl, ?_⟩
  intro j field slot hj hf hs
  match j, hj with
  | 0, _ =>
    cases hf
    cases hs
    exact ⟨.bool true, rfl⟩
  | j + 2, _ => cases hf

theorem bindInsertInto_keyedTable {column : Field} {e : Fault}
    (h : resolveDefault rt serde column = .error e) :
    bindInsertInto rt serde (keyedTable column) (insertOne (.value (.boolean true)))
      = .error e := by
  have hslot : slotValue rt serde column none = .error e := h
  have hlast : rowValues rt serde [column] [none] = .error e := by
    rw [rowValues, hslot]
    rfl
  have hrow : rowValues rt serde (keyedTable column).schema.fields
    [some (.value (.boolean true)), none]
      = .error e := by
    rw [keyedTable, rowValues, hlast]
    rfl
  have hbind : bindRow rt serde (keyedTable column) none [.value (.boolean true)] = .error e := hrow
  show bindRows rt serde (keyedTable column) none [[.value (.boolean true)]] = .error e
  rw [bindRows, hbind]
  rfl

/-- **A stored default means what it meant** exactly if none of its number literals
    overflows to an infinity. -/
theorem omitted_gets_default (rt : Runtime) (f : JsonFormat ν) (laws : f.Laws rt)
    (metas : ValueSerde ColumnMeta) (col : ColumnDef) (column : Field)
    (hmetas : ∀ tableId position, ∃ json, metas.toValue (column.toMeta tableId position)
      = .ok json ∧
      metas.fromValue json = .ok (column.toMeta tableId position))
    (ast : AstExpr) (bound : Expr) (v w : Value)
    (hprint : f.parse (f.print (bound.toDoc rt f)) = .ok (bound.toDoc rt f))
    (hcolumn : bindColumn rt (exprSerde rt f) col = .ok column)
    (hlast : lastDefault col.options = some ast) (hbound : ast.bind rt none = .ok bound)
    (hv : bound.eval rt [] = .ok v) (hw : coerceValue rt column v = .ok w) :
    OmittedGets rt (exprSerde rt f) metas column w ↔ bound.Finite := by
  have hread := readsIff_resolveDefault laws hprint hcolumn hlast hbound hv hw
  constructor
  · intro hgets
    by_contra hinfinite
    obtain ⟨e, he⟩ := hread.2 hinfinite
    obtain ⟨rows, hrows, -⟩ := hgets (keyedTable column) _ 1 column (recorded_self hmetas) rfl
      (insertOne_omits rt _ column)
    rw [bindInsertInto_keyedTable he] at hrows
    cases hrows
  · intro hfinite table insert i field hrecorded hfield homits
    cases recorded_eq hmetas hrecorded
    exact bindInsertInto_of_omits hfield homits (hread.1 hfinite)

end Defaults

/-! ### Two defaults -/

def readsDouble (bits : UInt64) : Runtime :=
  { (default : Runtime) with parseF64 := fun _ => some bits }

/-- `x DOUBLE PRECISION DEFAULT n`. -/
def doubleColumn (n : String) : ColumnDef where
  name := "x"
  dataType := .doublePrecision
  options := [.default (.value (.number n))]

def doubleNumeral : Int ⊕ UInt64 → Numeral
  | .inl n => numeralOfNat n.toNat
  | .inr bits => numeralOfNat bits.toNat

/-- A format that reads the literals of doubles, by their bits. -/
def doubleFormat : JsonFormat (Int ⊕ UInt64) where
  print d := String.ofList (d.chars doubleNumeral)
  parse s :=
    let head := "\x7b\"Literal\":\x7b\"value\":\x7b\"Float64\":".toList
    let literal (d : Doc (Int ⊕ UInt64)) :=
      tagged "Literal" (.object [("value", tagged "Float64" d)])
    if head.isPrefixOf s.toList then
      match (s.toList.drop head.length).takeWhile Char.isDigit with
      | [] => .ok (literal .null)
      | digits =>
        .ok (literal
        (.number (.inr (.ofNat (digits.foldl (fun n c => 10 * n + (c.toNat - 48)) 0)))))
    else .error "expected a double"
  ofInt := Sum.inl
  toInt := Sum.getLeft?
  ofF32 _ := .inl 0
  toF32 _ := none
  ofF64 := Sum.inr
  toF64 := Sum.getRight?
  message what _ := what
  ofJson _ := .null
  toJson _ := .error ""

theorem laws_doubleFormat (bits : UInt64) : doubleFormat.Laws (readsDouble bits) where
  toInt_ofInt _ := rfl
  toF64_ofF64 _ _ := rfl
  decimal _ _ h := by cases h
  uuid _ _ h := by cases h

theorem columnMeta_numbering (info : ColumnMeta) : ∃ json,
    (ValueSerde.numbering ColumnMeta).toValue info = .ok json ∧
      (ValueSerde.numbering ColumnMeta).fromValue json = .ok info :=
  (readsBack_numbering info).imp fun _ h => ⟨h.1, h.2.2⟩

theorem omitted_gets_double : ∃ column,
    bindColumn (readsDouble 0x4004000000000000)
      (exprSerde (readsDouble 0x4004000000000000) doubleFormat)
      (doubleColumn "2.5") = .ok column ∧
    OmittedGets (readsDouble 0x4004000000000000)
      (exprSerde (readsDouble 0x4004000000000000) doubleFormat)
      (.numbering ColumnMeta) column (.float64 0x4004000000000000) := by
  refine ⟨_, rfl, ?_⟩
  refine (omitted_gets_default _ doubleFormat (laws_doubleFormat _) (.numbering ColumnMeta)
    (doubleColumn "2.5")
    _ (fun _ _ => columnMeta_numbering _) (.value (.number "2.5"))
      (.literal (.float64 0x4004000000000000))
    _ _ ?_ rfl rfl rfl rfl rfl).mpr ?_
  · rfl
  · show finite64 0x4004000000000000 = true
    decide

/-- `DEFAULT 1e400` is accepted, is an infinity of the column's type, and cannot be read
    when a row omits the column. -/
theorem overflowing_default_lost : ∃ column,
    bindColumn (readsDouble 0x7ff0000000000000)
      (exprSerde (readsDouble 0x7ff0000000000000) doubleFormat)
      (doubleColumn "1e400") = .ok column ∧
    constEval (readsDouble 0x7ff0000000000000) (.value (.number "1e400"))
      = .ok (.float64 0x7ff0000000000000) ∧
    coerceValue (readsDouble 0x7ff0000000000000) column (.float64 0x7ff0000000000000)
      = .ok (.float64 0x7ff0000000000000) ∧
    Recorded (.numbering ColumnMeta) column column ∧
    InsertOmits (readsDouble 0x7ff0000000000000)
      (exprSerde (readsDouble 0x7ff0000000000000) doubleFormat)
      (keyedTable column) (insertOne (.value (.boolean true))) 1 ∧
    ∃ msg, bindInsertInto (readsDouble 0x7ff0000000000000)
      (exprSerde (readsDouble 0x7ff0000000000000) doubleFormat) (keyedTable column)
      (insertOne (.value (.boolean true)))
        = internalError ("deserialize DEFAULT expression: " ++ msg) := by
  refine ⟨_, rfl, rfl, rfl, recorded_self fun _ _ => columnMeta_numbering _,
    insertOne_omits _ _ _, ?_⟩
  have hbound : (AstExpr.value (.number "1e400")).bind (readsDouble 0x7ff0000000000000) none
      = .ok (.literal (.float64 0x7ff0000000000000)) := rfl
  have hprint :
      doubleFormat.parse (doubleFormat.print ((Expr.literal (.float64 0x7ff0000000000000)).toDoc
        (readsDouble 0x7ff0000000000000) doubleFormat))
      = .ok ((Expr.literal (.float64 0x7ff0000000000000)).toDoc (readsDouble 0x7ff0000000000000)
        doubleFormat) :=
    rfl
  obtain ⟨msg, hmsg⟩ := (readsIff_fromStr (laws_doubleFormat _) hprint hbound rfl).2 <| by
    show ¬ finite64 0x7ff0000000000000 = true
    decide
  refine ⟨msg, bindInsertInto_keyedTable ?_⟩
  rw [resolveDefault]
  simp only [hmsg]
  rfl

end StrataDb.Sql
