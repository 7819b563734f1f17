import StrataDb.BindDdl
import StrataDb.BindSafety

/-!
# Binding `INSERT` (`crates/strata-db/src/query/planner/binder/dml.rs`)

The values of a row are constant expressions, evaluated while binding and coerced to their
columns' types; a column without a value takes its default. The rows that come out conform to the
schema, so they are encoded and read back (`bound_rows_read_back`), unless a length does not fit
its 32-bit field (`long_text_lost`).
-/

namespace StrataDb.Sql

open ByteCodec
open Runs (bind_eq_ok)
open List (replicate)

/-! ### Coercion -/

def LogicalType.debug : LogicalType → String
  | .bool => "Bool"
  | .int16 => "Int16"
  | .int32 => "Int32"
  | .int64 => "Int64"
  | .text => "Text"
  | .bytes => "Bytes"
  | .json => "Json"
  | .date => "Date"
  | .timestamp => "Timestamp"
  | .float32 => "Float32"
  | .float64 => "Float64"
  | .numeric => "Numeric"
  | .time => "Time"
  | .uuid => "Uuid"
  | .interval => "Interval"
  | .array element => "Array(" ++ element.debug ++ ")"

def cannotInsert (rt : Runtime) (value : Value) (field : Field) : Outcome Value :=
  typeError ("cannot insert " ++ rt.debug value ++ " into column `" ++ field.name ++ "` of type "
    ++ field.ty.debug)

/-- `fit_int`: widening always succeeds, narrowing is checked. -/
def fitInt (n : Int64) (field : Field) : Outcome Value :=
  let outOfRange := "value " ++ toString n.toInt ++ " out of range for column `" ++ field.name
    ++ "` of type " ++ field.ty.debug
  match field.ty with
  | .int64 => .ok (.int64 n)
  | .int32 => do return .int32 (← orTypeError outOfRange (fitI32 n.toInt))
  | .int16 => do return .int16 (← orTypeError outOfRange (fitI16 n.toInt))
  | _ => panicked
    "internal error: entered unreachable code: fit_int is only called for integer columns"

def coerceInt (rt : Runtime) (value : Value) (n : Int64) (field : Field) : Outcome Value :=
  match field.ty with
  | .int16 | .int32 | .int64 => fitInt n field
  | .float32 => .ok (.float32 (rt.f32OfF64 (f64OfI64 n)))
  | .float64 => .ok (.float64 (f64OfI64 n))
  | .numeric => .ok (.numeric (Decimal.ofInt64 n))
  | _ => cannotInsert rt value field

/-- The branches of `coerce_value` for values that are neither `NULL` nor arrays. -/
def coerceScalar (rt : Runtime) (value : Value) (field : Field) : Outcome Value :=
  match value, field.ty with
  | .bool b, .bool => .ok (.bool b)
  | .date d, .date => .ok (.date d)
  | .timestamp t, .timestamp => .ok (.timestamp t)
  | .time t, .time => .ok (.time t)
  | .uuid u, .uuid => .ok (.uuid u)
  | .interval i, .interval => .ok (.interval i)
  | .text s, .text => .ok (.text s)
  | .bytes b, .bytes => .ok (.bytes b)
  | .json j, .json => .ok (.json j)
  | .int16 n, _ => coerceInt rt value n.toInt64 field
  | .int32 n, _ => coerceInt rt value n.toInt64 field
  | .int64 n, _ => coerceInt rt value n field
  | .float64 f, .float64 => .ok (.float64 f)
  | .float64 f, .float32 => .ok (.float32 (rt.f32OfF64 f))
  | .float32 f, .float32 => .ok (.float32 f)
  | .float32 f, .float64 => .ok (.float64 (f64OfF32 f))
  | .numeric d, .numeric => .ok (.numeric d)
  | .numeric d, .float64 => do
    return .float64 (← orTypeError "NUMERIC out of range for DOUBLE" (rt.decimalToF64 d))
  | .numeric d, .float32 => do
    return .float32 (← orTypeError "NUMERIC out of range for REAL" (rt.decimalToF32 d))
  | other, _ => cannotInsert rt other field

mutual

def coerceValue (rt : Runtime) (field : Field) : Value → Outcome Value
  | .null =>
    if field.nullable then .ok .null
    else typeError ("NULL into NOT NULL column `" ++ field.name ++ "`")
  | .array items =>
    match field.ty with
    | .array elem => do
      return .array (← coerceItems rt
        { name := field.name, ty := elem, nullable := false, default := none } items)
    | _ => cannotInsert rt (.array items) field
  | value => coerceScalar rt value field

/-- The elements of an array, none of which may be `NULL`. -/
def coerceItems (rt : Runtime) (elemField : Field) : List Value → Outcome (List Value)
  | [] => .ok []
  | v :: vs =>
    if v.isNull then
      typeError "NULL array elements aren't supported"
    else do
      let w ← coerceValue rt elemField v
      return w :: (← coerceItems rt elemField vs)

end

/-! ### Rows -/

def constEval (rt : Runtime) (expr : AstExpr) : Outcome Value := do
  let bound ← expr.bind rt none
  bound.eval rt []

def resolveDefault (rt : Runtime) (serde : ExprSerde) (field : Field) : Outcome Value :=
  match field.default with
  | some json =>
    match serde.fromStr json with
    | .error e => internalError ("deserialize DEFAULT expression: " ++ e)
    | .ok expr => do coerceValue rt field (← expr.eval rt [])
  | none =>
    if field.nullable then .ok .null
    else typeError ("missing value for column `" ++ field.name ++ "` (no default, NOT NULL)")

def targetColumn (col : ObjectName) : Outcome String :=
  match col.parts with
  | [some name] => .ok name
  | [none] => unsupported ("non-identifier column in INSERT: " ++ col.display)
  | _ => unsupported ("qualified column in INSERT: " ++ col.display)

def resolveColumns (fields : List Field) (tableName : String) :
    List ObjectName → List Nat → Outcome (List Nat)
  | [], indices => .ok indices
  | col :: cols, indices => do
    let name ← targetColumn col
    match fields.findIdx? (·.name == name) with
    | none => typeError ("column `" ++ name ++ "` does not exist in `" ++ tableName ++ "`")
    | some idx =>
      if idx ∈ indices then
        typeError ("column `" ++ name ++ "` specified more than once")
      else
        resolveColumns fields tableName cols (indices ++ [idx])

def resolveTargetColumns (columns : List ObjectName) (fields : List Field) (tableName : String) :
    Outcome (Option (List Nat)) :=
  if columns.isEmpty then .ok none
  else do return some (← resolveColumns fields tableName columns [])

def outOfBounds {α : Type} (len index : Nat) : Outcome α :=
  panicked ("index out of bounds: the len is " ++ toString len ++ " but the index is "
    ++ toString index)

def fieldIdx (targetCols : Option (List Nat)) (pos : Nat) : Outcome Nat :=
  match targetCols with
  | none => .ok pos
  | some cols =>
    match cols[pos]? with
    | some idx => .ok idx
    | none => outOfBounds cols.length pos

def fillSlots (targetCols : Option (List Nat)) :
    Nat → List AstExpr → List (Option AstExpr) → Outcome (List (Option AstExpr))
  | _, [], slots => .ok slots
  | pos, expr :: exprs, slots => do
    let idx ← fieldIdx targetCols pos
    if idx < slots.length then
      fillSlots targetCols (pos + 1) exprs (slots.set idx (some expr))
    else
      outOfBounds slots.length idx

def slotValue (rt : Runtime) (serde : ExprSerde) (field : Field) (slot : Option AstExpr) :
    Outcome Value :=
  match slot with
  | some expr => do coerceValue rt field (← constEval rt expr)
  | none => resolveDefault rt serde field

def rowValues (rt : Runtime) (serde : ExprSerde) :
    List Field → List (Option AstExpr) → Outcome Tuple
  | field :: fields, slot :: slots => do
    let value ← slotValue rt serde field slot
    return value :: (← rowValues rt serde fields slots)
  | _, _ => .ok []

def expectedValues (fields : List Field) : Option (List Nat) → Nat
  | none => fields.length
  | some cols => cols.length

def bindRow (rt : Runtime) (serde : ExprSerde) (table : Table) (targetCols : Option (List Nat))
    (exprs : List AstExpr) : Outcome Tuple :=
  let fields := table.schema.fields
  let expected := expectedValues fields targetCols
  if expected < exprs.length then
    typeError ("INSERT has " ++ toString exprs.length ++ " value(s) but " ++ toString expected
      ++ " column(s) are targeted in `" ++ table.name ++ "`")
  else do
    let slots ← fillSlots targetCols 0 exprs (replicate fields.length none)
    rowValues rt serde fields slots

def bindRows (rt : Runtime) (serde : ExprSerde) (table : Table) (targetCols : Option (List Nat)) :
    List (List AstExpr) → Outcome (List Tuple)
  | [] => .ok []
  | exprs :: rows => do
    let row ← bindRow rt serde table targetCols exprs
    return row :: (← bindRows rt serde table targetCols rows)

inductive InsertSource where
  | none
  | values (rows : List (List AstExpr))
  | other

/-- `Insert`; the table is `none` if it is not given by name. -/
structure Insert where
  table : Option ObjectName
  columns : List ObjectName
  source : InsertSource

def bindInsertInto (rt : Runtime) (serde : ExprSerde) (table : Table) (insert : Insert) :
    Outcome (List Tuple) := do
  let targetCols ← resolveTargetColumns insert.columns table.schema.fields table.name
  match insert.source with
  | .none => unsupported "INSERT without VALUES"
  | .other => unsupported "INSERT source must be VALUES"
  | .values rows => bindRows rt serde table targetCols rows

def bindInsert (rt : Runtime) (serde : ExprSerde)
    (resolveTable : String → String → String → Outcome Table) (insert : Insert) :
    Outcome (Table × List Tuple) :=
  match insert.table with
  | none => unsupported "INSERT target must be a table name"
  | some name => do
    let (project, dataset, tableName) ← qualifyTableName name
    let table ← resolveTable project dataset tableName
    return (table, ← bindInsertInto rt serde table insert)

/-! ### What coercion gives -/

section Coercion

variable {rt : Runtime} {p : Promise}

theorem meets_fitInt (n : Int64) {field : Field}
    (hty : field.ty = .int16 ∨ field.ty = .int32 ∨ field.ty = .int64) :
    Meets p (fitInt n field) (·.hasType field.ty = true) := by
  unfold fitInt
  rcases hty with hty | hty | hty
  · simp only [hty]
    exact Meets.bind (P := fun _ => True) (meets_orTypeError fun _ _ => trivial) fun _ _ => rfl
  · simp only [hty]
    exact Meets.bind (P := fun _ => True) (meets_orTypeError fun _ _ => trivial) fun _ _ => rfl
  · simp only [hty]
    rfl

theorem meets_coerceInt (v : Value) (n : Int64) (field : Field) :
    Meets p (coerceInt rt v n field) (·.hasType field.ty = true) := by
  unfold coerceInt
  split
  next hty => exact meets_fitInt n (Or.inl hty)
  next hty => exact meets_fitInt n (Or.inr (Or.inl hty))
  next hty => exact meets_fitInt n (Or.inr (Or.inr hty))
  case h_7 => trivial
  all_goals
    rename_i hty
    show Value.hasType _ _ = true
    rw [hty]
    rfl

theorem meets_coerceScalar (v : Value) (field : Field) :
    Meets p (coerceScalar rt v field) (·.hasType field.ty = true) := by
  have hparsed : ∀ {α : Type} {msg : String} {o : Option α} {wrap : α → Value},
      (∀ a, (wrap a).hasType field.ty = true) →
      Meets p (do return wrap (← orTypeError msg o)) (·.hasType field.ty = true) :=
    fun hwrap => Meets.bind (P := fun _ => True) (meets_orTypeError fun _ _ => trivial)
      fun a _ => hwrap a
  unfold coerceScalar
  split
  case h_10 => exact meets_coerceInt _ _ field
  case h_11 => exact meets_coerceInt _ _ field
  case h_12 => exact meets_coerceInt _ _ field
  case h_18 hty => exact hparsed fun _ => by rw [hty]; rfl
  case h_19 hty => exact hparsed fun _ => by rw [hty]; rfl
  case h_20 => trivial
  all_goals
    rename_i hty
    show Value.hasType _ _ = true
    rw [hty]
    rfl

mutual

theorem meets_coerceValue : ∀ (field : Field) (v : Value),
    Meets p (coerceValue rt field v) field.Accepts
  | field, .null => by
    rw [coerceValue]
    split
    next hnull => exact Or.inl ⟨rfl, hnull⟩
    next => trivial
  | field, .array items => by
    rw [coerceValue]
    split
    next elem hty =>
      refine (meets_coerceItems _ rfl items).bind fun ws hws => Or.inr ?_
      rw [hty]
      exact hws
    next => trivial
  | field, .bool _ | field, .int16 _ | field, .int32 _ | field, .int64 _ | field, .text _
  | field, .bytes _ | field, .json _ | field, .date _ | field, .timestamp _ | field, .float32 _
  | field, .float64 _ | field, .numeric _ | field, .time _ | field, .uuid _ | field,
    .interval _ => by
    rw [coerceValue]
    · exact (meets_coerceScalar _ field).mono fun _ => Or.inr
    all_goals simp

theorem meets_coerceItems : ∀ (elemField : Field), elemField.nullable = false → ∀ vs : List Value,
    Meets p (coerceItems rt elemField vs) fun ws => allHaveType ws elemField.ty = true
  | _, _, [] => rfl
  | elemField, hnull, v :: vs => by
    rw [coerceItems]
    split
    · trivial
    refine (meets_coerceValue elemField v).bind fun w hw => ?_
    refine (meets_coerceItems elemField hnull vs).bind fun ws hws => ?_
    show allHaveType (w :: ws) elemField.ty = true
    rcases hw with ⟨-, hyes⟩ | hty
    · rw [hnull] at hyes
      cases hyes
    · rw [allHaveType, hty, hws]
      rfl

end

end Coercion

/-! ### What rows are bound -/

section Rows

variable {rt : Runtime} {serde : ExprSerde} {p : Promise}

theorem accepts_slotValue {field : Field} {slot : Option AstExpr} {v : Value}
    (h : slotValue rt serde field slot = .ok v) : field.Accepts v := by
  have hcoerced : ∀ {x : Outcome Value}, (do coerceValue rt field (← x)) = .ok v →
    field.Accepts v := by
    intro x hx
    obtain ⟨u, -, hu⟩ := bind_eq_ok.mp hx
    exact (meets_coerceValue (p := ⟨True, False⟩) field u).of_ok hu
  cases slot with
  | some expr => exact hcoerced h
  | none =>
    rw [slotValue, resolveDefault] at h
    split at h
    · split at h
      · cases h
      · exact hcoerced h
    · split at h
      next hnull =>
        cases h
        exact Or.inl ⟨rfl, hnull⟩
      next => cases h

variable {targetCols : Option (List Nat)}

theorem length_fillSlots {pos : Nat} {exprs : List AstExpr} {slots filled : List (Option AstExpr)}
    (h : fillSlots targetCols pos exprs slots = .ok filled) : filled.length = slots.length := by
  induction exprs generalizing pos slots with
  | nil =>
    cases h
    rfl
  | cons expr exprs ih =>
    obtain ⟨idx, -, h⟩ := bind_eq_ok.mp h
    split at h
    · simpa using ih h
    · cases h

theorem forall₂_rowValues {fields : List Field} {slots : List (Option AstExpr)} {row : Tuple}
    (hlen : slots.length = fields.length) (h : rowValues rt serde fields slots = .ok row) :
    List.Forall₂ Field.Accepts fields row := by
  induction fields generalizing slots row with
  | nil =>
    cases h
    exact .nil
  | cons field fields ih =>
    cases slots with
    | nil => cases hlen
    | cons slot slots =>
      obtain ⟨v, hv, h⟩ := bind_eq_ok.mp h
      obtain ⟨vs, hvs, h⟩ := bind_eq_ok.mp h
      cases h
      exact .cons (accepts_slotValue hv) (ih (Nat.succ.inj hlen) hvs)

variable {table : Table}

theorem conforms_bindRow {exprs : List AstExpr} {row : Tuple}
    (h : bindRow rt serde table targetCols exprs = .ok row) : Conforms table.schema row := by
  unfold bindRow at h
  dsimp only at h
  split at h
  · cases h
  · obtain ⟨slots, hslots, h⟩ := bind_eq_ok.mp h
    exact forall₂_rowValues (by rw [length_fillSlots hslots, List.length_replicate]) h

variable {rows : List Tuple}

theorem mem_bindRows {exprss : List (List AstExpr)}
    (h : bindRows rt serde table targetCols exprss = .ok rows) :
    ∀ row ∈ rows, ∃ exprs ∈ exprss, bindRow rt serde table targetCols exprs = .ok row := by
  induction exprss generalizing rows with
  | nil =>
    cases h
    nofun
  | cons exprs exprss ih =>
    obtain ⟨r, hr, h⟩ := bind_eq_ok.mp h
    obtain ⟨rs, hrs, h⟩ := bind_eq_ok.mp h
    cases h
    intro row hrow
    rcases List.mem_cons.mp hrow with rfl | hrow
    · exact ⟨exprs, List.mem_cons_self, hr⟩
    · obtain ⟨exprs', hmem, hrow⟩ := ih hrs row hrow
      exact ⟨exprs', List.mem_cons_of_mem _ hmem, hrow⟩

variable {insert : Insert}

theorem bindRow_of_bindInsertInto (h : bindInsertInto rt serde table insert = .ok rows) :
    ∀ row ∈ rows, ∃ targetCols exprs, bindRow rt serde table targetCols exprs = .ok row := by
  obtain ⟨targetCols, -, h⟩ := bind_eq_ok.mp h
  split at h
  · cases h
  · cases h
  · intro row hrow
    obtain ⟨exprs, -, hbind⟩ := mem_bindRows h row hrow
    exact ⟨targetCols, exprs, hbind⟩

variable {resolveTable : String → String → String → Outcome Table}

theorem bindInsertInto_of_bindInsert
    (h : bindInsert rt serde resolveTable insert = .ok (table, rows)) :
    bindInsertInto rt serde table insert = .ok rows := by
  unfold bindInsert at h
  split at h
  · cases h
  · obtain ⟨⟨project, dataset, name⟩, -, h⟩ := bind_eq_ok.mp h
    obtain ⟨t, -, h⟩ := bind_eq_ok.mp h
    obtain ⟨rs, hrs, h⟩ := bind_eq_ok.mp h
    cases h
    exact hrs

theorem conforms_bindInsert (h : bindInsert rt serde resolveTable insert = .ok (table, rows)) :
    ∀ row ∈ rows, Conforms table.schema row := by
  intro row hrow
  obtain ⟨targetCols, exprs, hbind⟩ :=
    bindRow_of_bindInsertInto (bindInsertInto_of_bindInsert h) row hrow
  exact conforms_bindRow hbind

/-- **Rows that are bound can be stored**: they conform to the schema, are encoded in the
    announced number of bytes, and read back unchanged if every length fits and every
    document is read from its own text. -/
theorem bound_rows_read_back (rt : Runtime) (laws : rt.CodecLaws) (serde : ExprSerde)
    (resolveTable : String → String → String → Outcome Table) (insert : Insert) (table : Table)
    (rows : List Tuple) (h : bindInsert rt serde resolveTable insert = .ok (table, rows)) :
    ∀ row ∈ rows, Conforms table.schema row
      ∧ ∃ bytes, table.schema.encode rt row = .ok bytes
        ∧ bytes.length = table.schema.encodedSize row
        ∧ (AllFit row → AllReread rt row → table.schema.decode rt bytes = .ok row) := by
  intro row hrow
  have hconf := conforms_bindInsert h row hrow
  obtain ⟨bytes, henc, hlen⟩ := Schema.encode_ok laws hconf.fitting
  refine ⟨hconf, bytes, henc, hlen, fun hfit hdocs => ?_⟩
  exact Schema.decode_encode laws (hconf.fitting.typed hdocs) hfit henc

end Rows

/-! ### Two statements -/

def oneColumnTable (ty : LogicalType) : Table where
  projectId := ⟨⟨replicate 16 0, rfl⟩⟩
  datasetId := ⟨⟨replicate 16 0, rfl⟩⟩
  id := ⟨⟨replicate 16 0, rfl⟩⟩
  truncationId := .INITIAL
  name := "t"
  schema := ⟨[{ name := "a", ty, nullable := true, default := none }]⟩

def insertOne (expr : AstExpr) : Insert where
  table := some ⟨[some "t"], "t"⟩
  columns := []
  source := .values [[expr]]

def noSerde : ExprSerde where
  toString _ := .error "unsupported"
  fromStr _ := .error "unsupported"

theorem codecLaws_readsNumber (n : Int64) : (readsNumber n).CodecLaws where
  length_decimalSerialize := codecLaws_default.length_decimalSerialize
  decimalDeserialize_serialize := codecLaws_default.decimalDeserialize_serialize

/-- Columns `a INT NOT NULL, b TEXT[], c JSON, d BOOL`. -/
def fourColumnTable : Table :=
  { oneColumnTable .text with
    schema := ⟨[⟨"a", .int32, false, none⟩, ⟨"b", .array .text, true, none⟩,
      ⟨"c", .json, true, none⟩, ⟨"d", .bool, true, none⟩]⟩ }

/-- `INSERT INTO t (c, a, b) VALUES (CAST('42' AS JSON), 7, ARRAY['x', 'yz'])`. -/
def insertNamed : Insert where
  table := some ⟨[some "t"], "t"⟩
  columns := [⟨[some "c"], "c"⟩, ⟨[some "a"], "a"⟩, ⟨[some "b"], "b"⟩]
  source := .values [[.cast (.value (.singleQuotedString "42")) .json, .value (.number "7"),
    .array [.value (.singleQuotedString "x"), .value (.singleQuotedString "yz")]]]

theorem bound_rows_read_back_named : ∃ row bytes,
    bindInsert (readsNumber 7) noSerde (fun _ _ _ => .ok fourColumnTable) insertNamed
        = .ok (fourColumnTable, [row])
      ∧ fourColumnTable.schema.encode (readsNumber 7) row = .ok bytes
      ∧ fourColumnTable.schema.decode (readsNumber 7) bytes = .ok row := by
  have hbind : bindInsert (readsNumber 7) noSerde (fun _ _ _ => .ok fourColumnTable) insertNamed
      = .ok (fourColumnTable, [[.int32 7, .array [.text "x", .text "yz"],
        .json (.number ⟨"42", by decide⟩), .null]]) := rfl
  obtain ⟨-, bytes, henc, -, hdec⟩ := bound_rows_read_back (readsNumber 7) (codecLaws_readsNumber 7)
    noSerde _ insertNamed fourColumnTable _ hbind _ List.mem_cons_self
  refine ⟨_, bytes, hbind, henc, hdec ?_ ?_⟩
  · have htext : ∀ s : String, (utf8 s).length < 2 ^ 32 → (Value.text s).Fits := fun _ h => h
    refine ⟨trivial, ⟨by decide, htext "x" (by decide), htext "yz" (by decide), trivial⟩, ?_⟩
    exact ⟨(by decide : (utf8 "42").length < 2 ^ 32), trivial, trivial⟩
  · exact ⟨trivial, ⟨trivial, trivial, trivial⟩, rfl, trivial, trivial⟩

theorem length_utf8_repeat (n : Nat) (s : String) :
    (utf8 (String.join (replicate n s))).length = n * (utf8 s).length := by
  induction n with
  | zero => simp [String.join, utf8]
  | succ n ih =>
    rw [List.replicate_succ, String.join_cons]
    simp only [utf8, String.toByteArray_append, ByteArray.data_append, Array.toList_append,
      List.length_append] at ih ⊢
    rw [ih, Nat.succ_mul, Nat.add_comm]

/-- The length of a text of `2 ^ 32` bytes is written as 0, so the text is left over. -/
theorem decode_encode_long {rt : Runtime} {s : String} (h : (utf8 s).length = 2 ^ 32) :
    ∃ bytes, (oneColumnTable .text).schema.encode rt [.text s] = .ok bytes
      ∧ (oneColumnTable .text).schema.decode rt bytes = .error .trailingBytes := by
  have hwrap : leBytes 4 (2 ^ 32) = leBytes 4 0 := by decide
  have hhead : lengthPrefixed (utf8 s) = lengthPrefixed (utf8 "") ++ utf8 s := by
    rw [lengthPrefixed, h, hwrap]
    rfl
  have hne : utf8 s ≠ [] := by
    intro hs
    rw [hs] at h
    cases h
  have htext : Decoder.Reads (Value.decode rt .text) (lengthPrefixed (utf8 "")) (.text "") :=
    Decoder.Reads.bind_pure (reads_text (by decide))
  have hrow : Decoder.Reads (decodeFrom rt [0] 0 (oneColumnTable .text).schema.fields)
      (lengthPrefixed (utf8 "") ++ []) [.text ""] :=
    decodeFrom_cons (by decide) htext (Decoder.Reads.pure [])
  rw [List.append_nil] at hrow
  refine ⟨[0] ++ lengthPrefixed (utf8 s), rfl, ?_⟩
  rw [hhead]
  exact Schema.decode_trailing rfl hrow hne

theorem bindInsert_repeat (n : Int64) (text : String) (hn : 0 ≤ n.toInt) :
    bindInsert (readsNumber n) noSerde (fun _ _ _ => .ok (oneColumnTable .text))
        (insertOne (repeatCall "x" text))
      = .ok (oneColumnTable .text, [[.text (String.join (replicate n.toInt.toNat "x"))]]) := by
  have hlt := n.toInt_lt
  have heval : evalRepeat (.text "x") (.int64 n)
      = .ok (.text (String.join (replicate n.toInt.toNat "x"))) := by
    have hfits : "x".utf8ByteSize * n.toInt.toNat < 2 ^ 63 := by
      rw [show "x".utf8ByteSize = 1 from rfl]
      omega
    show (if "x".utf8ByteSize * (max n.toInt 0).toNat < 2 ^ 63 then _ else _) = _
    rw [max_eq_left hn, if_pos hfits]
    rfl
  have hconst : constEval (readsNumber n) (repeatCall "x" text)
      = .ok (.text (String.join (replicate n.toInt.toNat "x"))) := heval
  have hslot : slotValue (readsNumber n) noSerde
      { name := "a", ty := .text, nullable := true, default := none } (some (repeatCall "x" text))
        = .ok (.text (String.join (replicate n.toInt.toNat "x"))) := by
    rw [slotValue, hconst]
    rfl
  have hrow : rowValues (readsNumber n) noSerde (oneColumnTable .text).schema.fields
      [some (repeatCall "x" text)] = .ok [.text (String.join (replicate n.toInt.toNat "x"))] := by
    show (slotValue (readsNumber n) noSerde _ (some (repeatCall "x" text)) >>= _) = _
    rw [hslot]
    rfl
  show (rowValues (readsNumber n) noSerde (oneColumnTable .text).schema.fields
    [some (repeatCall "x" text)] >>= _) >>= _ = _
  rw [hrow]
  rfl

/-- `INSERT INTO t VALUES (REPEAT('x', 4294967296))` binds a row that does not read back. -/
theorem long_text_lost : (readsNumber 4294967296).CodecLaws ∧ ∃ row bytes,
    bindInsert (readsNumber 4294967296) noSerde (fun _ _ _ => .ok (oneColumnTable .text))
        (insertOne (repeatCall "x" "4294967296")) = .ok (oneColumnTable .text, [row])
      ∧ (oneColumnTable .text).schema.encode (readsNumber 4294967296) row = .ok bytes
      ∧ (oneColumnTable .text).schema.decode (readsNumber 4294967296) bytes
        = .error .trailingBytes := by
  have hlen : (utf8 (String.join (replicate (4294967296 : Int64).toInt.toNat "x"))).length
      = 2 ^ 32 := by
    rw [length_utf8_repeat]
    rfl
  obtain ⟨bytes, henc, hdec⟩ := @decode_encode_long (readsNumber 4294967296) _ hlen
  exact ⟨codecLaws_readsNumber _, _, bytes, bindInsert_repeat 4294967296 "4294967296" (by decide),
    henc, hdec⟩

end StrataDb.Sql
