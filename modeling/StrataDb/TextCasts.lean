import Mathlib
import StrataDb.CompareLaws
import StrataDb.IntegerCast
import StrataDb.Runs
import StrataDb.ValueCodec

/-!
# Casting to text and back (`query/expression/cast.rs`, `function.rs`, `storage/temporal.rs`)

`PrintsReadably`: a form reads what the printer of its library printed. Timestamps and times are
printed without their fraction of a second, so they come back without it; every other value comes
back as it was. Bytes are printed in hexadecimal and read as they stand, and `24:00:00` is not
read: neither returns.
-/

namespace StrataDb.Sql

open LexOrder ByteCodec

/-! ### What the libraries promise -/

def MICROS_PER_SEC : Int := 1000000

def wholeSeconds (micros : Int64) : Int64 :=
  .ofInt (micros.toInt / MICROS_PER_SEC * MICROS_PER_SEC)

/-- A text that begins and ends with no blank. -/
def Plain (s : String) : Prop := trim s = s

/-- A library's parser reads what its printer printed, and the printed texts are plain.  The
    parser that is tried before the one that fits reads nothing else. -/
structure PrintsReadably (rt : Runtime) : Prop where
  bool : ∀ word ∈ ["t", "f"], rt.toLowercase word = word
  int : ∀ n : Int64, rt.parseI64 (toString n.toInt) = some n
  decimal : ∀ d, Plain (rt.decimalToString d) ∧ ∃ d', rt.parseDecimal (rt.decimalToString d)
    = some d'
    ∧ d'.compare d = .eq
  date : ∀ days s, rt.dateToString days = some s → Plain s ∧ rt.parseDate s = some days
  timestamp : ∀ micros s, rt.timestamptzToString micros = some s → Plain s
    ∧ (∀ t, rt.parseRfc3339 s = some t → t = wholeSeconds micros)
    ∧ rt.parseDateTime s "%Y-%m-%d %H:%M:%S%.f%#z" = some (wholeSeconds micros)
  time : ∀ h m s : Nat, h < 24 → m < 60 → s < 60 →
    rt.parseNaiveTime (pad2 h ++ ":" ++ pad2 m ++ ":" ++ pad2 s) "%H:%M:%S%.f"
      = some (.ofNat (h * 3600 + m * 60 + s), 0)
  uuid : ∀ u, Plain (rt.uuidToString u) ∧ rt.parseUuid (rt.uuidToString u) = some u
  interval : ∀ i, Plain (rt.intervalToString i)
    ∧ rt.intervalFromPostgres (rt.intervalToString i) = some i

theorem plain_of_forall {s : String} (h : ∀ c ∈ s.toList, isWhitespace c = false) : Plain s := by
  have hfront : s.toList.dropWhile isWhitespace = s.toList := by
    cases hs : s.toList with
    | nil => rfl
    | cons c cs => rw [List.dropWhile_cons_of_neg (by simp [h c (hs ▸ List.mem_cons_self)])]
  have hback : s.toList.rdropWhile isWhitespace = s.toList := by
    rw [List.rdropWhile_eq_self_iff]
    intro hne
    simp [h _ (List.getLast_mem hne)]
  rw [Plain, trim, hfront, hback, String.ofList_toList]

theorem not_isWhitespace_of_isDigit {c : Char} (h : c.isDigit = true) : isWhitespace c = false := by
  simp only [Char.isDigit, Bool.and_eq_true, decide_eq_true_eq, ge_iff_le,
    UInt32.le_iff_toNat_le] at h
  have hlo : 48 ≤ c.toNat := h.1
  have hhi : c.toNat ≤ 57 := h.2
  simp only [isWhitespace, Bool.or_eq_false_iff, Bool.and_eq_false_iff, decide_eq_false_iff_not,
    beq_eq_false_iff_ne]
  omega

theorem not_isWhitespace_of_mem_repr {n : Nat} {c : Char} (hc : c ∈ n.repr.toList) :
    isWhitespace c = false := by
  refine not_isWhitespace_of_isDigit
    (@Nat.isDigit_of_mem_toDigits 10 n c (by decide) (by decide) ?_)
  simpa [Nat.repr] using hc

theorem plain_nat (n : Nat) : Plain n.repr :=
  plain_of_forall fun _ => not_isWhitespace_of_mem_repr

theorem plain_int (n : Int) : Plain n.repr := by
  cases n with
  | ofNat n => exact plain_nat n
  | negSucc n =>
    apply plain_of_forall
    intro c hc
    have hsign : c ∈ '-' :: (n + 1).repr.toList := by simpa [Int.repr] using hc
    rcases List.mem_cons.mp hsign with rfl | hc
    · decide
    · exact not_isWhitespace_of_mem_repr hc

/-! ### Reading each type -/

/-- What a text shows of a value. -/
def shown : Value → Value
  | .timestamp micros => .timestamp (wholeSeconds micros)
  | .time micros => .time (wholeSeconds micros)
  | v => v

def LogicalType.readsBack : LogicalType → Bool
  | .float32 | .float64 | .bytes | .array _ => false
  | _ => true

variable {rt : Runtime} {v : Value} {ty : LogicalType}

theorem formatTime_eq {micros : Int64} (hlo : 0 ≤ micros.toInt)
    (hhi : micros.toInt < MICROS_PER_DAY) :
    ∃ h m s : Nat, h < 24 ∧ m < 60 ∧ s < 60
      ∧ formatTime micros = pad2 h ++ ":" ++ pad2 m ++ ":" ++ pad2 s
      ∧ ((h * 3600 + m * 60 + s : Nat) : Int) = micros.toInt / MICROS_PER_SEC := by
  unfold MICROS_PER_DAY at hhi
  obtain ⟨n, hn⟩ := Int.eq_ofNat_of_zero_le (show 0 ≤ micros.toInt / 1000000 by omega)
  have hlt : n < 86400 := by omega
  refine ⟨n / 3600, n / 60 % 60, n % 60, by omega, by omega, by omega, ?_, ?_⟩
  · rw [formatTime, hn]
    rfl
  · rw [MICROS_PER_SEC, hn]
    omega

theorem toList_pad2 {n : Nat} (hn : n < 100) :
    (pad2 n).toList = [Nat.digitChar (n / 10), Nat.digitChar (n % 10)] := by
  have htext : toString (n : Int) = String.ofList (Nat.toDigits 10 n) := rfl
  rw [pad2, htext]
  split
  · have hlt : n < 10 := by omega
    rw [Nat.toDigits_of_lt_base hlt, Nat.div_eq_of_lt hlt, Nat.mod_eq_of_lt hlt]
    simp
  · rw [Nat.toDigits_of_base_le (by omega) (by omega), Nat.toDigits_of_lt_base (by omega)]
    simp

theorem toList_time {h m s : Nat} (hh : h < 24) (hm : m < 60) (hs : s < 60) :
    (pad2 h ++ ":" ++ pad2 m ++ ":" ++ pad2 s).toList
      = [Nat.digitChar (h / 10), Nat.digitChar (h % 10), ':', Nat.digitChar (m / 10),
        Nat.digitChar (m % 10), ':', Nat.digitChar (s / 10), Nat.digitChar (s % 10)] := by
  simp only [String.toList_append, toList_pad2 (show h < 100 by omega),
    toList_pad2 (show m < 100 by omega), toList_pad2 (show s < 100 by omega)]
  rfl

theorem plain_time {h m s : Nat} (hh : h < 24) (hm : m < 60) (hs : s < 60) :
    Plain (pad2 h ++ ":" ++ pad2 m ++ ":" ++ pad2 s) := by
  have hdigit : ∀ n < 10, isWhitespace (Nat.digitChar n) = false := by decide
  apply plain_of_forall
  rw [toList_time hh hm hs]
  simp only [List.forall_mem_cons, List.not_mem_nil, false_implies, implies_true, and_true]
  refine ⟨hdigit _ ?_, hdigit _ ?_, by decide, hdigit _ ?_, hdigit _ ?_, by decide, hdigit _ ?_,
    hdigit _ ?_⟩ <;> omega

/-- The value comes back equal. -/
def Returns (rt : Runtime) (text : String) (v : Value) (ty : LogicalType) : Prop :=
  ∃ w, evalCast rt (.text text) ty = .ok w ∧ valuesEq rt w v = true

theorem returns_bool (law : PrintsReadably rt) (b : Bool) :
    Returns rt (if b then "t" else "f") (.bool b) .bool := by
  refine ⟨.bool b, ?_, by cases b <;> rfl⟩
  cases b with
  | true =>
    have h : rt.toLowercase (trim "t") = "t" := law.bool "t" (by decide)
    simp [evalCast, castToBool, h, Value.isNull]
  | false =>
    have h : rt.toLowercase (trim "f") = "f" := law.bool "f" (by decide)
    simp [evalCast, castToBool, h, Value.isNull]

theorem castToI64_text (law : PrintsReadably rt) (n : Int64) :
    castToI64 rt (.text (toString n.toInt)) = .ok n := by
  have hplain : trim (toString n.toInt) = toString n.toInt := plain_int n.toInt
  rw [castToI64, hplain, law.int n]
  rfl

theorem returns_integer (law : PrintsReadably rt) {n : Int64} (hty : ty.isInteger = true)
    (hv : intValue ty n.toInt = some v) : Returns rt (toString n.toInt) v ty := by
  have hcast := castsTo_of_castToI64 hty rfl (castToI64_text law n)
  rw [CastsTo, hv] at hcast
  refine ⟨v, hcast, ?_⟩
  cases ty <;> cases hty <;> obtain ⟨k, -, rfl⟩ := Option.map_eq_some_iff.mp hv <;>
    exact (valuesEq_asDecimal rt rfl rfl).mpr (order_self _)

theorem returns_numeric (law : PrintsReadably rt) (d : Decimal) :
    Returns rt (rt.decimalToString d) (.numeric d) .numeric := by
  obtain ⟨hplain, d', hparse, hcmp⟩ := law.decimal d
  refine ⟨.numeric d', ?_, (valuesEq_asDecimal rt rfl rfl).mpr hcmp⟩
  simp [evalCast, Value.isNull, castToNumeric, show trim _ = _ from hplain, hparse, orCastErr]

theorem valuesEq_structural (hdec : asDecimal v = none) (hfloat : asF64 rt v = none)
    (hinterval : ∀ i, v ≠ .interval i) (harray : ∀ items, v ≠ .array items)
    (h : structuralEq v v = true) : valuesEq rt v v = true := by
  have hint : asI64 v = none := by
    cases v <;> first | rfl | cases hdec
  unfold valuesEq
  simp only [hint, hdec, hfloat]
  split
  · exact absurd rfl (hinterval _)
  · exact absurd rfl (harray _)
  · exact h

theorem returns_date (law : PrintsReadably rt) {days : Int32} {s : String}
    (hs : formatDate rt days = .ok s) : Returns rt s (.date days) .date := by
  have hprint : rt.dateToString days = some s := by
    unfold formatDate at hs
    split at hs <;> cases hs
    assumption
  refine ⟨.date days, ?_, valuesEq_structural rfl rfl nofun nofun (beq_self_eq_true days)⟩
  obtain ⟨hplain, hparse⟩ := law.date days s hprint
  simp [evalCast, Value.isNull, castToDate, parseDate, show trim s = s from hplain, hparse,
    orTypeError]

theorem returns_timestamp (law : PrintsReadably rt) {micros : Int64} {s : String}
    (hs : formatTimestamptz rt micros = .ok s) :
    Returns rt s (.timestamp (wholeSeconds micros)) .timestamp := by
  have hprint : rt.timestamptzToString micros = some s := by
    unfold formatTimestamptz at hs
    split at hs <;> cases hs
    assumption
  refine ⟨.timestamp (wholeSeconds micros), ?_,
    valuesEq_structural rfl rfl nofun nofun (beq_self_eq_true (wholeSeconds micros))⟩
  obtain ⟨hplain, hrfc, hparse⟩ := law.timestamp micros s hprint
  have hread : timestamptzOfText rt s = some (wholeSeconds micros) := by
    unfold timestamptzOfText
    cases h : rt.parseRfc3339 s with
    | some t => exact congrArg some (hrfc t h)
    | none => simp [hparse]
  simp [evalCast, Value.isNull, castToTimestamp, parseTimestamptz, show trim s = s from hplain,
    hread, orTypeError]

theorem timeOfText_eq {s : String} {seconds nanos : UInt32}
    (h : rt.parseNaiveTime s "%H:%M:%S%.f" = some (seconds, nanos)) :
    timeOfText rt s = some (.ofNat (seconds.toNat * 1000000 + nanos.toNat / 1000)) := by
  unfold timeOfText
  rw [h]
  rfl

theorem returns_time (law : PrintsReadably rt) {micros : Int64} (hlo : 0 ≤ micros.toInt)
    (hhi : micros.toInt < MICROS_PER_DAY) :
    Returns rt (formatTime micros) (.time (wholeSeconds micros)) .time := by
  obtain ⟨h, m, s, hh, hm, hs, hformat, hsecs⟩ := formatTime_eq hlo hhi
  have hplain : trim (formatTime micros) = formatTime micros := hformat ▸ plain_time hh hm hs
  have hread : timeOfText rt (formatTime micros) = some (wholeSeconds micros) := by
    have hnat : (UInt32.ofNat (h * 3600 + m * 60 + s)).toNat = h * 3600 + m * 60 + s :=
      UInt32.toNat_ofNat_of_lt' (by rw [UInt32.size]; omega)
    have hwhole : wholeSeconds micros = .ofNat ((h * 3600 + m * 60 + s) * 1000000) := by
      rw [wholeSeconds, ← hsecs, ← Int64.ofInt_eq_ofNat, Nat.cast_mul _ 1000000]
      rfl
    rw [timeOfText_eq (hformat ▸ law.time h m s hh hm hs), hnat, hwhole, UInt32.toNat_zero,
      Nat.zero_div, Nat.add_zero]
  refine ⟨.time (wholeSeconds micros), ?_,
    valuesEq_structural rfl rfl nofun nofun (beq_self_eq_true (wholeSeconds micros))⟩
  simp [evalCast, Value.isNull, castToTime, parseTime, hplain, hread, orTypeError]

theorem returns_uuid (law : PrintsReadably rt) (u : Uuid) :
    Returns rt (rt.uuidToString u) (.uuid u) .uuid := by
  refine ⟨.uuid u, ?_, valuesEq_structural rfl rfl nofun nofun (beq_self_eq_true u)⟩
  simp [evalCast, Value.isNull, castToUuid, show trim _ = _ from (law.uuid u).1, (law.uuid u).2,
    orCastErr]

theorem returns_interval (law : PrintsReadably rt) (i : Interval) :
    Returns rt (rt.intervalToString i) (.interval i) .interval := by
  refine ⟨.interval i, ?_, by simp [valuesEq, asI64, asDecimal, asF64]⟩
  obtain ⟨hplain, hparse⟩ := law.interval i
  simp [evalCast, Value.isNull, castToInterval, parseInterval, intervalOfText,
    show trim _ = _ from hplain, hparse, orTypeError]

theorem returns_json {j : Json} (hj : rt.parseJson j.text = some j) :
    Returns rt j.text (.json j) .json := by
  refine ⟨.json j, ?_, valuesEq_structural rfl rfl nofun nofun (SerdeJson.Doc.eq_self j)⟩
  simp [evalCast, Value.isNull, castToJson, hj, orCastErr]

theorem returns_text (s : String) : Returns rt s (.text s) .text :=
  ⟨.text s, rfl, valuesEq_structural rfl rfl nofun nofun (beq_self_eq_true s)⟩

theorem text_of_evalCast {u : Value} (hnull : v.isNull = false) (h : evalCast rt v .text = .ok u) :
    ∃ s, u = .text s ∧ castToText rt v = .ok s := by
  simp only [evalCast, hnull, Bool.false_eq_true, if_false] at h
  obtain ⟨s, hs, hu⟩ := Runs.bind_eq_ok.mp h
  exact ⟨s, (Except.ok.inj hu).symm, hs⟩

/-! ### A runtime that reads what it prints -/

def secondsOfText (s : String) : Option (UInt32 × UInt32) :=
  match s.toList with
  | [h₁, h₂, ':', m₁, m₂, ':', s₁, s₂] =>
    let digit (c : Char) : Nat := c.toNat - 48
    some (.ofNat ((digit h₁ * 10 + digit h₂) * 3600 + (digit m₁ * 10 + digit m₂) * 60
      + (digit s₁ * 10 + digit s₂)), 0)
  | _ => none

theorem digitChar_toNat {n : Nat} (hn : n < 10) : (Nat.digitChar n).toNat - 48 = n := by
  have hall : ∀ n < 10, (Nat.digitChar n).toNat - 48 = n := by decide
  exact hall n hn

/-- The three parts of an interval in one number. -/
def Interval.code (i : Interval) : Int :=
  (i.months.toInt + 2 ^ 31) * 2 ^ 96 + (i.days.toInt + 2 ^ 31) * 2 ^ 64 + (i.micros.toInt + 2 ^ 63)

def Interval.ofCode (n : Int) : Interval where
  months := .ofInt (n / 2 ^ 96 - 2 ^ 31)
  days := .ofInt (n / 2 ^ 64 % 2 ^ 32 - 2 ^ 31)
  micros := .ofInt (n % 2 ^ 64 - 2 ^ 63)

def printingRuntime : Runtime :=
  { (default : Runtime) with
    parseI64 := fun s => s.toInt?.bind fitI64
    decimalToString := fun d => toString (beNat d.pack)
    parseDecimal := fun s => s.toNat?.map fun n => .unpack (beBytes 16 n)
    dateToString := fun days => some (toString days.toInt)
    parseDate := fun s => s.toInt?.bind fitI32
    timestamptzToString := fun micros => some (toString (wholeSeconds micros).toInt)
    parseDateTime := fun s _ => s.toInt?.bind fitI64
    parseNaiveTime := fun s _ => secondsOfText s
    uuidToString := fun u => toString (beNat u.bytes)
    parseUuid := fun s => s.toNat?.map fun n => ⟨beBytes 16 n, length_beBytes 16 n⟩
    intervalToString := fun i => toString i.code
    intervalFromPostgres := fun s => s.toInt?.map .ofCode }

theorem beBytes_beNat {w : Nat} {bs : Bytes} (h : bs.length = w) : beBytes w (beNat bs) = bs := by
  have hlen : (beBytes w (beNat bs)).length = bs.length := by rw [length_beBytes, h]
  rw [← order_eq_eq, order_bytes hlen, order_eq_eq, beNat_beBytes_of_lt (h ▸ beNat_lt bs)]

theorem secondsOfText_pad2 {h m s : Nat} (hh : h < 24) (hm : m < 60) (hs : s < 60) :
    secondsOfText (pad2 h ++ ":" ++ pad2 m ++ ":" ++ pad2 s)
      = some (.ofNat (h * 3600 + m * 60 + s), 0) := by
  simp only [secondsOfText, toList_time hh hm hs]
  simp only [digitChar_toNat (show h / 10 < 10 by omega),
    digitChar_toNat (show h % 10 < 10 by omega), digitChar_toNat (show m / 10 < 10 by omega),
    digitChar_toNat (show m % 10 < 10 by omega), digitChar_toNat (show s / 10 < 10 by omega),
    digitChar_toNat (show s % 10 < 10 by omega)]
  refine congrArg (fun n => some (UInt32.ofNat n, 0)) ?_
  omega

theorem Interval.ofCode_code (i : Interval) : Interval.ofCode i.code = i := by
  obtain ⟨months, days, micros⟩ := i
  have hmonths := (⟨months.le_toInt, months.toInt_lt⟩ : _ ∧ _)
  have hdays := (⟨days.le_toInt, days.toInt_lt⟩ : _ ∧ _)
  have hmicros := (⟨micros.le_toInt, micros.toInt_lt⟩ : _ ∧ _)
  simp only [Interval.ofCode, Interval.code, Interval.mk.injEq]
  refine ⟨?_, ?_, ?_⟩
  · exact (congrArg Int32.ofInt (by omega)).trans (Int32.ofInt_toInt months)
  · exact (congrArg Int32.ofInt (by omega)).trans (Int32.ofInt_toInt days)
  · exact (congrArg Int64.ofInt (by omega)).trans (Int64.ofInt_toInt micros)

theorem readable_printingRuntime : PrintsReadably printingRuntime where
  bool := by decide
  int n := by
    show n.toInt.repr.toInt?.bind fitI64 = some n
    rw [Int.toInt?_repr]
    exact fitI64_toInt n
  decimal d := by
    refine ⟨plain_nat _, d, ?_, order_self _⟩
    show (beNat d.pack).repr.toNat?.map _ = some d
    rw [Nat.toNat?_repr, Option.map_some, beBytes_beNat (by simp [Decimal.pack]),
      Decimal.unpack_pack]
  date days s hs := by
    obtain rfl := Option.some.inj hs
    refine ⟨plain_int _, ?_⟩
    show days.toInt.repr.toInt?.bind fitI32 = some days
    rw [Int.toInt?_repr]
    exact fitI32_toInt days
  timestamp micros s hs := by
    obtain rfl := Option.some.inj hs
    refine ⟨plain_int _, ⟨fun _ h => by simp [printingRuntime] at h, ?_⟩⟩
    show (wholeSeconds micros).toInt.repr.toInt?.bind fitI64 = some (wholeSeconds micros)
    rw [Int.toInt?_repr]
    exact fitI64_toInt _
  time h m s hh hm hs := secondsOfText_pad2 hh hm hs
  uuid u := by
    refine ⟨plain_nat _, ?_⟩
    show (beNat u.bytes).repr.toNat?.map _ = some u
    rw [Nat.toNat?_repr, Option.map_some]
    exact congrArg some (Uuid.bytes_inj.mp (beBytes_beNat u.length_eq))
  interval i := by
    refine ⟨plain_int _, ?_⟩
    show i.code.repr.toInt?.map Interval.ofCode = some i
    rw [Int.toInt?_repr, Option.map_some, Interval.ofCode_code]

/-! ### There and back, for every type -/

/-- **What a cast to text shows comes back.** -/
theorem text_casts_return {rt : Runtime} (law : PrintsReadably rt) {v u : Value} {ty : LogicalType}
    (hv : v.hasType ty = true) (hty : ty.readsBack = true)
    (hday : ∀ micros, v = .time micros → 0 ≤ micros.toInt ∧ micros.toInt < MICROS_PER_DAY)
    (hdoc : v.Rereads rt) (htext : evalCast rt v .text = .ok u) :
    ∃ w, evalCast rt u ty = .ok w ∧ valuesEq rt w (shown v) = true := by
  obtain ⟨s, rfl, hs⟩ := text_of_evalCast (isNull_of_hasType hv) htext
  cases ty <;> cases hty <;> cases v <;> cases hv
  case date.refl.date.refl days => exact returns_date law hs
  case timestamp.refl.timestamp.refl micros => exact returns_timestamp law hs
  all_goals obtain rfl := Except.ok.inj hs
  case bool.refl.bool.refl b => exact returns_bool law b
  case int16.refl.int16.refl n =>
    rw [← Int16.toInt_toInt64 n]
    exact returns_integer law rfl (by rw [Int16.toInt_toInt64, intValue, fitI16_toInt]; rfl)
  case int32.refl.int32.refl n =>
    rw [← Int32.toInt_toInt64 n]
    exact returns_integer law rfl (by rw [Int32.toInt_toInt64, intValue, fitI32_toInt]; rfl)
  case int64.refl.int64.refl n =>
    exact returns_integer law rfl (by rw [intValue, fitI64_toInt]; rfl)
  case text.refl.text.refl => exact returns_text _
  case json.refl.json.refl j => exact returns_json hdoc
  case numeric.refl.numeric.refl d => exact returns_numeric law d
  case time.refl.time.refl micros =>
    obtain ⟨hlo, hhi⟩ := hday micros rfl
    exact returns_time law hlo hhi
  case uuid.refl.uuid.refl u => exact returns_uuid law u
  case interval.refl.interval.refl i => exact returns_interval law i

/-- Half a second past 12:34:56. -/
theorem text_casts_return_time :
    ∃ w, evalCast printingRuntime (.text "12:34:56") .time = .ok w
      ∧ valuesEq printingRuntime w (.time 45296000000) = true :=
  text_casts_return readable_printingRuntime (v := .time 45296500000) rfl rfl
    (fun micros h => by cases h; decide) trivial rfl

/-- **Half a second past midnight comes back as midnight.** -/
theorem text_casts_drop_fraction :
    PrintsReadably printingRuntime
      ∧ evalCast printingRuntime (.time 500000) .text = .ok (.text "00:00:00")
      ∧ evalCast printingRuntime (.text "00:00:00") .time = .ok (.time 0)
      ∧ valuesEq printingRuntime (.time 0) (.time 500000) = false :=
  ⟨readable_printingRuntime, rfl, rfl, by simp [valuesEq, asI64, asDecimal, asF64, structuralEq]⟩

end StrataDb.Sql
