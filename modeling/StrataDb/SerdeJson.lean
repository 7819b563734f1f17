import Mathlib.Data.List.Basic

/-!
# Values as JSON documents

The derived writers tag an enum from outside: a unit variant is its name, any other an object with
one member. A float that is no number is written as `null`, which no float is read from.
`ReadsIff` says when a reader returns what was written, and such descriptions compose.
-/

namespace StrataDb.SerdeJson

inductive Doc (ν : Type) where
  | null
  | bool (b : Bool)
  | number (n : ν)
  | string (s : String)
  | array (items : List (Doc ν))
  | object (members : List (String × Doc ν))

/-- The printer and the parser of a JSON library, its numerals and its error texts. -/
structure Format (ν : Type) where
  print : Doc ν → String
  parse : String → Except String (Doc ν)
  ofInt : Int → ν
  toInt : ν → Option Int
  ofF32 : UInt32 → ν
  toF32 : ν → Option UInt32
  ofF64 : UInt64 → ν
  toF64 : ν → Option UInt64
  message : String → Doc ν → String

/-- Neither an infinity nor a NaN. -/
def finite32 (bits : UInt32) : Bool :=
  bits &&& 0x7f800000 != 0x7f800000

def finite64 (bits : UInt64) : Bool :=
  bits &&& 0x7ff0000000000000 != 0x7ff0000000000000

variable {ν : Type}

/-- Integers and finite doubles are read as they were written. -/
structure Format.Laws (f : Format ν) : Prop where
  toInt_ofInt : ∀ n, f.toInt (f.ofInt n) = some n
  toF64_ofF64 : ∀ bits, finite64 bits → f.toF64 (f.ofF64 bits) = some bits

mutual

def Doc.depth : Doc ν → Nat
  | .array items => depthItems items + 1
  | .object members => depthMembers members + 1
  | _ => 1

def depthItems : List (Doc ν) → Nat
  | [] => 0
  | d :: ds => max d.depth (depthItems ds)

def depthMembers : List (String × Doc ν) → Nat
  | [] => 0
  | (_, d) :: members => max d.depth (depthMembers members)

end

def tagged (name : String) (d : Doc ν) : Doc ν :=
  .object [(name, d)]

@[simp] theorem depth_tagged (name : String) (d : Doc ν) : (tagged name d).depth = d.depth + 1 := by
  simp [tagged, Doc.depth, depthMembers]

/-! ### Reading -/

namespace Format

variable (f : Format ν)

def fail {α : Type} (what : String) (d : Doc ν) : Except String α :=
  .error (f.message what d)

/-- The variant a document names, with its content if it has any. -/
def variant : Doc ν → Except String (String × Option (Doc ν))
  | .string name => .ok (name, none)
  | .object [(name, content)] => .ok (name, some content)
  | d => f.fail "expected an enum" d

def content : Option (Doc ν) → Except String (Doc ν)
  | some d => .ok d
  | none => f.fail "expected the content of a variant" .null

/-- A field of a struct; other fields are ignored. -/
def field (name : String) : Doc ν → Except String (Doc ν)
  | .object members =>
    match members.filter (·.1 == name) with
    | [(_, d)] => .ok d
    | [] => f.fail ("missing field " ++ name) (.object members)
    | _ => f.fail ("duplicate field " ++ name) (.object members)
  | d => f.fail "expected a struct" d

/-- A field that may be missing, which says the same as `null`. -/
def optional (name : String) : Doc ν → Except String (Doc ν)
  | .object members =>
    if members.any (·.1 == name) then f.field name (.object members) else .ok .null
  | d => f.fail "expected a struct" d

def items : Doc ν → Except String (List (Doc ν))
  | .array ds => .ok ds
  | d => f.fail "expected a sequence" d

def pair : Doc ν → Except String (Doc ν × Doc ν)
  | .array [a, b] => .ok (a, b)
  | d => f.fail "expected a tuple of size 2" d

def readBool : Doc ν → Except String Bool
  | .bool b => .ok b
  | d => f.fail "expected a boolean" d

def readString : Doc ν → Except String String
  | .string s => .ok s
  | d => f.fail "expected a string" d

def expect {α : Type} (what : String) (d : Doc ν) : Option α → Except String α
  | some a => .ok a
  | none => f.fail what d

def readNumber {α : Type} (read : ν → Option α) : Doc ν → Except String α
  | .number n => f.expect "number out of range" (.number n) (read n)
  | d => f.fail "expected a number" d

def readInt {α : Type} (fit : Int → Option α) : Doc ν → Except String α :=
  f.readNumber fun n => (f.toInt n).bind fit

def writeInt (n : Int) : Doc ν :=
  .number (f.ofInt n)

def writeF32 (bits : UInt32) : Doc ν :=
  if finite32 bits then .number (f.ofF32 bits) else .null

def writeF64 (bits : UInt64) : Doc ν :=
  if finite64 bits then .number (f.ofF64 bits) else .null

end Format

/-! ### When a document is read back -/

section ReadsIff

variable {ε α β : Type}

/-- The reader gives `a` if `P`, and an error otherwise. -/
def ReadsIff (P : Prop) (x : Except ε α) (a : α) : Prop :=
  (P → x = .ok a) ∧ (¬ P → ∃ e, x = .error e)

variable {P Q : Prop} {x : Except ε α} {a : α} {b : β}

theorem ReadsIff.of_ok (h : x = .ok a) : ReadsIff True x a :=
  ⟨fun _ => h, fun hn => absurd trivial hn⟩

theorem ReadsIff.congr (h : ReadsIff P x a) (hiff : P ↔ Q) : ReadsIff Q x a :=
  ⟨fun hq => h.1 (hiff.mpr hq), fun hq => h.2 fun hp => hq (hiff.mp hp)⟩

theorem ReadsIff.bind {g : α → Except ε β} (hx : ReadsIff P x a) (hg : ReadsIff Q (g a) b) :
    ReadsIff (P ∧ Q) (x >>= g) b := by
  by_cases hp : P
  · rw [hx.1 hp]
    exact hg.congr (by simp [hp])
  · obtain ⟨e, he⟩ := hx.2 hp
    rw [he]
    exact ⟨fun h => absurd h.1 hp, fun _ => ⟨e, rfl⟩⟩

theorem ReadsIff.map (hx : ReadsIff P x a) (g : α → β) : ReadsIff P (do return g (← x)) (g a) :=
  (hx.bind (g := fun a => pure (g a)) (.of_ok rfl)).congr (and_iff_left trivial)

theorem ReadsIff.bind_ok {g : α → Except ε β} (hx : x = .ok a) (hg : ReadsIff Q (g a) b) :
    ReadsIff Q (x >>= g) b := by
  rw [hx]
  exact hg

end ReadsIff

namespace Format

variable {f : Format ν}

theorem readsIff_int (laws : f.Laws) {α : Type} {fit : Int → Option α} {n : Int} {a : α}
    (h : fit n = some a) : ReadsIff True (f.readInt fit (f.writeInt n)) a := by
  refine .of_ok ?_
  simp only [readInt, writeInt, readNumber, laws.toInt_ofInt, Option.bind_some, h, expect]

theorem readsIff_f64 (laws : f.Laws) (bits : UInt64) :
    ReadsIff (finite64 bits = true) (f.readNumber f.toF64 (f.writeF64 bits)) bits := by
  constructor
  · intro h
    simp only [writeF64, h, if_true, readNumber, laws.toF64_ofF64 bits h, expect]
  · intro h
    exact ⟨_, by rw [writeF64, if_neg h]; rfl⟩

end Format

/-! ### Texts -/

/-- The escapes of two characters. -/
def shorthands : List (Char × Char) :=
  [('"', '"'), ('\\', '\\'), ('\x08', 'b'), ('\t', 't'), ('\n', 'n'), ('\x0c', 'f'), ('\r', 'r')]

def hexDigit (n : Nat) : Char :=
  Char.ofNat (if n < 10 then 48 + n else 87 + n)

/-- What stands for a character inside of a string. -/
def escape (c : Char) : List Char :=
  match shorthands.lookup c with
  | some s => ['\\', s]
  | none =>
    if c.toNat < 32 then
      ['\\', 'u', '0', '0', hexDigit (c.toNat / 16), hexDigit (c.toNat % 16)]
    else
      [c]

def quote (s : String) : List Char :=
  '"' :: (s.toList.flatMap escape ++ ['"'])

def isNumeral (c : Char) : Bool :=
  c.isDigit || c == '-' || c == '+' || c == '.' || c == 'e' || c == 'E'

/-- A number as it is printed. -/
structure Numeral where
  text : String
  spelled : text.toList ≠ [] ∧ text.toList.all isNumeral = true
deriving DecidableEq

def Numeral.ofText (s : String) : Option Numeral :=
  if h : s.toList ≠ [] ∧ s.toList.all isNumeral = true then some ⟨s, h⟩ else none

theorem Numeral.ofText_text (n : Numeral) : ofText n.text = some n :=
  dif_pos n.spelled

/-- Two numbers are equal if they print alike, and the two zeros of the floats are. -/
def Numeral.eq (a b : Numeral) : Bool :=
  a == b || (["0.0", "-0.0"].contains a.text && ["0.0", "-0.0"].contains b.text)

def separated (close : Char) : List (List Char) → List Char
  | [] => [close]
  | [t] => t ++ [close]
  | t :: ts => t ++ ',' :: separated close ts

mutual

/-- The compact text of a document, where `numeral` prints the numbers. -/
def Doc.chars (numeral : ν → Numeral) : Doc ν → List Char
  | .null => ['n', 'u', 'l', 'l']
  | .bool true => ['t', 'r', 'u', 'e']
  | .bool false => ['f', 'a', 'l', 's', 'e']
  | .number n => (numeral n).text.toList
  | .string s => quote s
  | .array items => '[' :: separated ']' (itemChars numeral items)
  | .object members => '\x7b' :: separated '\x7d' (memberChars numeral members)

def itemChars (numeral : ν → Numeral) : List (Doc ν) → List (List Char)
  | [] => []
  | d :: ds => d.chars numeral :: itemChars numeral ds

def memberChars (numeral : ν → Numeral) : List (String × Doc ν) → List (List Char)
  | [] => []
  | (name, d) :: members => (quote name ++ ':' :: d.chars numeral) :: memberChars numeral members

end

def Doc.text (d : Doc Numeral) : String :=
  String.ofList (d.chars id)

/-! ### Equality -/

mutual

/-- `PartialEq` for documents; the members of an object are in the order of their names. -/
def Doc.eq : Doc Numeral → Doc Numeral → Bool
  | .null, .null => true
  | .bool a, .bool b => a == b
  | .number a, .number b => a.eq b
  | .string a, .string b => a == b
  | .array as, .array bs => itemsEq as bs
  | .object as, .object bs => membersEq as bs
  | _, _ => false

def itemsEq : List (Doc Numeral) → List (Doc Numeral) → Bool
  | [], [] => true
  | a :: as, b :: bs => a.eq b && itemsEq as bs
  | _, _ => false

def membersEq : List (String × Doc Numeral) → List (String × Doc Numeral) → Bool
  | [], [] => true
  | (x, a) :: as, (y, b) :: bs => x == y && a.eq b && membersEq as bs
  | _, _ => false

end

mutual

theorem Doc.eq_self : ∀ d : Doc Numeral, d.eq d = true
  | .null => rfl
  | .bool _ | .string _ => by simp [Doc.eq]
  | .number n => by simp [Doc.eq, Numeral.eq]
  | .array items => itemsEq_self items
  | .object members => membersEq_self members

theorem itemsEq_self : ∀ ds : List (Doc Numeral), itemsEq ds ds = true
  | [] => rfl
  | d :: ds => by rw [itemsEq, d.eq_self, itemsEq_self ds]; rfl

theorem membersEq_self : ∀ ms : List (String × Doc Numeral), membersEq ms ms = true
  | [] => rfl
  | (name, d) :: ms => by rw [membersEq, d.eq_self, membersEq_self ms, beq_self_eq_true]; rfl

end

end StrataDb.SerdeJson
