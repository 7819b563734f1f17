import StrataDb.Page

/-!
# Slotted pages (`crates/filesystem/src/tuple/page.rs`)

```text
0            page header (21 bytes)
21    u16    slot_count
23    u16    free_start   (end of the slot array)
25    u16    free_end     (start of the tuple data)
27           slot array, grows upward: [offset u16 | length u16 | flags u16 | _ u16]
             free space, and tuple data, which grows downward from the end
```

`Holds page ts`: tuple `i` of `ts` is in slot `i`. Inserting appends a tuple if there is room for
it and its slot (`Stores.insert`, `Stores.insert_full`).
-/

namespace StrataDb.Filesystem

open ByteCodec Slices
open PageHeader (parse parse_congr)

def TUPLE_PAGE : Nat := 1
def FORMAT_VERSION : Nat := 1
def OFF_SLOT_COUNT : Nat := HEADER_LEN
def OFF_FREE_START : Nat := HEADER_LEN + 2
def OFF_FREE_END : Nat := HEADER_LEN + 4
def SLOT_ARRAY_OFFSET : Nat := HEADER_LEN + 6
def SLOT_SIZE : Nat := 8
def FLAG_DELETED : Nat := 1

def getU16 (buf : Block) (off : Nat) : Nat := beNat (buf.get off 2)
def putU16 (buf : Block) (off v : Nat) : Block := buf.put off (beBytes 2 v)

def TuplePage.open (buf : Block) : Except FsError Unit := do
  let header ← parse buf
  if header.pageType = TUPLE_PAGE then return ()
  else .error (.badPageType TUPLE_PAGE header.pageType)

namespace TuplePage

def slotCount (buf : Block) : Nat := getU16 buf OFF_SLOT_COUNT

def slotPos (slot : Nat) : Nat := SLOT_ARRAY_OFFSET + slot * SLOT_SIZE

def slotRange (buf : Block) (slot : Nat) : Option (Nat × Nat) :=
  if slotCount buf ≤ slot then none
  else if getU16 buf (slotPos slot + 4) &&& FLAG_DELETED ≠ 0 then none
  else some (getU16 buf (slotPos slot), getU16 buf (slotPos slot + 2))

def get (buf : Block) (slot : Nat) : Option Bytes :=
  (slotRange buf slot).map fun r => buf.get r.1 r.2

def tuples (buf : Block) : List Bytes :=
  (List.range (slotCount buf)).filterMap (get buf)

def init (buf : Block) : Block :=
  let buf := (PageHeader.new TUPLE_PAGE FORMAT_VERSION).write buf
  let buf := putU16 buf OFF_SLOT_COUNT 0
  let buf := putU16 buf OFF_FREE_START SLOT_ARRAY_OFFSET
  putU16 buf OFF_FREE_END PAGE_SIZE

def freeSpace (buf : Block) : Nat :=
  getU16 buf OFF_FREE_END - getU16 buf OFF_FREE_START - SLOT_SIZE

def place (buf : Block) (tuple : Bytes) (slotCount freeStart tupleOff : Nat) : Block :=
  let buf := buf.put tupleOff tuple
  let buf := putU16 buf freeStart tupleOff
  let buf := putU16 buf (freeStart + 2) tuple.length
  let buf := putU16 buf (freeStart + 4) 0
  let buf := putU16 buf (freeStart + 6) 0
  let buf := putU16 buf OFF_SLOT_COUNT (slotCount + 1)
  let buf := putU16 buf OFF_FREE_START (freeStart + SLOT_SIZE)
  putU16 buf OFF_FREE_END tupleOff

def insert (buf : Block) (tuple : Bytes) : Option (Nat × Block) :=
  let count := getU16 buf OFF_SLOT_COUNT
  let freeStart := getU16 buf OFF_FREE_START
  let freeEnd := getU16 buf OFF_FREE_END
  if freeEnd - freeStart < tuple.length + SLOT_SIZE then none
  else some (count, place buf tuple count freeStart (freeEnd - tuple.length))

/-- Mark a slot deleted; `none` if there is no such slot. -/
def delete (buf : Block) (slot : Nat) : Option Block :=
  if slotCount buf ≤ slot then none
  else
    let pos := slotPos slot + 4
    some (putU16 buf pos (getU16 buf pos ||| FLAG_DELETED))

end TuplePage

section Fields

variable {buf : Block} {off off' v : Nat}

theorem getU16_putU16 (h : off + 2 ≤ BLOCK_SIZE) (hv : v < 2 ^ 16) :
    getU16 (putU16 buf off v) off = v := by
  have hlen : (beBytes 2 v).length = 2 := length_beBytes 2 v
  have hself := @Block.get_put_self buf off (beBytes 2 v) (by rw [hlen]; exact h)
  rw [hlen] at hself
  rw [getU16, putU16, hself, beNat_beBytes_of_lt hv]

theorem get_putU16_of_disjoint {len : Nat} (h : off' + len ≤ off ∨ off + 2 ≤ off') :
    (putU16 buf off v).get off' len = buf.get off' len :=
  Block.get_put_of_disjoint (by rw [length_beBytes]; exact h)

theorem getU16_putU16_of_disjoint (h : off' + 2 ≤ off ∨ off + 2 ≤ off') :
    getU16 (putU16 buf off v) off' = getU16 buf off' := by
  rw [getU16, get_putU16_of_disjoint h, getU16]

end Fields

/-! ### What a page stores -/

def tupleBytes (ts : List Bytes) : Nat := (ts.map List.length).sum

def tupleOff (ts : List Bytes) (i : Nat) : Nat := PAGE_SIZE - tupleBytes (ts.take (i + 1))

/-- A slot with its flags, which points at a tuple. -/
structure SlotStores (buf : Block) (off i : Nat) (t : Bytes) (flags : Nat) : Prop where
  offset : getU16 buf (TuplePage.slotPos i) = off
  length : getU16 buf (TuplePage.slotPos i + 2) = t.length
  flags : getU16 buf (TuplePage.slotPos i + 4) = flags
  bytes : buf.get off t.length = t

/-- The page stores the tuples, and those in `deleted` are marked. -/
structure Stores (buf : Block) (ts : List Bytes) (deleted : Finset Nat) : Prop where
  opens : TuplePage.open buf = .ok ()
  count : getU16 buf OFF_SLOT_COUNT = ts.length
  freeStart : getU16 buf OFF_FREE_START = TuplePage.slotPos ts.length
  freeEnd : getU16 buf OFF_FREE_END = PAGE_SIZE - tupleBytes ts
  room : TuplePage.slotPos ts.length + tupleBytes ts ≤ PAGE_SIZE
  marked : ∀ i ∈ deleted, i < ts.length
  slots : ∀ i t, ts[i]? = some t → SlotStores buf (tupleOff ts i) i t
    (if i ∈ deleted then FLAG_DELETED else 0)

/-- The page stores the tuples, tuple `i` in slot `i`, and none of them is deleted. -/
def Holds (buf : Block) (ts : List Bytes) : Prop := Stores buf ts ∅

theorem tupleBytes_append (ts us : List Bytes) :
    tupleBytes (ts ++ us) = tupleBytes ts + tupleBytes us := by
  simp [tupleBytes]

theorem tupleBytes_take_le (ts : List Bytes) (k : Nat) :
    tupleBytes (ts.take k) ≤ tupleBytes ts := by
  conv_rhs => rw [← List.take_append_drop k ts, tupleBytes_append]
  exact Nat.le_add_right _ _

theorem le_tupleOff (ts : List Bytes) (i : Nat) : PAGE_SIZE - tupleBytes ts ≤ tupleOff ts i :=
  Nat.sub_le_sub_left (tupleBytes_take_le ts (i + 1)) PAGE_SIZE

theorem open_congr {a b : Block}
    (h : ∀ {off len : Nat}, off + len ≤ OFF_CHECKSUM → a.get off len = b.get off len) :
    TuplePage.open a = TuplePage.open b := by
  rw [TuplePage.open, parse_congr fun _ _ => h, TuplePage.open]

theorem Stores.agrees {a b : Block} {ts : List Bytes} {deleted : Finset Nat}
    (h : Stores a ts deleted) (hab : b.Agrees a) : Stores b ts deleted := by
  have hfield : ∀ {off len : Nat}, OFF_CHECKSUM + 4 ≤ off → b.get off len = a.get off len :=
    fun hoff => hab.get (Or.inr hoff)
  have hu16 : ∀ {off : Nat}, OFF_CHECKSUM + 4 ≤ off → getU16 b off = getU16 a off := by
    intro off hoff
    rw [getU16, hfield hoff, getU16]
  have hopen : TuplePage.open b = TuplePage.open a := open_congr fun hoff => hab.get (Or.inl hoff)
  have hpos : ∀ i, OFF_CHECKSUM + 4 ≤ TuplePage.slotPos i := fun i =>
    Nat.le_trans (by decide) (Nat.le_add_right SLOT_ARRAY_OFFSET (i * SLOT_SIZE))
  refine ⟨hopen.trans h.opens, ?_, ?_, ?_, h.room, h.marked, ?_⟩
  · rw [hu16 (by decide), h.count]
  · rw [hu16 (by decide), h.freeStart]
  · rw [hu16 (by decide), h.freeEnd]
  · intro i t ht
    have hslot := h.slots i t ht
    have hroom := h.room
    have hoff := le_tupleOff ts i
    have hlt := hpos ts.length
    refine ⟨?_, ?_, ?_, ?_⟩
    · rw [hu16 (hpos i), hslot.offset]
    · rw [hu16 (Nat.le_trans (hpos i) (Nat.le_add_right _ _)), hslot.length]
    · rw [hu16 (Nat.le_trans (hpos i) (Nat.le_add_right _ _)), hslot.flags]
    · rw [hfield (by omega), hslot.bytes]

theorem Holds.agrees {a b : Block} {ts : List Bytes} (h : Holds a ts) (hab : b.Agrees a) :
    Holds b ts :=
  Stores.agrees h hab

theorem holds_init (buf : Block) : Holds (TuplePage.init buf) [] := by
  let header := PageHeader.new TUPLE_PAGE FORMAT_VERSION
  -- the counters are behind the header
  have hcongr : parse (TuplePage.init buf) = parse (header.write buf) := by
    apply parse_congr
    intro i len hi
    have hcounter : ∀ {b : Block} {off v : Nat}, 17 ≤ off → (putU16 b off v).get i len = b.get
      i len :=
      fun hoff => get_putU16_of_disjoint (Or.inl (Nat.le_trans hi hoff))
    rw [TuplePage.init, hcounter (by decide), hcounter (by decide), hcounter (by decide)]
  have hparse : parse (TuplePage.init buf) = .ok header :=
    hcongr.trans (PageHeader.parse_write buf (by decide) (by decide) (by decide))
  refine ⟨?_, ?_, ?_, ?_, by decide, nofun, nofun⟩
  · rw [TuplePage.open, hparse]
    rfl
  · rw [TuplePage.init, getU16_putU16_of_disjoint (by decide),
      getU16_putU16_of_disjoint (by decide), getU16_putU16 (by decide) (by decide)]
    rfl
  · rw [TuplePage.init, getU16_putU16_of_disjoint (by decide),
      getU16_putU16 (by decide) (by decide)]
    rfl
  · rw [TuplePage.init, getU16_putU16 (by decide) (by decide)]
    rfl

section Insert

variable {buf : Block} {ts : List Bytes} {deleted : Finset Nat} {t : Bytes}

theorem get_place_of_disjoint {count freeStart off : Nat} {off' len : Nat}
    (h27 : SLOT_ARRAY_OFFSET ≤ freeStart) (hroom : freeStart + SLOT_SIZE ≤ off)
    (h : off' + len ≤ OFF_SLOT_COUNT ∨ SLOT_ARRAY_OFFSET ≤ off')
    (h' : off' + len ≤ freeStart ∨ off + t.length ≤ off') :
    (TuplePage.place buf t count freeStart off).get off' len = buf.get off' len := by
  have hconst : OFF_SLOT_COUNT = 21 ∧ OFF_FREE_START = 23 ∧ OFF_FREE_END = 25
    ∧ SLOT_ARRAY_OFFSET = 27 ∧ SLOT_SIZE = 8 := by decide
  simp (disch := omega) only [TuplePage.place, get_putU16_of_disjoint, Block.get_put_of_disjoint]

theorem slotStores_place {count i off : Nat}
    (hroom : TuplePage.slotPos i + SLOT_SIZE ≤ off) (hend : off + t.length ≤ PAGE_SIZE) :
    SlotStores (TuplePage.place buf t count (TuplePage.slotPos i) off) off i t 0 := by
  have hconst : OFF_SLOT_COUNT = 21 ∧ OFF_FREE_START = 23 ∧ OFF_FREE_END = 25
    ∧ SLOT_ARRAY_OFFSET = 27 ∧ SLOT_SIZE = 8 ∧ PAGE_SIZE = 8192 ∧ BLOCK_SIZE = 8192 := by decide
  have hpos : 27 ≤ TuplePage.slotPos i := Nat.le_add_right 27 _
  -- a field is read through the writes that came after it
  refine ⟨?_, ?_, ?_, ?_⟩
  · simp (disch := omega) only [TuplePage.place, getU16_putU16_of_disjoint, getU16_putU16]
  · simp (disch := omega) only [TuplePage.place, getU16_putU16_of_disjoint, getU16_putU16]
  · simp (disch := omega) only [TuplePage.place, getU16_putU16_of_disjoint, getU16_putU16]
  · simp (disch := omega) only [TuplePage.place, get_putU16_of_disjoint, Block.get_put_self]

def freeBytes (ts : List Bytes) : Nat := PAGE_SIZE - tupleBytes ts - TuplePage.slotPos ts.length

theorem slotPos_succ (i : Nat) : TuplePage.slotPos (i + 1) = TuplePage.slotPos i + SLOT_SIZE := by
  rw [TuplePage.slotPos, TuplePage.slotPos, Nat.succ_mul, Nat.add_assoc]

theorem slotPos_mono {i j : Nat} (h : i ≤ j) : TuplePage.slotPos i ≤ TuplePage.slotPos j :=
  Nat.add_le_add_left (Nat.mul_le_mul_right SLOT_SIZE h) SLOT_ARRAY_OFFSET

theorem Stores.freeSpace_eq (h : Stores buf ts deleted) :
    TuplePage.freeSpace buf = freeBytes ts - SLOT_SIZE := by
  rw [TuplePage.freeSpace, h.freeStart, h.freeEnd]
  rfl

theorem Stores.slotStores_place (h : Stores buf ts deleted)
    (hfits : t.length + SLOT_SIZE ≤ freeBytes ts)
    {count i : Nat} {u : Bytes} (hu : ts[i]? = some u) :
    SlotStores (TuplePage.place buf t count (TuplePage.slotPos ts.length)
      (PAGE_SIZE - tupleBytes ts - t.length)) (tupleOff ts i) i u
        (if i ∈ deleted then FLAG_DELETED else 0) := by
  have hconst : OFF_SLOT_COUNT = 21 ∧ SLOT_ARRAY_OFFSET = 27 ∧ SLOT_SIZE = 8 := by decide
  have hroom := h.room
  have hpos : 27 ≤ TuplePage.slotPos i := Nat.le_add_right 27 _
  have hpos' : 27 ≤ TuplePage.slotPos ts.length := Nat.le_add_right 27 _
  have hbefore : TuplePage.slotPos i + 8 ≤ TuplePage.slotPos ts.length := by
    have hi := (List.getElem?_eq_some_iff.mp hu).1
    have hmono := slotPos_mono (Nat.succ_le_of_lt hi)
    rw [slotPos_succ] at hmono
    exact hmono
  have hbehind := le_tupleOff ts i
  have hfree : freeBytes ts = PAGE_SIZE - tupleBytes ts - TuplePage.slotPos ts.length := rfl
  have hold := h.slots i u hu
  have hu16 : ∀ {off : Nat}, 27 ≤ off → off + 2 ≤ TuplePage.slotPos ts.length →
      getU16 (TuplePage.place buf t count (TuplePage.slotPos ts.length)
        (PAGE_SIZE - tupleBytes ts - t.length)) off = getU16 buf off := by
    intro off h27 hoff
    rw [getU16, get_place_of_disjoint (by omega) (by omega) (Or.inr (by omega)) (Or.inl hoff),
      getU16]
  refine ⟨?_, ?_, ?_, ?_⟩
  · rw [hu16 hpos (by omega), hold.offset]
  · rw [hu16 (by omega) (by omega), hold.length]
  · rw [hu16 (by omega) (by omega), hold.flags]
  · rw [get_place_of_disjoint (by omega) (by omega) (Or.inr (by omega)) (Or.inr (by omega)),
      hold.bytes]

theorem counters_place {count freeStart off : Nat} (hcount : count + 1 < 2 ^ 16)
    (hstart : freeStart + SLOT_SIZE < 2 ^ 16) (hoff : off < 2 ^ 16) :
    getU16 (TuplePage.place buf t count freeStart off) OFF_SLOT_COUNT = count + 1
      ∧ getU16 (TuplePage.place buf t count freeStart off) OFF_FREE_START = freeStart + SLOT_SIZE
      ∧ getU16 (TuplePage.place buf t count freeStart off) OFF_FREE_END = off := by
  refine ⟨?_, ?_, ?_⟩
  · rw [TuplePage.place, getU16_putU16_of_disjoint (by decide),
      getU16_putU16_of_disjoint (by decide), getU16_putU16 (by decide) hcount]
  · rw [TuplePage.place, getU16_putU16_of_disjoint (by decide), getU16_putU16 (by decide) hstart]
  · rw [TuplePage.place, getU16_putU16 (by decide) hoff]

theorem open_place {count freeStart off : Nat} (h27 : SLOT_ARRAY_OFFSET ≤ freeStart)
    (hroom : freeStart + SLOT_SIZE ≤ off) :
    TuplePage.open (TuplePage.place buf t count freeStart off) = TuplePage.open buf := by
  refine open_congr fun hoff => get_place_of_disjoint h27 hroom ?_ ?_
  · exact Or.inl (Nat.le_trans hoff (by decide))
  · exact Or.inl (Nat.le_trans hoff (Nat.le_trans (by decide) h27))

/-- **Inserting appends**, if there is room for the tuple and its slot. -/
theorem Stores.insert (h : Stores buf ts deleted) (hfits : t.length + SLOT_SIZE ≤ freeBytes ts) :
    ∃ buf', TuplePage.insert buf t = some (ts.length, buf') ∧ Stores buf' (ts ++ [t]) deleted := by
  have hconst : SLOT_ARRAY_OFFSET = 27 ∧ SLOT_SIZE = 8 ∧ PAGE_SIZE = 8192 := by decide
  have hroom := h.room
  have hfree : freeBytes ts = PAGE_SIZE - tupleBytes ts - TuplePage.slotPos ts.length := rfl
  have hpos : TuplePage.slotPos ts.length = 27 + ts.length * 8 := rfl
  have hsum : tupleBytes (ts ++ [t]) = tupleBytes ts + t.length := by
    rw [tupleBytes_append]
    simp [tupleBytes]
  have hlast : tupleOff (ts ++ [t]) ts.length = PAGE_SIZE - tupleBytes ts - t.length := by
    rw [tupleOff, List.take_of_length_le (by simp), hsum, Nat.sub_sub]
  refine ⟨TuplePage.place buf t ts.length (TuplePage.slotPos ts.length)
    (PAGE_SIZE - tupleBytes ts - t.length), ?_, ?_⟩
  · rw [TuplePage.insert, h.count, h.freeStart, h.freeEnd]
    exact if_neg (Nat.not_lt.mpr hfits)
  · obtain ⟨hcount, hstart, hend⟩ := @counters_place buf t ts.length (TuplePage.slotPos ts.length)
      (PAGE_SIZE - tupleBytes ts - t.length) (by omega) (by omega) (by omega)
    refine ⟨?_, ?_, ?_, ?_, ?_, ?_, ?_⟩
    · rw [open_place (by omega) (by omega), h.opens]
    · rw [hcount, List.length_append, List.length_singleton]
    · rw [hstart, List.length_append, List.length_singleton, slotPos_succ]
    · rw [hend, hsum, Nat.sub_sub]
    · rw [List.length_append, List.length_singleton, slotPos_succ, hsum]
      omega
    · intro i hi
      have hlt := h.marked i hi
      rw [List.length_append]
      omega
    · intro i u hu
      -- a slot from before, the new one, or none
      rcases Nat.lt_trichotomy i ts.length with hi | rfl | hi
      · rw [List.getElem?_append_left hi] at hu
        have hoff : tupleOff (ts ++ [t]) i = tupleOff ts i := by
          rw [tupleOff, List.take_append_of_le_length hi, tupleOff]
        rw [hoff]
        exact h.slotStores_place hfits hu
      · rw [List.getElem?_append_right (Nat.le_refl _), Nat.sub_self] at hu
        obtain rfl := Option.some.inj hu
        rw [hlast, if_neg (fun hmem => (h.marked _ hmem).false)]
        exact Filesystem.slotStores_place (by omega) (by omega)
      · rw [List.getElem?_eq_none (by rw [List.length_append, List.length_singleton]; omega)] at hu
        cases hu

theorem Stores.insert_full (h : Stores buf ts deleted)
    (hfull : freeBytes ts < t.length + SLOT_SIZE) :
    TuplePage.insert buf t = none := by
  rw [TuplePage.insert, h.count, h.freeStart, h.freeEnd]
  exact if_pos hfull

end Insert

/-! ### Deleting -/

section Delete

variable {buf : Block} {ts : List Bytes} {deleted : Finset Nat} {slot : Nat}

theorem slotPos_add_le {i j : Nat} (h : i < j) :
    TuplePage.slotPos i + SLOT_SIZE ≤ TuplePage.slotPos j := by
  rw [← slotPos_succ]
  exact slotPos_mono h

theorem Stores.slotStores_mark (h : Stores buf ts deleted) (hslot : slot < ts.length) {v : Nat}
    (hv : v < 2 ^ 16) {i : Nat} {t : Bytes} (ht : ts[i]? = some t) :
    SlotStores (putU16 buf (TuplePage.slotPos slot + 4) v) (tupleOff ts i) i t
      (if i = slot then v else if i ∈ deleted then FLAG_DELETED else 0) := by
  have hconst : SLOT_SIZE = 8 ∧ PAGE_SIZE = 8192 ∧ BLOCK_SIZE = 8192 := by decide
  have hroom := h.room
  have hbehind := le_tupleOff ts i
  have hend := slotPos_add_le hslot
  have hold := h.slots i t ht
  -- another slot lies before or behind this one
  have hfar : i = slot ∨ TuplePage.slotPos i + 8 ≤ TuplePage.slotPos slot ∨
      TuplePage.slotPos slot + 8 ≤ TuplePage.slotPos i := by
    rcases Nat.lt_trichotomy i slot with hi | hi | hi
    · exact Or.inr (Or.inl (slotPos_add_le hi))
    · exact Or.inl hi
    · exact Or.inr (Or.inr (slotPos_add_le hi))
  have hsame : i = slot → TuplePage.slotPos i = TuplePage.slotPos slot := congrArg _
  refine ⟨?_, ?_, ?_, ?_⟩
  · rw [getU16_putU16_of_disjoint (by omega), hold.offset]
  · rw [getU16_putU16_of_disjoint (by omega), hold.length]
  · split_ifs with hi hdeleted
    · rw [hsame hi, getU16_putU16 (by omega) hv]
    · rw [getU16_putU16_of_disjoint (by omega), hold.flags, if_pos hdeleted]
    · rw [getU16_putU16_of_disjoint (by omega), hold.flags, if_neg hdeleted]
  · rw [get_putU16_of_disjoint (by omega), hold.bytes]

/-- **Deleting marks the slot**; the tuples stay where they are. -/
theorem Stores.delete (h : Stores buf ts deleted) (hslot : slot < ts.length) :
    ∃ buf', TuplePage.delete buf slot = some buf'
      ∧ Stores buf' ts (Insert.insert slot deleted) := by
  obtain ⟨t, ht⟩ : ∃ t, ts[slot]? = some t := ⟨_, List.getElem?_eq_getElem hslot⟩
  have hflags : getU16 buf (TuplePage.slotPos slot + 4) ||| FLAG_DELETED = FLAG_DELETED := by
    rw [(h.slots slot t ht).flags]
    split_ifs <;> decide
  have hpos : 27 ≤ TuplePage.slotPos slot := Nat.le_add_right 27 _
  have hcounter {off : Nat} (hoff : off + 2 ≤ 27) :
      getU16 (putU16 buf (TuplePage.slotPos slot + 4) FLAG_DELETED) off = getU16 buf off :=
    getU16_putU16_of_disjoint (by omega)
  refine ⟨putU16 buf (TuplePage.slotPos slot + 4) FLAG_DELETED, ?_, ?_⟩
  · rw [TuplePage.delete, TuplePage.slotCount, h.count, if_neg (by omega)]
    dsimp only
    rw [hflags]
  · refine ⟨?_, ?_, ?_, ?_, h.room, ?_, fun i u hu => ?_⟩
    · rw [← h.opens]
      exact open_congr fun hoff => get_putU16_of_disjoint
        (Or.inl
          (hoff.trans ((show OFF_CHECKSUM ≤ 27 by decide).trans (Nat.le_add_right_of_le hpos))))
    · rw [hcounter (by decide), h.count]
    · rw [hcounter (by decide), h.freeStart]
    · rw [hcounter (by decide), h.freeEnd]
    · intro i hi
      rcases Finset.mem_insert.mp hi with rfl | hi
      · exact hslot
      · exact h.marked i hi
    · have hmark := h.slotStores_mark hslot (show FLAG_DELETED < 2 ^ 16 by decide) hu
      convert hmark using 1
      by_cases hi : i = slot <;> simp [hi]

theorem Stores.delete_absent (h : Stores buf ts deleted) (hslot : ts.length ≤ slot) :
    TuplePage.delete buf slot = none := by
  rw [TuplePage.delete, TuplePage.slotCount, h.count, if_pos hslot]

end Delete

/-! ### Reading -/

theorem Stores.get {buf : Block} {ts : List Bytes} {deleted : Finset Nat}
    (h : Stores buf ts deleted) (i : Nat) :
    TuplePage.get buf i = if i ∈ deleted then none else ts[i]? := by
  rw [TuplePage.get, TuplePage.slotRange, TuplePage.slotCount, h.count]
  by_cases hi : ts.length ≤ i
  · rw [if_pos hi, List.getElem?_eq_none hi, ite_self]
    rfl
  · obtain ⟨t, ht⟩ : ∃ t, ts[i]? = some t := ⟨_, List.getElem?_eq_getElem (Nat.lt_of_not_le hi)⟩
    have hslot := h.slots i t ht
    rw [if_neg hi, hslot.flags]
    split_ifs with hdeleted hflag hflag
    · rfl
    · exact absurd hflag (by decide)
    · exact absurd hflag (by decide)
    · rw [hslot.offset, hslot.length, Option.map_some, hslot.bytes, ht]

theorem Holds.get {buf : Block} {ts : List Bytes} (h : Holds buf ts) (i : Nat) :
    TuplePage.get buf i = ts[i]? := by
  rw [Stores.get h i, if_neg (Finset.notMem_empty i)]

theorem filterMap_range_getElem? {α : Type} (xs : List α) :
    (List.range xs.length).filterMap (fun i => xs[i]?) = xs := by
  induction xs using List.reverseRecOn with
  | nil => rfl
  | append_singleton xs x ih =>
    have hfront : (List.range xs.length).filterMap (fun i => (xs ++ [x])[i]?)
        = (List.range xs.length).filterMap (fun i => xs[i]?) :=
      List.filterMap_congr fun i hi => List.getElem?_append_left (List.mem_range.mp hi)
    rw [List.length_append, List.length_singleton, List.range_succ, List.filterMap_append, hfront,
      ih]
    simp

theorem Holds.tuples {buf : Block} {ts : List Bytes} (h : Holds buf ts) :
    TuplePage.tuples buf = ts := by
  have hget : TuplePage.get buf = fun i => ts[i]? := funext h.get
  rw [TuplePage.tuples, TuplePage.slotCount, h.count, hget, filterMap_range_getElem?]

end StrataDb.Filesystem
