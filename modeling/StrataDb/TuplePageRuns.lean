import StrataDb.TuplePage

/-!
# A slotted page over a run of insertions and deletions (`crates/filesystem/src/tuple/page.rs`)

Slot `i` is the `i`-th tuple whose insertion returned a slot, for as long as the page is used.
-/

namespace StrataDb.Filesystem

open ByteCodec
open TuplePage (slotCount slotPos)

inductive PageOp where
  | insert (tuple : Bytes)
  | delete (slot : Nat)

structure Slotted where
  page : Block
  inserted : List Bytes
  deleted : Finset Nat

namespace Slotted

def init (buf : Block) : Slotted := ⟨TuplePage.init buf, [], ∅⟩

/-- A call that fails leaves the page alone. -/
def step (s : Slotted) : PageOp → Slotted
  | .insert tuple =>
    match TuplePage.insert s.page tuple with
    | some (_, page) => ⟨page, s.inserted ++ [tuple], s.deleted⟩
    | none => s
  | .delete slot =>
    match TuplePage.delete s.page slot with
    | some page => ⟨page, s.inserted, insert slot s.deleted⟩
    | none => s

def run (buf : Block) (ops : List PageOp) : Slotted := ops.foldl step (init buf)

theorem run_snoc (buf : Block) (ops : List PageOp) (op : PageOp) :
    run buf (ops ++ [op]) = (run buf ops).step op := by
  rw [run, List.foldl_append]
  rfl

end Slotted

def TuplePage.freeSpan (page : Block) : Nat := getU16 page OFF_FREE_END - getU16 page OFF_FREE_START

/-- Slots, free space and tuples follow each other, and no two tuples overlap. -/
structure TuplePage.Laid (page : Block) : Prop where
  slots : getU16 page OFF_FREE_START = slotPos (slotCount page)
  free : getU16 page OFF_FREE_START ≤ getU16 page OFF_FREE_END
  tuples : ∀ i < slotCount page, getU16 page OFF_FREE_END ≤ getU16 page (slotPos i) ∧
    getU16 page (slotPos i) + getU16 page (slotPos i + 2) ≤ PAGE_SIZE
  apart : ∀ i j, i < j → j < slotCount page →
    getU16 page (slotPos j) + getU16 page (slotPos j + 2) ≤ getU16 page (slotPos i)

section Laid

variable {page : Block} {ts : List Bytes} {deleted : Finset Nat}

theorem tupleBytes_take_mono (ts : List Bytes) {i j : Nat} (h : i ≤ j) :
    tupleBytes (ts.take i) ≤ tupleBytes (ts.take j) := by
  calc tupleBytes (ts.take i)
    _ = tupleBytes ((ts.take j).take i) := by rw [List.take_take, Nat.min_eq_left h]
    _ ≤ tupleBytes (ts.take j) := tupleBytes_take_le ..

theorem tupleOff_add_length {i : Nat} {t : Bytes} (ht : ts[i]? = some t)
    (hroom : tupleBytes ts ≤ PAGE_SIZE) :
    tupleOff ts i + t.length = PAGE_SIZE - tupleBytes (ts.take i) := by
  have hsucc : tupleBytes (ts.take (i + 1)) = tupleBytes (ts.take i) + t.length := by
    rw [List.take_add_one, ht, tupleBytes_append]
    simp [tupleBytes]
  have hle := tupleBytes_take_le ts (i + 1)
  rw [tupleOff]
  omega

theorem Stores.laid (h : Stores page ts deleted) : TuplePage.Laid page := by
  have hroom := h.room
  have hcount : slotCount page = ts.length := h.count
  have hslot {i : Nat} (hi : i < ts.length) : ∃ t, ts[i]? = some t
    ∧ getU16 page (slotPos i) = tupleOff ts i ∧
      tupleOff ts i + getU16 page (slotPos i + 2) = PAGE_SIZE - tupleBytes (ts.take i) := by
    have ht := List.getElem?_eq_getElem hi
    have hold := h.slots i _ ht
    refine ⟨_, ht, hold.offset, ?_⟩
    rw [hold.length, tupleOff_add_length ht (by omega)]
  refine ⟨?_, ?_, fun i hi => ?_, fun i j hij hj => ?_⟩
  · rw [h.freeStart, hcount]
  · rw [h.freeStart, h.freeEnd]
    omega
  · obtain ⟨t, -, hoffset, hend⟩ := hslot (hcount ▸ hi)
    have hbehind := le_tupleOff ts i
    rw [h.freeEnd, hoffset]
    omega
  · obtain ⟨t, -, hoffset, -⟩ := hslot (hij.trans (hcount ▸ hj))
    obtain ⟨u, -, hoffset', hend⟩ := hslot (hcount ▸ hj)
    have hmono : tupleBytes (ts.take (i + 1)) ≤ _ := tupleBytes_take_mono ts hij
    rw [hoffset', hend, hoffset, tupleOff]
    omega

end Laid

namespace Slotted

theorem stores_step {s : Slotted} (h : Stores s.page s.inserted s.deleted) (op : PageOp) :
    Stores (s.step op).page (s.step op).inserted (s.step op).deleted := by
  cases op with
  | insert tuple =>
    rcases Nat.lt_or_ge (freeBytes s.inserted) (tuple.length + SLOT_SIZE) with hfull | hfits
    · rw [step, h.insert_full hfull]
      exact h
    · obtain ⟨page, hinsert, hstores⟩ := h.insert hfits
      rw [step, hinsert]
      exact hstores
  | delete slot =>
    rcases Nat.lt_or_ge slot s.inserted.length with hslot | habsent
    · obtain ⟨page, hdelete, hstores⟩ := h.delete hslot
      rw [step, hdelete]
      exact hstores
    · rw [step, h.delete_absent habsent]
      exact h

theorem stores_run (buf : Block) (ops : List PageOp) :
    Stores (run buf ops).page (run buf ops).inserted (run buf ops).deleted := by
  induction ops using List.reverseRecOn with
  | nil => exact holds_init buf
  | append_singleton ops op ih =>
    rw [run_snoc]
    exact stores_step ih op

theorem inserted_step (s : Slotted) (op : PageOp) : s.inserted <+: (s.step op).inserted := by
  cases op with
  | insert tuple =>
    rw [step]
    split
    · exact List.prefix_append ..
    · exact List.prefix_rfl
  | delete slot =>
    rw [step]
    split <;> exact List.prefix_rfl

theorem inserted_run (buf : Block) (ops later : List PageOp) :
    (run buf ops).inserted <+: (run buf (ops ++ later)).inserted := by
  induction later using List.reverseRecOn with
  | nil => rw [List.append_nil]
  | append_singleton later op ih =>
    rw [← List.append_assoc, run_snoc]
    exact ih.trans (inserted_step _ op)

end Slotted

/-- **A slotted page stores tuples faithfully**, over any run of insertions and deletions.
    A slot that is returned is the next one, and stays the tuple's.  A slot shows the bytes
    inserted until it is deleted.  Slots and tuples do not overlap.  An insertion fails
    exactly if the free span is too small for the tuple and its slot; the page is then as
    it was. -/
theorem slotted_page_faithful (buf : Block) (ops : List PageOp) :
    (∀ tuple slot page, TuplePage.insert (Slotted.run buf ops).page tuple = some (slot, page) →
      slot = (Slotted.run buf ops).inserted.length ∧
      ∀ later, (Slotted.run buf (ops ++ .insert tuple :: later)).inserted[slot]? = some tuple) ∧
    (∀ slot, TuplePage.get (Slotted.run buf ops).page slot =
      if slot ∈ (Slotted.run buf ops).deleted then none else
        (Slotted.run buf ops).inserted[slot]?) ∧
    TuplePage.Laid (Slotted.run buf ops).page ∧
    ∀ tuple, (TuplePage.insert (Slotted.run buf ops).page tuple = none ↔
        TuplePage.freeSpan (Slotted.run buf ops).page < tuple.length + SLOT_SIZE) ∧
      (TuplePage.insert (Slotted.run buf ops).page tuple = none →
        Slotted.run buf (ops ++ [.insert tuple]) = Slotted.run buf ops) := by
  have h := Slotted.stores_run buf ops
  have hspan : TuplePage.freeSpan (Slotted.run buf ops).page = freeBytes
    (Slotted.run buf ops).inserted := by
    rw [TuplePage.freeSpan, h.freeEnd, h.freeStart, freeBytes]
  refine ⟨fun tuple slot page hinsert => ?_, h.get, h.laid, fun tuple => ⟨?_, fun hnone => ?_⟩⟩
  · have hslot : slot = (Slotted.run buf ops).inserted.length := by
      rw [TuplePage.insert, h.count] at hinsert
      split_ifs at hinsert
      exact (Prod.mk.inj (Option.some.inj hinsert)).1.symm
    refine ⟨hslot, fun later => ?_⟩
    have hprefix := Slotted.inserted_run buf (ops ++ [.insert tuple]) later
    rw [List.append_assoc, List.singleton_append, Slotted.run_snoc, Slotted.step,
      hinsert] at hprefix
    obtain ⟨rest, hrest⟩ := hprefix
    rw [← hrest, hslot, List.append_assoc, List.getElem?_append_right (Nat.le_refl _), Nat.sub_self]
    rfl
  · rw [hspan]
    constructor
    · intro hnone
      by_contra hfits
      obtain ⟨page, hinsert, -⟩ := h.insert (Nat.le_of_not_lt hfits)
      rw [hnone] at hinsert
      cases hinsert
    · exact h.insert_full
  · rw [Slotted.run_snoc, Slotted.step, hnone]

end StrataDb.Filesystem
