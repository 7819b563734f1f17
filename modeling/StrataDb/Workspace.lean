import StrataDb.HeapDisk

/-!
# Workspaces (`crates/filesystem/src/workspace.rs`, `memory.rs`): scratch storage for tuples

`MemoryWorkspace` keeps its pages in slabs of a pool, `FileWorkspace` in a heap over a temporary
file. What was appended without an error comes back, in order; an append fails only because the
tuple fits no page or the bound is reached. Creating the temporary directory is taken to succeed.
-/

namespace StrataDb.Filesystem

open ByteCodec BlockStore LawfulBlockStore
open List (Forall₂ eq_nil_or_concat' getLast?_concat length_append map_append map_singleton
  nodup_concat rel_append)

structure WorkspaceLoc where
  page : Nat
  slot : Nat
deriving DecidableEq, Repr

/-! ### In memory -/

/-- Pages in slabs from a pool of `capacity` bytes; the last one is being filled.  The
    pool's usage is that of the slabs. -/
structure MemoryWorkspace where
  capacity : Nat
  blocks : List Block

namespace MemoryWorkspace

/-- The source asserts `capacity > 0`, which is a hypothesis where a result needs it. -/
def new (capacity : Nat) : MemoryWorkspace := ⟨capacity, []⟩

def used (ws : MemoryWorkspace) : Nat := ws.blocks.length * PAGE_SIZE

/-- Take a fresh slab; it goes back to the pool if the tuple does not fit. -/
def appendToNewPage (ws : MemoryWorkspace) (tuple : Bytes) :
    Except FsError WorkspaceLoc × MemoryWorkspace :=
  -- the pool's check; a cap of zero would mean none
  if ws.capacity ≠ 0 ∧ ws.used + PAGE_SIZE > ws.capacity then
    (.error (.workspaceFull PAGE_SIZE ws.used ws.capacity), ws)
  else
    match Heap.appendToNew tuple Block.zeroed with
    | (.error e, _) => (.error e, ws)
    | (.ok slot, page) =>
      (.ok ⟨ws.blocks.length, slot⟩, { ws with blocks := ws.blocks ++ [page] })

def append (ws : MemoryWorkspace) (tuple : Bytes) : Except FsError WorkspaceLoc × MemoryWorkspace :=
  match ws.blocks.getLast? with
  | none => ws.appendToNewPage tuple
  | some last =>
    match Heap.appendTo tuple last with
    | (.error e, _) => (.error e, ws)
    | (.ok (some slot), page) =>
      (.ok ⟨ws.blocks.length - 1, slot⟩, { ws with blocks := ws.blocks.dropLast ++ [page] })
    | (.ok none, _) => ws.appendToNewPage tuple

def tuples (ws : MemoryWorkspace) : List Bytes := ws.blocks.flatMap Heap.pageTuples

end MemoryWorkspace

/-! ### In a file -/

/-- A heap over a temporary file, and its pages in the order they were started. -/
structure FileWorkspace (frames : Nat) where
  heap : Heap DiskBlockStore (LruK (Fin frames)) frames
  pages : List Nat
  maxPages : Nat
  diskBudget : Nat

def PageCache.new {V : Type} (block : V) (frames : Nat) : Inner V (LruK (Fin frames)) frames :=
  Inner.build block (lruK2 frames) none

namespace FileWorkspace

def framesOf (memoryBudget : Nat) : Nat := max (memoryBudget / PAGE_SIZE) 1

/-- `FileWorkspace::new`, with its assertion, over a fresh temporary file. -/
def new (memoryBudget diskBudget : Nat) : Except Fault (FileWorkspace (framesOf memoryBudget)) :=
  if diskBudget / PAGE_SIZE = 0 then
    .error (.panicked "disk_budget must hold at least one page")
  else do
    let store ← (DiskBlockStore.open []).mapError .error
    return ⟨Heap.new (PageCache.new store _), [], diskBudget / PAGE_SIZE, diskBudget⟩

variable (crc : Crc32c) (hash : Bytes → UInt32) {frames : Nat}

def append (ws : FileWorkspace frames) (tuple : Bytes) :
    Except FsError WorkspaceLoc × FileWorkspace frames :=
  match ws.heap.insert crc hash tuple with
  | (.error e, heap) => (.error e, { ws with heap := heap })
  | (.ok loc, heap) =>
    if ws.pages.getLast? = some loc.pageId then
      (.ok ⟨loc.pageId, loc.slotId⟩, { ws with heap := heap })
    else if ws.maxPages ≤ ws.pages.length then
      -- the heap has made a page that the workspace does not know
      (.error (.workspaceFull PAGE_SIZE (ws.pages.length * PAGE_SIZE) ws.diskBudget),
        { ws with heap := heap })
    else
      (.ok ⟨loc.pageId, loc.slotId⟩, { ws with heap := heap, pages := ws.pages ++ [loc.pageId] })

def used (ws : FileWorkspace frames) : Nat := ws.pages.length * PAGE_SIZE

/-- The tuples of the given pages, one page pinned at a time; a page that cannot be read
    is passed over. -/
def readPages : List Nat → Heap DiskBlockStore (LruK (Fin frames)) frames →
    List Bytes × Heap DiskBlockStore (LruK (Fin frames)) frames
  | [], heap => ([], heap)
  | id :: ids, heap =>
    match heap.page crc hash id with
    | (.error _, heap) => readPages ids heap
    | (.ok ts, heap) =>
      let (rest, heap) := readPages ids heap
      (ts ++ rest, heap)

def tuples (ws : FileWorkspace frames) : List Bytes × FileWorkspace frames :=
  let (ts, heap) := readPages crc hash ws.pages ws.heap
  (ts, { ws with heap := heap })

end FileWorkspace

/-! ### How tuples are packed -/

def packTuple (pages : List (List Bytes)) (t : Bytes) : List (List Bytes) :=
  match pages.getLast? with
  | none => [[t]]
  | some last =>
    if t.length + SLOT_SIZE ≤ freeBytes last then pages.dropLast ++ [last ++ [t]] else pages
      ++ [[t]]

def packPages (ts : List Bytes) : List (List Bytes) := ts.foldl packTuple []

section Packing

variable {front pages other : List (List Bytes)} {last ts us : List Bytes} {t : Bytes}

theorem packTuple_of_room (h : t.length + SLOT_SIZE ≤ freeBytes last) :
    packTuple (front ++ [last]) t = front ++ [last ++ [t]] := by
  rw [packTuple, getLast?_concat, List.dropLast_concat]
  exact if_pos h

theorem packTuple_of_full (h : ¬ t.length + SLOT_SIZE ≤ freeBytes last) :
    packTuple (front ++ [last]) t = front ++ [last] ++ [[t]] := by
  rw [packTuple, getLast?_concat]
  exact if_neg h

theorem flatten_packTuple (pages : List (List Bytes)) (t : Bytes) :
    (packTuple pages t).flatten = pages.flatten ++ [t] := by
  rcases eq_nil_or_concat' pages with rfl | ⟨front, last, rfl⟩
  · rfl
  · by_cases hroom : t.length + SLOT_SIZE ≤ freeBytes last
    · rw [packTuple_of_room hroom]
      simp
    · rw [packTuple_of_full hroom]
      simp

theorem packPages_concat (ts : List Bytes) (t : Bytes) :
    packPages (ts ++ [t]) = packTuple (packPages ts) t := by
  rw [packPages, List.foldl_append]
  rfl

theorem flatten_packPages (ts : List Bytes) : (packPages ts).flatten = ts := by
  induction ts using List.reverseRecOn with
  | nil => rfl
  | append_singleton ts t ih => rw [packPages_concat, flatten_packTuple, ih]

theorem freeBytes_concat (ts : List Bytes) (t : Bytes) :
    freeBytes (ts ++ [t]) = freeBytes ts - (t.length + SLOT_SIZE) := by
  have hslots := slotPos_succ ts.length
  have hbytes : tupleBytes (ts ++ [t]) = tupleBytes ts + t.length := by simp [tupleBytes]
  rw [freeBytes, freeBytes, hbytes, length_append, List.length_singleton, hslots]
  omega

def freeLast (pages : List (List Bytes)) : Nat := (pages.getLast?.map freeBytes).getD 0

theorem freeLast_le (pages : List (List Bytes)) : freeLast pages ≤ freeBytes [] := by
  rcases eq_nil_or_concat' pages with rfl | ⟨front, last, rfl⟩
  · exact Nat.zero_le _
  · rw [freeLast, getLast?_concat]
    exact freeBytes_le last

theorem length_packTuple (pages : List (List Bytes)) (t : Bytes) :
    (packTuple pages t).length
      = if t.length + SLOT_SIZE ≤ freeLast pages then pages.length else pages.length + 1 := by
  rcases eq_nil_or_concat' pages with rfl | ⟨front, last, rfl⟩
  · rfl
  · rw [freeLast, getLast?_concat, Option.map_some, Option.getD_some]
    split_ifs with hroom
    · rw [packTuple_of_room hroom, length_append, length_append]
      rfl
    · rw [packTuple_of_full hroom, length_append]
      rfl

theorem freeLast_packTuple (pages : List (List Bytes)) (t : Bytes) :
    freeLast (packTuple pages t) = (if t.length + SLOT_SIZE ≤ freeLast pages then freeLast pages
      else freeBytes []) - (t.length + SLOT_SIZE) := by
  rcases eq_nil_or_concat' pages with rfl | ⟨front, last, rfl⟩
  · exact freeBytes_concat [] t
  · rw [freeLast, freeLast, getLast?_concat, Option.map_some, Option.getD_some]
    split_ifs with hroom
    · rw [packTuple_of_room hroom, getLast?_concat]
      exact freeBytes_concat last t
    · rw [packTuple_of_full hroom, getLast?_concat]
      exact freeBytes_concat [] t

/-- Fewer pages, or as many and no less room on the last. -/
def Leaner (pages other : List (List Bytes)) : Prop :=
  pages.length < other.length
    ∨ pages.length = other.length ∧ freeLast other ≤ freeLast pages

theorem Leaner.packTuple_both (h : Leaner pages other) (t : Bytes) :
    Leaner (packTuple pages t) (packTuple other t) := by
  have hmost := freeLast_le other
  rw [Leaner, length_packTuple, length_packTuple, freeLast_packTuple, freeLast_packTuple]
  unfold Leaner at h
  split_ifs <;> omega

theorem Leaner.packTuple_right (h : Leaner pages other) (t : Bytes) :
    Leaner pages (packTuple other t) := by
  rw [Leaner, length_packTuple, freeLast_packTuple]
  unfold Leaner at h
  split_ifs <;> omega

theorem length_packPages_le_length (ts : List Bytes) : (packPages ts).length ≤ ts.length := by
  induction ts using List.reverseRecOn with
  | nil => exact Nat.le_refl 0
  | append_singleton ts t ih =>
    rw [packPages_concat, length_packTuple, length_append, List.length_singleton]
    split_ifs <;> omega

theorem length_packPages_le (h : us.Sublist ts) :
    (packPages us).length ≤ (packPages ts).length := by
  have hlean : ∀ {pages other : List (List Bytes)}, Leaner pages other →
      Leaner (us.foldl packTuple pages) (ts.foldl packTuple other) := by
    induction h with
    | slnil => exact id
    | cons t _ ih => exact fun hp => ih (hp.packTuple_right t)
    | cons_cons t _ ih => exact fun hp => ih (hp.packTuple_both t)
  rcases hlean (Or.inr ⟨rfl, le_rfl⟩ : Leaner [] []) with hlt | ⟨heq, -⟩
  · exact hlt.le
  · exact heq.le

end Packing

/-! ### What a memory workspace stores -/

theorem forall₂_concat {α β : Type} {R : α → β → Prop} {xs : List α} {x : α} {ys : List β}
    (h : Forall₂ R (xs ++ [x]) ys) :
    ∃ ys' y, ys = ys' ++ [y] ∧ Forall₂ R xs ys' ∧ R x y := by
  induction xs generalizing ys with
  | nil =>
    obtain ⟨y, ys', hy, hnil, rfl⟩ := List.forall₂_cons_left_iff.mp h
    obtain rfl := List.forall₂_nil_left_iff.mp hnil
    exact ⟨[], y, rfl, .nil, hy⟩
  | cons a xs ih =>
    obtain ⟨b, rest, hab, hrest, rfl⟩ := List.forall₂_cons_left_iff.mp h
    obtain ⟨ys', y, rfl, hxs, hy⟩ := ih hrest
    exact ⟨b :: ys', y, rfl, .cons hab hxs, hy⟩

/-- Every block stores some tuples, and `ts` are all of them. -/
structure MemoryWorkspace.Stores (ws : MemoryWorkspace) (ts : List Bytes) : Prop where
  blocks : ∃ content, Forall₂ Holds ws.blocks content ∧ content.flatten = ts
  bounded : ws.capacity = 0 ∨ ws.used ≤ ws.capacity

namespace MemoryWorkspace

variable {ws : MemoryWorkspace} {ts : List Bytes} {t : Bytes}

theorem stores_new (capacity : Nat) : (new capacity).Stores [] :=
  ⟨⟨[], .nil, rfl⟩, Or.inr (by simp [used, new])⟩

/-- An append ends with the tuple stored, or with an error and nothing changed. -/
inductive Appended (ws : MemoryWorkspace) (ts : List Bytes) (t : Bytes) :
    Except FsError WorkspaceLoc × MemoryWorkspace → Prop
  | ok {loc : WorkspaceLoc} {ws' : MemoryWorkspace} (stores : ws'.Stores (ts ++ [t]))
      (fits : t.length ≤ maxTuple) (capacity : ws'.capacity = ws.capacity)
      (grows : ws'.blocks.length ≤ ws.blocks.length + 1) : Appended ws ts t (.ok loc, ws')
  | full (full : ws.capacity < ws.used + PAGE_SIZE) :
      Appended ws ts t (.error (.workspaceFull PAGE_SIZE ws.used ws.capacity), ws)
  | tooLarge (large : maxTuple < t.length) :
      Appended ws ts t (.error (.tupleTooLarge t.length maxTuple), ws)

theorem Stores.appendToNewPage (h : ws.Stores ts) : Appended ws ts t (ws.appendToNewPage t) := by
  unfold MemoryWorkspace.appendToNewPage
  split_ifs with hfull
  · exact .full hfull.2
  · rcases Nat.lt_or_ge maxTuple t.length with hlarge | hfits
    · rw [appendToNew_too_large _ hlarge]
      exact .tooLarge hlarge
    · obtain ⟨page, happend, hpage⟩ := holds_appendToNew Block.zeroed hfits
      obtain ⟨content, hblocks, rfl⟩ := h.blocks
      rw [happend]
      refine .ok ⟨⟨content ++ [[t]], ?_, by simp⟩, ?_⟩ hfits rfl (by simp)
      · exact rel_append hblocks (.cons hpage .nil)
      · rw [not_and, Nat.not_lt] at hfull
        rcases Nat.eq_zero_or_pos ws.capacity with hzero | hpos
        · exact Or.inl hzero
        · refine Or.inr (Nat.le_trans (Nat.le_of_eq ?_) (hfull (Nat.pos_iff_ne_zero.mp hpos)))
          simp only [used, length_append, List.length_singleton, Nat.succ_mul]

/-- **Appending**: the tuple is stored behind the others, or the workspace is as it was. -/
theorem Stores.append (h : ws.Stores ts) : Appended ws ts t (ws.append t) := by
  unfold MemoryWorkspace.append
  rcases eq_nil_or_concat' ws.blocks with hnil | ⟨front, last, hblocks⟩
  · rw [hnil, List.getLast?_nil]
    exact h.appendToNewPage
  · obtain ⟨content, hcontent, hflat⟩ := h.blocks
    rw [hblocks] at hcontent
    obtain ⟨contents, us, rfl, hfront, hlast⟩ := forall₂_concat hcontent
    rw [hblocks, getLast?_concat, List.dropLast_concat]
    by_cases hroom : t.length + SLOT_SIZE ≤ freeBytes us
    · obtain ⟨page, happend, hpage⟩ := hlast.appendTo hroom
      simp only [happend]
      refine .ok ⟨⟨contents ++ [us ++ [t]], rel_append hfront (.cons hpage .nil), ?_⟩, ?_⟩
        ?_ rfl ?_
      · rw [← hflat]
        simp
      · have hsame : ({ ws with blocks := front ++ [page] } : MemoryWorkspace).used = ws.used := by
          simp only [used, hblocks, length_append, List.length_singleton]
        rw [hsame]
        exact h.bounded
      · by_contra hlarge
        exact absurd (full_of_lt (Nat.lt_of_not_le hlarge)) (Nat.not_lt.mpr hroom)
      · simp [hblocks]
    · simp only [hlast.appendTo_full (Nat.lt_of_not_le hroom)]
      exact h.appendToNewPage

theorem appendToNewPage_packs {pages : List (List Bytes)} (h : Forall₂ Holds ws.blocks pages)
    (hfits : t.length ≤ maxTuple) (hroom : (pages.length + 1) * PAGE_SIZE ≤ ws.capacity) :
    ∃ loc ws', ws.appendToNewPage t = (.ok loc, ws') ∧ Forall₂ Holds ws'.blocks (pages ++ [[t]])
      ∧ ws'.capacity = ws.capacity := by
  have hcap : ¬ (ws.capacity ≠ 0 ∧ ws.used + PAGE_SIZE > ws.capacity) := by
    rw [used, h.length_eq, ← Nat.succ_mul]
    exact fun hfull => absurd hroom (Nat.not_le.mpr hfull.2)
  obtain ⟨page, happend, hpage⟩ := holds_appendToNew Block.zeroed hfits
  refine ⟨⟨ws.blocks.length, 0⟩, { ws with blocks := ws.blocks ++ [page] }, ?_,
    rel_append h (.cons hpage .nil), rfl⟩
  rw [appendToNewPage, if_neg hcap, happend]

theorem append_packs {pages : List (List Bytes)} (h : Forall₂ Holds ws.blocks pages)
    (hfits : t.length ≤ maxTuple) (hroom : (packTuple pages t).length * PAGE_SIZE ≤ ws.capacity) :
    ∃ loc ws', ws.append t = (.ok loc, ws') ∧ Forall₂ Holds ws'.blocks (packTuple pages t)
      ∧ ws'.capacity = ws.capacity := by
  rcases eq_nil_or_concat' ws.blocks with hnil | ⟨front, last, hblocks⟩
  · have hpages : pages = [] := List.forall₂_nil_left_iff.mp (hnil ▸ h)
    subst hpages
    rw [append, hnil]
    exact appendToNewPage_packs h hfits hroom
  · rw [hblocks] at h
    obtain ⟨contents, us, rfl, hfront, hlast⟩ := forall₂_concat h
    rw [append, hblocks, getLast?_concat, List.dropLast_concat]
    by_cases hspace : t.length + SLOT_SIZE ≤ freeBytes us
    · obtain ⟨page, happend, hpage⟩ := hlast.appendTo hspace
      rw [packTuple_of_room hspace]
      simp only [happend]
      exact ⟨_, _, rfl, rel_append hfront (.cons hpage .nil), rfl⟩
    · simp only [hlast.appendTo_full (Nat.lt_of_not_le hspace)]
      rw [packTuple_of_full hspace, length_append] at hroom
      rw [packTuple_of_full hspace]
      exact appendToNewPage_packs (hblocks ▸ h) hfits hroom

theorem tuples_of_holds {content : List (List Bytes)} (h : Forall₂ Holds ws.blocks content) :
    ws.tuples = content.flatten := by
  rw [MemoryWorkspace.tuples]
  generalize ws.blocks = blocks at h
  induction h with
  | nil => rfl
  | cons hpage _ ih =>
    rw [List.flatMap_cons, List.flatten_cons, ih, Heap.pageTuples, hpage.opens, hpage.tuples]

theorem Stores.tuples (h : ws.Stores ts) : ws.tuples = ts := by
  obtain ⟨content, hblocks, rfl⟩ := h.blocks
  exact tuples_of_holds hblocks

end MemoryWorkspace

/-! ### What a file workspace stores -/

section Pages

variable {content : Nat → Option (List Bytes)} {id : Nat} {t : Bytes}

theorem tuplesAt_appended_self :
    tuplesAt (appended content id t) id = tuplesAt content id ++ [t] := by
  rw [tuplesAt, appended, Function.update_self, Option.getD_some]

theorem flatMap_appended_of_notMem {ids : List Nat} (h : id ∉ ids) :
    ids.flatMap (tuplesAt (appended content id t)) = ids.flatMap (tuplesAt content) := by
  apply List.flatMap_congr
  intro j hj
  have hne : j ≠ id := fun heq => h (heq ▸ hj)
  rw [tuplesAt, appended, Function.update_of_ne hne, tuplesAt]

end Pages

namespace FileWorkspace

variable {crc : Crc32c} {hash : Bytes → UInt32} {frames : Nat}
variable {ws : FileWorkspace frames} {ts : List Bytes} {t : Bytes}

/-- The pages of the workspace store `ts`.  The heap is filling the last of them, or, once
    the bound was hit, a page that is not one of them. -/
structure Stores (crc : Crc32c) (ws : FileWorkspace frames) (ts : List Bytes) : Prop where
  content : ∃ content, HeapInv crc ws.heap [] content ∧ (∀ id ∈ ws.pages, content id ≠ none)
    ∧ ws.pages.flatMap (tuplesAt content) = ts
  nodup : ws.pages.Nodup
  filling : ws.heap.current = ws.pages.getLast?
    ∨ ws.maxPages ≤ ws.pages.length ∧ ∀ id, ws.heap.current = some id → id ∉ ws.pages

/-- An append ends with the tuple stored, or with an error and the same tuples. -/
inductive Appended (crc : Crc32c) (ws : FileWorkspace frames) (ts : List Bytes) (t : Bytes) :
    Except FsError WorkspaceLoc × FileWorkspace frames → Prop
  | ok {loc : WorkspaceLoc} {ws' : FileWorkspace frames} (stores : Stores crc ws' (ts ++ [t]))
      (fits : t.length ≤ maxTuple) (maxPages : ws'.maxPages = ws.maxPages)
      (grows : ws'.pages.length ≤ ws.pages.length + 1) : Appended crc ws ts t (.ok loc, ws')
  | full {ws' : FileWorkspace frames} (stores : Stores crc ws' ts)
      (full : ws.maxPages ≤ ws.pages.length) :
      Appended crc ws ts t
        (.error (.workspaceFull PAGE_SIZE (ws.pages.length * PAGE_SIZE) ws.diskBudget), ws')
  | tooLarge {ws' : FileWorkspace frames} (stores : Stores crc ws' ts)
    (large : maxTuple < t.length) :
      Appended crc ws ts t (.error (.tupleTooLarge t.length maxTuple), ws')

/-- **Appending**: the tuple is stored behind the others, or the tuples are as they were. -/
theorem Stores.append (hash : Bytes → UInt32) (h : Stores crc ws ts) (hframes : 0 < frames)
    (hzero : ¬ Verifies crc Block.zeroed) : Appended crc ws ts t (ws.append crc hash t) := by
  obtain ⟨content, hheap, hpages, hts⟩ := h.content
  have hidle := idle_nil hframes
  unfold FileWorkspace.append
  rcases Nat.lt_or_ge maxTuple t.length with hlarge | hfits
  · obtain ⟨heap, hrun, hcurrent, hheap'⟩ :=
      hheap.insert_too_large hash hidle (by simp) hzero hlarge
    rw [hrun]
    refine .tooLarge ⟨⟨content, hheap', hpages, hts⟩, h.nodup, ?_⟩ hlarge
    rw [hcurrent]
    exact h.filling
  · obtain ⟨loc, heap, hrun, hinserted⟩ := hheap.insert hash hidle (by simp) hzero hfits
    rw [hrun]
    have hknown : ∀ id ∈ ws.pages, appended content loc.pageId t id ≠ none := by
      intro id hid
      rw [appended, Function.update_apply]
      split_ifs with heq
      · exact Option.some_ne_none _
      · exact hpages id hid
    by_cases hlast : ws.pages.getLast? = some loc.pageId
    · -- the page being filled is the last one
      simp only [hlast, if_true]
      obtain ⟨front, hfront⟩ := List.getLast?_eq_some_iff.mp hlast
      have hnotMem : loc.pageId ∉ front := by
        have hnodup := h.nodup
        rw [hfront, ← List.concat_eq_append, nodup_concat] at hnodup
        exact hnodup.1
      refine .ok ⟨⟨_, hinserted.inv, hknown, ?_⟩, h.nodup,
        Or.inl (hinserted.current.trans hlast.symm)⟩
        hfits rfl (Nat.le_succ _)
      rw [← hts, hfront, List.flatMap_append, List.flatMap_append,
        flatMap_appended_of_notMem hnotMem, List.append_assoc]
      simp [tuplesAt_appended_self]
    · have hnotMem : loc.pageId ∉ ws.pages := by
        intro hmem
        rcases hinserted.page with hcurrent | hnone
        · rcases h.filling with hfilling | ⟨-, hstray⟩
          · exact hlast (hfilling.symm.trans hcurrent)
          · exact hstray _ hcurrent hmem
        · exact hpages _ hmem hnone
      have hsame : ws.pages.flatMap (tuplesAt (appended content loc.pageId t)) = ts := by
        rw [flatMap_appended_of_notMem hnotMem, hts]
      simp only [hlast, if_false]
      split_ifs with hfull
      · refine .full ⟨⟨_, hinserted.inv, hknown, hsame⟩, h.nodup, Or.inr ⟨hfull, ?_⟩⟩ hfull
        intro id hid
        rwa [← Option.some.inj (hinserted.current.symm.trans hid)]
      · -- the heap has started a page, which nothing was on
        have hnone : content loc.pageId = none := by
          rcases hinserted.page with hcurrent | hnone
          · rcases h.filling with hfilling | ⟨hbound, -⟩
            · exact absurd (hfilling.symm.trans hcurrent) hlast
            · exact absurd hbound hfull
          · exact hnone
        refine .ok ⟨⟨_, hinserted.inv, ?_, ?_⟩, ?_, Or.inl ?_⟩ hfits rfl (by simp)
        · intro id hid
          rcases List.mem_append.mp hid with hid | hid
          · exact hknown id hid
          · rw [List.mem_singleton.mp hid, appended, Function.update_self]
            exact Option.some_ne_none _
        · rw [List.flatMap_append, hsame, List.flatMap_singleton, tuplesAt_appended_self, tuplesAt,
            hnone]
          rfl
        · rw [← List.concat_eq_append]
          exact h.nodup.concat hnotMem
        · rw [getLast?_concat]
          exact hinserted.current

theorem readPages_eq (hash : Bytes → UInt32) (hframes : 0 < frames)
    {content : Nat → Option (List Bytes)} {ids : List Nat}
    {heap : Heap DiskBlockStore (LruK (Fin frames)) frames} (hheap : HeapInv crc heap [] content)
    (hids : ∀ id ∈ ids, content id ≠ none) :
    ∃ heap', readPages crc hash ids heap = (ids.flatMap (tuplesAt content), heap')
      ∧ heap'.current = heap.current ∧ HeapInv crc heap' [] content := by
  induction ids generalizing heap with
  | nil => exact ⟨heap, rfl, rfl, hheap⟩
  | cons id ids ih =>
    obtain ⟨ts, hts⟩ := Option.ne_none_iff_exists'.mp (hids id List.mem_cons_self)
    obtain ⟨heap₁, hrun, hcurrent, hheap₁⟩ := hheap.page hash (idle_nil hframes) hts
    obtain ⟨heap₂, hrest, hcurrent₂, hheap₂⟩ :=
      ih hheap₁ fun j hj => hids j (List.mem_cons_of_mem _ hj)
    refine ⟨heap₂, ?_, hcurrent₂.trans hcurrent, hheap₂⟩
    rw [readPages, hrun]
    simp only [hrest, List.flatMap_cons]
    rw [tuplesAt, hts, Option.getD_some]

/-- **The tuples come back in order**, as often as they are asked for. -/
theorem Stores.tuples (hash : Bytes → UInt32) (h : Stores crc ws ts) (hframes : 0 < frames) :
    ∃ ws', ws.tuples crc hash = (ts, ws') ∧ Stores crc ws' ts := by
  obtain ⟨content, hheap, hpages, hts⟩ := h.content
  obtain ⟨heap, hrun, hcurrent, hheap'⟩ := readPages_eq hash hframes hheap hpages
  refine ⟨{ ws with heap := heap }, ?_, ⟨content, hheap', hpages, hts⟩, h.nodup, ?_⟩
  · rw [FileWorkspace.tuples, hrun, hts]
  · rw [hcurrent]
    exact h.filling

/-- The pages of the workspace, as the tuples of each. -/
structure Packs (crc : Crc32c) (ws : FileWorkspace frames) (pages : List (List Bytes)) : Prop where
  content : ∃ content, HeapInv crc ws.heap [] content ∧ ws.pages.map content = pages.map some
  nodup : ws.pages.Nodup
  filling : ws.heap.current = ws.pages.getLast?

theorem ne_none_of_map_eq {content : Nat → Option (List Bytes)} {ids : List Nat}
    {pages : List (List Bytes)} (h : ids.map content = pages.map some) :
    ∀ id ∈ ids, content id ≠ none := by
  intro id hid hnone
  have hmem : content id ∈ pages.map some := h ▸ List.mem_map_of_mem hid
  rw [hnone] at hmem
  simp at hmem

theorem Packs.length_eq {pages : List (List Bytes)} (h : Packs crc ws pages) :
    ws.pages.length = pages.length := by
  obtain ⟨content, -, hmap⟩ := h.content
  rw [← List.length_map (f := content), hmap, List.length_map]

theorem Packs.stores {pages : List (List Bytes)} (h : Packs crc ws pages) :
    Stores crc ws pages.flatten := by
  obtain ⟨content, hheap, hmap⟩ := h.content
  refine ⟨⟨content, hheap, ne_none_of_map_eq hmap, ?_⟩, h.nodup, Or.inl h.filling⟩
  have htuples : (ws.pages.map content).map (Option.getD · []) = pages := by
    rw [hmap, List.map_map]
    exact List.map_id pages
  rw [List.map_map] at htuples
  rw [List.flatMap_def, ← htuples]
  rfl

/-- **While there is room for the pages**, they are packed with the tuples. -/
theorem Packs.append (hash : Bytes → UInt32) {pages : List (List Bytes)} (h : Packs crc ws pages)
    (hframes : 0 < frames) (hzero : ¬ Verifies crc Block.zeroed) (hfits : t.length ≤ maxTuple)
    (hroom : (packTuple pages t).length ≤ ws.maxPages) :
    ∃ loc ws', ws.append crc hash t = (.ok loc, ws') ∧ Packs crc ws' (packTuple pages t)
      ∧ ws'.maxPages = ws.maxPages := by
  obtain ⟨content, hheap, hmap⟩ := h.content
  have hlength := h.length_eq
  obtain ⟨loc, heap, hrun, hinserted, hplace⟩ :=
    hheap.insert_at hash (idle_nil hframes) (by simp) hzero hfits
  -- pages that do not get the tuple are as they were
  have hsame : ∀ {ids : List Nat}, loc.pageId ∉ ids →
      ids.map (appended content loc.pageId t) = ids.map content := by
    intro ids hids
    apply List.map_congr_left
    intro id hid
    have hne : id ≠ loc.pageId := fun heq => hids (heq ▸ hid)
    rw [appended, Function.update_of_ne hne]
  have hknown := ne_none_of_map_eq hmap
  have hnew : loc.pageId ∉ ws.pages → ¬ ws.maxPages ≤ ws.pages.length →
      ∃ loc ws', ws.append crc hash t = (.ok loc, ws') ∧ Packs crc ws' (pages ++ [[t]])
        ∧ ws'.maxPages = ws.maxPages := by
    intro hnotMem hbound
    have hlast : ws.pages.getLast? ≠ some loc.pageId :=
      fun heq => hnotMem (List.mem_of_getLast? heq)
    have hunused : tuplesAt content loc.pageId = [] := by
      rcases hinserted.page with hcurrent | hnone
      · exact absurd (h.filling.symm.trans hcurrent) hlast
      · rw [tuplesAt, hnone, Option.getD_none]
    have happend : ws.append crc hash t = (.ok ⟨loc.pageId, loc.slotId⟩,
        { ws with heap := heap, pages := ws.pages ++ [loc.pageId] }) := by
      rw [FileWorkspace.append, hrun]
      simp only [if_neg hlast, if_neg hbound]
    refine ⟨_, _, happend, ⟨⟨_, hinserted.inv, ?_⟩, ?_, ?_⟩, rfl⟩
    · rw [map_append, hsame hnotMem, hmap, map_append, map_singleton, appended,
        Function.update_self, hunused]
      rfl
    · rw [← List.concat_eq_append]
      exact h.nodup.concat hnotMem
    · rw [getLast?_concat]
      exact hinserted.current
  rcases eq_nil_or_concat' ws.pages with hnil | ⟨ids, id, hids⟩
  · -- the first page
    have hpages : pages = [] := List.eq_nil_of_length_eq_zero (by rw [← hlength, hnil]; rfl)
    subst hpages
    have hone : 1 ≤ ws.maxPages := hroom
    exact hnew (by rw [hnil]; exact List.not_mem_nil) (by rw [hnil]; exact Nat.not_le.mpr hone)
  · have hcurrent : ws.heap.current = some id := by rw [h.filling, hids, getLast?_concat]
    rw [hids, map_append, map_singleton] at hmap
    rcases eq_nil_or_concat' pages with rfl | ⟨front, last, rfl⟩
    · simp at hmap
    · rw [map_append, map_singleton] at hmap
      obtain ⟨hfront, hlast⟩ := List.append_inj' hmap rfl
      have hlast : content id = some last := List.singleton_inj.mp hlast
      have hiff := hplace id last hcurrent hlast
      by_cases hspace : t.length + SLOT_SIZE ≤ freeBytes last
      · -- the page being filled takes it
        have hid := hiff.mpr hspace
        have hends : ws.pages.getLast? = some loc.pageId := by rw [hids, getLast?_concat, hid]
        have hnotMem : loc.pageId ∉ ids := by
          have hnodup := h.nodup
          rw [hids, ← List.concat_eq_append, nodup_concat] at hnodup
          exact hid ▸ hnodup.1
        rw [packTuple_of_room hspace]
        have happend :
            ws.append crc hash t = (.ok ⟨loc.pageId, loc.slotId⟩, { ws with heap := heap }) := by
          rw [FileWorkspace.append, hrun]
          simp only [if_pos hends]
        refine ⟨_, _, happend,
          ⟨⟨_, hinserted.inv, ?_⟩, h.nodup, hinserted.current.trans hends.symm⟩, rfl⟩
        show ws.pages.map _ = _
        rw [hids, map_append, hsame hnotMem, hfront, map_append, map_singleton, map_singleton,
          ← hid, appended, Function.update_self, tuplesAt, hid, hlast]
        rfl
      · rw [packTuple_of_full hspace] at hroom ⊢
        have hne : loc.pageId ≠ id := fun heq => hspace (hiff.mp heq)
        refine hnew (fun hmem => ?_) ?_
        · rcases hinserted.page with hcur | hnone
          · exact hne (Option.some.inj (hcur.symm.trans hcurrent))
          · exact hknown _ hmem hnone
        · rw [hlength]
          rw [length_append] at hroom
          exact Nat.not_le.mpr hroom

theorem framesOf_pos (memoryBudget : Nat) : 0 < framesOf memoryBudget := Nat.le_max_right _ _

theorem page_le_of_new {memoryBudget diskBudget : Nat} {ws : FileWorkspace (framesOf memoryBudget)}
    (hnew : new memoryBudget diskBudget = .ok ws) : PAGE_SIZE ≤ diskBudget := by
  by_contra hsmall
  rw [new, if_pos (Nat.div_eq_of_lt (Nat.lt_of_not_le hsmall))] at hnew
  cases hnew

theorem packs_new (crc : Crc32c) (memoryBudget : Nat) {diskBudget : Nat}
    (hdisk : PAGE_SIZE ≤ diskBudget) :
    ∃ ws, new memoryBudget diskBudget = .ok ws ∧ Packs crc ws []
      ∧ ws.maxPages = diskBudget / PAGE_SIZE := by
  let file := DiskBlockStore.mk
    (writeAllAt (setLen [] 1) 0 (DiskBlockStore.superblock 1 [])) 1 1 []
  have hopen : DiskBlockStore.open [] = .ok file := rfl
  have hlength : file.file.length = 1 := rfl
  have hvalid : LawfulBlockStore.Valid file :=
    (⟨rfl, by decide, by rw [hlength]; decide, by rw [hlength], by rw [hlength]; decide⟩ :
      DiskBlockStore.Valid file)
  have hpages : ∀ id b, stored crc file id = some b → id ≠ 0 → id < blockCount file := by
    intro id b hb hid
    have hlt := (List.getElem?_eq_some_iff.mp (readExactAt_eq_ok.mp (stored_eq_some.mp hb).1)).1
    rw [hlength] at hlt
    omega
  refine ⟨⟨Heap.new (PageCache.new file _), [], diskBudget / PAGE_SIZE, diskBudget⟩, ?_,
    ⟨⟨_, heapInv_new (Inner.inv_build hvalid hpages ?_), rfl⟩, List.nodup_nil, rfl⟩, rfl⟩
  · rw [new, if_neg (Nat.div_pos hdisk (by decide)).ne', hopen]
    rfl
  · intro f hf
    exact absurd hf (AList.notMem_empty f)

theorem stores_new (crc : Crc32c) (memoryBudget : Nat) {diskBudget : Nat}
    (hdisk : PAGE_SIZE ≤ diskBudget) :
    ∃ ws, new memoryBudget diskBudget = .ok ws ∧ Stores crc ws [] ∧ ws.pages = []
      ∧ ws.maxPages = diskBudget / PAGE_SIZE := by
  obtain ⟨ws, hnew, hpacks, hmax⟩ := packs_new crc memoryBudget hdisk
  exact ⟨ws, hnew, hpacks.stores, List.eq_nil_of_length_eq_zero hpacks.length_eq, hmax⟩

end FileWorkspace

end StrataDb.Filesystem
