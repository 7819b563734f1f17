import StrataDb.PageCacheRefinement
import StrataDb.Workspace

/-!
# Pages that a failed insertion leaves behind (`tuple/heap.rs`, `cache/mod.rs`, `workspace.rs`)

A heap asks for an id before it asks for a frame, and learns only then whether the tuple fits a
page; an id is not returned when either fails. A workspace checks its ceiling after the heap has
inserted, so every append that fails may leave a page in the file.
-/

namespace StrataDb.Filesystem

open ByteCodec BlockStore LawfulBlockStore LawfulPolicy
open Runs (Run)
open Crc (crc32)
open List (length_append length_singleton mem_cons_self replicate)

/-! ### A failed insertion -/

def allocatedIds {V : Type} [BlockStore V] (v : V) : Set Nat := {id | 0 < id ∧ id < blockCount v}

theorem allocatedIds_eq_iff {V : Type} [BlockStore V] {v v' : V} (h : 0 < blockCount v)
    (h' : 0 < blockCount v') : allocatedIds v = allocatedIds v' ↔ blockCount v = blockCount v' := by
  constructor
  · intro heq
    have hmem (id : Nat) : (0 < id ∧ id < blockCount v) ↔ (0 < id ∧ id < blockCount v') :=
      Set.ext_iff.mp heq id
    have hleft := hmem (blockCount v)
    have hright := hmem (blockCount v')
    omega
  · intro heq
    rw [allocatedIds, allocatedIds, heq]

/-- The page cannot be written: it has a handle, there is no frame for it, or it is no
    tuple page. -/
def Blocked {n : Nat} (hs : List (Handle n)) (id : Nat) (b : Block) : Prop :=
  (∃ k ∈ hs, k.pageId = id) ∨ (∀ f, ∃ k ∈ hs, k.frame = f) ∨ TuplePage.open b ≠ .ok ()

def Heap.Stuck {V P : Type} {n : Nat} (h : Heap V P n) (hs : List (Handle n))
    (pages : Nat → Option Block) : Prop :=
  ∃ id b, h.current = some id ∧ pages id = some b ∧ Blocked hs id b

section Insert

variable {V P : Type} {n : Nat} [BlockStore V] [LawfulBlockStore V]
variable [EvictionPolicy P (Fin n)] [LawfulPolicy P] {crc : Crc32c} (hash : Bytes → UInt32)
variable {c : Inner V P n} {hs : List (Handle n)} {pages : Nat → Option Block} {f : Fin n}
  {id : Nat} {b : Block}

theorem Inner.Inv.alone (h : Inner.Inv crc none c (⟨true, f, id⟩ :: hs) pages) {k : Handle n}
    (hk : k ∈ hs) : k.frame ≠ f ∧ k.pageId ≠ id := by
  have hwriter : (c.frames f).writer = true := h.pins.writer_iff.mpr ⟨_, mem_cons_self, rfl, rfl⟩
  have hframe : k.frame ≠ f := by
    intro hf
    cases hwrite : k.write with
    | false =>
      have hreaders := h.pins.readers_pos_iff.mpr ⟨k, List.mem_cons_of_mem _ hk, hf, hwrite⟩
      rw [h.pins.exclusive f hwriter] at hreaders
      exact hreaders.false
    | true =>
      have hcount := h.pins.writer f
      have hmore := Inner.writersOf_pos.mpr ⟨k, hk, hf, hwrite⟩
      rw [Inner.writersOf_cons, if_pos ⟨rfl, rfl⟩, if_pos hwriter] at hcount
      omega
  refine ⟨hframe, fun hid => hframe ?_⟩
  have hown := (h.placed.table id f).mpr (h.pins.handle _ mem_cons_self)
  have hother := (h.placed.table id k.frame).mpr (hid ▸ h.pins.handle k (List.mem_cons_of_mem _ hk))
  exact Option.some.inj (hother.symm.trans hown)

/-- **Appending to the page being filled** fails exactly if the page cannot be written, and
    takes no id. -/
theorem Inner.Inv.tryAppend (h : Inner.Inv crc none c hs pages) (hpage : pages id = some b)
    (t : Bytes) :
    (∃ e c', c.withWrite crc hash id (Heap.appendTo t) = (.error e, c') ∧ Blocked hs id b ∧
        blockCount c'.block = blockCount c.block) ∨
      ∃ slot c' pages', c.withWrite crc hash id (Heap.appendTo t) = (.ok slot, c')
        ∧ ¬ Blocked hs id b ∧
        blockCount c'.block = blockCount c.block ∧ Inner.Inv crc none c' hs pages' := by
  have hacquired : Inner.Acquired crc c hs pages true id (c.acquireWrite crc hash id) :=
    h.acquireWrite (h.contents.live id b hpage).1
  rw [Inner.withWrite]
  generalize c.acquireWrite crc hash id = r at hacquired
  cases hacquired with
  | @ok f c₁ inv calm =>
    have hopen : TuplePage.open (c₁.frames f).buf = TuplePage.open b :=
      open_congr fun hoff => (inv.shows hpage).get (Or.inl hoff)
    have hedit := (inv.edit mem_cons_self rfl (Heap.appendTo t (c₁.frames f).buf).2).releaseWrite
    cases hresult : TuplePage.open b with
    | error e =>
      refine Or.inl ⟨e, _, Prod.ext ?_ rfl, Or.inr (Or.inr (by simp [hresult])), calm.blockCount⟩
      simp only [Heap.appendTo, hopen, hresult]
    | ok =>
      have hslot : ∃ slot, (Heap.appendTo t (c₁.frames f).buf).1 = .ok slot := by
        simp only [Heap.appendTo, hopen, hresult]
        split <;> exact ⟨_, rfl⟩
      obtain ⟨slot, hslot⟩ := hslot
      refine Or.inr ⟨slot, _, _, Prod.ext hslot rfl, ?_, calm.blockCount, hedit⟩
      -- a page that could be acquired for writing has no other handle
      rintro (⟨k, hk, hid⟩ | hpinned | hclosed)
      · exact (inv.alone hk).2 hid
      · obtain ⟨k, hk, hf⟩ := hpinned f
        exact (inv.alone hk).1 hf
      · exact hclosed hresult
  | busy mem page conflict => exact Or.inl ⟨_, _, rfl, Or.inl ⟨_, mem, page⟩, rfl⟩
  | exhausted inv calm pinned => exact Or.inl ⟨_, _, rfl, Or.inr (Or.inl pinned), calm.blockCount⟩
  | absent inv calm page =>
    rw [hpage] at page
    cases page

variable {h : Heap V P n}

/-- **A new page takes an id**, whether or not the tuple ends up on it. -/
theorem Heap.appendToNewPage_issues (hinv : Inner.Inv crc none h.cache hs pages)
    (hzero : ¬ Verifies crc Block.zeroed) {t : Bytes} {r : Except FsError TupleLoc}
    {h' : Heap V P n} (hrun : h.appendToNewPage crc hash t = (r, h')) :
    blockCount h'.cache.block = blockCount h.cache.block + 1 ∧
      ∀ loc, r = .ok loc → loc.pageId = blockCount h.cache.block := by
  obtain ⟨v, halloc, -, hcount, -⟩ := allocate_spec hinv.contents.valid
  have hallocated := hinv.allocate hash hzero
  rw [Heap.appendToNewPage, Inner.withNew] at hrun
  generalize h.cache.allocate crc hash = r₁ at hallocated hrun
  cases hallocated with
  | ok issued calm new inv =>
    obtain ⟨rfl, rfl⟩ := Prod.mk.inj (Except.ok.inj (halloc.symm.trans issued))
    have hnext := calm.blockCount.trans hcount
    simp only at hrun
    split at hrun <;> rename_i hnew <;> obtain ⟨hresult, rfl⟩ := Prod.mk.inj hnew <;>
      obtain ⟨rfl, rfl⟩ := Prod.mk.inj hrun
    · exact ⟨hnext, fun loc hloc => by cases hloc⟩
    · refine ⟨hnext, fun loc hloc => ?_⟩
      obtain rfl := Except.ok.inj hloc
      obtain ⟨slot, -, hid⟩ := Runs.map_eq_ok.mp hresult
      exact (Prod.mk.inj hid).1.symm
  | exhausted issued calm inv pinned =>
    obtain ⟨-, rfl⟩ := Prod.mk.inj (Except.ok.inj (halloc.symm.trans issued))
    obtain ⟨rfl, rfl⟩ := Prod.mk.inj hrun
    exact ⟨calm.blockCount.trans hcount, fun loc hloc => by cases hloc⟩

/-- **An insertion takes an id exactly if it gets past the page being filled.** -/
theorem Heap.blockCount_insert (hinv : Inner.Inv crc none h.cache hs pages)
    (hzero : ¬ Verifies crc Block.zeroed)
    (hcurrent : ∀ id, h.current = some id → ∃ b, pages id = some b) {t : Bytes}
    {r : Except FsError TupleLoc} {h' : Heap V P n} (hrun : h.insert crc hash t = (r, h')) :
    (blockCount h'.cache.block = blockCount h.cache.block
      ∧ (∀ loc, r = .ok loc → h.current = some loc.pageId) ∧
        ∀ e, r = .error e → h.Stuck hs pages) ∨
      (blockCount h'.cache.block = blockCount h.cache.block + 1 ∧
        (∀ loc, r = .ok loc → loc.pageId = blockCount h.cache.block ∧ h.current ≠ some loc.pageId) ∧
        ¬ h.Stuck hs pages) := by
  rw [Heap.insert] at hrun
  cases hid : h.current with
  | none =>
    simp only [hid] at hrun
    obtain ⟨hnext, hissued⟩ := Heap.appendToNewPage_issues hash hinv hzero hrun
    refine Or.inr ⟨hnext, fun loc hloc => ⟨hissued loc hloc, (Option.some_ne_none _).symm⟩, ?_⟩
    rintro ⟨id, b, hsome, -⟩
    rw [hid] at hsome
    cases hsome
  | some id =>
    simp only [hid] at hrun
    obtain ⟨b, hb⟩ := hcurrent id hid
    have hlive := (hinv.contents.live id b hb).2
    rcases hinv.tryAppend hash hb t with ⟨e', c', htry, hblocked, hcount⟩ | ⟨slot, c', pages', htry,
      hfree, hcount, hinv'⟩
    · simp only [htry] at hrun
      obtain ⟨rfl, rfl⟩ := Prod.mk.inj hrun
      exact Or.inl ⟨hcount, fun loc hloc => (by cases hloc), fun _ _ => ⟨id, b, hid, hb, hblocked⟩⟩
    · simp only [htry] at hrun
      cases slot with
      | some slot =>
        obtain ⟨rfl, rfl⟩ := Prod.mk.inj hrun
        refine Or.inl ⟨hcount, fun loc hloc => ?_, fun e he => by cases he⟩
        rw [← Except.ok.inj hloc]
      | none =>
        -- the page is full, so that a new one is allocated
        simp only at hrun
        obtain ⟨hnext, hissued⟩ := Heap.appendToNewPage_issues hash hinv' hzero hrun
        refine Or.inr ⟨hnext.trans (congrArg (· + 1) hcount), fun loc hloc => ?_, ?_⟩
        · have hnew : loc.pageId = blockCount h.cache.block := (hissued loc hloc).trans hcount
          refine ⟨hnew, fun heq => hlive.ne ?_⟩
          rw [Option.some.inj heq, hnew]
        · rintro ⟨id', b', hid', hb', hblocked⟩
          obtain rfl := Option.some.inj (hid.symm.trans hid')
          obtain rfl := Option.some.inj (hb.symm.trans hb')
          exact hfree hblocked

end Insert

/-- **A failed insertion leaves the allocated ids alone exactly if it fails at the page
    being filled.**  In every state that calls on the cache lead to, and with any known
    page being filled: an insertion that returns an error has allocated nothing if and only
    if the heap has a page being filled that cannot be written. -/
theorem failed_insert_allocates {V P : Type} {n : Nat} [BlockStore V] [LawfulBlockStore V]
    [EvictionPolicy P (Fin n)] [LawfulPolicy P] {crc : Crc32c} {hash : Bytes → UInt32}
    (hzero : ¬ Verifies crc Block.zeroed) {store : V} (hvalid : Valid store)
    (hpages : ∀ id b, stored crc store id = some b → id ≠ 0 → id < blockCount store) {policy : P}
    (hpolicy : ∀ f, ¬ Tracked policy f) {journal : Option Journal}
    {events : List (Call n × Answer n)} {s : System V P n}
    (hrun : Run (System.Step crc hash) ⟨Inner.build store policy journal, []⟩ events s)
    {current : Option Nat}
    (hcurrent : ∀ id, current = some id → ∃ b, pagesAfter (storePages crc store) events id = some b)
    {t : Bytes} {e : FsError} {h' : Heap V P n}
    (hfail : Heap.insert crc hash ⟨s.cache, current⟩ t = (.error e, h')) :
    allocatedIds h'.cache.block = allocatedIds s.cache.block ↔
      Heap.Stuck ⟨s.cache, current⟩ s.handles (pagesAfter (storePages crc store) events) := by
  have hinv := System.inv_run hzero hvalid hpages hpolicy hrun
  have hpos := blockCount_pos hinv.contents.valid
  rcases Heap.blockCount_insert hash (h := ⟨s.cache, current⟩) hinv hzero hcurrent hfail with
    ⟨hcount, -, hstuck⟩ | ⟨hcount, -, hfree⟩
  · exact iff_of_true ((allocatedIds_eq_iff (hcount ▸ hpos) hpos).mpr hcount) (hstuck e rfl)
  · refine iff_of_false (fun heq => ?_) hfree
    rw [allocatedIds_eq_iff (hcount ▸ Nat.succ_pos _) hpos, hcount] at heq
    exact Nat.succ_ne_self _ heq

/-- The page being filled has a handle. -/
theorem failed_insert_allocates_busy :
    ∃ (s : System MemBlockStore (Lru (Fin 1)) 1) (h' : Heap MemBlockStore (Lru (Fin 1)) 1),
      s.handles = [⟨true, 0, 1⟩] ∧
      Heap.insert castagnoli crc32 ⟨s.cache, some 1⟩ [] = (.error (.busy 1), h') ∧
      allocatedIds h'.cache.block = allocatedIds s.cache.block := by
  let start : System MemBlockStore (Lru (Fin 1)) 1 := ⟨Inner.build MemBlockStore.new {} none, []⟩
  let s := (start.call castagnoli crc32 .allocate).2
  have hrun :
      Run (System.Step castagnoli crc32) start ([] ++ [(.allocate, .ok (some ⟨true, 0, 1⟩))]) s :=
    .snoc .nil ⟨trivial, rfl⟩
  have hbusy : Heap.insert castagnoli crc32 ⟨s.cache, some 1⟩ []
    = (.error (.busy 1), ⟨s.cache, some 1⟩) := rfl
  have hvalid : Valid MemBlockStore.new := ⟨rfl, rfl, Nat.one_pos⟩
  refine ⟨s, _, rfl, hbusy,
    (failed_insert_allocates not_verifies_castagnoli_zeroed hvalid stored_memBlockStore_new
    (fun f => AList.notMem_empty f) hrun ?_ hbusy).mpr ?_⟩
  · intro id hid
    obtain rfl := Option.some.inj hid
    exact ⟨Block.zeroed, rfl⟩
  · exact ⟨1, Block.zeroed, rfl, rfl, Or.inl ⟨_, mem_cons_self, rfl⟩⟩

/-- A tuple that no page can hold. -/
theorem failed_insert_leaks :
    ∃ h' : Heap MemBlockStore (Lru (Fin 1)) 1,
      Heap.insert castagnoli crc32 (.new (.build MemBlockStore.new {} none)) (replicate PAGE_SIZE 0)
        = (.error (.tupleTooLarge PAGE_SIZE maxTuple), h') ∧
      1 ∉ allocatedIds MemBlockStore.new ∧ 1 ∈ allocatedIds h'.cache.block := by
  have hvalid : Valid MemBlockStore.new := ⟨rfl, rfl, Nat.one_pos⟩
  have hinv :=
    @Inner.inv_build _ (Lru (Fin 1)) 1 castagnoli _ _ _ _ _ {} none hvalid stored_memBlockStore_new
    (fun f => AList.notMem_empty f)
  have hlarge : maxTuple < (replicate PAGE_SIZE (0 : UInt8)).length := by
    rw [List.length_replicate]
    decide
  obtain ⟨h', hrun, -⟩ := (heapInv_new hinv).insert_too_large crc32 (idle_nil Nat.one_pos) nofun
    not_verifies_castagnoli_zeroed hlarge
  rw [List.length_replicate] at hrun
  refine ⟨h', hrun, fun hmem => hmem.2.false, Nat.one_pos, ?_⟩
  rcases Heap.blockCount_insert crc32 (h := Heap.new _) hinv not_verifies_castagnoli_zeroed nofun
    hrun with
    ⟨-, -, hstuck⟩ | ⟨hcount, -⟩
  · obtain ⟨id, b, hid, -⟩ := hstuck _ rfl
    cases hid
  · exact Nat.one_lt_two.trans_eq hcount.symm

/-! ### The ceiling of a workspace -/

/-- Only the page being filled matters for where the next tuple goes: it is the last one of
    the tuples packed. -/
structure Heap.Fills {V P : Type} {n : Nat} [BlockStore V] [LawfulBlockStore V]
    [EvictionPolicy P (Fin n)]
    [LawfulPolicy P] (crc : Crc32c) (h : Heap V P n) (pages : List (List Bytes)) : Prop where
  content : ∃ content, HeapInv crc h [] content ∧ h.current.map content = pages.getLast?.map some

section Ceiling

variable {V P : Type} {n : Nat} [BlockStore V] [LawfulBlockStore V]
variable [EvictionPolicy P (Fin n)] [LawfulPolicy P] {crc : Crc32c} (hash : Bytes → UInt32)
variable {h : Heap V P n} {pages : List (List Bytes)} {t : Bytes}

theorem HeapInv.filling {hs : List (Handle n)} {content : Nat → Option (List Bytes)}
    (hheap : HeapInv crc h hs content) :
    ∃ blocks, Inner.Inv crc none h.cache hs blocks ∧
      ∀ id, h.current = some id → ∃ b, blocks id = some b ∧ TuplePage.open b = .ok () := by
  obtain ⟨blocks, hinv, hholds⟩ := hheap.pages
  refine ⟨blocks, hinv, fun id hid => ?_⟩
  obtain ⟨ts, hts⟩ := hheap.current id hid
  obtain ⟨b, hb, hstored⟩ := hholds id ts hts
  exact ⟨b, hb, hstored.opens⟩

theorem Heap.Fills.insert (hfills : h.Fills crc pages) (hframes : 0 < n)
    (hzero : ¬ Verifies crc Block.zeroed) (hfits : t.length ≤ maxTuple) :
    (h.insert crc hash t).2.Fills crc (packTuple pages t) ∧
      blockCount (h.insert crc hash t).2.cache.block + pages.length
        = blockCount h.cache.block + (packTuple pages t).length := by
  obtain ⟨content, hheap, hcurrent⟩ := hfills.content
  obtain ⟨blocks, hinv, hfilling⟩ := hheap.filling
  have hknown : ∀ id, h.current = some id → ∃ b, blocks id = some b := fun id hid => by
    obtain ⟨b, hb, -⟩ := hfilling id hid
    exact ⟨b, hb⟩
  obtain ⟨loc, h', hrun, hinserted, hplace⟩ :=
    hheap.insert_at hash (idle_nil hframes) (by simp) hzero hfits
  have hcount := Heap.blockCount_insert hash hinv hzero hknown hrun
  have hself :
      appended content loc.pageId t loc.pageId = some (tuplesAt content loc.pageId ++ [t]) :=
    Function.update_self ..
  rw [hrun]
  -- the tuple starts a page
  have hnew (hne : h.current ≠ some loc.pageId) : h'.Fills crc (pages ++ [[t]]) ∧
      blockCount h'.cache.block + pages.length = blockCount
        h.cache.block + (pages ++ [[t]]).length := by
    have hunused := hinserted.page.resolve_left hne
    rw [tuplesAt, hunused] at hself
    refine ⟨⟨_, hinserted.inv, ?_⟩, ?_⟩
    · rw [hinserted.current, Option.map_some, hself, List.getLast?_concat]
      rfl
    · rcases hcount with ⟨-, hsame, -⟩ | ⟨hcount, -⟩
      · exact absurd (hsame loc rfl) hne
      · rw [hcount, length_append, length_singleton]
        omega
  rcases List.eq_nil_or_concat' pages with rfl | ⟨front, last, rfl⟩
  · have hnone : h.current = none := Option.map_eq_none_iff.mp hcurrent
    exact hnew (by simp [hnone])
  · rw [List.getLast?_concat, Option.map_some] at hcurrent
    obtain ⟨id, hid, hlast⟩ := Option.map_eq_some_iff.mp hcurrent
    have hiff := hplace id last hid hlast
    by_cases hroom : t.length + SLOT_SIZE ≤ freeBytes last
    · -- the page being filled takes it
      obtain rfl := hiff.mpr hroom
      rw [tuplesAt, hlast] at hself
      rw [packTuple_of_room hroom]
      refine ⟨⟨_, hinserted.inv, ?_⟩, ?_⟩
      · rw [hinserted.current, Option.map_some, hself, List.getLast?_concat]
        rfl
      · rcases hcount with ⟨hcount, -⟩ | ⟨-, hother, -⟩
        · rw [hcount, length_append, length_append]
          rfl
        · exact absurd hid (hother loc rfl).2
    · rw [packTuple_of_full hroom]
      exact hnew fun heq => hroom (hiff.mp (Option.some.inj (heq.symm.trans hid)))

theorem Heap.Fills.insert_too_large (hfills : h.Fills crc pages) (hframes : 0 < n)
    (hzero : ¬ Verifies crc Block.zeroed) (hlarge : maxTuple < t.length) :
    (h.insert crc hash t).2.Fills crc pages ∧
      blockCount (h.insert crc hash t).2.cache.block = blockCount h.cache.block + 1 := by
  obtain ⟨content, hheap, hcurrent⟩ := hfills.content
  obtain ⟨blocks, hinv, hfilling⟩ := hheap.filling
  have hknown : ∀ id, h.current = some id → ∃ b, blocks id = some b := fun id hid => by
    obtain ⟨b, hb, -⟩ := hfilling id hid
    exact ⟨b, hb⟩
  obtain ⟨h', hrun, hsame, hheap'⟩ :=
    hheap.insert_too_large hash (idle_nil hframes) nofun hzero hlarge
  rw [hrun]
  refine ⟨⟨content, hheap', by rw [hsame]; exact hcurrent⟩, ?_⟩
  rcases Heap.blockCount_insert hash hinv hzero hknown hrun with ⟨-, -, hstuck⟩ | ⟨hcount, -⟩
  · -- nothing is pinned and the page being filled stores tuples
    obtain ⟨id, b, hid, hb, hblocked⟩ := hstuck _ rfl
    obtain ⟨b', hb', hopen⟩ := hfilling id hid
    obtain rfl := Option.some.inj (hb.symm.trans hb')
    rcases hblocked with ⟨k, hk, -⟩ | hpinned | hclosed
    · cases hk
    · obtain ⟨k, hk, -⟩ := hpinned ⟨0, hframes⟩
      cases hk
    · exact absurd hopen hclosed
  · exact hcount

end Ceiling

namespace FileWorkspace

variable {frames : Nat} {crc : Crc32c} {hash : Bytes → UInt32}

def storedPages (ws : FileWorkspace frames) : Nat := blockCount ws.heap.cache.block - 1

def appendAll (crc : Crc32c) (hash : Bytes → UInt32) (ws : FileWorkspace frames) (ts : List Bytes) :
    FileWorkspace frames :=
  ts.foldl (fun ws t => (ws.append crc hash t).2) ws

theorem heap_append (ws : FileWorkspace frames) (t : Bytes) :
    (ws.append crc hash t).2.heap = (ws.heap.insert crc hash t).2 := by
  rw [append]
  split <;> rename_i hrun <;> rw [hrun]
  split_ifs <;> rfl

/-- The pages that appends take: those of the tuples that fit one, and one for each tuple
    that does not. -/
def pagesTaken (ts : List Bytes) : Nat :=
  (packPages (ts.filter (·.length ≤ maxTuple))).length + ts.countP (maxTuple < ·.length)

theorem blockCount_appendAll (hash : Bytes → UInt32) {ws : FileWorkspace frames}
    (hframes : 0 < frames) (hzero : ¬ Verifies crc Block.zeroed) (hstart : ws.heap.Fills crc [])
    (ts : List Bytes) :
    (appendAll crc hash ws ts).heap.Fills crc (packPages (ts.filter (·.length ≤ maxTuple))) ∧
      blockCount (appendAll crc hash ws ts).heap.cache.block = blockCount
        ws.heap.cache.block + pagesTaken ts := by
  induction ts using List.reverseRecOn with
  | nil => exact ⟨hstart, rfl⟩
  | append_singleton ts t ih =>
    obtain ⟨hfills, hcount⟩ := ih
    rw [pagesTaken] at hcount
    rw [appendAll, List.foldl_append, List.foldl_cons, List.foldl_nil, heap_append, pagesTaken,
      List.filter_append, List.countP_append]
    rw [appendAll] at hfills hcount
    by_cases hfits : t.length ≤ maxTuple
    · obtain ⟨hfills', hcount'⟩ := hfills.insert hash hframes hzero hfits
      have hone : [t].filter (fun t => decide (t.length ≤ maxTuple)) = [t] := by simp [hfits]
      have hnone : [t].countP (fun t => decide (maxTuple < t.length)) = 0 := by simpa using hfits
      rw [hone, packPages_concat, hnone]
      exact ⟨hfills', by omega⟩
    · -- a tuple that fits no page costs one all the same
      obtain ⟨hfills', hcount'⟩ :=
        hfills.insert_too_large hash hframes hzero (Nat.lt_of_not_le hfits)
      have hnone : [t].filter (fun t => decide (t.length ≤ maxTuple)) = [] := by simpa using hfits
      have hone : [t].countP (fun t => decide (maxTuple < t.length)) = 1 := by simpa using hfits
      rw [hnone, List.append_nil, hone]
      exact ⟨hfills', by omega⟩

theorem fills_new (crc : Crc32c) {memoryBudget diskBudget : Nat}
    {ws : FileWorkspace (framesOf memoryBudget)} (hnew : new memoryBudget diskBudget = .ok ws) :
    ws.heap.Fills crc [] ∧ blockCount ws.heap.cache.block = 1 ∧
      ws.pages = [] ∧ ws.maxPages = diskBudget / PAGE_SIZE := by
  obtain ⟨ws', hnew', hpacks, hmax⟩ := packs_new crc memoryBudget (page_le_of_new hnew)
  obtain rfl := Except.ok.inj (hnew.symm.trans hnew')
  obtain ⟨content, hheap, -⟩ := hpacks.content
  have hpages : ws.pages = [] := List.eq_nil_of_length_eq_zero hpacks.length_eq
  have hcurrent : ws.heap.current = none := by
    rw [hpacks.filling, hpages]
    rfl
  refine ⟨⟨content, hheap, by rw [hcurrent]; rfl⟩, ?_, hpages, hmax⟩
  rw [new, if_neg (Nat.div_pos (page_le_of_new hnew) (by decide)).ne'] at hnew
  obtain rfl := Except.ok.inj hnew
  rfl

theorem storedPages_appendAll (hzero : ¬ Verifies crc Block.zeroed) {memoryBudget diskBudget : Nat}
    {ws : FileWorkspace (framesOf memoryBudget)} (hnew : new memoryBudget diskBudget = .ok ws)
    (ts : List Bytes) : (appendAll crc hash ws ts).storedPages = pagesTaken ts := by
  obtain ⟨hfills, hone, -⟩ := fills_new crc hnew
  obtain ⟨-, hcount⟩ := blockCount_appendAll hash (framesOf_pos memoryBudget) hzero hfills ts
  rw [storedPages, hcount, hone, Nat.add_sub_cancel_left]

def refused (crc : Crc32c) (hash : Bytes → UInt32) : FileWorkspace frames → List Bytes → Nat
  | _, [] => 0
  | ws, t :: ts =>
    match ws.append crc hash t with
    | (.ok _, ws) => refused crc hash ws ts
    | (.error _, ws) => refused crc hash ws ts + 1

structure Bounded (crc : Crc32c) (ws : FileWorkspace frames) : Prop where
  fills : ∃ pages, ws.heap.Fills crc pages
  issued : ∀ id ∈ ws.pages, id < blockCount ws.heap.cache.block
  bound : ws.pages.length ≤ ws.maxPages

variable {ws ws' : FileWorkspace frames} {t : Bytes}

theorem Bounded.fills_append (h : Bounded crc ws) (hash : Bytes → UInt32) (hframes : 0 < frames)
    (hzero : ¬ Verifies crc Block.zeroed) :
    ∃ pages, (ws.heap.insert crc hash t).2.Fills crc pages := by
  obtain ⟨pages, hfills⟩ := h.fills
  by_cases hfits : t.length ≤ maxTuple
  · exact ⟨_, (hfills.insert hash hframes hzero hfits).1⟩
  · exact ⟨_, (hfills.insert_too_large hash hframes hzero (Nat.lt_of_not_le hfits)).1⟩

/-- **An append that succeeds accounts for the page it takes**; one that fails may leave
    one page. -/
theorem Bounded.append (h : Bounded crc ws) (hframes : 0 < frames)
    (hzero : ¬ Verifies crc Block.zeroed) {r : Except FsError WorkspaceLoc}
    (hrun : ws.append crc hash t = (r, ws')) :
    Bounded crc ws' ∧ ws'.maxPages = ws.maxPages ∧
      ((∃ loc, r = .ok loc) ∧ blockCount ws'.heap.cache.block + ws.pages.length
          ≤ blockCount ws.heap.cache.block + ws'.pages.length ∨
        (∃ e, r = .error e) ∧ blockCount ws'.heap.cache.block + ws.pages.length
          ≤ blockCount ws.heap.cache.block + ws'.pages.length + 1) := by
  have hfills' := @Bounded.fills_append _ _ _ t h hash hframes hzero
  obtain ⟨pages, hfills⟩ := h.fills
  obtain ⟨content, hheap, -⟩ := hfills.content
  obtain ⟨blocks, hinv, hfilling⟩ := hheap.filling
  have hlive : ∀ id, ws.heap.current = some id → id < blockCount ws.heap.cache.block :=
    fun id hid => by
    obtain ⟨b, hb, -⟩ := hfilling id hid
    exact (hinv.contents.live id b hb).2
  obtain ⟨r₁, heap, hinsert⟩ : ∃ r₁ heap, ws.heap.insert crc hash t = (r₁, heap) := ⟨_, _, rfl⟩
  have hcount :=
    Heap.blockCount_insert hash hinv hzero (fun id hid => (hfilling id hid).imp fun _ => And.left)
      hinsert
  have hmono : blockCount ws.heap.cache.block ≤ blockCount heap.cache.block ∧
      blockCount heap.cache.block ≤ blockCount ws.heap.cache.block + 1 := by
    rcases hcount with ⟨hcount, -⟩ | ⟨hcount, -⟩ <;> omega
  have hissued : ∀ id ∈ ws.pages, id < blockCount heap.cache.block := fun id hid =>
    (h.issued id hid).trans_le hmono.1
  rw [hinsert] at hfills'
  rw [FileWorkspace.append, hinsert] at hrun
  cases r₁ with
  | error e =>
    obtain ⟨rfl, rfl⟩ := Prod.mk.inj hrun
    exact ⟨⟨hfills', hissued, h.bound⟩, rfl, Or.inr ⟨⟨e, rfl⟩, by dsimp only; omega⟩⟩
  | ok loc =>
    simp only at hrun
    split_ifs at hrun with hlast hfull <;> obtain ⟨rfl, rfl⟩ := Prod.mk.inj hrun
    · -- the page is known, so it is not a new one
      have hknown := h.issued _ (List.mem_of_getLast? hlast)
      refine ⟨⟨hfills', hissued, h.bound⟩, rfl, Or.inl ⟨⟨_, rfl⟩, ?_⟩⟩
      rcases hcount with ⟨hcount, -⟩ | ⟨-, hnew, -⟩
      · dsimp only
        omega
      · exact absurd (hnew loc rfl).1 hknown.ne
    · exact ⟨⟨hfills', hissued, h.bound⟩, rfl, Or.inr ⟨⟨_, rfl⟩, by dsimp only; omega⟩⟩
    · refine ⟨⟨hfills', fun id hid => ?_, ?_⟩, rfl, Or.inl ⟨⟨_, rfl⟩, ?_⟩⟩
      · rcases List.mem_append.mp hid with hid | hid
        · exact hissued id hid
        · obtain rfl := List.mem_singleton.mp hid
          rcases hcount with ⟨-, hsame, -⟩ | ⟨hcount, hnew, -⟩
          · exact (hlive _ (hsame loc rfl)).trans_le hmono.1
          · rw [(hnew loc rfl).1, hcount]
            exact Nat.lt_succ_self _
      · rw [length_append, length_singleton]
        exact Nat.lt_of_not_le hfull
      · dsimp only
        rw [length_append, length_singleton]
        omega

theorem Bounded.appendAll (hash : Bytes → UInt32) (hframes : 0 < frames)
    (hzero : ¬ Verifies crc Block.zeroed) (ts : List Bytes) (h : Bounded crc ws) :
    (appendAll crc hash ws ts).pages.length ≤ ws.maxPages ∧
      blockCount (FileWorkspace.appendAll crc hash ws ts).heap.cache.block + ws.pages.length
        ≤ blockCount ws.heap.cache.block + (FileWorkspace.appendAll crc hash ws ts).pages.length
          + refused crc hash ws ts := by
  induction ts generalizing ws with
  | nil => exact ⟨h.bound, le_rfl⟩
  | cons t ts ih =>
    obtain ⟨r, ws', hrun⟩ : ∃ r ws', ws.append crc hash t = (r, ws') := ⟨_, _, rfl⟩
    obtain ⟨h', hmax, hstep⟩ := h.append hframes hzero hrun
    obtain ⟨hlist, hstored⟩ := ih h'
    have hcons : FileWorkspace.appendAll crc hash ws (t :: ts) = FileWorkspace.appendAll crc hash
      ws' ts := by
      rw [FileWorkspace.appendAll, List.foldl_cons, hrun, FileWorkspace.appendAll]
    rw [hcons, refused, hrun]
    refine ⟨hlist.trans_eq hmax, ?_⟩
    rcases hstep with ⟨⟨loc, rfl⟩, hstep⟩ | ⟨⟨e, rfl⟩, hstep⟩ <;> dsimp only <;> omega

/-- **A workspace keeps to its ceiling, but for the stray pages of failed appends.**  Over
    any appends, whether they succeed or not, it refers to at most as many pages as the disk
    budget holds, and the file has at most one page more for each append that failed.  So the
    file keeps to the ceiling exactly if the appended tuples ask for no more pages than that. -/
theorem workspace_ceiling (hzero : ¬ Verifies crc Block.zeroed) {memoryBudget diskBudget : Nat}
    {ws : FileWorkspace (framesOf memoryBudget)} (hnew : new memoryBudget diskBudget = .ok ws)
    (ts : List Bytes) :
    (appendAll crc hash ws ts).pages.length ≤ diskBudget / PAGE_SIZE ∧
      (appendAll crc hash ws ts).storedPages
        ≤ (appendAll crc hash ws ts).pages.length + refused crc hash ws ts ∧
      ((appendAll crc hash ws ts).storedPages ≤ diskBudget / PAGE_SIZE ↔
        pagesTaken ts ≤ diskBudget / PAGE_SIZE) := by
  obtain ⟨hfills, hone, hpages, hmax⟩ := fills_new crc hnew
  have h : Bounded crc ws :=
    ⟨⟨_, hfills⟩, by rw [hpages]; nofun, by rw [hpages]; exact Nat.zero_le _⟩
  obtain ⟨hlist, hstored⟩ := h.appendAll hash (framesOf_pos memoryBudget) hzero ts
  rw [hone, hpages, List.length_nil] at hstored
  rw [hmax] at hlist
  refine ⟨hlist, ?_, by rw [storedPages_appendAll hzero hnew]⟩
  rw [storedPages]
  omega

/-- Two tuples that each fill a page, where one page is allowed. -/
theorem workspace_exceeds_ceiling : ∃ ws : FileWorkspace (framesOf 0), new 0 PAGE_SIZE = .ok ws ∧
    (appendAll castagnoli crc32 ws
      [replicate maxTuple 0, replicate maxTuple 0]).storedPages = PAGE_SIZE / PAGE_SIZE + 1 := by
  obtain ⟨ws, hnew, -⟩ := packs_new castagnoli 0 (le_refl PAGE_SIZE)
  refine ⟨ws, hnew, ?_⟩
  rw [storedPages_appendAll not_verifies_castagnoli_zeroed hnew]
  have hlength : (replicate maxTuple (0 : UInt8)).length = maxTuple := List.length_replicate
  generalize replicate maxTuple (0 : UInt8) = t at hlength
  have hfull : ¬ t.length + SLOT_SIZE ≤ freeBytes [t] := by
    rw [freeBytes, tupleBytes, List.map_singleton, hlength, length_singleton]
    decide
  have hpack : packPages [t, t] = [[t], [t]] := @packTuple_of_full [] [t] t hfull
  have hfits : [t, t].filter (fun t => decide (t.length ≤ maxTuple)) = [t, t] := by simp [hlength]
  have hnone : [t, t].countP (fun t => decide (maxTuple < t.length)) = 0 := by simp [hlength]
  rw [pagesTaken, hfits, hpack, hnone, List.length_cons, length_singleton]
  decide

/-- One page is allowed: a small tuple keeps to it, and one that fits no page is refused and
    takes a second page all the same. -/
theorem workspace_ceiling_too_large : ∃ ws : FileWorkspace (framesOf 0), new 0 PAGE_SIZE = .ok ws ∧
    (appendAll castagnoli crc32 ws [[7]]).storedPages ≤ 1 ∧
    (appendAll castagnoli crc32 ws [[7], replicate 9000 0]).pages.length ≤ 1 ∧
    ¬ (appendAll castagnoli crc32 ws [[7], replicate 9000 0]).storedPages ≤ 1 ∧
    0 < refused castagnoli crc32 ws [[7], replicate 9000 0] := by
  obtain ⟨ws, hnew, -⟩ := packs_new castagnoli 0 (le_refl PAGE_SIZE)
  have hceiling := @workspace_ceiling _ crc32 not_verifies_castagnoli_zeroed _ _ _ hnew
  obtain ⟨hpages, hrefused, hiff⟩ := hceiling [[7], replicate 9000 0]
  have hover : ¬ pagesTaken [[7], replicate 9000 0] ≤ PAGE_SIZE / PAGE_SIZE := by decide +kernel
  have hstored := mt hiff.mp hover
  refine ⟨ws, hnew, (hceiling [[7]]).2.2.mpr (by decide), hpages, hstored, ?_⟩
  omega

end FileWorkspace

end StrataDb.Filesystem
