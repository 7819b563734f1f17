import StrataDb.PageCacheDisk

/-!
# The heap in its files (`Heap::open` in `crates/filesystem/src/tuple/heap.rs`)

`HeapReady`: what the pages of an open heap are known to store, and a log and superblock from
which they are found again. After a flush the files open to a heap that stores the same.
-/

namespace StrataDb.Filesystem

open ByteCodec BlockStore
open Runs (bind_eq_ok mapError_eq_ok)

def lruK2 (n : Nat) : LruK (Fin n) := { k := 2, k_pos := by decide }

theorem not_tracked_lruK2 (n : Nat) (f : Fin n) : ¬ LawfulPolicy.Tracked (lruK2 n) f :=
  List.not_mem_nil

abbrev DiskHeap (n : Nat) := Heap DiskBlockStore (LruK (Fin n)) n

def Heap.open (hash : Bytes → UInt32) (n : Nat) (file : List Block) (journal : Option Bytes) :
    Except Fault (DiskHeap n) := do
  let v ← (DiskBlockStore.open file).mapError .error
  let cache ← withJournal hash v (lruK2 n) journal
  return Heap.new cache

theorem Heap.open_eq_ok {hash : Bytes → UInt32} {n : Nat} {file : List Block}
    {journal : Option Bytes} {h : DiskHeap n} :
    Heap.open hash n file journal = .ok h ↔ ∃ v cache, DiskBlockStore.open file = .ok v ∧
      withJournal hash v (lruK2 n) journal = .ok cache ∧ h = Heap.new cache := by
  rw [Heap.open, bind_eq_ok]
  constructor
  · rintro ⟨v, hv, h⟩
    obtain ⟨cache, hcache, hnew⟩ := bind_eq_ok.mp h
    exact ⟨v, cache, mapError_eq_ok.mp hv, hcache, (Except.ok.inj hnew).symm⟩
  · rintro ⟨v, cache, hv, hcache, rfl⟩
    exact ⟨v, mapError_eq_ok.mpr hv, bind_eq_ok.mpr ⟨cache, hcache, rfl⟩⟩

variable {n : Nat} {crc : Crc32c} {hash : Bytes → UInt32} {h h' : DiskHeap n} {hs : List (Handle n)}
variable {content : Nat → Option (List Bytes)} {t : Bytes} {loc : TupleLoc}

structure HeapReady (crc : Crc32c) (h : DiskHeap n) (hs : List (Handle n))
    (content : Nat → Option (List Bytes)) : Prop extends HeapInv crc h hs content where
  durable : Inner.Durable h.cache

theorem heapReady_create (crc : Crc32c) (hash : Bytes → UInt32) (n : Nat) :
    ∃ h : DiskHeap n, Heap.open hash n [] none = .ok h ∧ HeapReady crc h [] (fun _ => none)
      ∧ h.cache.block.nextId = 1 ∧ ¬ Inner.Pending h.cache := by
  obtain ⟨v, hopen, hvalid, hnext, hlength, hsync⟩ := open_of_empty
  have hnew : (none : Option Bytes).getD [] = [] := rfl
  obtain ⟨j, hj, hheader⟩ := Journal.withCodec_of_empty hnew
  obtain ⟨hbuild, hempty⟩ := @withJournal_empty _ n hash DiskBlockStore _ v (lruK2 n) _ j hj hheader
  have hpages (id : Nat) (b : Block) (hb : stored crc v id = some b) (hne : id ≠ 0) :
      id < blockCount v := by
    have hlt := (List.getElem?_eq_some_iff.mp (readExactAt_eq_ok.mp (stored_eq_some.mp hb).1)).1
    omega
  refine ⟨_, Heap.open_eq_ok.mpr ⟨v, _, hopen, hbuild, rfl⟩,
    ⟨heapInv_new (Inner.inv_build hvalid hpages (not_tracked_lruK2 n)), Or.inl ⟨v, hsync⟩, _, rfl,
      hempty⟩, hnext, ?_⟩
  rintro ⟨f, -, hpage⟩
  exact hpage rfl

section Calls

variable {c c' : Inner DiskBlockStore (LruK (Fin n)) n} {pages : Nat → Option Block} {α : Type}

theorem Inner.Inv.allocate_ok (hash : Bytes → UInt32) (hinv : Inner.Inv crc none c hs pages)
    (hidle : Idle hs) (hzero : ¬ Verifies crc Block.zeroed) :
    ∃ id f c₁, c.allocate crc hash = (.ok (id, f), c₁) := by
  have hallocated := hinv.allocate hash hzero
  generalize c.allocate crc hash = r at hallocated ⊢
  cases hallocated with
  | @ok id f c₁ => exact ⟨id, f, c₁, rfl⟩
  | exhausted _ _ _ pinned => exact absurd pinned hidle.not_exhausted

theorem Inner.Inv.durable_withNew (hinv : Inner.Inv crc none c hs pages) (hidle : Idle hs)
    (hzero : ¬ Verifies crc Block.zeroed) (hdurable : Inner.Durable c)
    {change : Block → Except FsError α × Block} {r : Except FsError (Nat × α)}
    (hnew : c.withNew crc hash change = (r, c')) :
    Inner.Durable c' ∧ c'.block.nextId = c.block.nextId + 1 := by
  obtain ⟨_, _, _, halloc⟩ := hinv.allocate_ok hash hidle hzero
  obtain ⟨_, _, v, _, hrun, hissued, -, -, hcalm⟩ :=
    @Inner.Inv.withNew DiskBlockStore (LruK (Fin n)) n _ _ _ _ crc hash hs c pages α hinv hidle
      hzero change
  rw [hnew] at hrun
  obtain ⟨-, rfl⟩ := Prod.mk.inj hrun
  refine ⟨⟨Or.inr (Inner.pending_withNew halloc hnew), ?_⟩, ?_⟩
  · obtain ⟨j, hj, hfile⟩ := hdurable.log
    obtain ⟨j', hj'⟩ := Option.isSome_iff_exists.mp (hcalm.journaled.trans (by simp [hj]))
    exact ⟨j', hj', hcalm.log (fun k hk => by rwa [Option.some.inj (hk.symm.trans hj)]) j' hj'⟩
  · obtain ⟨v', hallocate, -, hcount, -⟩ := LawfulBlockStore.allocate_spec hinv.contents.valid
    rw [hissued] at hallocate
    obtain ⟨-, rfl⟩ := Prod.mk.inj (Except.ok.inj hallocate)
    exact hcalm.blockCount.trans hcount

theorem Inner.Inv.durable_withWrite (hinv : Inner.Inv crc none c hs pages) (hidle : Idle hs)
    (hdurable : Inner.Durable c) {id : Nat} {b : Block} (hpage : pages id = some b)
    (hfree : ∀ k ∈ hs, k.pageId ≠ id) {change : Block → Except FsError α × Block}
    {r : Except FsError α} (hwrite : c.withWrite crc hash id change = (r, c')) :
    Inner.Durable c' ∧ c'.block.nextId = c.block.nextId ∧ ∃ pages',
      Inner.Inv crc none c' hs pages' := by
  obtain ⟨_, _, hrun, -, hinv', hcalm⟩ :=
    @Inner.Inv.withWrite DiskBlockStore (LruK (Fin n)) n _ _ _ _ crc hash hs
    c pages id b α hinv hidle hpage hfree change
  rw [hwrite] at hrun
  obtain ⟨-, rfl⟩ := Prod.mk.inj hrun
  exact ⟨hdurable.keeps (hinv.keeps_withWrite change hwrite) hcalm, hcalm.blockCount, _, hinv'⟩

end Calls

theorem HeapInv.fits (hinv : HeapInv crc h hs content) {ts : List Bytes} {v : Bytes}
    (hts : content loc.pageId = some ts) (hslot : ts[loc.slotId]? = some v) :
    (loc.pageId ≠ 0 ∧ loc.pageId < h.cache.block.nextId) ∧ loc.slotId < 2 ^ 16 := by
  obtain ⟨pages, hcache, hholds⟩ := hinv.pages
  obtain ⟨b, hb, hbts⟩ := hholds _ ts hts
  refine ⟨hcache.contents.live _ b hb, ?_⟩
  have hlt := (List.getElem?_eq_some_iff.mp hslot).1
  have hroom := hbts.room
  have hpos : TuplePage.slotPos ts.length = SLOT_ARRAY_OFFSET + ts.length * 8 := rfl
  have hconst : PAGE_SIZE = 8192 := rfl
  omega

theorem Inserted.found {h₀ h : DiskHeap n} {value : Bytes}
    (hinserted : Inserted crc h₀ hs content value loc h) (hids : h.cache.block.nextId < 2 ^ 64) :
    loc.Fits ∧ ∃ ts, appended content loc.pageId value loc.pageId = some ts
      ∧ ts[loc.slotId]? = some value := by
  have hpage : appended content loc.pageId value loc.pageId
    = some (tuplesAt content loc.pageId ++ [value]) :=
    Function.update_self ..
  have hslot : (tuplesAt content loc.pageId ++ [value])[loc.slotId]? = some value := by
    rw [hinserted.slot, List.getElem?_concat_length]
  obtain ⟨⟨-, hlt⟩, hslotId⟩ := hinserted.inv.fits hpage hslot
  exact ⟨⟨hlt.trans hids, hslotId⟩, _, hpage, hslot⟩

theorem HeapReady.durable_insert (hready : HeapReady crc h hs content) (hidle : Idle hs)
    (hfree : ∀ id, h.current = some id → ∀ k ∈ hs, k.pageId ≠ id)
    (hzero : ¬ Verifies crc Block.zeroed) {r : Except FsError TupleLoc}
    (hinsert : h.insert crc hash t = (r, h')) :
    Inner.Durable h'.cache ∧ h'.cache.block.nextId ≤ h.cache.block.nextId + 1 := by
  -- a page is allocated from a cache as the current page left it
  have hnew {c : Inner DiskBlockStore (LruK (Fin n)) n} {current : Option Nat}
    {pages : Nat → Option Block}
      (hcache : Inner.Inv crc none c hs pages) (hdurable : Inner.Durable c)
      (hnext : c.block.nextId = h.cache.block.nextId)
      (hrun : (⟨c, current⟩ : DiskHeap n).appendToNewPage crc hash t = (r, h')) :
      Inner.Durable h'.cache ∧ h'.cache.block.nextId ≤ h.cache.block.nextId + 1 := by
    rw [Heap.appendToNewPage] at hrun
    split at hrun
    all_goals
      rename_i hwith
      obtain ⟨-, rfl⟩ := Prod.mk.inj hrun
      obtain ⟨hdurable', hnext'⟩ := hcache.durable_withNew hidle hzero hdurable hwith
      exact ⟨hdurable', by rw [hnext', hnext]⟩
  obtain ⟨pages, hcache, hholds⟩ := hready.pages
  rw [Heap.insert] at hinsert
  split at hinsert
  · exact hnew hcache hready.durable rfl hinsert
  · rename_i id hcurrent
    obtain ⟨ts, hts⟩ := hready.current id hcurrent
    obtain ⟨b, hb, -⟩ := hholds id ts hts
    -- the page took the tuple, or refused it
    have hsame {r' : Except FsError (Option Nat)} {c : Inner DiskBlockStore (LruK (Fin n)) n}
        (hwrite : h.cache.withWrite crc hash id (Heap.appendTo t) = (r', c)) :
        Inner.Durable c ∧ c.block.nextId ≤ h.cache.block.nextId + 1 := by
      obtain ⟨hdurable, hnext, -⟩ :=
        hcache.durable_withWrite hidle hready.durable hb (hfree id hcurrent) hwrite
      exact ⟨hdurable, by rw [hnext]; exact Nat.le_succ _⟩
    split at hinsert
    · rename_i hwrite
      obtain ⟨-, rfl⟩ := Prod.mk.inj hinsert
      exact hsame hwrite
    · rename_i hwrite
      obtain ⟨-, rfl⟩ := Prod.mk.inj hinsert
      exact hsame hwrite
    · rename_i cache hwrite
      obtain ⟨hdurable, hnext, pages', hcache'⟩ :=
        hcache.durable_withWrite hidle hready.durable hb (hfree id hcurrent) hwrite
      exact hnew hcache' hdurable hnext hinsert

theorem HeapReady.insert (hash : Bytes → UInt32) (hready : HeapReady crc h hs content)
    (hidle : Idle hs) (hfree : ∀ id, h.current = some id → ∀ k ∈ hs, k.pageId ≠ id)
    (hzero : ¬ Verifies crc Block.zeroed) (hfits : t.length ≤ maxTuple) :
    ∃ loc h', h.insert crc hash t = (.ok loc, h') ∧ Inserted crc h hs content t loc h'
      ∧ HeapReady crc h' hs (appended content loc.pageId t)
      ∧ h'.cache.block.nextId ≤ h.cache.block.nextId + 1 := by
  obtain ⟨loc, h', hrun, hinserted⟩ := hready.toHeapInv.insert hash hidle hfree hzero hfits
  obtain ⟨hdurable, hnext⟩ := hready.durable_insert hidle hfree hzero hrun
  exact ⟨loc, h', hrun, hinserted, ⟨hinserted.inv, hdurable⟩, hnext⟩

theorem HeapReady.insert_too_large (hash : Bytes → UInt32) (hready : HeapReady crc h hs content)
    (hidle : Idle hs) (hfree : ∀ id, h.current = some id → ∀ k ∈ hs, k.pageId ≠ id)
    (hzero : ¬ Verifies crc Block.zeroed) (hlarge : maxTuple < t.length) :
    ∃ e h', h.insert crc hash t = (.error e, h') ∧ HeapReady crc h' hs content
      ∧ h'.cache.block.nextId ≤ h.cache.block.nextId + 1 ∧ h'.current = h.current := by
  obtain ⟨h', hrun, hcurrent, hinv⟩ :=
    hready.toHeapInv.insert_too_large hash hidle hfree hzero hlarge
  obtain ⟨hdurable, hnext⟩ := hready.durable_insert hidle hfree hzero hrun
  exact ⟨_, h', hrun, ⟨hinv, hdurable⟩, hnext, hcurrent⟩

theorem HeapReady.first_insert (hash : Bytes → UInt32) (hready : HeapReady crc h [] (fun _ => none))
    (hnext : h.cache.block.nextId = 1) (hzero : ¬ Verifies crc Block.zeroed) (hn : 0 < n)
    (hfits : t.length ≤ maxTuple) : ∃ h', h.insert crc hash t = (.ok ⟨1, 0⟩, h')
      ∧ HeapReady crc h' [] (appended (fun _ => none) 1 t) ∧ h'.current = some 1 := by
  obtain ⟨⟨pageId, slotId⟩, h', hrun, hinserted, hready', hnext'⟩ :=
    hready.insert hash (idle_nil hn) nofun hzero hfits
  obtain rfl : slotId = 0 := hinserted.slot
  have hpage : appended (fun _ => none) pageId t pageId = some [t] := Function.update_self ..
  obtain ⟨hlive, -⟩ := @HeapInv.fits n crc h' [] _ ⟨pageId, 0⟩ hready'.toHeapInv _ t hpage rfl
  obtain rfl : pageId = 1 := by
    have hpos : pageId ≠ 0 := hlive.1
    have hlt : pageId < h'.cache.block.nextId := hlive.2
    omega
  exact ⟨h', hrun, hready', hinserted.current⟩

theorem heap_first_insert (hash : Bytes → UInt32) (hzero : ¬ Verifies crc Block.zeroed) (hn : 0 < n)
    (hfits : t.length ≤ maxTuple) : ∃ h h' : DiskHeap n, Heap.open hash n [] none = .ok h
      ∧ h.insert crc hash t = (.ok ⟨1, 0⟩, h') ∧ h.cache.block.nextId = 1 := by
  obtain ⟨h, hopen, hready, hnext, -⟩ := heapReady_create crc hash n
  obtain ⟨h', hrun, -⟩ := hready.first_insert hash hnext hzero hn hfits
  exact ⟨h, h', hopen, hrun, hnext⟩

/-- **Flushing** keeps what is stored; nothing is dirty then. -/
theorem HeapReady.flush (hash : Bytes → UInt32) (hready : HeapReady crc h hs content) :
    ∃ h', h.flush crc hash = (.ok (), h') ∧ HeapReady crc h' hs content ∧ ¬ Inner.Pending h'.cache
      ∧ h'.current = h.current ∧ h'.cache.block.nextId = h.cache.block.nextId := by
  obtain ⟨pages, hcache, hholds⟩ := hready.pages
  obtain ⟨c, hrun, hflushed⟩ := Inner.flush_ok hash hcache.placed hcache.contents
  have hclean : ¬ Inner.Pending c := by
    rintro ⟨f, hdirty, hpage⟩
    rw [hflushed.frames, Frame.flushed_pageId] at hpage
    rw [hflushed.frames, Frame.flushed_dirty, Bool.and_eq_true, Option.isNone_iff_eq_none] at hdirty
    exact hpage hdirty.2
  have hkeeps : Inner.Keeps h.cache c := by
    by_cases hpending : Inner.Pending h.cache
    · exact Or.inl (hpending.flush hrun)
    · exact Or.inr fun hp => absurd hp hpending
  refine ⟨{ h with cache := c }, by rw [Heap.flush, hrun],
    ⟨⟨⟨pages, hcache.flushed hflushed, hholds⟩, hready.current⟩,
    hready.durable.keeps hkeeps hflushed.calm⟩, hclean, rfl, hflushed.calm.blockCount⟩

/-- **Closing after a flush and opening again**: the heap stores the same. -/
theorem HeapReady.reopen (hash : Bytes → UInt32) (hready : HeapReady crc h hs content)
    (hreads : ∀ k ∈ hs, k.write = false) (hclean : ¬ Inner.Pending h.cache)
    (hid : h.cache.block.nextId < 2 ^ 64) (m : Nat) :
    ∃ h' : DiskHeap m,
      Heap.open hash m h.cache.block.file (h.cache.journal.map (·.file)) = .ok h'
        ∧ HeapReady crc h' [] content
        ∧ h'.cache.block.nextId = h.cache.block.nextId ∧ h'.current = none := by
  obtain ⟨pages, hcache, hholds⟩ := hready.pages
  obtain ⟨v, c, pages', hopen, hjournal, hcache', hdurable, hnext, hagree⟩ :=
    @Inner.Inv.reopen _ _ _ _ crc hash _ _ _ hcache hclean hreads hready.durable hid m _ _ _ _
      (not_tracked_lruK2 m)
  refine ⟨Heap.new c, Heap.open_eq_ok.mpr ⟨v, c, hopen, hjournal, rfl⟩,
    ⟨⟨⟨pages', hcache', ?_⟩, nofun⟩, hdurable⟩, hnext, rfl⟩
  intro id ts hts
  obtain ⟨b, hb, hbts⟩ := hholds id ts hts
  obtain ⟨s, hs', hsame⟩ := hagree id b hb
  exact ⟨s, hs', hbts.agrees hsame⟩

/-! ### Views -/

theorem HeapInv.shows (hinv : HeapInv crc h hs content) {k : Handle n} (hk : k ∈ hs)
    {ts : List Bytes} (hts : content k.pageId = some ts) (slot : Nat) :
    Heap.viewBytes slot (h.cache.frames k.frame).buf = ts[slot]? := by
  obtain ⟨pages, hcache, hholds⟩ := hinv.pages
  obtain ⟨b, hb, hbts⟩ := hholds k.pageId ts hts
  obtain ⟨b', hb', hagrees⟩ := hcache.contents.resident k.frame k.pageId (hcache.pins.handle k hk)
  obtain rfl := Option.some.inj (hb.symm.trans hb')
  have hshown := hbts.agrees hagrees
  rw [Heap.viewBytes, hshown.opens, hshown.get]

/-- **Pinning** a page for reading fails only if every frame is pinned. -/
theorem HeapReady.pin_cases (hash : Bytes → UInt32) (hready : HeapReady crc h hs content)
    (hreads : ∀ k ∈ hs, k.write = false) {id : Nat} {ts : List Bytes} (hts : content id = some ts) :
    ∃ r c, h.cache.acquireRead crc hash id = (r, c) ∧ c.block.nextId = h.cache.block.nextId
      ∧ ((∃ f, r = .ok f ∧ HeapReady crc { h with cache := c } (⟨false, f, id⟩ :: hs) content)
        ∨ (∃ e, r = .error e) ∧ HeapReady crc { h with cache := c } hs content ∧ ¬ Idle hs) := by
  obtain ⟨pages, hcache, hholds⟩ := hready.pages
  obtain ⟨b, hb, -⟩ := hholds id ts hts
  have hacquired : Inner.Acquired crc h.cache hs pages false id (h.cache.acquireRead crc hash id) :=
    hcache.acquireRead (hcache.contents.live id b hb).1
  have hkeeps {r c} (hrun : h.cache.acquireRead crc hash id = (r, c)) :=
    hcache.keeps_acquireRead hrun
  generalize h.cache.acquireRead crc hash id = r at hacquired hkeeps
  cases hacquired with
  | @ok f c inv calm =>
    exact ⟨_, c, rfl, calm.blockCount, Or.inl ⟨f, rfl, ⟨⟨pages, inv, hholds⟩, hready.current⟩,
      hready.durable.keeps (hkeeps rfl) calm⟩⟩
  | busy mem page conflict =>
    rw [hreads _ mem] at conflict
    simp at conflict
  | @exhausted c inv calm pinned =>
    exact ⟨_, c, rfl, calm.blockCount, Or.inr ⟨⟨_, rfl⟩, ⟨⟨⟨pages, inv, hholds⟩, hready.current⟩,
      hready.durable.keeps (hkeeps rfl) calm⟩, fun hidle => hidle.not_exhausted pinned⟩⟩
  | absent inv calm page =>
    rw [hb] at page
    cases page

theorem HeapReady.unpin {f : Fin n} {id : Nat}
    (hready : HeapReady crc h (⟨false, f, id⟩ :: hs) content) :
    HeapReady crc { h with cache := h.cache.releaseRead f } hs content := by
  obtain ⟨pages, hcache, hholds⟩ := hready.pages
  refine ⟨⟨⟨pages, hcache.releaseRead, hholds⟩, hready.current⟩,
    hready.durable.keeps (Or.inr fun hp => ?_) (.of_eq rfl rfl)⟩
  have hmarks :
      Inner.Pending (h.cache.modify f (fun fr => { fr with readers := fr.readers - 1 })) :=
    hp.modify (Or.inr rfl) rfl
  exact hmarks

theorem HeapReady.perm {hs' : List (Handle n)} (hready : HeapReady crc h hs content)
    (hperm : hs.Perm hs') : HeapReady crc h hs' content := by
  obtain ⟨pages, hcache, hholds⟩ := hready.pages
  exact ⟨⟨⟨pages, ⟨hcache.placed, hcache.pins.perm hperm, hcache.contents⟩, hholds⟩,
    hready.current⟩, hready.durable⟩

end StrataDb.Filesystem
