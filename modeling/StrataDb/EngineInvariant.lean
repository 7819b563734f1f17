import StrataDb.StorageEngine

/-!
# The invariant of the storage engine

The index has a history of its own, in which a value is the location of a tuple. Entry by entry it
names the keys of the history of values, with the locations of slots that store them.
-/

namespace StrataDb.Store

open ByteCodec OrderedMap Runs
open Filesystem
open Lsm (FastBloom LsmConfig LsmError Write)

/-! ### Where the values are -/

/-- What the index holds for a value: the location of a slot that stores it. -/
inductive Located (content : Nat → Option (List Bytes)) : Option Bytes → Option Bytes → Prop
  | absent : Located content none none
  | stored {loc : TupleLoc} {ts : List Bytes} {value : Bytes} (fits : loc.Fits)
      (page : content loc.pageId = some ts) (slot : ts[loc.slotId]? = some value) :
      Located content (some value) (some loc.encode)

variable {content : Nat → Option (List Bytes)}

theorem Located.isSome_eq {value loc : Option Bytes}
    (h : Located content value loc) : value.isSome = loc.isSome := by
  cases h <;> rfl

def Indexed (content : Nat → Option (List Bytes)) : List Write → List Write → Prop :=
  List.Forall₂ (fun w il => w.1 = il.1 ∧ Located content w.2 il.2)

theorem Indexed.apply {ws ils : List Write} (h : Indexed content ws ils)
    (key : Bytes) : Located content (VersionedMap.apply ws key) (VersionedMap.apply ils key) :=
  VersionedMap.apply_rel Located.absent h key

theorem Located.appended {value loc : Option Bytes} (h : Located content value loc) (id : Nat)
    (t : Bytes) : Located (appended content id t) value loc := by
  cases h with
  | absent => exact .absent
  | @stored loc ts value fits page slot =>
    by_cases hid : loc.pageId = id
    · refine @Located.stored _ loc (ts ++ [t]) value fits ?_ ?_
      · rw [Filesystem.appended, hid, Function.update_self, tuplesAt, ← hid, page, Option.getD_some]
      · rw [List.getElem?_append_left (List.getElem?_eq_some_iff.mp slot).1, slot]
    · refine @Located.stored _ loc ts value fits ?_ slot
      rw [Filesystem.appended, Function.update_of_ne hid, page]

theorem Indexed.appended {ws ils : List Write} (h : Indexed content ws ils)
    (id : Nat) (t : Bytes) : Indexed (Filesystem.appended content id t) ws ils :=
  h.imp fun _ _ hw => ⟨hw.1, hw.2.appended id t⟩

/-! ### The invariant -/

/-- The engine, the history of its values and of its index, what its heap stores, and the
    pages that are pinned for views. -/
structure Holding (B : FastBloom) (crc : Crc32c) (ws ils : List Write) (lo : Nat)
    (content : Nat → Option (List Bytes)) (hs : List (Handle HEAP_FRAMES))
    (e : DiskEngine) : Prop where
  layers : Lsm.Layered B ils lo e.index
  heap : HeapReady crc e.heap hs content
  indexed : Indexed content ws ils
  ids : e.heap.cache.block.nextId < 2 ^ 64

structure EngineInv (B : FastBloom) (crc32 : Bytes → UInt32) (crc : Crc32c) (ws ils : List Write)
    (lo : Nat)
    (content : Nat → Option (List Bytes)) (hs : List (Handle HEAP_FRAMES)) (e : DiskEngine) : Prop
    extends Holding B crc ws ils lo content hs e where
  index : Lsm.Inv B crc32 ils lo false e.index

def Sound (B : FastBloom) (crc32 : Bytes → UInt32) (crc : Crc32c) (ws : List Write)
    (hs : List (Handle HEAP_FRAMES)) (e : DiskEngine) : Prop :=
  ∃ ils lo content, EngineInv B crc32 crc ws ils lo content hs e

section Calls

variable {B : FastBloom} {crc32 : Bytes → UInt32} {crc : Crc32c} {hash : Bytes → UInt32}
  {ws ils : List Write}
  {lo : Nat} {content : Nat → Option (List Bytes)} {hs : List (Handle HEAP_FRAMES)}
    {e e' : DiskEngine}
  {key value : Bytes}

variable {config : LsmConfig}

theorem DiskEngine.open_eq_ok {disk : Disk} {mem : Lsm.BTreeMemtable} :
    DiskEngine.open crc32 hash disk config mem = .ok e ↔
      Lsm.withMemtable crc32 disk.index config mem = .ok e.index ∧
        Heap.open hash HEAP_FRAMES disk.tuples disk.journal = .ok e.heap := by
  rw [DiskEngine.open, bind_eq_ok]
  constructor
  · rintro ⟨index, hindex, h⟩
    obtain ⟨heap, hheap, hnew⟩ := bind_eq_ok.mp h
    obtain rfl := Except.ok.inj hnew
    exact ⟨mapError_eq_ok.mp hindex, mapError_eq_ok.mp hheap⟩
  · rintro ⟨hindex, hheap⟩
    exact ⟨e.index, mapError_eq_ok.mpr hindex,
      bind_eq_ok.mpr ⟨e.heap, mapError_eq_ok.mpr hheap, rfl⟩⟩

theorem StorageEngine.put_of_insert {loc : TupleLoc} {heap : DiskHeap HEAP_FRAMES} {index : Lsm}
    {r : Except Lsm.Fault Unit} (hinsert : e.heap.insert crc hash value = (.ok loc, heap))
    (hwrite : e.index.write crc32 key loc.encode .put = (r, index)) :
    e.put crc32 crc hash key value = (r.mapError .ofLsm, ⟨index, heap⟩) := by
  rw [StorageEngine.put, hinsert]
  dsimp only
  rw [Lsm.put, hwrite]

theorem StorageEngine.delete_of_write {index : Lsm} {r : Except Lsm.Fault Unit}
    (hwrite : e.index.write crc32 key [] .delete = (r, index)) :
    e.delete crc32 key = (r.mapError .ofLsm, { e with index := index }) := by
  rw [StorageEngine.delete, Lsm.delete, hwrite]

theorem holding_create (B : FastBloom) (crc : Crc32c) {capacity : Nat}
    (hopen : DiskEngine.open crc32 hash {} config (.withCapacity capacity) = .ok e) :
    ∃ content, Holding B crc [] [] 0 content [] e ∧ e.heap.cache.block.nextId = 1 := by
  obtain ⟨hindex, hheap⟩ := DiskEngine.open_eq_ok.mp hopen
  obtain ⟨h, hopen', hready, hnext, -⟩ := heapReady_create crc hash HEAP_FRAMES
  obtain rfl := Except.ok.inj (hheap.symm.trans hopen')
  exact ⟨_, ⟨Lsm.layered_create hindex, hready, .nil, by rw [hnext]; norm_num⟩, hnext⟩

theorem sound_create (hlevels : 0 < config.numLevels % 2 ^ 32) {capacity : Nat}
    (hopen : DiskEngine.open crc32 hash {} config (.withCapacity capacity) = .ok e) :
    Sound B crc32 crc [] [] e := by
  obtain ⟨content, h, -⟩ := holding_create B crc hopen
  exact ⟨[], 0, content, h, Lsm.inv_create hlevels (DiskEngine.open_eq_ok.mp hopen).1⟩

theorem length_encode_loc (loc : TupleLoc) : loc.encode.length = 10 := by
  rw [TupleLoc.encode, List.length_append, length_beBytes, length_beBytes]

/-- **A put**: the tuple goes into the heap, its location into the index.  If the heap does
    not take it, or the index does not, the values are as before. -/
theorem Holding.put_cases (crc32 hash : Bytes → UInt32) (h : Holding B crc ws ils lo content [] e)
    (hzero : ¬ Verifies crc Block.zeroed) (hids : e.heap.cache.block.nextId + 1 < 2 ^ 64)
    (key value : Bytes) :
    ∃ r e' content', e.put crc32 crc hash key value = (r, e')
      ∧ e'.heap.cache.block.nextId ≤ e.heap.cache.block.nextId + 1
      ∧ ((r = .ok () ∧ ∃ loc, loc.length = 10 ∧ e.index.write crc32 key loc .put
        = (.ok (), e'.index)
          ∧ Holding B crc (ws ++ [(key, some value)]) (ils ++ [(key, some loc)]) lo content' [] e')
        ∨ (∃ f, r = .error f) ∧ Holding B crc ws ils lo content' [] e'
          ∧ (e'.index = e.index ∨ ∃ f loc, loc.length = 10
            ∧ e.index.write crc32 key loc .put = (.error f, e'.index))) := by
  have hidle : Idle ([] : List (Handle HEAP_FRAMES)) := idle_nil (by decide)
  rw [StorageEngine.put]
  rcases Nat.lt_or_ge maxTuple value.length with hlarge | hfits
  · obtain ⟨err, h', hrun, hready, hnext, -⟩ :=
      h.heap.insert_too_large hash hidle nofun hzero hlarge
    rw [hrun]
    exact ⟨_, _, content, rfl, hnext,
      Or.inr ⟨⟨_, rfl⟩, ⟨h.layers, hready, h.indexed, hnext.trans_lt hids⟩, Or.inl rfl⟩⟩
  · obtain ⟨loc, h', hrun, hinserted, hready, hnext⟩ := h.heap.insert hash hidle nofun hzero hfits
    rw [hrun]
    dsimp only
    have hindexed := h.indexed.appended loc.pageId value
    -- the tuple is stored, so the index has somewhere to point
    cases hwrite : e.index.put crc32 key loc.encode with
    | mk r index =>
      refine ⟨_, _, Filesystem.appended content loc.pageId value, rfl, hnext, ?_⟩
      cases r with
      | error f =>
        have hindex : e.index.write crc32 key loc.encode .put = (.error f, index) := hwrite
        exact Or.inr ⟨⟨_, rfl⟩, ⟨h.layers.refuse hindex, hready, hindexed, hnext.trans_lt hids⟩,
          Or.inr ⟨f, loc.encode, length_encode_loc loc, hindex⟩⟩
      | ok u =>
        have hindex : e.index.write crc32 key loc.encode .put = (.ok (), index) := hwrite
        obtain ⟨hfits, ts, hpage, hslot⟩ := hinserted.found (hnext.trans_lt hids)
        have hnew : Located (Filesystem.appended content loc.pageId value) (some value)
          (some loc.encode) :=
          .stored hfits hpage hslot
        have hlayers := h.layers.write (w := (key, some loc.encode)) hindex
        exact Or.inl ⟨rfl, loc.encode, length_encode_loc loc, hindex, hlayers, hready,
          List.rel_append hindexed (.cons ⟨rfl, hnew⟩ .nil), hnext.trans_lt hids⟩

theorem Holding.delete_cases (crc32 : Bytes → UInt32) (h : Holding B crc ws ils lo content hs e)
    (key : Bytes) :
    ∃ r e', e.delete crc32 key = (r, e') ∧ e'.heap = e.heap
      ∧ ((r = .ok () ∧ e.index.write crc32 key [] .delete = (.ok (), e'.index)
          ∧ Holding B crc (ws ++ [(key, none)]) (ils ++ [(key, none)]) lo content hs e')
        ∨ (∃ f, r = .error f) ∧ Holding B crc ws ils lo content hs e'
          ∧ ∃ f, e.index.write crc32 key [] .delete = (.error f, e'.index)) := by
  rw [StorageEngine.delete]
  cases hwrite : e.index.delete crc32 key with
  | mk r index =>
    refine ⟨_, _, rfl, rfl, ?_⟩
    cases r with
    | error f =>
      have hindex : e.index.write crc32 key [] .delete = (.error f, index) := hwrite
      exact Or.inr ⟨⟨_, rfl⟩, ⟨h.layers.refuse hindex, h.heap, h.indexed, h.ids⟩, f, hindex⟩
    | ok u =>
      have hindex : e.index.write crc32 key [] .delete = (.ok (), index) := hwrite
      have hlayers := h.layers.write (w := (key, none)) hindex
      exact Or.inl ⟨rfl, hindex, hlayers, h.heap,
        List.rel_append h.indexed (.cons ⟨rfl, .absent⟩ .nil), h.ids⟩

theorem encode_put_lt {loc : Bytes} (hkey : key.length + 27 < 2 ^ 32) (hloc : loc.length = 10)
    (i : Nat) : (Lsm.logEntry i (key, some loc)).encode.length < 2 ^ 32 := by
  simp only [Lsm.logEntry, Lsm.length_encode, Lsm.entrySize, Option.getD_some]
  omega

theorem encode_delete_lt (hkey : key.length + 17 < 2 ^ 32) (i : Nat) :
    (Lsm.logEntry i (key, none)).encode.length < 2 ^ 32 := by
  simp only [Lsm.logEntry, Lsm.length_encode, Lsm.entrySize, Option.getD_none, List.length_nil]
  omega

theorem Sound.put (h : Sound B crc32 crc ws [] e) (hzero : ¬ Verifies crc Block.zeroed)
    (hkey : key.length + 27 < 2 ^ 32) (hids : e.heap.cache.block.nextId + 1 < 2 ^ 64)
    (hput : e.put crc32 crc hash key value = (.ok (), e')) :
    Sound B crc32 crc (ws ++ [(key, some value)]) [] e' := by
  obtain ⟨ils, lo, content, hinv⟩ := h
  obtain ⟨r, e₁, content', hrun, -, ⟨-, loc, hlen, hindex, h'⟩ | ⟨⟨f, rfl⟩, -⟩⟩ :=
    hinv.put_cases crc32 hash hzero hids key value
  · obtain ⟨-, rfl⟩ := Prod.mk.inj (hput.symm.trans hrun)
    exact ⟨_, lo, content', h', hinv.index.write (encode_put_lt hkey hlen _) hindex⟩
  · cases (Prod.mk.inj (hput.symm.trans hrun)).1

theorem Sound.delete (h : Sound B crc32 crc ws hs e) (hkey : key.length + 17 < 2 ^ 32)
    (hdelete : e.delete crc32 key = (.ok (), e')) :
    Sound B crc32 crc (ws ++ [(key, none)]) hs e' := by
  obtain ⟨ils, lo, content, hinv⟩ := h
  obtain ⟨r, e₁, hrun, -, ⟨-, hindex, h'⟩ | ⟨⟨f, rfl⟩, -⟩⟩ := hinv.delete_cases crc32 key
  · obtain ⟨-, rfl⟩ := Prod.mk.inj (hdelete.symm.trans hrun)
    exact ⟨_, lo, content, h', hinv.index.write (encode_delete_lt hkey _) hindex⟩
  · cases (Prod.mk.inj (hdelete.symm.trans hrun)).1

/-- **A flush** changes nothing that is read, and leaves no page to be written. -/
theorem Holding.flush (h : Holding B crc ws ils lo content hs e) {refused : Bool}
    (hinv : Lsm.Inv B crc32 ils lo refused e.index) (hfits : Lsm.LsmFits B e.index .flush)
    (hflush : e.flush B crc32 crc hash = (.ok (), e')) :
    Sound B crc32 crc ws hs e' ∧ ¬ Inner.Pending e'.heap.cache := by
  obtain ⟨h', hrun, hready, hclean, -, hnext⟩ := h.heap.flush hash
  rw [StorageEngine.flush, hrun] at hflush
  cases hindex : e.index.flush B crc32 with
  | error f =>
    rw [hindex] at hflush
    cases (Prod.mk.inj hflush).1
  | ok index =>
    rw [hindex] at hflush
    obtain ⟨-, rfl⟩ := Prod.mk.inj hflush
    obtain ⟨lo', hinv'⟩ := hinv.flush hfits hindex
    exact ⟨⟨ils, lo', content, ⟨hinv'.toLayered, hready, h.indexed, by rw [hnext]; exact h.ids⟩,
      hinv'⟩, hclean⟩

theorem Sound.flush (h : Sound B crc32 crc ws hs e) (hfits : Lsm.LsmFits B e.index .flush)
    (hflush : e.flush B crc32 crc hash = (.ok (), e')) :
    Sound B crc32 crc ws hs e' ∧ ¬ Inner.Pending e'.heap.cache := by
  obtain ⟨ils, lo, content, hinv⟩ := h
  exact hinv.toHolding.flush hinv.index hfits hflush

theorem Sound.reopen (h : Sound B crc32 crc ws hs e) (hreads : ∀ k ∈ hs, k.write = false)
    (hclean : ¬ Inner.Pending e.heap.cache) {config : LsmConfig}
    (hlevels : 0 < config.numLevels % 2 ^ 32) {capacity : Nat}
    (hopen : DiskEngine.open crc32 hash e.disk config (.withCapacity capacity) = .ok e') :
    Sound B crc32 crc ws [] e' := by
  obtain ⟨ils, lo, content, hinv⟩ := h
  obtain ⟨hindex, hheap⟩ := DiskEngine.open_eq_ok.mp hopen
  obtain ⟨h', hrun, hready, hnext, -⟩ := hinv.heap.reopen hash hreads hclean hinv.ids HEAP_FRAMES
  obtain rfl := Except.ok.inj (hheap.symm.trans hrun)
  have hinv' := hinv.index.reopen hlevels hindex
  exact ⟨ils, lo, content, ⟨hinv'.toLayered, hready, hinv.indexed, by rw [hnext]; exact hinv.ids⟩,
    hinv'⟩

/-! ### Reads -/

theorem decodeLoc_encode {loc : TupleLoc} (h : loc.Fits) : decodeLoc loc.encode = .ok loc := by
  rw [decodeLoc, TupleLoc.decode_encode h]

theorem Located.decode {bytes : Bytes} (h : Located content (some value) (some bytes)) :
    ∃ loc ts, decodeLoc bytes = .ok loc ∧ content loc.pageId = some ts
      ∧ ts[loc.slotId]? = some value := by
  cases h with
  | @stored loc ts _ fits page slot => exact ⟨loc, ts, decodeLoc_encode fits, page, slot⟩

def StorageEngine.TupleRef.handle {n : Nat} (r : StorageEngine.TupleRef n) :
    Handle n := ⟨false, r.frame, r.pageId⟩

theorem EngineInv.of_read {hs' : List (Handle HEAP_FRAMES)}
    (hinv : EngineInv B crc32 crc ws ils lo content hs e) (hindex : e'.index = e.index)
    (h : Holding B crc ws ils lo content hs' e') : EngineInv B crc32 crc ws ils lo content hs' e' :=
  ⟨h, by rw [hindex]; exact hinv.index⟩

/-- **A view** shows the last value put, and pins a page; it fails only if every frame is
    pinned. -/
theorem Holding.view_cases (hash : Bytes → UInt32) (h : Holding B crc ws ils lo content hs e)
    (hreads : ∀ k ∈ hs, k.write = false) (key : Bytes) :
    ∃ r e', e.view B crc hash key = (r, e') ∧ e'.index = e.index
      ∧ e'.heap.cache.block.nextId = e.heap.cache.block.nextId
      ∧ ((∃ ref, r = .ok ref ∧ Holding B crc ws ils lo content (ref.toList.map (·.handle) ++ hs) e'
          ∧ ref.map e'.bytes = (VersionedMap.apply ws key).map some)
        ∨ (∃ f, r = .error f) ∧ Holding B crc ws ils lo content hs e' ∧ ¬ Idle hs) := by
  have hget := h.layers.serves.get key
  have hlocated := h.indexed.apply key
  rw [StorageEngine.view, hget]
  generalize VersionedMap.apply ils key = il at hlocated
  generalize VersionedMap.apply ws key = w at hlocated
  cases hlocated with
  | absent => exact ⟨_, e, rfl, rfl, rfl, Or.inl ⟨none, rfl, h, rfl⟩⟩
  | @stored loc ts value fits page slot =>
    obtain ⟨r, c, hrun, hnext, hcases⟩ := h.heap.pin_cases hash hreads page
    have hids : c.block.nextId < 2 ^ 64 := by rw [hnext]; exact h.ids
    simp only [decodeLoc_encode fits, hrun]
    rcases hcases with ⟨f, rfl, hready⟩ | ⟨⟨e, rfl⟩, hready, hfull⟩
    · have hshows := hready.toHeapInv.shows List.mem_cons_self page loc.slotId
      rw [slot] at hshows
      exact ⟨_, _, rfl, rfl, hnext, Or.inl ⟨_, rfl, ⟨h.layers, hready, h.indexed, hids⟩,
        congrArg some hshows⟩⟩
    · exact ⟨_, _, rfl, rfl, hnext, Or.inr ⟨⟨_, rfl⟩, ⟨h.layers, hready, h.indexed, hids⟩, hfull⟩⟩

theorem Holding.drop {r : StorageEngine.TupleRef HEAP_FRAMES} {hs' : List (Handle HEAP_FRAMES)}
    (h : Holding B crc ws ils lo content hs' e) (hperm : hs'.Perm (r.handle :: hs)) :
    Holding B crc ws ils lo content hs (e.drop r) :=
  ⟨h.layers, (h.heap.perm hperm).unpin, h.indexed, h.ids⟩

end Calls

section Scans

variable {B : FastBloom} {crc32 : Bytes → UInt32} {crc : Crc32c} {hash : Bytes → UInt32} {n : Nat}
  {content : Nat → Option (List Bytes)} {hs : List (Handle n)} {h : DiskHeap n}
    {current : Option (Nat × Fin n)}

def pinned (current : Option (Nat × Fin n)) :
    List (Handle n) := current.toList.map fun p => ⟨false, p.2, p.1⟩

def Roomy (hs : List (Handle n)) :
    Prop := ∃ f g : Fin n, f ≠ g ∧ ∀ k ∈ hs, k.frame ≠ f ∧ k.frame ≠ g

theorem Roomy.idle (hroomy : Roomy hs) (hreads : ∀ k ∈ hs, k.write = false)
    (current : Option (Nat × Fin n)) : Idle (pinned current ++ hs) := by
  obtain ⟨f, g, hfg, hfree⟩ := hroomy
  have hreads' : ∀ k ∈ pinned current ++ hs, k.write = false := by
    intro k hk
    rcases List.mem_append.mp hk with hk | hk
    · obtain ⟨p, -, rfl⟩ := List.mem_map.mp hk
      rfl
    · exact hreads k hk
  refine ⟨?_, hreads'⟩
  cases current with
  | none => exact ⟨f, fun k hk => (hfree k hk).1⟩
  | some p =>
    by_cases hp : p.2 = f
    · -- of two free frames one is not the pinned one
      refine ⟨g, fun k hk => ?_⟩
      rcases List.mem_cons.mp hk with rfl | hk
      · exact fun heq => hfg (hp.symm.trans heq)
      · exact (hfree k hk).2
    · refine ⟨f, fun k hk => ?_⟩
      rcases List.mem_cons.mp hk with rfl | hk
      · exact hp
      · exact (hfree k hk).1

theorem Scan.pin_cases (hash : Bytes → UInt32)
    (hready : HeapReady crc h (pinned current ++ hs) content) (hreads : ∀ k ∈ hs, k.write = false)
    {id : Nat} {ts : List Bytes} (hts : content id = some ts) :
    ∃ r c, Scan.pin crc hash h.cache current id = (r, c) ∧ c.block.nextId = h.cache.block.nextId
      ∧ ((∃ f, r = .ok f ∧ HeapReady crc { h with cache := c } (⟨false, f, id⟩ :: hs) content)
        ∨ (∃ e, r = .error e) ∧ HeapReady crc { h with cache := c } (pinned current ++ hs) content
          ∧ ¬ Idle (pinned current ++ hs)) := by
  cases current with
  | none => exact hready.pin_cases hash hreads hts
  | some held =>
    obtain ⟨heldId, f⟩ := held
    rw [Scan.pin]
    by_cases hid : heldId = id
    · -- the page of the last row serves this one too
      subst hid
      exact ⟨.ok f, h.cache, if_pos rfl, rfl, Or.inl ⟨f, rfl, hready⟩⟩
    · have hreads' : ∀ k ∈ pinned (some (heldId, f)) ++ hs, k.write = false := by
        intro k hk
        rcases List.mem_cons.mp hk with rfl | hk
        · rfl
        · exact hreads k hk
      obtain ⟨r, c, hrun, hnext, ⟨f', rfl, hready'⟩ | ⟨⟨e, rfl⟩, hready', hfull⟩⟩ :=
        hready.pin_cases hash hreads' hts
      · refine ⟨.ok f', c.releaseRead f, by simp only [if_neg hid, hrun], hnext,
          Or.inl ⟨f', rfl, ?_⟩⟩
        exact (hready'.perm (List.Perm.swap _ _ _)).unpin
      · exact ⟨.error e, c, by simp only [if_neg hid, hrun], hnext,
          Or.inr ⟨⟨e, rfl⟩, hready', hfull⟩⟩

theorem Scan.rows_cases (hash : Bytes → UInt32) {rows items : List (Bytes × Bytes)}
    (hlocated : List.Forall₂ (fun row item => row.1 = item.1
      ∧ Located content (some row.2) (some item.2)) rows items)
    (hready : HeapReady crc h (pinned current ++ hs) content) (hreads : ∀ k ∈ hs, k.write = false) :
    ∃ out c, Scan.rows crc hash (items.map .ok) current h.cache = (out, c)
      ∧ HeapReady crc { h with cache := c } hs content ∧ c.block.nextId = h.cache.block.nextId
      ∧ (Roomy hs → out = rows.map fun row => .ok (row.1, some row.2)) := by
  induction hlocated generalizing h current with
  | nil =>
    cases current with
    | none => exact ⟨[], h.cache, rfl, hready, rfl, fun _ => rfl⟩
    | some held => exact ⟨[], h.cache.releaseRead held.2, rfl, hready.unpin, rfl, fun _ => rfl⟩
  | @cons row item rows items hrow _ ih =>
    obtain ⟨key, value⟩ := row
    obtain ⟨_, locBytes⟩ := item
    obtain ⟨rfl, hlocated⟩ := hrow
    obtain ⟨loc, ts, hdecode, page, slot⟩ := hlocated.decode
    simp only [List.map_cons, Scan.rows, hdecode]
    obtain ⟨r, c, hpin, hnext, ⟨f, rfl, hready'⟩ | ⟨⟨e, rfl⟩, hready', hfull⟩⟩ :=
      Scan.pin_cases hash hready hreads page
    · obtain ⟨out, c', hrows, hready'', hnext', hout⟩ :=
        @ih { h with cache := c } (some (loc.pageId, f)) hready'
      have hshows := hready'.toHeapInv.shows List.mem_cons_self page loc.slotId
      rw [slot] at hshows
      refine ⟨.ok (key, some value) :: out, c', ?_, hready'', hnext'.trans hnext, fun hroomy => ?_⟩
      · rw [hpin]
        dsimp only
        rw [hrows]
        exact congrArg (fun bytes => (Except.ok (key, bytes) :: out, c')) hshows
      · rw [hout hroomy]
    · obtain ⟨out, c', hrows, hready'', hnext', -⟩ := @ih { h with cache := c } current hready'
      refine ⟨.error (.ofBlock e) :: out, c', ?_, hready'', hnext'.trans hnext,
        fun hroomy => absurd (hroomy.idle hreads current) hfull⟩
      rw [hpin]
      dsimp only
      rw [hrows]

end Scans

/-- **A scan** gives the keys of its range with their last values, in ascending order. -/
theorem Holding.scan {B : FastBloom} {crc : Crc32c} (hash : Bytes → UInt32) {ws ils : List Write}
    {lo : Nat} {content : Nat → Option (List Bytes)} {hs : List (Handle HEAP_FRAMES)}
    {e : DiskEngine} (h : Holding B crc ws ils lo content hs e) (hreads : ∀ k ∈ hs, k.write = false)
    {start stop : Bound Bytes}
    (hrange : reversed start stop = false ∨ e.index.mem.inner.entries = []) :
    ∃ (rows : List (Bytes × Bytes)) (out : List (Except StorageError (Bytes × Option Bytes)))
      (e' : DiskEngine),
      e.scan B crc hash start stop = (.ok out, e') ∧ e'.index = e.index
      ∧ e'.heap.cache.block.nextId = e.heap.cache.block.nextId
      ∧ Holding B crc ws ils lo content hs e' ∧ rows.Pairwise (fun a b => a.1 < b.1)
      ∧ (∀ key value, (key, value) ∈ rows ↔
        inBounds start stop key = true ∧ VersionedMap.apply ws key = some value)
      ∧ (Roomy hs → out = rows.map fun row => .ok (row.1, some row.2)) := by
  obtain ⟨items, hscan, hsorted, hmem⟩ := h.layers.scanAt hrange e.index.seq
  rw [h.layers.seq, List.take_length] at hmem
  -- the value of a row is what the history has for its key
  let row (item : Bytes × Bytes) : Bytes × Bytes := (item.1, (VersionedMap.apply ws item.1).getD [])
  have hvalue : ∀ item ∈ items, VersionedMap.apply ws item.1 = some (row item).2
      ∧ Located content (some (row item).2) (some item.2) := by
    intro item hitem
    have hlocated := h.indexed.apply item.1
    rw [((hmem item.1 item.2).mp hitem).2] at hlocated
    obtain ⟨value, hvalue⟩ := Option.isSome_iff_exists.mp hlocated.isSome_eq
    rw [hvalue] at hlocated
    simp only [row, hvalue]
    exact ⟨rfl, hlocated⟩
  have hlocated :
      List.Forall₂ (fun row item => row.1 = item.1 ∧ Located content (some row.2) (some item.2))
      (items.map row) items := by
    rw [List.forall₂_map_left_iff, List.forall₂_same]
    exact fun item hitem => ⟨rfl, (hvalue item hitem).2⟩
  obtain ⟨out, c, hrows, hready, hnext, hout⟩ :=
    @Scan.rows_cases crc HEAP_FRAMES content hs e.heap none hash _ _
    hlocated h.heap hreads
  refine ⟨items.map row, out, { e with heap := { e.heap with cache := c } }, ?_, rfl, hnext,
    ⟨h.layers, hready, h.indexed, by rw [hnext]; exact h.ids⟩, ?_, fun key value => ?_, hout⟩
  · rw [StorageEngine.scan, StorageEngine.scanAt, hscan]
    simp only [hrows]
  · rw [List.pairwise_map]
    exact hsorted
  · rw [List.mem_map]
    constructor
    · rintro ⟨item, hitem, heq⟩
      obtain ⟨rfl, rfl⟩ := Prod.mk.inj heq
      exact ⟨((hmem item.1 item.2).mp hitem).1, (hvalue item hitem).1⟩
    · rintro ⟨hin, happly⟩
      have hlocated := h.indexed.apply key
      rw [happly] at hlocated
      obtain ⟨bytes, hbytes⟩ := Option.isSome_iff_exists.mp hlocated.isSome_eq.symm
      exact ⟨(key, bytes), (hmem key bytes).mpr ⟨hin, hbytes⟩, by simp [row, happly]⟩

end StrataDb.Store
