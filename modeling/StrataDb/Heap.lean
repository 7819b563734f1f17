import StrataDb.PageCacheOperations
import StrataDb.TuplePage

/-!
# The tuple heap (`crates/filesystem/src/tuple/heap.rs`, `loc.rs`)

Tuples are appended to one current page until one does not fit; then a page is allocated.
`HeapInv` relates a heap to the tuples its pages are known to store.
-/

namespace StrataDb.Filesystem

open ByteCodec BlockStore LawfulBlockStore
open Function (update update_self)

namespace Inner

variable {V P : Type} {n : Nat} [BlockStore V] [EvictionPolicy P (Fin n)]
variable (crc : Crc32c) (hash : Bytes → UInt32) {α : Type}

def withRead (c : Inner V P n) (id : Nat) (look : Block → α) : Except FsError α × Inner V P n :=
  match c.acquireRead crc hash id with
  | (.error e, c) => (.error e, c)
  | (.ok f, c) => (.ok (look (c.frames f).buf), c.releaseRead f)

def withWrite (c : Inner V P n) (id : Nat) (change : Block → Except FsError α × Block) :
    Except FsError α × Inner V P n :=
  match c.acquireWrite crc hash id with
  | (.error e, c) => (.error e, c)
  | (.ok f, c) =>
    let r := change (c.frames f).buf
    (r.1, (c.modify f (fun fr => { fr with buf := r.2 })).releaseWrite f)

def withNew (c : Inner V P n) (change : Block → Except FsError α × Block) :
    Except FsError (Nat × α) × Inner V P n :=
  match c.allocate crc hash with
  | (.error e, c) => (.error e, c)
  | (.ok (id, f), c) =>
    let r := change (c.frames f).buf
    (r.1.map (fun a => (id, a)), (c.modify f (fun fr => { fr with buf := r.2 })).releaseWrite f)

end Inner

/-! ### The heap -/

structure TupleLoc where
  pageId : Nat
  slotId : Nat
deriving DecidableEq, Repr

namespace TupleLoc

def ENCODED_LEN : Nat := 10

def encode (loc : TupleLoc) : Bytes := beBytes 8 loc.pageId ++ beBytes 2 loc.slotId

def decode (bytes : Bytes) : Option TupleLoc :=
  if bytes.length = ENCODED_LEN then
    some ⟨beNat (bytes.take 8), beNat (bytes.drop 8)⟩
  else none

def Fits (loc : TupleLoc) : Prop := loc.pageId < 2 ^ 64 ∧ loc.slotId < 2 ^ 16

theorem decode_encode {loc : TupleLoc} (h : loc.Fits) : decode loc.encode = some loc := by
  have hlen : (beBytes 8 loc.pageId).length = 8 := length_beBytes 8 _
  rw [decode, encode, if_pos (by simp [ENCODED_LEN]), List.take_left' hlen, List.drop_left' hlen,
    beNat_beBytes_of_lt h.1, beNat_beBytes_of_lt h.2]

end TupleLoc

structure Heap (V P : Type) (n : Nat) where
  cache : Inner V P n
  current : Option Nat

namespace Heap

variable {V P : Type} {n : Nat} [BlockStore V] [EvictionPolicy P (Fin n)]
variable (crc : Crc32c) (hash : Bytes → UInt32)

def new (cache : Inner V P n) : Heap V P n := ⟨cache, none⟩

def appendTo (tuple : Bytes) (buf : Block) : Except FsError (Option Nat) × Block :=
  match TuplePage.open buf with
  | .error e => (.error e, buf)
  | .ok () =>
    match TuplePage.insert buf tuple with
    | some (slot, buf) => (.ok (some slot), buf)
    | none => (.ok none, buf)

def appendToNew (tuple : Bytes) (buf : Block) : Except FsError Nat × Block :=
  let buf := TuplePage.init buf
  match TuplePage.insert buf tuple with
  | some (slot, buf) => (.ok slot, buf)
  | none => (.error (.tupleTooLarge tuple.length (TuplePage.freeSpace buf)), buf)

def appendToNewPage (h : Heap V P n) (tuple : Bytes) : Except FsError TupleLoc × Heap V P n :=
  match h.cache.withNew crc hash (appendToNew tuple) with
  | (.error e, cache) => (.error e, { h with cache := cache })
  | (.ok (id, slot), cache) => (.ok ⟨id, slot⟩, ⟨cache, some id⟩)

def insert (h : Heap V P n) (tuple : Bytes) : Except FsError TupleLoc × Heap V P n :=
  match h.current with
  | none => h.appendToNewPage crc hash tuple
  | some id =>
    match h.cache.withWrite crc hash id (appendTo tuple) with
    | (.error e, cache) => (.error e, { h with cache := cache })
    | (.ok (some slot), cache) => (.ok ⟨id, slot⟩, { h with cache := cache })
    | (.ok none, cache) => { h with cache := cache }.appendToNewPage crc hash tuple

/-- The bytes a view of a slot shows; none if it is deleted or the page is no tuple page. -/
def viewBytes (slot : Nat) (buf : Block) : Option Bytes :=
  match TuplePage.open buf with
  | .ok () => TuplePage.get buf slot
  | .error _ => none

def get (h : Heap V P n) (loc : TupleLoc) : Except FsError (Option Bytes) × Heap V P n :=
  let r := h.cache.withRead crc hash loc.pageId (viewBytes loc.slotId)
  (r.1, { h with cache := r.2 })

def pageTuples (buf : Block) : List Bytes :=
  match TuplePage.open buf with
  | .ok () => TuplePage.tuples buf
  | .error _ => []

def page (h : Heap V P n) (id : Nat) : Except FsError (List Bytes) × Heap V P n :=
  let r := h.cache.withRead crc hash id pageTuples
  (r.1, { h with cache := r.2 })

def flush (h : Heap V P n) : Except FsError Unit × Heap V P n :=
  let r := h.cache.flush crc hash
  (r.1, { h with cache := r.2 })

end Heap

/-! ### What the handles do to the pages -/

structure Idle {n : Nat} (hs : List (Handle n)) : Prop where
  room : ∃ f : Fin n, ∀ k ∈ hs, k.frame ≠ f
  reads : ∀ k ∈ hs, k.write = false

theorem idle_nil {n : Nat} (h : 0 < n) : Idle ([] : List (Handle n)) := ⟨⟨⟨0, h⟩, nofun⟩, nofun⟩

theorem Idle.not_exhausted {n : Nat} {hs : List (Handle n)} (h : Idle hs) :
    ¬ ∀ f, ∃ k ∈ hs, k.frame = f := by
  intro hall
  obtain ⟨f, hf⟩ := h.room
  obtain ⟨k, hk, hkf⟩ := hall f
  exact hf k hk hkf

section Specs

variable {V P : Type} {n : Nat} [BlockStore V] [LawfulBlockStore V]
variable [EvictionPolicy P (Fin n)] [LawfulPolicy P] {crc : Crc32c} {hash : Bytes → UInt32}
variable {hs : List (Handle n)}

section Pages

variable {c : Inner V P n} {pages : Nat → Option Block} {id : Nat} {b : Block} {α : Type}

theorem Inner.Inv.shows {write : Bool} {f : Fin n}
    (h : Inner.Inv crc none c (⟨write, f, id⟩ :: hs) pages) (hpage : pages id = some b) :
    (c.frames f).buf.Agrees b := by
  obtain ⟨b', hb', hagrees⟩ := h.contents.resident f id (h.pins.handle _ List.mem_cons_self)
  rwa [Option.some.inj (hpage.symm.trans hb')]

theorem Inner.Inv.withRead (h : Inner.Inv crc none c hs pages) (hidle : Idle hs)
    (hpage : pages id = some b) (look : Block → α) :
    ∃ b' c', c.withRead crc hash id look = (.ok (look b'), c') ∧ b'.Agrees b
      ∧ Inner.Inv crc none c' hs pages ∧ Inner.Calm c c' := by
  have hacquired : Inner.Acquired crc c hs pages false id (c.acquireRead crc hash id) :=
    h.acquireRead (h.contents.live id b hpage).1
  rw [Inner.withRead]
  generalize c.acquireRead crc hash id = r at hacquired
  cases hacquired with
  | @ok f c₁ inv calm =>
    exact ⟨(c₁.frames f).buf, c₁.releaseRead f, rfl, inv.shows hpage, inv.releaseRead,
      calm.trans (.of_eq rfl rfl)⟩
  | busy mem page conflict =>
    rw [hidle.reads _ mem] at conflict
    simp at conflict
  | exhausted inv calm pinned => exact absurd pinned hidle.not_exhausted
  | absent inv calm page =>
    rw [hpage] at page
    cases page

theorem Inner.Inv.withWrite (h : Inner.Inv crc none c hs pages) (hidle : Idle hs)
    (hpage : pages id = some b) (hfree : ∀ k ∈ hs, k.pageId ≠ id)
    (change : Block → Except FsError α × Block) :
    ∃ b' c', c.withWrite crc hash id change = ((change b').1, c') ∧ b'.Agrees b
      ∧ Inner.Inv crc none c' hs (update pages id (some (change b').2))
      ∧ Inner.Calm c c' := by
  have hacquired : Inner.Acquired crc c hs pages true id (c.acquireWrite crc hash id) :=
    h.acquireWrite (h.contents.live id b hpage).1
  rw [Inner.withWrite]
  generalize c.acquireWrite crc hash id = r at hacquired
  cases hacquired with
  | @ok f c₁ inv calm =>
    have hedit := inv.edit List.mem_cons_self rfl (change (c₁.frames f).buf).2
    exact ⟨(c₁.frames f).buf, _, rfl, inv.shows hpage, hedit.releaseWrite,
      calm.trans (.of_eq rfl rfl)⟩
  | busy mem page conflict => exact absurd page (hfree _ mem)
  | exhausted inv calm pinned => exact absurd pinned hidle.not_exhausted
  | absent inv calm page =>
    rw [hpage] at page
    cases page

theorem Inner.Inv.withNew (h : Inner.Inv crc none c hs pages) (hidle : Idle hs)
    (hzero : ¬ Verifies crc Block.zeroed) (change : Block → Except FsError α × Block) :
    ∃ id b' v c', c.withNew crc hash change = ((change b').1.map (fun a => (id, a)), c')
      ∧ BlockStore.allocate c.block = .ok (id, v) ∧ pages id = none
      ∧ Inner.Inv crc none c' hs (update pages id (some (change b').2))
      ∧ Inner.Calm { c with block := v } c' := by
  have hallocated := h.allocate hash hzero
  rw [Inner.withNew]
  generalize c.allocate crc hash = r at hallocated
  cases hallocated with
  | @ok id f c₁ v issued calm new inv =>
    have hedit := inv.edit List.mem_cons_self rfl (change (c₁.frames f).buf).2
    rw [Function.update_idem] at hedit
    exact ⟨id, (c₁.frames f).buf, v, _, rfl, issued, new, hedit.releaseWrite,
      calm.trans (.of_eq rfl rfl)⟩
  | exhausted issued calm inv pinned => exact absurd pinned hidle.not_exhausted

end Pages

/-! ### Appending to a page -/

def maxTuple : Nat := PAGE_SIZE - SLOT_ARRAY_OFFSET - SLOT_SIZE

variable {t : Bytes}

theorem fits_of_le (h : t.length ≤ maxTuple) : t.length + SLOT_SIZE ≤ freeBytes [] := by
  have hconst : maxTuple + SLOT_SIZE = freeBytes [] := by decide
  omega

theorem freeBytes_le (ts : List Bytes) : freeBytes ts ≤ freeBytes [] := by
  have hpos : TuplePage.slotPos 0 ≤ TuplePage.slotPos ts.length := slotPos_mono (Nat.zero_le _)
  have hnil : freeBytes [] = PAGE_SIZE - 0 - TuplePage.slotPos 0 := rfl
  rw [hnil, freeBytes]
  omega

variable {ts : List Bytes}

theorem full_of_lt (h : maxTuple < t.length) : freeBytes ts < t.length + SLOT_SIZE := by
  have hconst : freeBytes [] < maxTuple + SLOT_SIZE + 1 := by decide
  have hmore := freeBytes_le ts
  omega

theorem Holds.appendTo {b : Block} (h : Holds b ts) (hfits : t.length + SLOT_SIZE ≤ freeBytes ts) :
    ∃ b', Heap.appendTo t b = (.ok (some ts.length), b') ∧ Holds b' (ts ++ [t]) := by
  obtain ⟨b', hinsert, hholds⟩ := h.insert hfits
  exact ⟨b', by rw [Heap.appendTo, h.opens, hinsert], hholds⟩

theorem Holds.appendTo_full {b : Block} (h : Holds b ts)
    (hfull : freeBytes ts < t.length + SLOT_SIZE) : Heap.appendTo t b = (.ok none, b) := by
  rw [Heap.appendTo, h.opens, h.insert_full hfull]

theorem holds_appendToNew (b : Block) (hfits : t.length ≤ maxTuple) :
    ∃ b', Heap.appendToNew t b = (.ok 0, b') ∧ Holds b' [t] := by
  obtain ⟨b', hinsert, hholds⟩ := (holds_init b).insert (fits_of_le hfits)
  exact ⟨b', by rw [Heap.appendToNew, hinsert, List.length_nil], hholds⟩

theorem appendToNew_too_large (b : Block) (hlarge : maxTuple < t.length) :
    Heap.appendToNew t b = (.error (.tupleTooLarge t.length maxTuple), TuplePage.init b) := by
  rw [Heap.appendToNew, (holds_init b).insert_full (full_of_lt hlarge), (holds_init b).freeSpace_eq]
  rfl

/-! ### The invariant of a heap -/

/-- The pages of the heap that are known to store tuples store `content`; the page being
    filled is one of them. -/
structure HeapInv (crc : Crc32c) (h : Heap V P n) (hs : List (Handle n))
    (content : Nat → Option (List Bytes)) : Prop where
  pages : ∃ pages, Inner.Inv crc none h.cache hs pages
    ∧ ∀ id ts, content id = some ts → ∃ b, pages id = some b ∧ Holds b ts
  current : ∀ id, h.current = some id → ∃ ts, content id = some ts

def tuplesAt (content : Nat → Option (List Bytes)) (id : Nat) : List Bytes := (content id).getD []

def appended (content : Nat → Option (List Bytes)) (id : Nat) (t : Bytes) :
    Nat → Option (List Bytes) :=
  update content id (some (tuplesAt content id ++ [t]))

section Heap

variable {h : Heap V P n} {content : Nat → Option (List Bytes)} {t : Bytes}

/-- Where an insertion puts a tuple: at the end of the page being filled, or on a page
    that is not in use. -/
structure Inserted (crc : Crc32c) (h : Heap V P n) (hs : List (Handle n))
    (content : Nat → Option (List Bytes)) (t : Bytes) (loc : TupleLoc)
    (h' : Heap V P n) : Prop where
  slot : loc.slotId = (tuplesAt content loc.pageId).length
  page : h.current = some loc.pageId ∨ content loc.pageId = none
  current : h'.current = some loc.pageId
  inv : HeapInv crc h' hs (appended content loc.pageId t)

theorem holds_update {pages : Nat → Option Block} {id : Nat} {b : Block} {ts : List Bytes}
    (hholds : ∀ id ts, content id = some ts → ∃ b, pages id = some b ∧ Holds b ts)
    (hnew : Holds b ts) (j : Nat) (us : List Bytes)
    (hj : update content id (some ts) j = some us) :
    ∃ b', update pages id (some b) j = some b' ∧ Holds b' us := by
  rw [Function.update_apply] at hj ⊢
  split_ifs at hj ⊢ with heq
  · obtain rfl := Option.some.inj hj
    exact ⟨b, rfl, hnew⟩
  · exact hholds j us hj

theorem HeapInv.appendToNewPage (hash : Bytes → UInt32) (hinv : HeapInv crc h hs content)
    (hidle : Idle hs) (hzero : ¬ Verifies crc Block.zeroed) (hfits : t.length ≤ maxTuple) :
    ∃ loc h', h.appendToNewPage crc hash t = (.ok loc, h') ∧ Inserted crc h hs content t loc h'
      ∧ content loc.pageId = none := by
  obtain ⟨pages, hcache, hholds⟩ := hinv.pages
  obtain ⟨id, b, v, c, hrun, -, hnew, hcache', -⟩ :=
    @Inner.Inv.withNew V P n _ _ _ _ crc hash hs h.cache pages Nat hcache hidle hzero
      (Heap.appendToNew t)
  obtain ⟨b', happend, hb'⟩ := holds_appendToNew b hfits
  rw [happend] at hrun hcache'
  have hunused : content id = none := by
    by_contra hsome
    obtain ⟨ts, hts⟩ := Option.ne_none_iff_exists'.mp hsome
    obtain ⟨b₀, hb₀, -⟩ := hholds id ts hts
    rw [hnew] at hb₀
    cases hb₀
  have hempty : tuplesAt content id = [] := by rw [tuplesAt, hunused, Option.getD_none]
  refine ⟨⟨id, 0⟩, ⟨c, some id⟩, ?_, ⟨?_, Or.inr hunused, rfl, ⟨_, hcache', ?_⟩, ?_⟩, hunused⟩
  · rw [Heap.appendToNewPage, hrun]
    rfl
  · rw [hempty, List.length_nil]
  · rw [appended, hempty]
    exact holds_update hholds hb'
  · intro j hj
    obtain rfl := Option.some.inj hj
    exact ⟨_, update_self ..⟩

theorem HeapInv.tryAppend_full (hash : Bytes → UInt32) (hinv : HeapInv crc h hs content)
    (hidle : Idle hs) (hfree : ∀ id, h.current = some id → ∀ k ∈ hs, k.pageId ≠ id) {id : Nat}
    (hcurrent : h.current = some id)
    (hfull : ∀ ts, content id = some ts → freeBytes ts < t.length + SLOT_SIZE) :
    ∃ c, h.cache.withWrite crc hash id (Heap.appendTo t) = (.ok none, c)
      ∧ HeapInv crc { h with cache := c } hs content := by
  obtain ⟨pages, hcache, hholds⟩ := hinv.pages
  obtain ⟨ts, hts⟩ := hinv.current id hcurrent
  obtain ⟨b, hb, hbts⟩ := hholds id ts hts
  obtain ⟨b', c, hrun, hagrees, hcache', -⟩ :=
    @Inner.Inv.withWrite V P n _ _ _ _ crc hash hs h.cache pages id b (Option Nat) hcache hidle hb
      (hfree id hcurrent) (Heap.appendTo t)
  have hb' := hbts.agrees hagrees
  rw [hb'.appendTo_full (hfull ts hts)] at hrun hcache'
  refine ⟨c, hrun, ⟨_, hcache', ?_⟩, hinv.current⟩
  have hupdate := @holds_update content pages id b' ts hholds hb'
  rwa [Function.update_eq_self_iff.mpr hts.symm] at hupdate

/-- **A tuple that fits a page is stored**, at the end of the page being filled if it has
    room there or else on a new one, and nothing else changes. -/
theorem HeapInv.insert_at (hash : Bytes → UInt32) (hinv : HeapInv crc h hs content)
    (hidle : Idle hs) (hfree : ∀ id, h.current = some id → ∀ k ∈ hs, k.pageId ≠ id)
    (hzero : ¬ Verifies crc Block.zeroed) (hfits : t.length ≤ maxTuple) :
    ∃ loc h', h.insert crc hash t = (.ok loc, h') ∧ Inserted crc h hs content t loc h'
      ∧ ∀ id ts, h.current = some id → content id = some ts →
        (loc.pageId = id ↔ t.length + SLOT_SIZE ≤ freeBytes ts) := by
  cases hcurrent : h.current with
  | none =>
    obtain ⟨loc, h', hnew, hinserted, -⟩ := hinv.appendToNewPage hash hidle hzero hfits
    refine ⟨loc, h', ?_, hinserted, by simp⟩
    rw [Heap.insert, hcurrent]
    exact hnew
  | some id =>
    obtain ⟨ts, hts⟩ := hinv.current id hcurrent
    by_cases hroom : t.length + SLOT_SIZE ≤ freeBytes ts
    · obtain ⟨pages, hcache, hholds⟩ := hinv.pages
      obtain ⟨b, hb, hbts⟩ := hholds id ts hts
      obtain ⟨b', c, hrun, hagrees, hcache', -⟩ :=
        @Inner.Inv.withWrite V P n _ _ _ _ crc hash hs h.cache pages id b (Option Nat) hcache hidle
          hb (hfree id hcurrent) (Heap.appendTo t)
      obtain ⟨b'', happend, hb''⟩ := (hbts.agrees hagrees).appendTo hroom
      have hstored : tuplesAt content id = ts := by rw [tuplesAt, hts, Option.getD_some]
      rw [happend] at hrun hcache'
      refine ⟨⟨id, ts.length⟩, { h with cache := c }, ?_, ⟨?_, Or.inl hcurrent, hcurrent,
        ⟨_, hcache', ?_⟩, ?_⟩, ?_⟩
      · rw [Heap.insert, hcurrent]
        simp only [hrun]
      · rw [hstored]
      · rw [appended, hstored]
        exact holds_update hholds hb''
      · intro j hj
        obtain rfl := Option.some.inj (hcurrent.symm.trans hj)
        exact ⟨_, update_self ..⟩
      · rintro j us hj hus
        obtain rfl := Option.some.inj hj
        obtain rfl := Option.some.inj (hts.symm.trans hus)
        exact iff_of_true rfl hroom
    · -- the page being filled is full: a new one takes the tuple
      obtain ⟨c, hrun, hsame⟩ := hinv.tryAppend_full hash hidle hfree hcurrent (fun us hus => by
        rw [← Option.some.inj (hts.symm.trans hus)]
        exact Nat.lt_of_not_le hroom)
      obtain ⟨loc, h', hnew, hinserted, hfresh⟩ := hsame.appendToNewPage hash hidle hzero hfits
      refine ⟨loc, h', ?_, ⟨hinserted.slot, hinserted.page, hinserted.current, hinserted.inv⟩, ?_⟩
      · rw [Heap.insert, hcurrent]
        simp only [hrun]
        rw [hcurrent] at hnew
        exact hnew
      · rintro j us hj hus
        obtain rfl := Option.some.inj hj
        obtain rfl := Option.some.inj (hts.symm.trans hus)
        refine iff_of_false (fun heq => ?_) hroom
        rw [heq, hts] at hfresh
        cases hfresh

theorem HeapInv.insert (hash : Bytes → UInt32) (hinv : HeapInv crc h hs content)
    (hidle : Idle hs) (hfree : ∀ id, h.current = some id → ∀ k ∈ hs, k.pageId ≠ id)
    (hzero : ¬ Verifies crc Block.zeroed) (hfits : t.length ≤ maxTuple) :
    ∃ loc h', h.insert crc hash t = (.ok loc, h') ∧ Inserted crc h hs content t loc h' := by
  obtain ⟨loc, h', hrun, hinserted, -⟩ := hinv.insert_at hash hidle hfree hzero hfits
  exact ⟨loc, h', hrun, hinserted⟩

theorem HeapInv.appendToNewPage_too_large (hash : Bytes → UInt32) (hinv : HeapInv crc h hs content)
    (hidle : Idle hs) (hzero : ¬ Verifies crc Block.zeroed) (hlarge : maxTuple < t.length) :
    ∃ h', h.appendToNewPage crc hash t = (.error (.tupleTooLarge t.length maxTuple), h')
      ∧ h'.current = h.current ∧ HeapInv crc h' hs content := by
  obtain ⟨pages, hcache, hholds⟩ := hinv.pages
  obtain ⟨id, b, v, c, hrun, -, hnew, hcache', -⟩ :=
    @Inner.Inv.withNew V P n _ _ _ _ crc hash hs h.cache pages Nat hcache hidle hzero
      (Heap.appendToNew t)
  rw [appendToNew_too_large b hlarge] at hrun hcache'
  refine ⟨{ h with cache := c }, ?_, rfl, ⟨_, hcache', ?_⟩, hinv.current⟩
  · rw [Heap.appendToNewPage, hrun]
    rfl
  · intro j ts hts
    obtain ⟨b₀, hb₀, hholds₀⟩ := hholds j ts hts
    have hne : j ≠ id := by
      rintro rfl
      rw [hnew] at hb₀
      cases hb₀
    exact ⟨b₀, by rw [Function.update_of_ne hne, hb₀], hholds₀⟩

/-- **A tuple that fits no page is refused**, and no tuple changes. -/
theorem HeapInv.insert_too_large (hash : Bytes → UInt32) (hinv : HeapInv crc h hs content)
    (hidle : Idle hs) (hfree : ∀ id, h.current = some id → ∀ k ∈ hs, k.pageId ≠ id)
    (hzero : ¬ Verifies crc Block.zeroed) (hlarge : maxTuple < t.length) :
    ∃ h', h.insert crc hash t = (.error (.tupleTooLarge t.length maxTuple), h')
      ∧ h'.current = h.current ∧ HeapInv crc h' hs content := by
  cases hcurrent : h.current with
  | none =>
    obtain ⟨h', hnew, hcurrent', hinv'⟩ := hinv.appendToNewPage_too_large hash hidle hzero hlarge
    refine ⟨h', ?_, hcurrent'.trans hcurrent, hinv'⟩
    rw [Heap.insert, hcurrent]
    exact hnew
  | some id =>
    obtain ⟨c, hrun, hsame⟩ := hinv.tryAppend_full hash hidle hfree hcurrent
      (fun _ _ => full_of_lt hlarge)
    obtain ⟨h', hnew, hcurrent', hinv'⟩ := hsame.appendToNewPage_too_large hash hidle hzero hlarge
    refine ⟨h', ?_, hcurrent'.trans hcurrent, hinv'⟩
    rw [Heap.insert, hcurrent]
    simp only [hrun]
    rw [hcurrent] at hnew
    exact hnew

end Heap

section Reading

variable {h : Heap V P n} {content : Nat → Option (List Bytes)}

theorem HeapInv.get (hash : Bytes → UInt32) (hinv : HeapInv crc h hs content) (hidle : Idle hs)
    {loc : TupleLoc} (hts : content loc.pageId = some ts) :
    ∃ h', h.get crc hash loc = (.ok ts[loc.slotId]?, h') ∧ h'.current = h.current
      ∧ HeapInv crc h' hs content := by
  obtain ⟨pages, hcache, hholds⟩ := hinv.pages
  obtain ⟨b, hb, hbts⟩ := hholds loc.pageId ts hts
  obtain ⟨b', c, hrun, hagrees, hcache', -⟩ :=
    @Inner.Inv.withRead V P n _ _ _ _ crc hash hs h.cache pages loc.pageId b (Option Bytes) hcache
      hidle hb (Heap.viewBytes loc.slotId)
  have hb' := hbts.agrees hagrees
  refine ⟨{ h with cache := c }, ?_, rfl, ⟨pages, hcache', hholds⟩, hinv.current⟩
  rw [Heap.get, hrun, Heap.viewBytes, hb'.opens, hb'.get]

theorem HeapInv.page (hash : Bytes → UInt32) (hinv : HeapInv crc h hs content) (hidle : Idle hs)
    {id : Nat} (hts : content id = some ts) :
    ∃ h', h.page crc hash id = (.ok ts, h') ∧ h'.current = h.current
      ∧ HeapInv crc h' hs content := by
  obtain ⟨pages, hcache, hholds⟩ := hinv.pages
  obtain ⟨b, hb, hbts⟩ := hholds id ts hts
  obtain ⟨b', c, hrun, hagrees, hcache', -⟩ :=
    @Inner.Inv.withRead V P n _ _ _ _ crc hash hs h.cache pages id b (List Bytes) hcache hidle hb
      Heap.pageTuples
  have hb' := hbts.agrees hagrees
  refine ⟨{ h with cache := c }, ?_, rfl, ⟨pages, hcache', hholds⟩, hinv.current⟩
  rw [Heap.page, hrun, Heap.pageTuples, hb'.opens, hb'.tuples]

end Reading

theorem heapInv_new {c : Inner V P n} {pages : Nat → Option Block}
    (hcache : Inner.Inv crc none c hs pages) : HeapInv crc (Heap.new c) hs (fun _ => none) :=
  ⟨⟨pages, hcache, nofun⟩, nofun⟩

end Specs

end StrataDb.Filesystem
