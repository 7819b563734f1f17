import StrataDb.Heap
import StrataDb.PageCacheRefinement
import StrataDb.SsTableSpec
import StrataDb.ValueCodec

/-!
# Long texts as chains of pages (`crates/filesystem/src/page/text.rs`)

```text
off  size  field
0    21    page header
21   8     next page, 0 on the last segment
29   8     length of the whole text, on the first page only
37   2     length of this page's content
39         content
```

Pages are allocated back to front. `Chain` says what the pages hold from a head on: writing makes
a chain and leaves those that are there, and reading gives its segments. The reader's loop has
fuel.
-/

namespace StrataDb.Filesystem

open ByteCodec BlockStore LawfulBlockStore Runs
open Sql (utf8 fromUtf8)
open PageHeader (parse parse_congr)

def TEXT_PAGE : Nat := 3

namespace TextPage

def OFF_NEXT : Nat := HEADER_LEN
def OFF_TOTAL : Nat := HEADER_LEN + 8
def OFF_SEG_LEN : Nat := HEADER_LEN + 16
def CONTENT_OFFSET : Nat := HEADER_LEN + 18

def CONTENT_CAPACITY : Nat := PAGE_SIZE - CONTENT_OFFSET

inductive TextError where
  | page (e : FsError)
  | utf8
deriving DecidableEq, Repr

def getU64 (buf : Block) (off : Nat) : Nat := beNat (buf.get off 8)
def putU64 (buf : Block) (off v : Nat) : Block := buf.put off (beBytes 8 v)

def writeSegment (nextPageId totalLength : Nat) (content : Bytes) (buf : Block) : Block :=
  let buf := (PageHeader.new TEXT_PAGE FORMAT_VERSION).write buf
  let buf := putU64 buf OFF_NEXT nextPageId
  let buf := putU64 buf OFF_TOTAL totalLength
  let buf := putU16 buf OFF_SEG_LEN content.length
  buf.put CONTENT_OFFSET content

def readSegment (buf : Block) : Except FsError (Nat × Bytes) := do
  let header ← parse buf
  if header.pageType ≠ TEXT_PAGE then .error (.badPageType TEXT_PAGE header.pageType)
  else return (getU64 buf OFF_NEXT, buf.get CONTENT_OFFSET (getU16 buf OFF_SEG_LEN))

def segments (bytes : Bytes) : List Bytes :=
  if bytes = [] then [[]] else Lsm.chunks CONTENT_CAPACITY bytes.length bytes

section Operations

variable {V P : Type} {n : Nat} [BlockStore V] [EvictionPolicy P (Fin n)]
variable (crc : Crc32c) (hash : Bytes → UInt32)

/-- The loop over the segments, the last one first: the head of the chain, 0 for none.  Only
    the first page has the total length. -/
def writeChain (c : Inner V P n) (total : Nat) : List Bytes → Except FsError Nat × Inner V P n
  | [] => (.ok 0, c)
  | chunk :: rest =>
    match writeChain c 0 rest with
    | (.error e, c) => (.error e, c)
    | (.ok next, c) =>
      match c.withNew crc hash (fun buf => (.ok (), writeSegment next total chunk buf)) with
      | (.error e, c) => (.error e, c)
      | (.ok (id, _), c) => (.ok id, c)

def writeText (c : Inner V P n) (s : String) : Except FsError Nat × Inner V P n :=
  writeChain crc hash c (utf8 s).length (segments (utf8 s))

def readLoop : Nat → Inner V P n → Nat → Bytes → Option (Except FsError Bytes × Inner V P n)
  | 0, _, _, _ => none
  | fuel + 1, c, cur, out =>
    match c.withRead crc hash cur readSegment with
    | (.error e, c) => some (.error e, c)
    | (.ok (.error e), c) => some (.error e, c)
    | (.ok (.ok (next, content)), c) =>
      if next = 0 then some (.ok (out ++ content), c) else readLoop fuel c next (out ++ content)

def readText (fuel : Nat) (c : Inner V P n) (head : Nat) :
    Option (Except TextError String × Inner V P n) :=
  (readLoop crc hash fuel c head []).map fun (result, c) =>
    match result with
    | .error e => (.error (.page e), c)
    | .ok out => ((fromUtf8 out).elim (.error .utf8) .ok, c)

def writeTexts (c : Inner V P n) : List String → Except FsError (List Nat) × Inner V P n
  | [] => (.ok [], c)
  | s :: texts =>
    match writeText crc hash c s with
    | (.error e, c) => (.error e, c)
    | (.ok head, c) =>
      match writeTexts c texts with
      | (.error e, c) => (.error e, c)
      | (.ok heads, c) => (.ok (head :: heads), c)

end Operations

/-! ### Segments -/

theorem readSegment_congr {a b : Block} (h : a.Agrees b) : readSegment a = readSegment b := by
  have hparse : parse a = parse b := parse_congr fun _ _ hoff => h.get (Or.inl hoff)
  rw [readSegment, readSegment, hparse, getU64, getU64, getU16, getU16, h.get (Or.inr (by decide)),
    h.get (Or.inr (by decide)), h.get (Or.inr (by decide))]

theorem readSegment_writeSegment {next total : Nat} {content : Bytes} (hnext : next < 2 ^ 64)
    (hcontent : content.length ≤ CONTENT_CAPACITY) (buf : Block) :
    readSegment (writeSegment next total content buf) = .ok (next, content) := by
  let header := PageHeader.new TEXT_PAGE FORMAT_VERSION
  have hfits : CONTENT_OFFSET + content.length ≤ BLOCK_SIZE := by
    have hcapacity : CONTENT_OFFSET + CONTENT_CAPACITY = BLOCK_SIZE := by decide
    omega
  have hshort : content.length < 2 ^ 16 := hcontent.trans_lt (by decide)
  have hlen (v : Nat) : (beBytes 8 v).length = 8 := length_beBytes 8 v
  -- a field before the content, and one before the counters
  have hbefore {off len : Nat} (h : off + len ≤ CONTENT_OFFSET) :
      (writeSegment next total content buf).get off len =
      (putU16 (putU64 (putU64 (header.write buf) OFF_NEXT next) OFF_TOTAL total) OFF_SEG_LEN
        content.length).get
        off len := Block.get_put_of_disjoint (Or.inl h)
  have hearly {off len : Nat} (h : off + len ≤ OFF_TOTAL) :
      (writeSegment next total content buf).get off len =
      (putU64 (header.write buf) OFF_NEXT next).get off len := by
    have htotal : off + len ≤ OFF_SEG_LEN := h.trans (by decide)
    rw [hbefore (htotal.trans (by decide)), get_putU16_of_disjoint (Or.inl htotal), putU64,
      Block.get_put_of_disjoint (Or.inl h)]
  have hparse : parse (writeSegment next total content buf) = .ok header := by
    refine (parse_congr fun off len h => ?_).trans
      (PageHeader.parse_write buf (by decide) (by decide) (by decide))
    have hoff : off + len ≤ OFF_NEXT := h.trans (by decide)
    rw [hearly (hoff.trans (by decide)), putU64, Block.get_put_of_disjoint (Or.inl hoff)]
  have hread : getU64 (writeSegment next total content buf) OFF_NEXT = next := by
    have hself :=
      @Block.get_put_self (header.write buf) OFF_NEXT (beBytes 8 next) (by rw [hlen]; decide)
    rw [hlen] at hself
    rw [getU64, hearly (by decide), putU64, hself, beNat_beBytes_of_lt hnext]
  have hseg : getU16 (writeSegment next total content buf) OFF_SEG_LEN = content.length := by
    rw [getU16, hbefore (by decide), ← getU16, getU16_putU16 (by decide) hshort]
  have hself : (writeSegment next total content buf).get CONTENT_OFFSET content.length = content :=
    Block.get_put_self hfits
  rw [readSegment, hparse, hread, hseg, hself]
  rfl

/-! ### Chains -/

/-- The pages from a head on hold these segments; the last page has no next one. -/
def Chain (pages : Nat → Option Block) : Nat → List Bytes → Prop
  | head, [] => head = 0
  | head, chunk :: rest =>
    head ≠ 0 ∧ ∃ b next, pages head = some b ∧ readSegment b = .ok (next, chunk)
      ∧ Chain pages next rest

theorem Chain.mono {pages pages' : Nat → Option Block}
    (hpages : ∀ id b, pages id = some b → pages' id = some b) {head : Nat} {chunks : List Bytes}
    (h : Chain pages head chunks) : Chain pages' head chunks := by
  induction chunks generalizing head with
  | nil => exact h
  | cons chunk rest ih =>
    obtain ⟨hne, b, next, hb, hread, hrest⟩ := h
    exact ⟨hne, b, next, hpages head b hb, hread, ih hrest⟩

section Chains

variable {V P : Type} {n : Nat} [BlockStore V] [LawfulBlockStore V]
variable [EvictionPolicy P (Fin n)] [LawfulPolicy P] {crc : Crc32c} (hash : Bytes → UInt32)
variable {c : Inner V P n} {pages : Nat → Option Block}

/-- **Writing a chain**: on new pages, one for each segment. -/
theorem writeChain_ok (hinv : Inner.Inv crc none c [] pages) (hn : 0 < n)
    (hzero : ¬ Verifies crc Block.zeroed) {chunks : List Bytes}
    (hchunks : ∀ chunk ∈ chunks, chunk.length ≤ CONTENT_CAPACITY)
    (hids : blockCount c.block + chunks.length ≤ 2 ^ 64) (total : Nat) :
    ∃ head c' pages', writeChain crc hash c total chunks = (.ok head, c')
      ∧ Inner.Inv crc none c' [] pages' ∧
      (∀ id b, pages id = some b → pages' id = some b) ∧ Chain pages' head chunks ∧ head < 2 ^ 64 ∧
      blockCount c'.block = blockCount c.block + chunks.length := by
  induction chunks generalizing total with
  | nil => exact ⟨0, c, pages, rfl, hinv, fun _ _ h => h, rfl, by decide, rfl⟩
  | cons chunk rest ih =>
    rw [List.length_cons] at hids ⊢
    -- the chain is written from its end, so that a page can name the next one
    obtain ⟨next, c₁, pages₁, hrest, hinv₁, hkeep₁, hchain₁, hnext, hcount₁⟩ :=
      ih (fun x hx => hchunks x (List.mem_cons_of_mem _ hx)) (by omega) 0
    obtain ⟨id, b, v, c₂, hnew, hissued, hunused, hinv₂, hcalm⟩ :=
      @Inner.Inv.withNew V P n _ _ _ _ crc hash [] c₁ pages₁ Unit hinv₁ (idle_nil hn) hzero
        (fun buf => (.ok (), writeSegment next total chunk buf))
    obtain ⟨v', hissued', -, hgrown, -⟩ := allocate_spec hinv₁.contents.valid
    obtain ⟨rfl, rfl⟩ := Prod.mk.inj (Except.ok.inj (hissued.symm.trans hissued'))
    have hpos := blockCount_pos hinv₁.contents.valid
    have hkeep₂ (id' : Nat) (b' : Block) (hb' : pages₁ id' = some b') :
        Function.update pages₁ (blockCount c₁.block)
        (some (writeSegment next total chunk b)) id' = some b' := by
      rw [Function.update_of_ne, hb']
      rintro rfl
      rw [hunused] at hb'
      cases hb'
    refine ⟨blockCount c₁.block, c₂, _, ?_, hinv₂,
      fun id' b' hb' => hkeep₂ id' b' (hkeep₁ id' b' hb'),
      ⟨hpos.ne', _, next, Function.update_self .., ?_, hchain₁.mono hkeep₂⟩, by omega, ?_⟩
    · rw [writeChain, hrest]
      simp only [hnew, Except.map]
    · exact readSegment_writeSegment hnext (hchunks chunk List.mem_cons_self) b
    · rw [hcalm.blockCount, hgrown, hcount₁]
      rfl

theorem readLoop_ok (hinv : Inner.Inv crc none c [] pages) (hn : 0 < n) {head : Nat} {chunk : Bytes}
    {rest : List Bytes} (hchain : Chain pages head (chunk :: rest)) {fuel : Nat}
    (hfuel : rest.length < fuel) (out : Bytes) :
    ∃ c', readLoop crc hash fuel c head out = some (.ok (out ++ (chunk ++ rest.flatten)), c') ∧
      Inner.Inv crc none c' [] pages := by
  induction fuel generalizing c head chunk rest out with
  | zero => omega
  | succ fuel ih =>
    obtain ⟨-, b, next, hb, hread, hrest⟩ := hchain
    obtain ⟨b', c₁, hrun, hagrees, hinv₁, -⟩ :=
      @Inner.Inv.withRead V P n _ _ _ _ crc hash [] c pages head b _ hinv (idle_nil hn) hb
        readSegment
    rw [readSegment_congr hagrees, hread] at hrun
    rw [readLoop, hrun]
    cases rest with
    | nil =>
      obtain rfl : next = 0 := hrest
      exact ⟨c₁, by simp, hinv₁⟩
    | cons chunk' rest =>
      obtain ⟨c₂, hloop, hinv₂⟩ := ih hinv₁ hrest (by simpa using hfuel) (out ++ chunk)
      refine ⟨c₂, ?_, hinv₂⟩
      simp only [if_neg hrest.1, hloop, List.flatten_cons, List.append_assoc]

/-! ### Texts -/

def pageCount (s : String) :
    Nat := max 1 (((utf8 s).length + CONTENT_CAPACITY - 1) / CONTENT_CAPACITY)

theorem length_segments (s : String) : (segments (utf8 s)).length = pageCount s := by
  rw [segments, pageCount]
  split_ifs with hempty
  · rw [hempty]
    decide
  · have hpos := List.length_pos_iff.mpr hempty
    have hcapacity : 0 < CONTENT_CAPACITY := by decide
    rw [Lsm.length_chunks hcapacity (Nat.le_refl _), Nat.max_eq_right]
    exact Nat.div_pos (by omega) hcapacity

theorem flatten_segments (bytes : Bytes) : (segments bytes).flatten = bytes := by
  rw [segments]
  split_ifs with hempty
  · rw [hempty]
    rfl
  · exact (Lsm.chunks_spec (by decide) (Nat.le_refl _)).1

theorem length_le_of_mem_segments {bytes chunk : Bytes} (h : chunk ∈ segments bytes) :
    chunk.length ≤ CONTENT_CAPACITY := by
  rw [segments] at h
  split_ifs at h with hempty
  · rw [List.mem_singleton.mp h]
    exact Nat.zero_le _
  · exact Lsm.length_le_of_mem_chunks h

theorem writeText_ok (hinv : Inner.Inv crc none c [] pages) (hn : 0 < n)
    (hzero : ¬ Verifies crc Block.zeroed) {s : String}
    (hids : blockCount c.block + pageCount s ≤ 2 ^ 64) :
    ∃ head c' pages', writeText crc hash c s = (.ok head, c') ∧ Inner.Inv crc none c' [] pages' ∧
      (∀ id b, pages id = some b → pages' id = some b) ∧ Chain pages' head (segments (utf8 s)) ∧
      blockCount c'.block = blockCount c.block + pageCount s := by
  rw [← length_segments] at hids ⊢
  obtain ⟨head, c', pages', hwrite, hinv', hkeep, hchain, -, hcount⟩ :=
    writeChain_ok hash hinv hn hzero (fun _ h => length_le_of_mem_segments h) hids (utf8 s).length
  exact ⟨head, c', pages', hwrite, hinv', hkeep, hchain, hcount⟩

theorem writeTexts_ok (hinv : Inner.Inv crc none c [] pages) (hn : 0 < n)
    (hzero : ¬ Verifies crc Block.zeroed) {texts : List String}
    (hids : blockCount c.block + (texts.map pageCount).sum ≤ 2 ^ 64) :
    ∃ heads c' pages', writeTexts crc hash c texts = (.ok heads, c')
      ∧ Inner.Inv crc none c' [] pages' ∧
      ∀ id b, pages id = some b → pages' id = some b := by
  induction texts generalizing c pages with
  | nil => exact ⟨[], c, pages, rfl, hinv, fun _ _ h => h⟩
  | cons s texts ih =>
    rw [List.map_cons, List.sum_cons] at hids
    obtain ⟨head, c₁, pages₁, hwrite, hinv₁, hkeep₁, -, hcount⟩ :=
      writeText_ok hash (s := s) hinv hn hzero (by omega)
    obtain ⟨heads, c₂, pages₂, hrest, hinv₂, hkeep₂⟩ := ih hinv₁ (by omega)
    refine ⟨head :: heads, c₂, pages₂, ?_, hinv₂, fun id b hb => hkeep₂ id b (hkeep₁ id b hb)⟩
    rw [writeTexts, hwrite]
    simp only [hrest]

theorem readText_ok (hinv : Inner.Inv crc none c [] pages) (hn : 0 < n) {head : Nat} {s : String}
    (hchain : Chain pages head (segments (utf8 s))) {fuel : Nat} (hfuel : pageCount s ≤ fuel) :
    ∃ c', readText crc hash fuel c head = some (.ok s, c') := by
  have hflat := flatten_segments (utf8 s)
  have hlen := length_segments s
  cases hsegments : segments (utf8 s) with
  | nil =>
    rw [hsegments, List.length_nil, pageCount] at hlen
    omega
  | cons chunk rest =>
    rw [hsegments] at hchain hflat hlen
    rw [List.length_cons] at hlen
    have hrounds : rest.length < fuel := by omega
    obtain ⟨c', hloop, -⟩ := readLoop_ok hash hinv hn hchain hrounds []
    refine ⟨c', ?_⟩
    rw [List.nil_append, ← List.flatten_cons, hflat] at hloop
    rw [readText, hloop]
    simp only [Option.map_some, Sql.fromUtf8_utf8, Option.elim_some]

/-- **Long texts round-trip.**  For every pool of at least one frame, in every state that calls
    on the cache lead to and with no handle open: a text is written to as many new pages as it
    needs, and it is read back after any number of other texts were written. -/
theorem text_round_trips {hash : Bytes → UInt32} (hzero : ¬ Verifies crc Block.zeroed) {store : V}
    (hvalid : Valid store)
    (hpages : ∀ id b, stored crc store id = some b → id ≠ 0 → id < blockCount store) {policy : P}
    (hpolicy : ∀ f, ¬ LawfulPolicy.Tracked policy f) {journal : Option Journal}
    {events : List (Call n × Answer n)} {s : System V P n}
    (hrun : Run (System.Step crc hash) ⟨Inner.build store policy journal, []⟩ events s)
    (hhandles : s.handles = []) (hn : 0 < n) (text : String) (others : List String)
    (hids : blockCount s.cache.block + ((text :: others).map pageCount).sum ≤ 2 ^ 64) {fuel : Nat}
    (hfuel : pageCount text ≤ fuel) :
    ∃ head c₁ heads c₂ c₃, writeText crc hash s.cache text = (.ok head, c₁) ∧
      blockCount c₁.block = blockCount s.cache.block +
        max 1 (((utf8 text).length + CONTENT_CAPACITY - 1) / CONTENT_CAPACITY) ∧
      writeTexts crc hash c₁ others = (.ok heads, c₂) ∧ readText crc hash fuel c₂ head
        = some (.ok text, c₃) := by
  have hinv := System.inv_run hzero hvalid hpages hpolicy hrun
  rw [hhandles] at hinv
  rw [List.map_cons, List.sum_cons] at hids
  obtain ⟨head, c₁, pages₁, hwrite, hinv₁, -, hchain, hcount⟩ :=
    writeText_ok hash (s := text) hinv hn hzero (by omega)
  have hrest : blockCount c₁.block + (others.map pageCount).sum ≤ 2 ^ 64 := by omega
  obtain ⟨heads, c₂, pages₂, hothers, hinv₂, hkeep⟩ := writeTexts_ok hash hinv₁ hn hzero hrest
  obtain ⟨c₃, hread⟩ := readText_ok hash hinv₂ hn (hchain.mono hkeep) hfuel
  exact ⟨head, c₁, heads, c₂, c₃, hwrite, hcount, hothers, hread⟩

end Chains

/-- A pool of one frame: the second text evicts the page of the first one. -/
theorem text_round_trips_one_frame :
    ∃ head c₁ heads c₂ c₃, writeText castagnoli Crc.crc32
        (.build MemBlockStore.new {} none : Inner MemBlockStore (Lru (Fin 1)) 1) "ü"
        = (.ok head, c₁) ∧
      blockCount c₁.block = 2 ∧ writeTexts castagnoli Crc.crc32 c₁ ["v"] = (.ok heads, c₂) ∧
      readText castagnoli Crc.crc32 1 c₂ head = some (.ok "ü", c₃) := by
  have hvalid : Valid MemBlockStore.new := ⟨rfl, rfl, Nat.one_pos⟩
  have hcount : pageCount "ü" = 1 ∧ pageCount "v" = 1 := by decide +kernel
  have hids : blockCount MemBlockStore.new + (["ü", "v"].map pageCount).sum ≤ 2 ^ 64 := by
    simp only [List.map_cons, List.map_nil, hcount, List.sum_cons, List.sum_nil]
    decide
  obtain ⟨head, c₁, heads, c₂, c₃, hwrite, hblocks, hothers, hread⟩ :=
    @text_round_trips MemBlockStore (Lru (Fin 1)) 1 _ _ _ _ castagnoli Crc.crc32
      not_verifies_castagnoli_zeroed
      MemBlockStore.new hvalid stored_memBlockStore_new {} (fun f => AList.notMem_empty f) none [] _
        .nil rfl
      Nat.one_pos "ü" ["v"] hids 1 hcount.1.le
  exact ⟨head, c₁, heads, c₂, c₃, hwrite, hblocks.trans (by decide +kernel), hothers, hread⟩

end TextPage

end StrataDb.Filesystem
