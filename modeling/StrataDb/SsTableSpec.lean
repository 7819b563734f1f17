import StrataDb.SsTable

/-!
# What a table file gives back

A table written from entries in key order opens to a handle whose `scan` yields exactly the
visible entries of a range and whose `get` finds the first visible version in the block that
decides about the key. `Located` says that bytes stand at an offset; blocks and shards are both
spans (`find_covering`).
-/

namespace StrataDb.Lsm

open ByteCodec Codec OrderedMap
open Journal (IoError)
open Header (child)
open List (Forall₂ append_assoc append_nil drop_left find?_eq_none flatMap_cons flatMap_id
  flatten_cons flatten_flatten length_append length_cons length_nil mem_append mem_cons
  mem_cons_of_mem mem_cons_self)

def Located (file : Bytes) (offset : Nat) (bs : Bytes) : Prop :=
  ∃ pre post, file = pre ++ (bs ++ post) ∧ pre.length = offset

theorem Located.append {file bs : Bytes} {offset : Nat} (h : Located file offset bs) (x : Bytes) :
    Located (file ++ x) offset bs := by
  obtain ⟨pre, post, rfl, hlen⟩ := h
  exact ⟨pre, post ++ x, by simp, hlen⟩

theorem located_end (file bs : Bytes) : Located (file ++ bs) file.length bs :=
  ⟨file, [], by simp, rfl⟩

theorem readRange_of_located {file bs : Bytes} {offset : UInt64} {len : UInt32}
    (h : Located file offset.toNat bs) (hlen : len.toNat = bs.length) :
    readRange (some file) offset len = .ok bs := by
  obtain ⟨pre, post, rfl, hpre⟩ := h
  have hbytes : ((pre ++ (bs ++ post)).drop offset.toNat).take len.toNat = bs := by
    rw [← hpre, drop_left, hlen, List.take_left]
  simp only [readRange, hbytes]
  rw [if_neg (by omega)]

/-! ### Packing -/

theorem packBlock_append (target size : Nat) (es : List KeyValue) :
    (packBlock target size es).1 ++ (packBlock target size es).2 = es := by
  induction es generalizing size with
  | nil => rfl
  | cons e es ih =>
    rw [packBlock]
    split
    · rfl
    · simp [ih]

theorem packBlock_zero_cons (target : Nat) (e : KeyValue) (es : List KeyValue) :
    (packBlock target 0 (e :: es)).1 ≠ [] := by
  rw [packBlock, if_neg (by omega)]
  simp

variable {fuel : Nat}

theorem packBlocks_spec (target : Nat) {es : List KeyValue} (h : es.length ≤ fuel) :
    (packBlocks target fuel es).flatten = es ∧ ∀ b ∈ packBlocks target fuel es, b ≠ [] := by
  induction fuel generalizing es with
  | zero =>
    obtain rfl : es = [] := List.length_eq_zero_iff.mp (by omega)
    simp [packBlocks]
  | succ fuel ih =>
    cases es with
    | nil => simp [packBlocks]
    | cons e es =>
      have hsplit := packBlock_append target 0 (e :: es)
      have hne := packBlock_zero_cons target e es
      have hlen := congrArg List.length hsplit
      -- a block takes at least one entry, so the fuel lasts
      have hpos := List.length_pos_iff.mpr hne
      rw [length_append, length_cons] at hlen
      rw [length_cons] at h
      have hrest : (packBlock target 0 (e :: es)).2.length ≤ fuel := by omega
      obtain ⟨hflat, hall⟩ := ih hrest
      rw [packBlocks]
      refine ⟨by rw [flatten_cons, hflat, hsplit], ?_⟩
      intro b hb
      rcases mem_cons.mp hb with rfl | hb
      · exact hne
      · exact hall b hb

theorem flatten_blocksOf (config : TableConfig) (entries : List KeyValue) :
    (blocksOf config entries).flatten = entries := (packBlocks_spec _ (Nat.le_refl _)).1

variable {entries block : List KeyValue} {config : TableConfig}

theorem blocksOf_ne_nil (h : block ∈ blocksOf config entries) : block ≠ [] :=
  (packBlocks_spec _ (Nat.le_refl _)).2 block h

/-! ### Where blocks and shards sit -/

/-- The meta describes the block: its first and last key, and its place in the file. -/
structure BlockAt (file : Bytes) (block : List KeyValue) (m : BlockMeta) : Prop where
  nonempty : block ≠ []
  fits : ∀ kv ∈ block, kv.Fits
  minKey : m.minKey = firstKey block
  maxKey : m.maxKey = lastKey block
  located : Located file m.offset.toNat (encodeBlock block)
  len : m.len.toNat = (encodeBlock block).length

theorem BlockAt.append {file : Bytes} {block : List KeyValue} {m : BlockMeta}
    (h : BlockAt file block m) (x : Bytes) : BlockAt (file ++ x) block m :=
  ⟨h.nonempty, h.fits, h.minKey, h.maxKey, h.located.append x, h.len⟩

theorem padTo_eq_append (target : Nat) (data : Bytes) : ∃ x, padTo target data = data ++ x := by
  unfold padTo
  split
  · exact ⟨_, rfl⟩
  · exact ⟨[], by simp⟩

theorem layoutBlocks_eq_append (target : Nat) (data : Bytes) (blocks : List (List KeyValue)) :
    ∃ x, (layoutBlocks target data blocks).1 = data ++ x := by
  induction blocks generalizing data with
  | nil => exact ⟨[], by simp [layoutBlocks]⟩
  | cons block blocks ih =>
    obtain ⟨x, hx⟩ := padTo_eq_append target (data ++ encodeBlock block)
    obtain ⟨y, hy⟩ := ih (padTo target (data ++ encodeBlock block))
    refine ⟨encodeBlock block ++ (x ++ y), ?_⟩
    show (layoutBlocks target (padTo target (data ++ encodeBlock block)) blocks).1 = _
    rw [hy, hx]
    simp only [append_assoc]

theorem fits_of_mem_block (h : (encodeBlock block).length < 2 ^ 32) : ∀ kv ∈ block, kv.Fits := by
  intro kv hkv
  have hlen := length_le_flatMap_of_mem KeyValue.encode hkv
  exact KeyValue.fits_of_encode (Nat.lt_of_le_of_lt hlen h)

theorem blockAt_layoutBlocks (target : Nat) (data : Bytes) (blocks : List (List KeyValue))
    (hsize : (layoutBlocks target data blocks).1.length < 2 ^ 64)
    (hblocks : ∀ b ∈ blocks, b ≠ [] ∧ (encodeBlock b).length < 2 ^ 32) :
    Forall₂ (BlockAt (layoutBlocks target data blocks).1) blocks
      (layoutBlocks target data blocks).2 := by
  induction blocks generalizing data with
  | nil => exact .nil
  | cons block blocks ih =>
    obtain ⟨x, hx⟩ :=
      layoutBlocks_eq_append target (padTo target (data ++ encodeBlock block)) blocks
    obtain ⟨y, hy⟩ := padTo_eq_append target (data ++ encodeBlock block)
    obtain ⟨hne, hlen⟩ := hblocks block mem_cons_self
    simp only [layoutBlocks] at hsize ⊢
    have hdata : data.length < 2 ^ 64 := by
      rw [hx, hy] at hsize
      simp only [length_append] at hsize
      omega
    refine .cons ⟨hne, fits_of_mem_block hlen, rfl, rfl, ?_, ?_⟩
      (ih _ hsize (fun b hb => hblocks b (mem_cons_of_mem _ hb)))
    · rw [UInt64.toNat_ofNat_of_lt' hdata, hx, hy]
      exact ((located_end data _).append _).append _
    · rw [length_append, Nat.add_sub_cancel_left, UInt32.toNat_ofNat_of_lt' hlen]

section Chunks

variable {α β : Type}

variable {as : List α}

theorem chunks_spec {n : Nat} (hn : 0 < n) (h : as.length ≤ fuel) :
    (chunks n fuel as).flatten = as ∧ ∀ c ∈ chunks n fuel as, c ≠ [] := by
  induction fuel generalizing as with
  | zero =>
    obtain rfl : as = [] := List.length_eq_zero_iff.mp (by omega)
    simp [chunks]
  | succ fuel ih =>
    cases as with
    | nil => simp [chunks]
    | cons a as =>
      have hdrop : ((a :: as).drop n).length ≤ fuel := by
        rw [List.length_drop]
        omega
      obtain ⟨hflat, hall⟩ := ih hdrop
      rw [chunks]
      refine ⟨by rw [flatten_cons, hflat, List.take_append_drop], ?_⟩
      intro c hc
      rcases mem_cons.mp hc with rfl | hc
      · obtain ⟨m, rfl⟩ : ∃ m, n = m + 1 := ⟨n - 1, by omega⟩
        simp
      · exact hall c hc

theorem length_le_of_mem_chunks {n : Nat} {c : List α} (h : c ∈ chunks n fuel as) :
    c.length ≤ n := by
  fun_induction chunks n fuel as with
  | case1 as => cases h
  | case2 fuel => cases h
  | case3 fuel a as ih =>
    rcases mem_cons.mp h with rfl | h
    · exact List.length_take_le _ _
    · exact ih h

theorem length_chunks {n : Nat} (hn : 0 < n) (h : as.length ≤ fuel) :
    (chunks n fuel as).length = (as.length + n - 1) / n := by
  fun_induction chunks n fuel as with
  | case1 as =>
    rw [Nat.le_zero.mp h, length_nil, Nat.div_eq_of_lt (by omega)]
  | case2 fuel => rw [length_nil, length_nil, Nat.div_eq_of_lt (by omega)]
  | case3 fuel a as ih =>
    have hdrop : ((a :: as).drop n).length = as.length + 1 - n := by
      rw [List.length_drop, length_cons]
    rw [length_cons] at h
    rw [length_cons, ih (by omega), hdrop, length_cons]
    rcases Nat.lt_or_ge as.length n with hlast | hmore
    · -- the last chunk
      rw [Nat.div_eq_of_lt (by omega), show as.length + 1 + n - 1 = as.length + n by omega,
        Nat.add_div_right _ hn, Nat.div_eq_of_lt hlast]
    · rw [show as.length + 1 - n + n - 1 = as.length by omega,
        show as.length + 1 + n - 1 = as.length + n by omega, Nat.add_div_right _ hn]

theorem forall₂_chunks {R : α → β → Prop} {bs : List β} (h : Forall₂ R as bs) (n fuel : Nat) :
    Forall₂ (Forall₂ R) (chunks n fuel as) (chunks n fuel bs) := by
  induction fuel generalizing as bs with
  | zero => exact .nil
  | succ fuel ih =>
    cases h with
    | nil => exact .nil
    | cons hab htail =>
      exact .cons (List.forall₂_take n (.cons hab htail))
        (ih (List.forall₂_drop n (.cons hab htail)))

end Chunks

section Shards

variable (B : FastBloom)

/-- The reference describes the shard: its first and last key, and where the child
    header sits in the file. -/
structure ShardAt (sstId : SsTableId) (file : Bytes) (slice : List BlockMeta) (ref : BlockMeta) :
    Prop where
  minKey : ref.minKey = (slice.head?.map (·.minKey)).getD []
  maxKey : ref.maxKey = (slice.getLast?.map (·.maxKey)).getD []
  located : Located file ref.offset.toNat ((child sstId slice : Header B).encode)
  len : ref.len.toNat = ((child sstId slice : Header B).encode).length

theorem appendShards_eq_append (sstId : SsTableId) (buf : Bytes) (slices : List (List BlockMeta)) :
    ∃ x, (appendShards B sstId buf slices).1 = buf ++ x := by
  induction slices generalizing buf with
  | nil => exact ⟨[], by simp [appendShards]⟩
  | cons slice slices ih =>
    obtain ⟨x, hx⟩ := ih (buf ++ (child sstId slice : Header B).encode)
    refine ⟨(child sstId slice : Header B).encode ++ x, ?_⟩
    show (appendShards B sstId (buf ++ (child sstId slice : Header B).encode) slices).1 = _
    rw [hx, append_assoc]

theorem shardAt_appendShards (sstId : SsTableId) (buf : Bytes) (slices : List (List BlockMeta))
    (hsize : (appendShards B sstId buf slices).1.length < 2 ^ 64)
    (hslices : ∀ s ∈ slices, ((child sstId s : Header B).encode).length < 2 ^ 32) :
    Forall₂ (ShardAt B sstId (appendShards B sstId buf slices).1) slices
      (appendShards B sstId buf slices).2 := by
  induction slices generalizing buf with
  | nil => exact .nil
  | cons slice slices ih =>
    obtain ⟨x, hx⟩ := appendShards_eq_append B sstId
      (buf ++ (child sstId slice : Header B).encode) slices
    have hlen := hslices slice mem_cons_self
    simp only [appendShards] at hsize ⊢
    have hbuf : buf.length < 2 ^ 64 := by
      rw [hx] at hsize
      simp only [length_append] at hsize
      omega
    refine .cons ⟨rfl, rfl, ?_, ?_⟩ (ih _ hsize (fun s hs => hslices s (mem_cons_of_mem _ hs)))
    · rw [UInt64.toNat_ofNat_of_lt' hbuf, hx]
      exact (located_end buf _).append _
    · rw [UInt32.toNat_ofNat_of_lt' hlen]

variable {B}

theorem ShardAt.append {sstId : SsTableId} {file : Bytes} {slice : List BlockMeta} {ref : BlockMeta}
    (h : ShardAt B sstId file slice ref) (x : Bytes) : ShardAt B sstId (file ++ x) slice ref :=
  ⟨h.minKey, h.maxKey, h.located.append x, h.len⟩

end Shards

/-! ### Opening a written table -/

section Opening

variable (B : FastBloom)

/-- Every length of the table that goes into a `u32` field is one. -/
structure TableFits (sstId : SsTableId) (config : TableConfig)
    (entries : List KeyValue) : Prop where
  blocks : ∀ b ∈ blocksOf config entries, (encodeBlock b).length < 2 ^ 32
  shards : max config.page.blocksPerChunk 1 < (build B config entries).blocks.length →
    ∀ s ∈ slicesOf config (build B config entries).blocks,
      ((child sstId s : Header B).encode).length < 2 ^ 32
  root : ((rootOf B sstId config entries).encode).length < 2 ^ 32

/-- The index leads to the blocks: directly, or through child headers. -/
inductive Indexed (sstId : SsTableId) (file : Bytes) : Index → List (List KeyValue) → Prop
  | inline {blocks : List (List KeyValue)} {metas : List BlockMeta}
      (h : Forall₂ (BlockAt file) blocks metas) : Indexed sstId file (.inline metas) blocks
  | sharded {groups : List (List (List KeyValue))} {slices : List (List BlockMeta)}
      {refs : List BlockMeta} (hgroups : Forall₂ (Forall₂ (BlockAt file)) groups slices)
      (hne : ∀ s ∈ slices, s ≠ []) (hfits : ∀ s ∈ slices, MetasFit s)
      (hrefs : Forall₂ (ShardAt B sstId file) slices refs) :
      Indexed sstId file (.sharded refs) groups.flatten

theorem Indexed.append {sstId : SsTableId} {file : Bytes} {index : Index}
    {blocks : List (List KeyValue)} (h : Indexed B sstId file index blocks) (x : Bytes) :
    Indexed B sstId (file ++ x) index blocks := by
  cases h with
  | inline h => exact .inline (h.imp (fun _ _ hb => hb.append x))
  | sharded hgroups hne hfits hrefs =>
    exact .sharded (hgroups.imp (fun _ _ hg => hg.imp (fun _ _ hb => hb.append x))) hne hfits
      (hrefs.imp (fun _ _ hs => hs.append x))

variable {sstId : SsTableId}

theorem indexed_indexOf (hfits : TableFits B sstId config entries)
    (hsize : (indexOf B sstId config (build B config entries)).1.length < 2 ^ 64) :
    Indexed B sstId (indexOf B sstId config (build B config entries)).1
      (indexOf B sstId config (build B config entries)).2 (blocksOf config entries) := by
  have hpacked : ∀ b ∈ blocksOf config entries, b ≠ [] ∧ (encodeBlock b).length < 2 ^ 32 :=
    fun b hb => ⟨blocksOf_ne_nil hb, hfits.blocks b hb⟩
  by_cases hinline :
      (build B config entries).blocks.length ≤ max config.page.blocksPerChunk 1
  · simp only [indexOf, if_pos hinline] at hsize ⊢
    exact .inline (blockAt_layoutBlocks _ _ _ hsize hpacked)
  · have hshards := hfits.shards (not_le.mp hinline)
    simp only [indexOf, if_neg hinline] at hsize ⊢
    obtain ⟨x, hx⟩ := appendShards_eq_append B sstId (build B config entries).buf
      (slicesOf config (build B config entries).blocks)
    have hbuf : (build B config entries).buf.length < 2 ^ 64 := by
      rw [hx, length_append] at hsize
      omega
    have hblocks := blockAt_layoutBlocks _ _ _ hbuf hpacked
    have hrefs := shardAt_appendShards B sstId _ _ hsize hshards
    -- the blocks are grouped the way their metas are cut into slices
    have hgroups := forall₂_chunks hblocks (max config.page.blocksPerChunk 1)
      (build B config entries).blocks.length
    have hpos : 0 < max config.page.blocksPerChunk 1 := by omega
    have hlen : (blocksOf config entries).length = (build B config entries).blocks.length :=
      hblocks.length_eq
    have hflat := (chunks_spec hpos (Nat.le_of_eq hlen)).1
    have hcuts := chunks_spec hpos (Nat.le_refl (build B config entries).blocks.length)
    have hstay : ∀ block m, BlockAt (build B config entries).buf block m →
        BlockAt (appendShards B sstId (build B config entries).buf
          (slicesOf config (build B config entries).blocks)).1 block m := by
      intro block m hb
      rw [hx]
      exact hb.append x
    rw [← hflat]
    exact .sharded (hgroups.imp (fun _ _ hg => hg.imp hstay)) hcuts.2
      (fun s hs => Header.fits_of_length (hshards s hs)) hrefs

theorem decodeHeader_encode {header : Header B} (h : header.Fits B) :
    decodeHeader B (header.encode B) = .ok (header.reloaded B) := by
  have hread := Header.reads_encode h []
  rw [append_nil] at hread
  rw [decodeHeader, hread]

theorem readHeaderPage_append {body root : Bytes} (h : root.length < 2 ^ 32) :
    readHeaderPage (some (body ++ (root ++ beBytes 4 root.length))) = .ok root := by
  have hlength : (body ++ (root ++ beBytes 4 root.length)).length =
      body.length + root.length + 4 := by
    simp only [length_append, length_beBytes]
    omega
  have hfooter : (body ++ (root ++ beBytes 4 root.length)).drop (body.length + root.length) =
      beBytes 4 root.length := by
    rw [← append_assoc, ← length_append, drop_left]
  have hbody : (body ++ (root ++ beBytes 4 root.length)).drop body.length =
      root ++ beBytes 4 root.length := drop_left
  have hlen : beNat (beBytes 4 root.length) = root.length :=
    beNat_beBytes_of_lt (by norm_num; omega)
  simp only [readHeaderPage, hlength]
  rw [if_neg (by omega), Nat.add_sub_cancel, hfooter, hlen, if_neg (by omega)]
  rw [show body.length + root.length + 4 - (4 + root.length) = body.length by omega, hbody,
    List.take_left]

def tableOf (sstId : SsTableId) (config : TableConfig) (entries : List KeyValue) : SsTable B where
  sstId := sstId
  range := (build B config entries).range
  bloom := B.reload (build B config entries).bloom
  sizeBytes := (build B config entries).sizeBytes
  index := (indexOf B sstId config (build B config entries)).2

theorem open_of_page {cache : SstPageCache} {dir : SstDir} {page : Bytes}
    {table : SsTable B}
    (hpage : cache.fetchHeader (.root sstId) (readHeaderPage (dir sstId)) = .ok page)
    (hdecode : decodeHeader B page =
      .ok (.root table.sstId table.range table.bloom table.sizeBytes table.index)) :
    SsTable.open B cache dir sstId = .ok table := by
  simp only [SsTable.open, hpage, Except.mapError, bind, Except.bind, hdecode]

theorem tableBytes_eq (sstId : SsTableId) (config : TableConfig) (entries : List KeyValue) :
    tableBytes B sstId config entries =
      (indexOf B sstId config (build B config entries)).1 ++
        ((rootOf B sstId config entries).encode ++
          beBytes 4 ((rootOf B sstId config entries).encode).length) := rfl

theorem reloaded_rootOf (sstId : SsTableId) (config : TableConfig) (entries : List KeyValue) :
    (rootOf B sstId config entries).reloaded = .root sstId (tableOf B sstId config entries).range
      (tableOf B sstId config entries).bloom (tableOf B sstId config entries).sizeBytes
      (tableOf B sstId config entries).index := rfl

theorem open_tableBytes {dir : SstDir} (hdir : dir sstId = some (tableBytes B sstId config entries))
    (hroot : ((rootOf B sstId config entries).encode).length < 2 ^ 32) :
    SsTable.open B .empty dir sstId = .ok (tableOf B sstId config entries) := by
  have hpage : readHeaderPage (dir sstId) = .ok ((rootOf B sstId config entries).encode) := by
    rw [hdir, tableBytes_eq]
    exact readHeaderPage_append hroot
  have hdecode := decodeHeader_encode B (Header.fits_of_length hroot)
  rw [reloaded_rootOf] at hdecode
  exact open_of_page B hpage hdecode

end Opening

/-! ### Spans of sorted entries -/

def KeySorted (entries : List KeyValue) : Prop :=
  entries.Pairwise (fun a b => a.key.userKey ≤ b.key.userKey)

def hasKey (key : Bytes) (kv : KeyValue) : Bool := decide (kv.key.userKey = key)

variable {key : Bytes}

theorem userKey_of_find {kv : KeyValue}
    (h : entries.find? (hasKey key) = some kv) : kv.key.userKey = key := by
  have hkey := List.find?_some h
  rwa [hasKey, decide_eq_true_eq] at hkey

variable {g : List KeyValue}

theorem firstKey_le (hs : KeySorted g) {kv : KeyValue} (h : kv ∈ g) :
    firstKey g ≤ kv.key.userKey := by
  cases g with
  | nil => cases h
  | cons a g =>
    rcases mem_cons.mp h with rfl | h
    · exact le_refl _
    · exact List.rel_of_pairwise_cons hs h

theorem lastKey_eq (hne : g ≠ []) : lastKey g = (g.getLast hne).key.userKey := by
  simp [lastKey, List.getLast?_eq_some_getLast hne]

theorem le_lastKey (hs : KeySorted g) {kv : KeyValue} (h : kv ∈ g) :
    kv.key.userKey ≤ lastKey g := by
  have hne : g ≠ [] := List.ne_nil_of_mem h
  rw [lastKey_eq hne]
  rw [← List.dropLast_append_getLast hne] at h hs
  rcases mem_append.mp h with h | h
  · exact (List.pairwise_append.mp hs).2.2 kv h _ (List.mem_singleton_self _)
  · rw [List.mem_singleton.mp h]

theorem exists_lastKey (hne : g ≠ []) : ∃ kv ∈ g, kv.key.userKey = lastKey g :=
  ⟨g.getLast hne, List.getLast_mem hne, (lastKey_eq hne).symm⟩

/-- A group of entries with the span recorded for it. -/
def Span (g : List KeyValue) (m : BlockMeta) : Prop :=
  g ≠ [] ∧ m.minKey = firstKey g ∧ m.maxKey = lastKey g

/-- A group decides about a key: no group before it has the key, and it has it if any
    group does. -/
structure Decides {α : Type} (es : α → List KeyValue) (gs : List α) (g : α)
    (key : Bytes) : Prop where
  split : ∃ before after, gs = before ++ g :: after ∧ ∀ kv ∈ before.flatMap es, kv.key.userKey ≠ key
  holds : (∃ kv ∈ gs.flatMap es, kv.key.userKey = key) → ∃ kv ∈ es g, kv.key.userKey = key

theorem Decides.mem {α : Type} {es : α → List KeyValue} {gs : List α} {g : α}
    (h : Decides es gs g key) : g ∈ gs := by
  obtain ⟨before, after, rfl, -⟩ := h.split
  exact List.mem_append_right _ mem_cons_self

theorem Decides.cons {α : Type} {es : α → List KeyValue} {gs : List α} {g g' : α} {key : Bytes}
    (h : Decides es gs g key) (habsent : ∀ kv ∈ es g', kv.key.userKey ≠ key) :
    Decides es (g' :: gs) g key := by
  obtain ⟨before, after, rfl, hbefore⟩ := h.split
  refine ⟨⟨g' :: before, after, rfl, ?_⟩, ?_⟩
  · intro kv hkv
    rcases mem_append.mp hkv with hkv | hkv
    · exact habsent kv hkv
    · exact hbefore kv hkv
  · rintro ⟨kv, hkv, hkey⟩
    rcases mem_append.mp hkv with hkv | hkv
    · exact absurd hkey (habsent kv hkv)
    · exact h.holds ⟨kv, hkv, hkey⟩

/-- The entries of the key are those of the deciding group, as far as the first. -/
theorem Decides.find {α : Type} {es : α → List KeyValue} {gs : List α} {g : α}
    (h : Decides es gs g key) : (gs.flatMap es).find? (hasKey key) = (es g).find? (hasKey key) := by
  obtain ⟨before, after, rfl, hbefore⟩ := h.split
  have hskip : (before.flatMap es).find? (hasKey key) = none :=
    find?_eq_none.mpr fun kv hkv hkey => hbefore kv hkv (of_decide_eq_true hkey)
  rw [List.flatMap_append, List.find?_append, hskip, Option.none_or, flatMap_cons,
    List.find?_append]
  cases hg : (es g).find? (hasKey key) with
  | some kv => rfl
  | none =>
    rw [Option.none_or, find?_eq_none]
    intro kv hkv hkey
    have hall : kv ∈ (before ++ g :: after).flatMap es := by
      rw [List.flatMap_append, flatMap_cons]
      exact List.mem_append_right _ (List.mem_append_right _ hkv)
    obtain ⟨kv', hkv', hkey'⟩ := h.holds ⟨kv, hall, of_decide_eq_true hkey⟩
    exact find?_eq_none.mp hg kv' hkv' (decide_eq_true hkey')

/-- **The first covering span.**  None covers a key no group has; and the first one
    that covers it decides about the key: a span ends with a key of its own group, so no
    later group can hold an earlier entry. -/
theorem find_covering {α : Type} {es : α → List KeyValue} {R : α → BlockMeta → Prop}
    (hR : ∀ g m, R g m → Span (es g) m) {gs : List α} {metas : List BlockMeta}
    (h : Forall₂ R gs metas) (hs : KeySorted (gs.flatMap es)) (key : Bytes) :
    (covering metas key = none → ∀ kv ∈ gs.flatMap es, kv.key.userKey ≠ key) ∧
      (∀ m, covering metas key = some m → ∃ g, R g m ∧ Decides es gs g key) := by
  induction h with
  | nil => exact ⟨by simp, by simp [covering]⟩
  | @cons g m gs metas hgm _ ih =>
    obtain ⟨hne, hmin, hmax⟩ := hR g m hgm
    rw [flatMap_cons] at hs ⊢
    obtain ⟨hsg, hsrest, hcross⟩ := List.pairwise_append.mp hs
    obtain ⟨ihnone, ihsome⟩ := ih hsrest
    by_cases hcover : m.minKey ≤ key ∧ key ≤ m.maxKey
    · have hfind : covering (m :: metas) key = some m := by
        simp [covering, hcover.1, hcover.2]
      refine ⟨by simp [hfind], ?_⟩
      rintro _ hm
      obtain rfl := Option.some.inj (hfind.symm.trans hm)
      refine ⟨g, hgm, ⟨[], gs, rfl, by simp⟩, ?_⟩
      rintro ⟨kv, hkv, hkey⟩
      rcases mem_append.mp hkv with hkv | hkv
      · exact ⟨kv, hkv, hkey⟩
      · -- a later entry of this key makes the last key of the group equal to it
        obtain ⟨last, hlast, hlastKey⟩ := exists_lastKey hne
        refine ⟨last, hlast, le_antisymm ?_ ?_⟩
        · exact hkey ▸ hcross last hlast kv hkv
        · rw [hlastKey, ← hmax]
          exact hcover.2
    · have hskip : covering (m :: metas) key = covering metas key := by
        rw [covering, List.find?_cons_of_neg]
        · rfl
        · simpa using hcover
      have habsent : ∀ kv ∈ es g, kv.key.userKey ≠ key := by
        rintro kv hkv rfl
        apply hcover
        rw [hmin, hmax]
        exact ⟨firstKey_le hsg hkv, le_lastKey hsg hkv⟩
      rw [hskip]
      constructor
      · intro hnone kv hkv
        rcases mem_append.mp hkv with hkv | hkv
        · exact habsent kv hkv
        · exact ihnone hnone kv hkv
      · intro m' hm'
        obtain ⟨g', hR', hdecides⟩ := ihsome m' hm'
        exact ⟨g', hR', hdecides.cons habsent⟩

/-! ### Following the index -/

theorem BlockAt.span {file : Bytes} {m : BlockMeta}
    (h : BlockAt file block m) : Span block m := ⟨h.nonempty, h.minKey, h.maxKey⟩

variable {slice : List BlockMeta} {group : List (List KeyValue)}

theorem firstKey_flatten (h : Forall₂ Span group slice) :
    firstKey group.flatten = (slice.head?.map (·.minKey)).getD [] := by
  cases h with
  | nil => rfl
  | @cons b m group slice hb _ =>
    obtain ⟨kv, b', rfl⟩ := List.exists_cons_of_ne_nil hb.1
    rw [List.head?_cons, Option.map_some, Option.getD_some, hb.2.1]
    rfl

theorem lastKey_append {g' : List KeyValue} (h : g' ≠ []) : lastKey (g ++ g') = lastKey g' := by
  rw [lastKey, lastKey, List.getLast?_append_of_ne_nil g h]

theorem flatten_ne_nil
    (h : Forall₂ Span group slice) (hne : slice ≠ []) : group.flatten ≠ [] := by
  cases h with
  | nil => exact absurd rfl hne
  | cons hb _ =>
    obtain ⟨kv, t, rfl⟩ := List.exists_cons_of_ne_nil hb.1
    simp

theorem lastKey_flatten (h : Forall₂ Span group slice) :
    lastKey group.flatten = (slice.getLast?.map (·.maxKey)).getD [] := by
  induction h with
  | nil => rfl
  | @cons b m group slice hb hrest ih =>
    rw [flatten_cons]
    cases slice with
    | nil =>
      cases hrest
      simp [hb.2.2]
    | cons m' slice =>
      rw [lastKey_append (flatten_ne_nil hrest (by simp)), ih, List.getLast?_cons_cons]

section Following

variable {B : FastBloom} {sstId : SsTableId} {file : Bytes}

/-- The blocks of a shard, and the reference to its header. -/
structure GroupAt (B : FastBloom) (sstId : SsTableId) (file : Bytes) (group : List (List KeyValue))
    (slice : List BlockMeta) (ref : BlockMeta) : Prop where
  blocks : Forall₂ (BlockAt file) group slice
  nonempty : slice ≠ []
  fits : MetasFit slice
  shard : ShardAt B sstId file slice ref

variable {ref : BlockMeta}

theorem GroupAt.span (h : GroupAt B sstId file group slice ref) : Span group.flatten ref := by
  have hspans := h.blocks.imp (fun _ _ hb => hb.span)
  refine ⟨flatten_ne_nil hspans h.nonempty, ?_, ?_⟩
  · rw [h.shard.minKey, firstKey_flatten hspans]
  · rw [h.shard.maxKey, lastKey_flatten hspans]

variable {groups : List (List (List KeyValue))}

theorem forall₂_groupAt {slices : List (List BlockMeta)}
    {refs : List BlockMeta} (hgroups : Forall₂ (Forall₂ (BlockAt file)) groups slices)
    (hne : ∀ s ∈ slices, s ≠ [])
    (hfits : ∀ s ∈ slices, MetasFit s) (hrefs : Forall₂ (ShardAt B sstId file) slices refs) :
    Forall₂ (fun group ref => ∃ slice, GroupAt B sstId file group slice ref) groups refs := by
  induction hgroups generalizing refs with
  | nil =>
    cases hrefs
    exact .nil
  | @cons group slice groups slices hgroup _ ih =>
    cases hrefs with
    | cons hshard hrefs =>
      refine .cons ⟨slice, hgroup, hne _ mem_cons_self, hfits _ mem_cons_self, hshard⟩
        (ih ?_ ?_ hrefs)
      · exact fun s hs => hne s (mem_cons_of_mem _ hs)
      · exact fun s hs => hfits s (mem_cons_of_mem _ hs)

/-- A shard seen as a span: the entries of all its blocks. -/
def ShardSpan (B : FastBloom) (sstId : SsTableId) (file : Bytes) (g : List KeyValue)
    (ref : BlockMeta) : Prop :=
  ∃ group slice, g = group.flatten ∧ GroupAt B sstId file group slice ref

theorem ShardSpan.span (h : ShardSpan B sstId file g ref) : Span g ref := by
  obtain ⟨group, slice, rfl, hgroup⟩ := h
  exact hgroup.span

theorem forall₂_shardSpan {slices : List (List BlockMeta)}
    {refs : List BlockMeta} (hgroups : Forall₂ (Forall₂ (BlockAt file)) groups slices)
    (hne : ∀ s ∈ slices, s ≠ [])
    (hfits : ∀ s ∈ slices, MetasFit s) (hrefs : Forall₂ (ShardAt B sstId file) slices refs) :
    Forall₂ (ShardSpan B sstId file) (groups.map List.flatten) refs :=
  List.forall₂_map_left_iff.mpr ((forall₂_groupAt hgroups hne hfits hrefs).imp
    fun group _ ⟨slice, h⟩ => ⟨group, slice, rfl, h⟩)

variable {dir : SstDir} {table : SsTable B}

theorem loadBlock_of_blockAt (hdir : dir table.sstId = some file) {m : BlockMeta}
    (h : BlockAt file block m) : table.loadBlock .empty dir m = .ok block := by
  have hread := readRange_of_located h.located h.len
  have hdecode := decodeBlock_encodeBlock h.fits
  simp only [SsTable.loadBlock, SstPageCache.fetchBlock, SstPageCache.empty, hdir, hread,
    Except.mapError, bind, Except.bind, hdecode]

theorem loadChild_of_page {cache : SstPageCache} {cref : BlockMeta} (page : Bytes)
    {id : SsTableId} {blocks : List BlockMeta}
    (hpage : cache.fetchHeader (.child table.sstId cref.offset)
      (readRange (dir table.sstId) cref.offset cref.len) = .ok page)
    (hdecode : decodeHeader B page = .ok (.child id blocks)) :
    table.loadChild cache dir cref = .ok blocks := by
  simp only [SsTable.loadChild, hpage, Except.mapError, bind, Except.bind, hdecode]

theorem loadChild_of_shardAt (hdir : dir table.sstId = some file)
    (h : ShardAt B sstId file slice ref) (hfits : MetasFit slice) :
    table.loadChild .empty dir ref = .ok slice := by
  refine loadChild_of_page ((child sstId slice : Header B).encode) ?_
    (decodeHeader_encode B (show (child sstId slice : Header B).Fits from hfits))
  rw [hdir]
  exact readRange_of_located h.located h.len

theorem Decides.in_shard {groups : List (List (List KeyValue))} {group : List (List KeyValue)}
    {b : List KeyValue} {key : Bytes} (hshard : Decides List.flatten groups group key)
    (hblock : Decides id group b key) : Decides id groups.flatten b key := by
  have hflat : groups.flatten.flatMap id = groups.flatMap List.flatten := by
    rw [flatMap_id, flatten_flatten]
    rfl
  obtain ⟨before, after, rfl, hbefore⟩ := hshard.split
  obtain ⟨before', after', rfl, hbefore'⟩ := hblock.split
  refine ⟨⟨before.flatten ++ before', after' ++ after.flatten, by simp, ?_⟩, ?_⟩
  · intro kv hkv
    rw [List.flatMap_append] at hkv
    rcases mem_append.mp hkv with hkv | hkv
    · refine hbefore kv ?_
      rwa [flatMap_id, flatten_flatten] at hkv
    · exact hbefore' kv hkv
  · rw [hflat]
    intro hany
    refine hblock.holds ?_
    rw [flatMap_id]
    exact hshard.holds hany

theorem locateBlock_of_indexed (hdir : dir table.sstId = some file) {blocks : List (List KeyValue)}
    (h : Indexed B sstId file table.index blocks) (hs : KeySorted blocks.flatten) (key : Bytes) :
    ∃ found, table.locateBlock .empty dir key = .ok found ∧
      (found = none → ∀ kv ∈ blocks.flatten, kv.key.userKey ≠ key) ∧
      (∀ m, found = some m → ∃ b, BlockAt file b m ∧ Decides id blocks b key) := by
  generalize hindex : table.index = index at h
  cases h with
  | inline h =>
    rw [← flatMap_id] at hs ⊢
    obtain ⟨hnone, hsome⟩ := find_covering (fun _ _ hb => hb.span) h hs key
    exact ⟨_, by simp [SsTable.locateBlock, hindex], hnone, hsome⟩
  | @sharded groups slices refs hgroups hslices hfits hrefs =>
    have hshards := forall₂_groupAt hgroups hslices hfits hrefs
    rw [flatten_flatten] at hs ⊢
    obtain ⟨hnone, hsome⟩ := find_covering (fun _ _ ⟨_, hg⟩ => hg.span) hshards hs key
    cases hcover : covering refs key with
    | none =>
      exact ⟨none, by simp [SsTable.locateBlock, hindex, hcover], fun _ => hnone hcover, by simp⟩
    | some ref =>
      obtain ⟨group, ⟨slice, hgroup⟩, hdecides⟩ := hsome ref hcover
      have hload : table.loadChild .empty dir ref = .ok slice :=
        loadChild_of_shardAt hdir hgroup.shard hgroup.fits
      have hsg : KeySorted (group.flatMap id) := by
        rw [flatMap_id]
        exact List.Pairwise.sublist (List.sublist_flatten_of_mem (List.mem_map_of_mem hdecides.mem))
          hs
      obtain ⟨hnone', hsome'⟩ := find_covering (fun _ _ hb => hb.span) hgroup.blocks hsg key
      refine ⟨covering slice key, ?_, ?_, ?_⟩
      · simp [SsTable.locateBlock, hindex, hcover, hload, bind, Except.bind]
      · -- the shard's blocks miss the key, and so does every other shard
        intro hmiss kv hkv hkey
        obtain ⟨kv', hkv', hkey'⟩ := hdecides.holds ⟨kv, hkv, hkey⟩
        exact hnone' hmiss kv' (by rwa [flatMap_id]) hkey'
      · intro m hm
        obtain ⟨b, hbm, hblock⟩ := hsome' m hm
        exact ⟨b, hbm, hdecides.in_shard hblock⟩

end Following

/-! ### Reading a written table -/

section Reading

variable {B : FastBloom} {dir : SstDir}

/-- The file of `sstId` is a table of these entries. -/
def Stored (B : FastBloom) (dir : SstDir) (sstId : SsTableId) (entries : List KeyValue) : Prop :=
  ∃ config, TableFits B sstId config entries ∧
    (tableBytes B sstId config entries).length ≤ ISIZE_MAX ∧
    dir sstId = some (tableBytes B sstId config entries)

/-- An open handle through which these entries are reached. -/
structure TableView (dir : SstDir) (table : SsTable B) (entries : List KeyValue) : Prop where
  indexed : ∃ file blocks, dir table.sstId = some file ∧
    Indexed B table.sstId file table.index blocks ∧ blocks.flatten = entries
  range : entries ≠ [] → table.range = { min := firstKey entries, max := lastKey entries }
  bloom : ∀ kv ∈ entries, B.contains table.bloom kv.key.userKey = true

theorem spans_layoutBlocks (target : Nat) (data : Bytes) {blocks : List (List KeyValue)}
    (h : ∀ b ∈ blocks, b ≠ []) : Forall₂ Span blocks (layoutBlocks target data blocks).2 := by
  induction blocks generalizing data with
  | nil => exact .nil
  | cons block blocks ih =>
    exact .cons ⟨h block mem_cons_self, rfl, rfl⟩
      (ih _ (fun b hb => h b (mem_cons_of_mem _ hb)))

theorem range_build (config : TableConfig) (hne : entries ≠ []) :
    (build B config entries).range = { min := firstKey entries, max := lastKey entries } := by
  have hspans := spans_layoutBlocks (max config.page.pageSizeBytes 1) []
    (fun b (hb : b ∈ blocksOf config entries) => blocksOf_ne_nil hb)
  have hfirst := firstKey_flatten hspans
  have hlast := lastKey_flatten hspans
  rw [flatten_blocksOf] at hfirst hlast
  cases hmetas : (layoutBlocks (max config.page.pageSizeBytes 1) []
    (blocksOf config entries)).2 with
  | nil =>
    rw [hmetas, List.forall₂_nil_right_iff] at hspans
    rw [← flatten_blocksOf config entries, hspans] at hne
    exact absurd rfl hne
  | cons m metas =>
    rw [hmetas] at hfirst hlast
    simp only [build, hmetas, List.head?_cons, hfirst, hlast, Option.map_some, Option.getD_some,
      List.getLast?_eq_some_getLast (List.cons_ne_nil m metas)]

theorem indexed_tableBytes {sstId : SsTableId} (hfits : TableFits B sstId config entries)
    (hsize : (tableBytes B sstId config entries).length ≤ ISIZE_MAX) :
    Indexed B sstId (tableBytes B sstId config entries) (tableOf B sstId config entries).index
      (blocksOf config entries) := by
  have hbody : (indexOf B sstId config (build B config entries)).1.length < 2 ^ 64 := by
    rw [tableBytes_eq, length_append] at hsize
    simp only [ISIZE_MAX] at hsize
    omega
  have hindexed := (indexed_indexOf B hfits hbody).append B
    ((rootOf B sstId config entries).encode ++
      beBytes 4 ((rootOf B sstId config entries).encode).length)
  rwa [← tableBytes_eq] at hindexed

theorem contains_tableOf (sstId : SsTableId) (config : TableConfig) (entries : List KeyValue) :
    ∀ kv ∈ entries, B.contains (tableOf B sstId config entries).bloom kv.key.userKey = true :=
  fun _ hkv => B.contains_reload_build _ _ (List.mem_map_of_mem hkv)

theorem Stored.open {sstId : SsTableId} (h : Stored B dir sstId entries) :
    ∃ table, SsTable.open B .empty dir sstId = .ok table ∧ TableView dir table entries := by
  obtain ⟨config, hfits, hsize, hdir⟩ := h
  exact ⟨tableOf B sstId config entries, open_tableBytes B hdir hfits.root,
    ⟨_, _, hdir, indexed_tableBytes hfits hsize, flatten_blocksOf config entries⟩,
    range_build (B := B) config, contains_tableOf sstId config entries⟩

variable {table : SsTable B} {entries : List KeyValue}

def versionAt (key : Bytes) (maxSeq : UInt64) (kv : KeyValue) : Bool :=
  decide (kv.key.userKey = key) && decide (kv.key.seq ≤ maxSeq)

/-- **Point lookup** finds the first visible version in the block that decides about the
    key, through range, filter, index and block. -/
theorem get_of_indexed {file : Bytes} {blocks : List (List KeyValue)}
    (hdir : dir table.sstId = some file) (hindexed : Indexed B table.sstId file table.index blocks)
    (hs : KeySorted blocks.flatten)
    (hrange : blocks.flatten ≠ [] →
      table.range = { min := firstKey blocks.flatten, max := lastKey blocks.flatten })
    (hbloom : ∀ kv ∈ blocks.flatten, B.contains table.bloom kv.key.userKey = true) (key : Bytes)
    (maxSeq : UInt64) :
    ((∀ kv ∈ blocks.flatten, kv.key.userKey ≠ key) ∧ table.get .empty dir key maxSeq = .ok none) ∨
      ∃ b, Decides id blocks b key ∧ table.get .empty dir key maxSeq
        = .ok (b.find? (versionAt key maxSeq)) := by
  unfold SsTable.get
  split_ifs with hskip
  · -- outside the range, or not in the filter: the key has no entry
    refine Or.inl ⟨?_, rfl⟩
    rintro kv hkv rfl
    have hcontains : table.range.contains kv.key.userKey = true := by
      rw [hrange (List.ne_nil_of_mem hkv), KeyRange.contains]
      simp only [Bool.and_eq_true, decide_eq_true_eq]
      exact ⟨firstKey_le hs hkv, le_lastKey hs hkv⟩
    rw [hcontains, hbloom kv hkv] at hskip
    cases hskip
  · obtain ⟨found, hlocate, hmiss, hhit⟩ := locateBlock_of_indexed hdir hindexed hs key
    cases found with
    | none =>
      refine Or.inl ⟨hmiss rfl, ?_⟩
      simp only [hlocate, bind, Except.bind]
    | some m =>
      obtain ⟨block, hblock, hdecides⟩ := hhit m rfl
      have hload : table.loadBlock .empty dir m = .ok block := loadBlock_of_blockAt hdir hblock
      refine Or.inr ⟨block, hdecides, ?_⟩
      simp only [hlocate, hload, bind, Except.bind]
      rfl

theorem TableView.get (h : TableView dir table entries) (hs : KeySorted entries) {maxSeq : UInt64}
    (hvisible : ∀ kv ∈ entries, kv.key.userKey = key → kv.key.seq ≤ maxSeq) :
    table.get .empty dir key maxSeq = .ok (entries.find? (hasKey key)) := by
  obtain ⟨file, blocks, hdir, hindexed, rfl⟩ := h.indexed
  rcases get_of_indexed hdir hindexed hs h.range h.bloom key maxSeq with ⟨hnone, hget⟩ | ⟨b,
    hdecides, hget⟩
  · have hmiss : blocks.flatten.find? (hasKey key) = none :=
      find?_eq_none.mpr fun kv hkv hkey => hnone kv hkv (of_decide_eq_true hkey)
    rw [hget, hmiss]
  · have hsame : b.find? (versionAt key maxSeq) = b.find? (hasKey key) := by
      apply List.find?_congr
      intro kv hkv
      by_cases hkey : kv.key.userKey = key
      · simp [versionAt, hasKey, hkey, hvisible kv (List.mem_flatten_of_mem hdecides.mem hkv) hkey]
      · simp [versionAt, hasKey, hkey]
    have hfind := hdecides.find
    rw [flatMap_id] at hfind
    rw [hget, hsame, hfind]
    rfl

def visible (start stop : Bound Bytes) (maxSeq : UInt64) (kv : KeyValue) : Bool :=
  decide (kv.key.seq ≤ maxSeq) && inBounds start stop kv.key.userKey

theorem blockOverlaps_eq (b : BlockMeta) (start stop : Bound Bytes) :
    blockOverlaps b start stop = spanMeets start stop b.minKey b.maxKey := by
  cases start <;> cases stop <;>
    simp only [blockOverlaps, spanMeets, afterStart, beforeEnd, Bool.not_or, ← decide_not, not_lt,
      not_le, Bool.not_false, Bool.true_and, Bool.and_true] <;> congr

theorem filter_eq_nil_of_not_overlaps {m : BlockMeta} (h : Span g m)
    (hs : KeySorted g) {start stop : Bound Bytes} (maxSeq : UInt64)
    (hskip : blockOverlaps m start stop = false) : g.filter (visible start stop maxSeq) = [] := by
  rw [List.filter_eq_nil_iff]
  intro kv hkv hvis
  simp only [visible, Bool.and_eq_true] at hvis
  rw [blockOverlaps_eq, spanMeets_of_inBounds hvis.2] at hskip
  · cases hskip
  · rw [h.2.1]
    exact firstKey_le hs hkv
  · rw [h.2.2]
    exact le_lastKey hs hkv

theorem drain_spans {R : List KeyValue → BlockMeta → Prop} (hR : ∀ g m, R g m → Span g m)
    {start stop : Bound Bytes} {maxSeq : UInt64}
    (pull : BlockMeta → List (Except ReadError (List KeyValue)))
    (hpull : ∀ g m rest, R g m → KeySorted g →
      drain (pull m ++ rest) = (g.filter (visible start stop maxSeq)).map .ok ++ drain rest)
    {gs : List (List KeyValue)} {metas : List BlockMeta} (h : Forall₂ R gs metas)
    (hs : KeySorted gs.flatten) (rest : List (Except ReadError (List KeyValue))) :
    drain ((metas.filter (blockOverlaps · start stop)).flatMap pull ++ rest) =
      (gs.flatten.filter (visible start stop maxSeq)).map .ok ++ drain rest := by
  induction h with
  | nil => rfl
  | @cons g m gs metas hgm _ ih =>
    rw [flatten_cons] at hs ⊢
    obtain ⟨hsg, hsrest, -⟩ := List.pairwise_append.mp hs
    rw [List.filter_append, List.map_append, append_assoc, ← ih hsrest]
    cases hover : blockOverlaps m start stop with
    | true =>
      simp only [List.filter_cons, hover, if_true, flatMap_cons, append_assoc]
      exact hpull g m _ hgm hsg
    | false =>
      rw [filter_eq_nil_of_not_overlaps (hR g m hgm) hsg maxSeq hover]
      simp only [List.filter_cons, hover, Bool.false_eq_true, if_false, List.map_nil,
        List.nil_append]

/-- **Table scan.**  Exactly the visible entries of the range, in order, and no error. -/
theorem TableView.scan (h : TableView dir table entries) (hs : KeySorted entries)
    (start stop : Bound Bytes) (maxSeq : UInt64) :
    table.scan .empty dir start stop maxSeq =
      (entries.filter (visible start stop maxSeq)).map .ok := by
  obtain ⟨file, blocks, hdir, hindexed, rfl⟩ := h.indexed
  -- pulling one block
  have hblock :
      ∀ (g : List KeyValue) (m : BlockMeta) (rest : List (Except ReadError (List KeyValue))),
      BlockAt file g m → KeySorted g →
      drain ([table.loadEntries .empty dir start stop maxSeq m] ++ rest) =
        (g.filter (visible start stop maxSeq)).map .ok ++ drain rest := by
    intro g m rest hgm _
    have hload : table.loadBlock .empty dir m = .ok g := loadBlock_of_blockAt hdir hgm
    have hentries : table.loadEntries .empty dir start stop maxSeq m =
        .ok (g.filter (visible start stop maxSeq)) := by
      simp only [SsTable.loadEntries, hload, Except.mapError, bind, Except.bind]
      rfl
    rw [hentries]
    rfl
  have hspans : ∀ (g : List KeyValue) (m : BlockMeta), BlockAt file g m → Span g m :=
    fun _ _ hb => hb.span
  unfold SsTable.scan SsTable.pulls
  conv_lhs => simp only [List.map_eq_flatMap]
  generalize hindex : table.index = index at hindexed
  cases hindexed with
  | inline hblocks =>
    have hdrain := drain_spans hspans _ hblock hblocks hs []
    rwa [append_nil, drain, append_nil] at hdrain
  | @sharded groups slices refs hgroups hslices hfits hrefs =>
    have hshards := forall₂_shardSpan hgroups hslices hfits hrefs
    rw [flatten_flatten] at hs ⊢
    conv_lhs => dsimp only; rw [← append_nil (List.flatMap _ _)]
    refine (drain_spans (fun _ _ hg => hg.span) _ ?_ hshards hs []).trans (append_nil _)
    -- pulling one shard pulls its blocks
    rintro g ref rest ⟨group, slice, rfl, hblocks, -, hsfits, hat⟩ hsg
    have hload : table.loadChild .empty dir ref = .ok slice :=
      loadChild_of_shardAt hdir hat hsfits
    simp only [hload, Except.mapError]
    exact drain_spans hspans _ hblock hblocks hsg rest

end Reading

end StrataDb.Lsm
