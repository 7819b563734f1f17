import StrataDb.Runs
import StrataDb.SsTableSpec

/-!
# The page cache under table reads (`crates/lsm/src/storage/cache.rs`)

A cache is `Coherent` with the files when every page it holds is what loading it would give;
fetches and evictions keep it so, and through it every table reads as without one. An offset names
a page because no two pages of a file start at the same place (`offsetsApart_tableOf`).
-/

namespace StrataDb.Lsm

open ByteCodec Codec OrderedMap
open Journal (IoError)

/-! ### Which pages a table has -/

section Pages

variable {B : FastBloom}

def SsTable.refs (table : SsTable B) : List BlockMeta :=
  match table.index with
  | .inline _ => []
  | .sharded refs => refs

def SsTable.metas (cache : SstPageCache) (dir : SstDir) (table : SsTable B) : List BlockMeta :=
  match table.index with
  | .inline blocks => blocks
  | .sharded refs => refs.flatMap fun cref =>
    match table.loadChild cache dir cref with
    | .ok blocks => blocks
    | .error _ => []

def SstPageCache.keepHeader (cache : SstPageCache) (id : HeaderId) (page : Bytes) : SstPageCache :=
  ⟨Function.update cache.headers id (some page), cache.blocks⟩

def SstPageCache.keepBlock (cache : SstPageCache) (id : PageId) (page : Bytes) : SstPageCache :=
  ⟨cache.headers, Function.update cache.blocks id (some page)⟩

theorem SstPageCache.headers_keepHeader {cache : SstPageCache} {id id' : HeaderId}
    {page page' : Bytes} (h : (cache.keepHeader id page).headers id' = some page') :
    id' = id ∧ page' = page ∨ cache.headers id' = some page' := by
  by_cases heq : id' = id
  · subst heq
    exact Or.inl ⟨rfl, by simpa [SstPageCache.keepHeader, eq_comm] using h⟩
  · exact Or.inr (by simpa [SstPageCache.keepHeader, heq] using h)

theorem SstPageCache.blocks_keepBlock {cache : SstPageCache} {id id' : PageId}
    {page page' : Bytes} (h : (cache.keepBlock id page).blocks id' = some page') :
    id' = id ∧ page' = page ∨ cache.blocks id' = some page' := by
  by_cases heq : id' = id
  · subst heq
    exact Or.inl ⟨rfl, by simpa [SstPageCache.keepBlock, eq_comm] using h⟩
  · exact Or.inr (by simpa [SstPageCache.keepBlock, heq] using h)

/-- One change of the cache: a page is dropped, or a page of an open table is loaded
    and kept. -/
inductive CacheStep (B : FastBloom) (dir : SstDir) (live : List SsTableId) :
    SstPageCache → SstPageCache → Prop
  | evict {cache cache' : SstPageCache}
      (hheaders : ∀ id, cache'.headers id = none ∨ cache'.headers id = cache.headers id)
      (hblocks : ∀ id, cache'.blocks id = none ∨ cache'.blocks id = cache.blocks id) :
      CacheStep B dir live cache cache'
  | root {cache : SstPageCache} {id : SsTableId} {page : Bytes} (hid : id ∈ live)
      (hpage : readHeaderPage (dir id) = .ok page) :
      CacheStep B dir live cache (cache.keepHeader (.root id) page)
  | child {cache : SstPageCache} {id : SsTableId} {table : SsTable B} {cref : BlockMeta}
      {page : Bytes} (hid : id ∈ live) (hopen : SsTable.open B cache dir id = .ok table)
      (hcref : cref ∈ table.refs)
      (hpage : readRange (dir table.sstId) cref.offset cref.len = .ok page) :
      CacheStep B dir live cache (cache.keepHeader (.child table.sstId cref.offset) page)
  | block {cache : SstPageCache} {id : SsTableId} {table : SsTable B} {block : BlockMeta}
      {page : Bytes} (hid : id ∈ live) (hopen : SsTable.open B cache dir id = .ok table)
      (hblock : block ∈ table.metas cache dir)
      (hpage : readRange (dir table.sstId) block.offset block.len = .ok page) :
      CacheStep B dir live cache (cache.keepBlock ⟨table.sstId, block.offset⟩ page)

/-- Every cached page belongs to a live table and is what loading it gives. -/
structure Coherent (B : FastBloom) (dir : SstDir) (live : List SsTableId) (cache : SstPageCache) :
    Prop where
  root : ∀ id page, cache.headers (.root id) = some page →
    id ∈ live ∧ readHeaderPage (dir id) = .ok page
  child : ∀ id offset page, cache.headers (.child id offset) = some page →
    id ∈ live ∧ ∃ table cref, SsTable.open B .empty dir id = .ok table ∧ table.sstId = id ∧
      cref ∈ table.refs ∧ cref.offset = offset ∧ readRange (dir id) offset cref.len = .ok page
  block : ∀ id offset page, cache.blocks ⟨id, offset⟩ = some page →
    id ∈ live ∧ ∃ table block, SsTable.open B .empty dir id = .ok table ∧ table.sstId = id ∧
      block ∈ table.metas .empty dir ∧ block.offset = offset ∧
      readRange (dir id) offset block.len = .ok page

theorem coherent_empty (dir : SstDir) (live : List SsTableId) : Coherent B dir live .empty :=
  ⟨by simp [SstPageCache.empty], by simp [SstPageCache.empty], by simp [SstPageCache.empty]⟩

/-- No two pages of the table start at the same place. -/
structure OffsetsApart (dir : SstDir) (table : SsTable B) : Prop where
  refs : ∀ a ∈ table.refs, ∀ b ∈ table.refs, a.offset = b.offset → a = b
  metas : ∀ a ∈ table.metas .empty dir, ∀ b ∈ table.metas .empty dir, a.offset = b.offset → a = b

/-! ### Reads through a coherent cache -/

variable {dir : SstDir} {live : List SsTableId} {cache : SstPageCache} {table : SsTable B}
  {id : SsTableId}

theorem Coherent.open_eq (h : Coherent B dir live cache) (id : SsTableId) :
    SsTable.open B cache dir id = SsTable.open B .empty dir id := by
  have hfetch : cache.fetchHeader (.root id) (readHeaderPage (dir id)) =
      SstPageCache.empty.fetchHeader (.root id) (readHeaderPage (dir id)) := by
    unfold SstPageCache.fetchHeader
    cases hcached : cache.headers (.root id) with
    | none => rfl
    | some page => exact (h.root id page hcached).2.symm
  simp only [SsTable.open, hfetch]

theorem Coherent.loadChild_eq (h : Coherent B dir live cache)
    (hopen : SsTable.open B .empty dir id = .ok table) (hid : table.sstId = id)
    (hoff : OffsetsApart dir table) {cref : BlockMeta} (hcref : cref ∈ table.refs) :
    table.loadChild cache dir cref = table.loadChild .empty dir cref := by
  have hfetch : cache.fetchHeader (.child table.sstId cref.offset)
      (readRange (dir table.sstId) cref.offset cref.len) =
      SstPageCache.empty.fetchHeader (.child table.sstId cref.offset)
        (readRange (dir table.sstId) cref.offset cref.len) := by
    unfold SstPageCache.fetchHeader
    cases hcached : cache.headers (.child table.sstId cref.offset) with
    | none => rfl
    | some page =>
      obtain ⟨-, table', cref', hopen', -, hcref', hoffset, hpage⟩ := h.child _ _ _ hcached
      rw [hid] at hopen'
      obtain rfl := Except.ok.inj (hopen.symm.trans hopen')
      obtain rfl := hoff.refs _ hcref' _ hcref hoffset
      exact hpage.symm
  simp only [SsTable.loadChild, hfetch]

theorem Coherent.metas_eq (h : Coherent B dir live cache)
    (hopen : SsTable.open B .empty dir id = .ok table) (hid : table.sstId = id)
    (hoff : OffsetsApart dir table) : table.metas cache dir = table.metas .empty dir := by
  unfold SsTable.metas
  cases hindex : table.index with
  | inline blocks => rfl
  | sharded refs =>
    apply List.flatMap_congr
    intro cref hcref
    rw [h.loadChild_eq hopen hid hoff (by rwa [SsTable.refs, hindex])]

theorem Coherent.loadBlock_eq (h : Coherent B dir live cache)
    (hopen : SsTable.open B .empty dir id = .ok table) (hid : table.sstId = id)
    (hoff : OffsetsApart dir table) {block : BlockMeta} (hblock : block ∈ table.metas .empty dir) :
    table.loadBlock cache dir block = table.loadBlock .empty dir block := by
  have hfetch : cache.fetchBlock ⟨table.sstId, block.offset⟩
      (readRange (dir table.sstId) block.offset block.len) =
      SstPageCache.empty.fetchBlock ⟨table.sstId, block.offset⟩
        (readRange (dir table.sstId) block.offset block.len) := by
    unfold SstPageCache.fetchBlock
    cases hcached : cache.blocks ⟨table.sstId, block.offset⟩ with
    | none => rfl
    | some page =>
      obtain ⟨-, table', block', hopen', -, hblock', hoffset, hpage⟩ := h.block _ _ _ hcached
      rw [hid] at hopen'
      obtain rfl := Except.ok.inj (hopen.symm.trans hopen')
      obtain rfl := hoff.metas _ hblock' _ hblock hoffset
      exact hpage.symm
  simp only [SsTable.loadBlock, hfetch]

theorem mem_of_covering {metas : List BlockMeta} {key : Bytes} {m : BlockMeta}
    (h : covering metas key = some m) : m ∈ metas := List.mem_of_find?_eq_some h

theorem Coherent.locateBlock_eq (h : Coherent B dir live cache)
    (hopen : SsTable.open B .empty dir id = .ok table) (hid : table.sstId = id)
    (hoff : OffsetsApart dir table) (key : Bytes) :
    table.locateBlock cache dir key = table.locateBlock .empty dir key := by
  unfold SsTable.locateBlock
  cases hindex : table.index with
  | inline blocks => rfl
  | sharded refs =>
    cases hcover : covering refs key with
    | none => simp only [hcover]
    | some cref =>
      have hcref : cref ∈ table.refs := by
        rw [SsTable.refs, hindex]
        exact mem_of_covering hcover
      simp only [hcover, h.loadChild_eq hopen hid hoff hcref]

theorem mem_metas_of_locateBlock {key : Bytes} {m : BlockMeta}
    (h : table.locateBlock .empty dir key = .ok (some m)) : m ∈ table.metas .empty dir := by
  unfold SsTable.locateBlock at h
  unfold SsTable.metas
  cases hindex : table.index with
  | inline blocks =>
    simp only [hindex, Except.ok.injEq] at h
    exact mem_of_covering h
  | sharded refs =>
    simp only [hindex] at h
    cases hcover : covering refs key with
    | none => simp [hcover] at h
    | some cref =>
      simp only [hcover] at h
      obtain ⟨blocks, hload, hm⟩ := Runs.bind_eq_ok.mp h
      refine List.mem_flatMap.mpr ⟨cref, mem_of_covering hcover, ?_⟩
      rw [hload]
      exact mem_of_covering (Except.ok.inj hm)

theorem Coherent.get_eq (h : Coherent B dir live cache)
    (hopen : SsTable.open B .empty dir id = .ok table) (hid : table.sstId = id)
    (hoff : OffsetsApart dir table) (key : Bytes) (maxSeq : UInt64) :
    table.get cache dir key maxSeq = table.get .empty dir key maxSeq := by
  unfold SsTable.get
  rw [h.locateBlock_eq hopen hid hoff]
  split_ifs
  · rfl
  · cases hlocate : table.locateBlock .empty dir key with
    | error e => rfl
    | ok found =>
      cases found with
      | none => rfl
      | some m =>
        simp only [bind, Except.bind,
          h.loadBlock_eq hopen hid hoff (mem_metas_of_locateBlock hlocate)]

theorem Coherent.scan_eq (h : Coherent B dir live cache)
    (hopen : SsTable.open B .empty dir id = .ok table) (hid : table.sstId = id)
    (hoff : OffsetsApart dir table) (start stop : Bound Bytes) (maxSeq : UInt64) :
    table.scan cache dir start stop maxSeq = table.scan .empty dir start stop maxSeq := by
  have hblocks : ∀ blocks : List BlockMeta, (∀ m ∈ blocks, m ∈ table.metas .empty dir) →
      (blocks.filter (blockOverlaps · start stop)).map
        (table.loadEntries cache dir start stop maxSeq) =
      (blocks.filter (blockOverlaps · start stop)).map
        (table.loadEntries .empty dir start stop maxSeq) := by
    intro blocks hmem
    apply List.map_congr_left
    intro m hm
    simp only [SsTable.loadEntries,
      h.loadBlock_eq hopen hid hoff (hmem m (List.mem_of_mem_filter hm))]
  unfold SsTable.scan SsTable.pulls
  congr 1
  cases hindex : table.index with
  | inline blocks =>
    apply hblocks
    intro m hm
    rwa [SsTable.metas, hindex]
  | sharded refs =>
    -- the shard is read alike, and so are the blocks it names
    apply List.flatMap_congr
    intro cref hcref
    have hcref' : cref ∈ refs := List.mem_of_mem_filter hcref
    rw [h.loadChild_eq hopen hid hoff (by rwa [SsTable.refs, hindex])]
    cases hload : table.loadChild .empty dir cref with
    | error e => rfl
    | ok blocks =>
      apply hblocks
      intro m hm
      rw [SsTable.metas, hindex]
      refine List.mem_flatMap.mpr ⟨cref, hcref', ?_⟩
      rwa [hload]

/-! ### Changes of the cache and of the files -/

theorem open_congr {dir' : SstDir} (h : dir id = dir' id) :
    SsTable.open B .empty dir id = SsTable.open B .empty dir' id := by
  simp only [SsTable.open, h]

theorem metas_congr {dir' : SstDir} (h : dir table.sstId = dir' table.sstId) :
    table.metas .empty dir = table.metas .empty dir' := by
  simp only [SsTable.metas, SsTable.loadChild, h]

theorem Coherent.mono (h : Coherent B dir live cache) {dir' : SstDir} {live' : List SsTableId}
    (hfiles : ∀ id ∈ live, dir' id = dir id) (hlive : ∀ id ∈ live, id ∈ live') :
    Coherent B dir' live' cache := by
  constructor
  · intro id page hcached
    obtain ⟨hid, hpage⟩ := h.root id page hcached
    exact ⟨hlive id hid, by rwa [hfiles id hid]⟩
  · intro id offset page hcached
    obtain ⟨hid, table, cref, hopen, hsst, hcref, hoffset, hpage⟩ := h.child id offset page hcached
    have hfile := hfiles id hid
    exact ⟨hlive id hid, table, cref, by rwa [open_congr hfile], hsst, hcref, hoffset,
      by rwa [hfile]⟩
  · intro id offset page hcached
    obtain ⟨hid, table, block, hopen, hsst, hblock, hoffset, hpage⟩ :=
      h.block id offset page hcached
    have hfile := hfiles id hid
    refine ⟨hlive id hid, table, block, by rwa [open_congr hfile], hsst, ?_, hoffset,
      by rwa [hfile]⟩
    rwa [metas_congr (by rw [hsst, hfile])]

/-- **Fetches and evictions keep the cache coherent**, when no two pages of a live
    table start at the same place. -/
theorem Coherent.step (h : Coherent B dir live cache) {cache' : SstPageCache}
    (hlive : ∀ id ∈ live, ∀ table : SsTable B, SsTable.open B .empty dir id = .ok table →
      table.sstId = id ∧ OffsetsApart dir table)
    (hstep : CacheStep B dir live cache cache') : Coherent B dir live cache' := by
  cases hstep with
  -- what is cached after an eviction was cached before
  | evict hheaders hblocks =>
    constructor
    · intro id page hcached
      exact h.root id page (((hheaders _).resolve_left (by simp [hcached])).symm.trans hcached)
    · intro id offset page hcached
      exact h.child id offset page
        (((hheaders _).resolve_left (by simp [hcached])).symm.trans hcached)
    · intro id offset page hcached
      exact h.block id offset page
        (((hblocks _).resolve_left (by simp [hcached])).symm.trans hcached)
  | @root id page hid hpage =>
    refine ⟨?_, ?_, h.block⟩
    · intro id' page' hcached
      rcases SstPageCache.headers_keepHeader hcached with ⟨heq, rfl⟩ | hcached
      · cases heq
        exact ⟨hid, hpage⟩
      · exact h.root id' page' hcached
    · intro id' offset page' hcached
      rcases SstPageCache.headers_keepHeader hcached with ⟨heq, -⟩ | hcached
      · cases heq
      · exact h.child id' offset page' hcached
  | @child id table cref page hid hopen hcref hpage =>
    rw [h.open_eq] at hopen
    obtain ⟨rfl, -⟩ := hlive id hid table hopen
    refine ⟨?_, ?_, h.block⟩
    · intro id' page' hcached
      rcases SstPageCache.headers_keepHeader hcached with ⟨heq, -⟩ | hcached
      · cases heq
      · exact h.root id' page' hcached
    · intro id' offset page' hcached
      rcases SstPageCache.headers_keepHeader hcached with ⟨heq, rfl⟩ | hcached
      · cases heq
        exact ⟨hid, table, cref, hopen, rfl, hcref, rfl, hpage⟩
      · exact h.child id' offset page' hcached
  | @block id table block page hid hopen hblock hpage =>
    rw [h.open_eq] at hopen
    obtain ⟨rfl, hoff⟩ := hlive id hid table hopen
    rw [h.metas_eq hopen rfl hoff] at hblock
    refine ⟨h.root, h.child, ?_⟩
    intro id' offset page' hcached
    rcases SstPageCache.blocks_keepBlock hcached with ⟨heq, rfl⟩ | hcached
    · cases heq
      exact ⟨hid, table, block, hopen, rfl, hblock, rfl, hpage⟩
    · exact h.block id' offset page' hcached

/-! ### Pages of a written table -/

/-- Pages in file order, no two at one place. -/
def OffsetsAscend (metas : List BlockMeta) : Prop :=
  metas.Pairwise (fun a b => a.offset.toNat < b.offset.toNat)

theorem OffsetsAscend.apart {metas : List BlockMeta} (h : OffsetsAscend metas) :
    ∀ a ∈ metas, ∀ b ∈ metas, a.offset = b.offset → a = b := by
  have hnodup : (metas.map (·.offset)).Nodup :=
    List.pairwise_map.mpr (h.imp (fun hlt heq => by rw [heq] at hlt; exact Nat.lt_irrefl _ hlt))
  intro a ha b hb hab
  exact List.inj_on_of_nodup_map hnodup ha hb hab

theorem offsets_layoutBlocks (target : Nat) (data : Bytes) {blocks : List (List KeyValue)}
    (hsize : (layoutBlocks target data blocks).1.length < 2 ^ 64) (hne : ∀ b ∈ blocks, b ≠ []) :
    OffsetsAscend (layoutBlocks target data blocks).2 ∧
      ∀ m ∈ (layoutBlocks target data blocks).2, data.length ≤ m.offset.toNat := by
  induction blocks generalizing data with
  | nil => exact ⟨List.Pairwise.nil, by simp [layoutBlocks]⟩
  | cons block blocks ih =>
    obtain ⟨x, hx⟩ :=
      layoutBlocks_eq_append target (padTo target (data ++ encodeBlock block)) blocks
    obtain ⟨y, hy⟩ := padTo_eq_append target (data ++ encodeBlock block)
    simp only [layoutBlocks] at hsize ⊢
    obtain ⟨hrest, hge⟩ := ih _ hsize (fun b hb => hne b (List.mem_cons_of_mem _ hb))
    have hblock : 0 < (encodeBlock block).length := by
      have hpos := List.length_pos_iff.mpr (hne block List.mem_cons_self)
      exact Nat.lt_of_lt_of_le hpos (count_le_length_flatMap (fun kv _ => encode_ne_nil kv))
    have hpadded : data.length < (padTo target (data ++ encodeBlock block)).length := by
      rw [hy]
      simp only [List.length_append]
      omega
    have hdata : data.length < 2 ^ 64 := by
      rw [hx] at hsize
      simp only [List.length_append] at hsize
      omega
    have hoffset := UInt64.toNat_ofNat_of_lt' hdata
    refine ⟨List.pairwise_cons.mpr ⟨?_, hrest⟩, ?_⟩
    · intro m hm
      rw [hoffset]
      exact Nat.lt_of_lt_of_le hpadded (hge m hm)
    · intro m hm
      rcases List.mem_cons.mp hm with rfl | hm
      · rw [hoffset]
      · exact (hpadded.trans_le (hge m hm)).le

theorem length_encode_child_pos (sstId : SsTableId) (slice : List BlockMeta) :
    0 < ((Header.child sstId slice : Header B).encode).length := by
  simp only [Header.encode, List.length_append, length_beBytes]
  omega

theorem offsets_appendShards (sstId : SsTableId) (buf : Bytes) {slices : List (List BlockMeta)}
    (hsize : (appendShards B sstId buf slices).1.length < 2 ^ 64) :
    OffsetsAscend (appendShards B sstId buf slices).2 ∧
      ∀ m ∈ (appendShards B sstId buf slices).2, buf.length ≤ m.offset.toNat := by
  induction slices generalizing buf with
  | nil => exact ⟨List.Pairwise.nil, by simp [appendShards]⟩
  | cons slice slices ih =>
    obtain ⟨x, hx⟩ := appendShards_eq_append B sstId
      (buf ++ (Header.child sstId slice : Header B).encode) slices
    simp only [appendShards] at hsize ⊢
    obtain ⟨hrest, hge⟩ := ih _ hsize
    have hchild := length_encode_child_pos (B := B) sstId slice
    rw [List.length_append] at hge
    have hbuf : buf.length < 2 ^ 64 := by
      rw [hx] at hsize
      simp only [List.length_append] at hsize
      omega
    have hoffset := UInt64.toNat_ofNat_of_lt' hbuf
    refine ⟨List.pairwise_cons.mpr ⟨?_, hrest⟩, ?_⟩
    · intro m hm
      rw [hoffset]
      have := hge m hm
      omega
    · intro m hm
      rcases List.mem_cons.mp hm with rfl | hm
      · rw [hoffset]
      · have := hge m hm
        omega

theorem flatMap_loadChild {slices : List (List BlockMeta)} {refs : List BlockMeta}
    (h : List.Forall₂ (fun slice cref => table.loadChild .empty dir cref = .ok slice) slices refs) :
    (refs.flatMap fun cref =>
      match table.loadChild .empty dir cref with
      | .ok blocks => blocks
      | .error _ => []) = slices.flatten := by
  induction h with
  | nil => rfl
  | cons hload _ ih => simp only [List.flatMap_cons, hload, List.flatten_cons, ih]

section Written

variable {config : TableConfig} {entries : List KeyValue}

theorem body_lt (hsize : (tableBytes B id config entries).length ≤ ISIZE_MAX) :
    (indexOf B id config (build B config entries)).1.length < 2 ^ 64 := by
  rw [tableBytes_eq, List.length_append] at hsize
  simp only [ISIZE_MAX] at hsize
  omega

theorem metas_tableOf (hdir : dir id = some (tableBytes B id config entries))
    (hfits : TableFits B id config entries)
    (hsize : (tableBytes B id config entries).length ≤ ISIZE_MAX) :
    (tableOf B id config entries).metas .empty dir = (build B config entries).blocks := by
  have hbody := body_lt hsize
  have hindex : (tableOf B id config entries).index =
      (indexOf B id config (build B config entries)).2 := rfl
  rw [tableBytes_eq] at hdir
  unfold SsTable.metas
  rw [hindex]
  by_cases hinline : (build B config entries).blocks.length ≤ max config.page.blocksPerChunk 1
  · simp only [indexOf, if_pos hinline]
  · have hshards := hfits.shards (not_le.mp hinline)
    simp only [indexOf, if_neg hinline] at hbody hdir ⊢
    have hrefs := shardAt_appendShards B id _ _ hbody hshards
    have hloads : List.Forall₂ (fun slice cref =>
        (tableOf B id config entries).loadChild .empty dir cref = .ok slice)
        (slicesOf config (build B config entries).blocks)
        (appendShards B id (build B config entries).buf
          (slicesOf config (build B config entries).blocks)).2 := by
      refine ((List.forall₂_and_left _ _).mpr ⟨hshards, hrefs⟩).imp ?_
      rintro slice cref ⟨hlen, hat⟩
      exact loadChild_of_shardAt hdir (hat.append _) (Header.fits_of_length hlen)
    rw [flatMap_loadChild hloads]
    exact (chunks_spec (by omega) (Nat.le_refl _)).1

theorem offsetsApart_tableOf (hdir : dir id = some (tableBytes B id config entries))
    (hfits : TableFits B id config entries)
    (hsize : (tableBytes B id config entries).length ≤ ISIZE_MAX) :
    OffsetsApart dir (tableOf B id config entries) := by
  have hbody := body_lt hsize
  constructor
  · have hindex : (tableOf B id config entries).index =
        (indexOf B id config (build B config entries)).2 := rfl
    unfold SsTable.refs
    rw [hindex]
    by_cases hinline : (build B config entries).blocks.length ≤ max config.page.blocksPerChunk 1
    · simp only [indexOf, if_pos hinline, List.not_mem_nil, false_implies, implies_true]
    · simp only [indexOf, if_neg hinline] at hbody ⊢
      exact (offsets_appendShards id _ hbody).1.apart
  · rw [metas_tableOf hdir hfits hsize]
    have hbuf : (build B config entries).buf.length < 2 ^ 64 := by
      by_cases hinline : (build B config entries).blocks.length ≤ max config.page.blocksPerChunk 1
      · simpa only [indexOf, if_pos hinline] using hbody
      · simp only [indexOf, if_neg hinline] at hbody
        obtain ⟨x, hx⟩ := appendShards_eq_append B id (build B config entries).buf
          (slicesOf config (build B config entries).blocks)
        rw [hx, List.length_append] at hbody
        omega
    exact (offsets_layoutBlocks _ _ hbuf (fun b hb => blocksOf_ne_nil hb)).1.apart

end Written

/-- What a reader gets from a table file: it opens, its range is that of its keys,
    `get` finds the first entry of a key whose versions are all visible, and `scan`
    yields the visible entries of a range. -/
def Readable (B : FastBloom) (cache : SstPageCache) (dir : SstDir) (id : SsTableId)
    (entries : List KeyValue) : Prop :=
  ∃ table : SsTable B, SsTable.open B cache dir id = .ok table ∧
    (entries ≠ [] → table.range = { min := firstKey entries, max := lastKey entries }) ∧
    (∀ key maxSeq, (∀ kv ∈ entries, kv.key.userKey = key → kv.key.seq ≤ maxSeq) →
      table.get cache dir key maxSeq = .ok (entries.find? (hasKey key))) ∧
    (∀ start stop maxSeq, table.scan cache dir start stop maxSeq =
      (entries.filter (visible start stop maxSeq)).map .ok)

variable {entries : List KeyValue}

theorem Stored.congr (h : Stored B dir id entries) {dir' : SstDir} (hfile : dir' id = dir id) :
    Stored B dir' id entries := by
  obtain ⟨config, hfits, hsize, hdir⟩ := h
  exact ⟨config, hfits, hsize, by rw [hfile, hdir]⟩

theorem Stored.pages (h : Stored B dir id entries) (table : SsTable B)
    (hopen : SsTable.open B .empty dir id = .ok table) :
    table.sstId = id ∧ OffsetsApart dir table := by
  obtain ⟨config, hfits, hsize, hdir⟩ := h
  obtain rfl := Except.ok.inj (hopen.symm.trans (open_tableBytes B hdir hfits.root))
  exact ⟨rfl, offsetsApart_tableOf hdir hfits hsize⟩

/-- **A written table reads back**, through any coherent cache. -/
theorem Stored.readable (h : Stored B dir id entries) (hs : KeySorted entries)
    (hcache : Coherent B dir live cache) : Readable B cache dir id entries := by
  obtain ⟨table, hopen, hview⟩ := h.open
  obtain ⟨hid, hoff⟩ := h.pages table hopen
  refine ⟨table, by rw [hcache.open_eq, hopen], hview.range, ?_, ?_⟩
  · intro key maxSeq hvisible
    rw [hcache.get_eq hopen hid hoff]
    exact hview.get hs hvisible
  · intro start stop maxSeq
    rw [hcache.scan_eq hopen hid hoff]
    exact hview.scan hs start stop maxSeq

theorem stored_write {dir' : SstDir} {config : TableConfig} (hfits : TableFits B id config entries)
    (h : dir.write B id config entries = .ok dir') :
    Stored B dir' id entries ∧ ∀ id', id' ≠ id → dir' id' = dir id' := by
  simp only [SstDir.write] at h
  split_ifs at h with hsize
  cases h
  exact ⟨⟨config, hfits, not_lt.mp hsize, Function.update_self ..⟩,
    fun id' hne => Function.update_of_ne hne ..⟩

end Pages

end StrataDb.Lsm
