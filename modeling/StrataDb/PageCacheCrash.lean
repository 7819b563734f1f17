import Mathlib.Data.List.TakeWhile
import StrataDb.JournalReplay
import StrataDb.PageCacheDisk
import StrataDb.PageCacheRefinement
import StrataDb.RedoLog

/-!
# A crash inside a flush of a journaled page cache (`crates/filesystem/src/cache/mod.rs`)

A flush logs the images of the dirty pages and a commit marker, and only then writes the pages.
The file may also have lost blocks that it grew by, and have any superblock written since the last
flush. What a crash leaves opens to the pages before this flush, or to those of the complete one
(`journaled_flush_atomic`).
-/

namespace StrataDb.Filesystem

open ByteCodec BlockStore LawfulBlockStore LawfulPolicy Runs RedoLog
open DiskBlockStore (superblock)

/-! ### Files as blocks without an end -/

/-- What stands at a place of a file; beyond the end there are zeros. -/
def blockAt (file : List Block) (i : Nat) : Block := file[i]?.getD Block.zeroed

theorem blockAt_grown (file : List Block) (m : Nat) :
    blockAt (file ++ List.replicate m Block.zeroed) = blockAt file := by
  funext i
  rw [blockAt, blockAt]
  rcases Nat.lt_or_ge i file.length with hi | hi
  · rw [List.getElem?_append_left hi]
  · rw [List.getElem?_append_right hi, List.getElem?_eq_none hi, List.getElem?_replicate]
    split_ifs <;> rfl

theorem blockAt_writeAllAt (file : List Block) (id : Nat) (b : Block) :
    blockAt (writeAllAt file id b) = Function.update (blockAt file) id b := by
  funext i
  rw [Function.update_apply, blockAt, getElem?_writeAllAt]
  split_ifs
  · rfl
  · exact congrFun (blockAt_grown file _) i

/-- Zeros are no page, so the page in a store is what stands at its place. -/
theorem stored_eq_blockAt {crc : Crc32c} (hzero : ¬ Verifies crc Block.zeroed) (v : DiskBlockStore)
    (id : Nat) :
    stored crc v id = if Verifies crc (blockAt v.file id) then some (blockAt v.file id) else
      none := by
  have hread : read v id = readExactAt v.file id := rfl
  rw [stored, hread, readExactAt, blockAt]
  cases v.file[id]? with
  | none => exact (if_neg hzero).symm
  | some b => rfl

variable {v v' : DiskBlockStore}

theorem storePages_congr {crc : Crc32c} (hzero : ¬ Verifies crc Block.zeroed)
    (h : ∀ i, i ≠ 0 → blockAt v.file i = blockAt v'.file i) :
    storePages crc v = storePages crc v' := by
  funext id
  unfold storePages
  split_ifs with hid
  · rfl
  · rw [stored_eq_blockAt hzero, stored_eq_blockAt hzero, h id hid]

/-- Syncing changes the superblock only. -/
theorem blockAt_of_sync (h : sync v = .ok v') {i : Nat} (hi : i ≠ 0) :
    blockAt v'.file i = blockAt v.file i := by
  change v.writeSuperblock = .ok v' at h
  rw [DiskBlockStore.writeSuperblock] at h
  split_ifs at h
  obtain rfl := Except.ok.inj h
  show blockAt (writeAllAt _ _ _) i = _
  rw [blockAt_writeAllAt, Function.update_of_ne hi]

/-! ### What a flush writes -/

def redoOps (images : List (Nat × Block)) :
    List JournalOp := images.map fun d => .write d.1 d.2.bytes

def flushLog (images : List (Nat × Block)) : List JournalOp := redoOps images ++ [.commit]

namespace Inner

variable {P : Type} {n : Nat} [EvictionPolicy P (Fin n)] (crc : Crc32c) (hash : Bytes → UInt32)

/-- The pages that a flush writes, with their bytes. -/
def images {V : Type} (c : Inner V P n) : List (Nat × Block) :=
  c.dirtyFrames.map fun d => (d.2, ((c.finalizeFrames crc c.dirtyFrames).frames d.1).buf)

omit [EvictionPolicy P (Fin n)] in
theorem records_eq {V : Type} (c : Inner V P n) :
    (c.finalizeFrames crc c.dirtyFrames).records c.dirtyFrames = flushLog (c.images crc) := by
  rw [records, flushLog, redoOps, images, List.map_map]
  rfl

variable {crc hash}

omit [EvictionPolicy P (Fin n)] in
theorem writeBack_redo (dirty : List (Fin n × Nat)) (c : Inner DiskBlockStore P n) :
    ∃ c', writeBack dirty c = (.ok (), c') ∧
      blockAt c'.block.file = redo (blockAt c.block.file)
        (dirty.map fun d => (d.2, (c.frames d.1).buf)) := by
  induction dirty generalizing c with
  | nil => exact ⟨c, rfl, rfl⟩
  | cons d dirty ih =>
    obtain ⟨c', hrun, hblocks⟩ := ih ({ c with
      block := { c.block with file := writeAllAt c.block.file d.2 (c.frames d.1).buf } }.modify d.1
        (fun fr => { fr with dirty := false }))
    refine ⟨c', hrun, ?_⟩
    have hbufs (v : DiskBlockStore) (f : Fin n) : (({ c with block := v }.modify d.1
        (fun fr => { fr with dirty := false })).frames f).buf = (c.frames f).buf :=
          modify_field Frame.buf rfl f
    simp only [hbufs] at hblocks
    rw [hblocks, List.map_cons, redo_cons]
    exact congrArg (redo · _) (blockAt_writeAllAt _ _ _)

omit [EvictionPolicy P (Fin n)] in
/-- **A flush redoes its images in the file.** -/
theorem flush_redo {c c' : Inner DiskBlockStore P n} (h : c.flush crc hash = (.ok (), c')) {i : Nat}
    (hi : i ≠ 0) : blockAt c'.block.file i = redo (blockAt c.block.file) (c.images crc) i := by
  rw [flush] at h
  split_ifs at h with hempty
  · obtain ⟨-, rfl⟩ := Prod.mk.inj h
    rw [images, List.isEmpty_iff.mp hempty]
    rfl
  · obtain ⟨c₁, hwrite, hblocks⟩ := writeBack_redo c.dirtyFrames (c.commit crc hash c.dirtyFrames)
    rw [commit_block] at hblocks
    simp only [hwrite] at h
    split at h
    · cases h
    · rename_i v hsync
      obtain ⟨-, rfl⟩ := Prod.mk.inj h
      show blockAt v.file i = _
      rw [blockAt_of_sync hsync hi, hblocks]
      rfl

end Inner

/-! ### Redoing a log -/

variable {id : Nat}

/-- A block below the next id may be written; a file that lost blocks grows again. -/
theorem DiskBlockStore.Valid.rewrite (h : v.Valid) (hid : id < v.nextId) (b : Block) :
    DiskBlockStore.Valid { v with file := writeAllAt v.file id b } := by
  have hlength : (writeAllAt v.file id b).length = max v.file.length (id + 1) := by
    rw [writeAllAt, List.length_set, List.length_append, List.length_replicate]
    omega
  obtain ⟨hfree, hnext, hfile, hcapacity, hissued⟩ := h
  refine ⟨hfree, hnext, ?_, ?_, ?_⟩ <;> simp only [hlength] <;> omega

theorem ensureAllocated_ok (h : v.Valid) (id : Nat) : ∃ v', ensureAllocated v id = .ok v' ∧
    v'.Valid ∧ blockAt v'.file = blockAt v.file ∧ v'.nextId = max v.nextId (id + 1) := by
  rcases Nat.lt_or_ge id v.nextId with hid | hid
  · exact ⟨v, if_neg (Nat.not_le.mpr hid), h, rfl, by omega⟩
  · obtain ⟨m, cap, hgrow, -, hvalid⟩ := h.ensureCapacity (Nat.lt_succ_of_le hid)
    refine ⟨_, (if_pos hid).trans (congrArg _ hgrow), hvalid, blockAt_grown v.file m, ?_⟩
    show id + 1 = _
    omega

/-- **Applying images redoes them**, on any file. -/
theorem applyImages_redo (images : List (Nat × Block)) (h : v.Valid) :
    ∃ v', applyImages (redoOps images) v = .ok v' ∧ v'.Valid ∧
      blockAt v'.file = redo (blockAt v.file) images ∧ v.nextId ≤ v'.nextId ∧
      (∀ d ∈ images, d.1 < v'.nextId) ∧ ∀ bound, v.nextId ≤ bound → (∀ d ∈ images, d.1 < bound) →
      v'.nextId ≤ bound := by
  induction images generalizing v with
  | nil => exact ⟨v, rfl, h, rfl, le_rfl, by simp, fun _ hbound _ => hbound⟩
  | cons d images ih =>
    obtain ⟨v₁, hensure, h₁, hblocks₁, hnext₁⟩ := ensureAllocated_ok h d.1
    obtain ⟨v', happly, h', hblocks, hle, hids, hbound⟩ :=
      ih (h₁.rewrite (by omega : d.1 < v₁.nextId) d.2)
    dsimp only at hle hbound hblocks
    refine ⟨v', ?_, h', ?_, by omega, ?_, ?_⟩
    · show ((ensureAllocated v d.1).mapError _ >>= _) = _
      rw [hensure]
      show (Block.copyFromSlice d.2.bytes >>= _) = _
      rw [Block.copyFromSlice, dif_pos d.2.length_eq]
      exact happly
    · rw [hblocks, blockAt_writeAllAt, hblocks₁, redo_cons]
    · intro e he
      rcases List.mem_cons.mp he with rfl | he
      · omega
      · exact hids e he
    · intro bound hv hlt
      have hd := hlt d List.mem_cons_self
      exact hbound bound (by omega) fun e he => hlt e (List.mem_cons_of_mem _ he)

theorem committed_flushLog (images : List (Nat × Block)) :
    committed (flushLog images) = some (redoOps images) := by
  simp [committed, flushLog]

theorem committed_take (images : List (Nat × Block)) {i : Nat} (hi : i < (flushLog images).length) :
    committed ((flushLog images).take i) = none := by
  rw [flushLog, List.length_append, List.length_singleton] at hi
  have hwrites : ((redoOps images).take i).reverse.dropWhile (· ≠ .commit) = [] := by
    rw [List.dropWhile_eq_nil_iff]
    intro op hop
    obtain ⟨d, -, rfl⟩ := List.mem_map.mp (List.mem_of_mem_take (List.mem_reverse.mp hop))
    rfl
  rw [flushLog, List.take_append_of_le_length (by omega), committed, hwrites]

section Logs

variable {hash : Bytes → UInt32} {images : List (Nat × Block)} {v : DiskBlockStore}

theorem flushLog_lawful (hids : ∀ d ∈ images, d.1 < 2 ^ 64) : ∀ op ∈ flushLog images,
    (pageOpCodec.encode op).length < 2 ^ 32 ∧ pageOpCodec.Lawful op := by
  intro op hop
  rcases List.mem_append.mp hop with hop | hop
  · obtain ⟨d, hd, rfl⟩ := List.mem_map.mp hop
    refine ⟨?_, pageOpCodec_lawful (hids d hd)⟩
    simp [pageOpCodec, JournalOp.encode, d.2.length_eq, BLOCK_SIZE]
  · obtain rfl := List.mem_singleton.mp hop
    exact ⟨by decide, pageOpCodec_lawful trivial⟩

/-- The records of a log, with a torn one behind them. -/
theorem recover_contents {ops : List JournalOp} {tail : Bytes} (htail : Journal.TornTail hash tail)
    {j : Journal}
    (hops : ∀ op ∈ ops, (pageOpCodec.encode op).length < 2 ^ 32 ∧ pageOpCodec.Lawful op)
    (hfile : j.file = Journal.contents hash pageOpCodec ops tail) :
    recover hash v j = match committed ops with
      | none => .ok v
      | some ops => applyImages ops v >>= fun v => (sync v).mapError .error := by
  have hall (ops : List JournalOp) : (ops.map .ok : List (Except Journal.JournalError _)).mapM id
    = .ok ops := by
    induction ops with
    | nil => rfl
    | cons op ops ih =>
      rw [List.map_cons, List.mapM_cons, ih]
      rfl
  rw [recover, hfile, Journal.replay_contents hops htail, hall]
  rfl

/-- A log that was cut is one of complete records and a torn one. -/
theorem take_contents (hids : ∀ d ∈ images, d.1 < 2 ^ 64) {len : Nat}
    (hlen : Journal.HEADER_LEN ≤ len)
    (hcut : len < (Journal.contents hash pageOpCodec (flushLog images) []).length) :
    ∃ i tail, i < (flushLog images).length ∧ Journal.TornTail hash tail ∧
      (Journal.contents hash pageOpCodec (flushLog images) []).take len =
        Journal.contents hash pageOpCodec ((flushLog images).take i) tail := by
  generalize hrs : flushLog images = rs at hcut ⊢
  have hsmall : ∀ p ∈ rs.map pageOpCodec.encode, p.length < 2 ^ 32 := by
    intro p hp
    obtain ⟨op, hop, rfl⟩ := List.mem_map.mp hp
    exact (flushLog_lawful hids op (hrs ▸ hop)).1
  obtain ⟨i, tail, hi, htail, htake, hcomplete⟩ :=
    @Journal.take_frames hash _ hsmall (len - Journal.HEADER_LEN)
  rw [List.length_map] at hi hcomplete
  refine ⟨i, tail, lt_of_le_of_ne hi ?_, htail, ?_⟩
  · -- all records complete would be the whole log
    intro hwhole
    have hle := (hcomplete rs.length le_rfl).mp hwhole.ge
    rw [List.take_of_length_le (by simp)] at hle
    rw [Journal.contents, List.append_nil, List.length_append, Journal.length_header] at hcut
    omega
  · rw [Journal.contents, List.append_nil, List.take_append, List.take_of_length_le hlen,
      Journal.length_header, htake, Journal.contents, List.map_take]

end Logs

/-! ### Crashes -/

/-- What can be left of the file of a store when the blocks `ids` were being written. -/
structure Damaged (ids : List Nat) (v : DiskBlockStore) (file : List Block) : Prop where
  others : ∀ i, i ≠ 0 → i ∉ ids → blockAt file i = blockAt v.file i
  super : ∃ old next, v.file[0]? = some (superblock old []) ∧ file[0]? = some (superblock next []) ∧
    old ≤ next ∧ next ≤ v.nextId

theorem superblock_unique {file : List Block} {a b : Nat} (ha : file[0]? = some (superblock a []))
    (hb : file[0]? = some (superblock b [])) (halt : a < 2 ^ 64) (hblt : b < 2 ^ 64) : a = b := by
  have hread := DiskBlockStore.readSuperblock_superblock ha (Nat.zero_le _) halt (by simp)
  rw [DiskBlockStore.readSuperblock_superblock hb (Nat.zero_le _) hblt (by simp)] at hread
  exact (Prod.mk.inj (Except.ok.inj hread)).1.symm

/-- The blocks and the log after a crash inside a flush, and whether the commit marker is
    complete.  As long as it is not, no page was written. -/
inductive FlushCrash {P : Type} {n : Nat} (crc : Crc32c) (hash : Bytes → UInt32)
    (c : Inner DiskBlockStore P n) :
    Bool → List Block → Bytes → Prop
  | logging {j : Journal} {len : Nat} {file : List Block}
      (hj : (c.commit crc hash c.dirtyFrames).journal = some j) (hlen : Journal.HEADER_LEN ≤ len)
      (hcut : len < j.file.length) (hfile : Damaged [] c.block file) : FlushCrash crc hash c false
      file (j.file.take len)
  | writing {j : Journal} {file : List Block} (hj : (c.commit crc hash c.dirtyFrames).journal
    = some j)
      (hfile : Damaged ((c.images crc).map Prod.fst) c.block file) : FlushCrash crc hash c true
      file j.file

/-- The caches in which a call flushes: `flush` itself, and where `victim_frame` found no
    clean page, in which case `allocate` has issued its id. -/
inductive FlushesIn {P : Type} {n : Nat} [EvictionPolicy P (Fin n)] (c : Inner DiskBlockStore P n) :
    Inner DiskBlockStore P n → Prop
  | flush : FlushesIn c c
  | fetch : FlushesIn c (c.pickEvictable true).2
  | allocate {id : Nat} {v : DiskBlockStore} (h : BlockStore.allocate c.block = .ok (id, v)) :
      FlushesIn c (({ c with block := v } : Inner DiskBlockStore P n).pickEvictable true).2

/-- The superblock of the last flush covers every page in the file, and the log is empty. -/
structure Inner.Anchored {P : Type} {n : Nat} (crc : Crc32c)
    (c : Inner DiskBlockStore P n) : Prop where
  super : ∃ old, c.block.file[0]? = some (superblock old []) ∧ 0 < old ∧ old ≤ c.block.nextId ∧
    ∀ id, id ≠ 0 → stored crc c.block id ≠ none → id < old
  log : ∃ j, c.journal = some j ∧ j.file = Journal.header

/-! ### Opening what a crash left -/

section Opening

variable {P : Type} {n : Nat} {crc : Crc32c} {hash : Bytes → UInt32} {c : Inner DiskBlockStore P n}
variable {m : Nat} {P' : Type} [EvictionPolicy P' (Fin m)] [LawfulPolicy P'] {policy : P'}
variable {images : List (Nat × Block)} {v : DiskBlockStore}

/-- Issuing an id leaves the superblock and the pages as they are. -/
theorem Inner.Anchored.issue (h : c.Anchored crc) (hzero : ¬ Verifies crc Block.zeroed)
    (hvalid : Valid c.block) (hissue : BlockStore.allocate c.block = .ok (id, v)) :
    ({ c with block := v } : Inner DiskBlockStore P n).Anchored crc := by
  obtain ⟨v', hissue', -, hcount, hgrown, -⟩ := allocate_spec hvalid
  obtain ⟨-, rfl⟩ := Prod.mk.inj (Except.ok.inj (hissue.symm.trans hissue'))
  obtain ⟨old, hsuper, hpos, hle, hpages⟩ := h.super
  refine ⟨⟨old, readExactAt_eq_ok.mp (hgrown.keep 0 _ (readExactAt_eq_ok.mpr hsuper)), hpos, ?_,
    ?_⟩, h.log⟩
  · exact hle.trans ((Nat.le_succ _).trans hcount.ge)
  · intro i hi hstored
    rw [hgrown.stored hzero] at hstored
    exact hpages i hi hstored

/-- The log of a flush that starts with an empty one. -/
theorem Inner.Anchored.log_of_commit (h : c.Anchored crc) {j : Journal}
    (hj : (c.commit crc hash c.dirtyFrames).journal = some j) :
    j.file = Journal.contents hash pageOpCodec (flushLog (c.images crc)) [] := by
  obtain ⟨j₀, hj₀, hheader⟩ := h.log
  rw [Inner.commit, hj₀] at hj
  rw [← Option.some.inj hj, Inner.records_eq]
  rw [← Journal.contents_nil hash pageOpCodec] at hheader
  exact Journal.foldl_append_contents hheader _

/-- A damaged file opens, with an id behind every page that the store had. -/
theorem Damaged.open {ids : List Nat} {file : List Block} (h : Damaged ids c.block file)
    (hanchored : c.Anchored crc) (hid : c.block.nextId < 2 ^ 64) :
    ∃ v, DiskBlockStore.open file = .ok v ∧ v.Valid ∧ v.file = file ∧ v.nextId ≤ c.block.nextId ∧
      file[0]? = some (superblock v.nextId []) ∧ ∀ id, id ≠ 0 → stored crc c.block id ≠ none →
        id < v.nextId := by
  obtain ⟨old', hold', hpos, hle', hpages⟩ := hanchored.super
  obtain ⟨old, next, hold, hnext, hle, hbound⟩ := h.super
  have hlength : 0 < file.length := (List.getElem?_eq_some_iff.mp hnext).1
  obtain rfl := superblock_unique hold' hold (by omega) (by omega)
  refine ⟨⟨file, next, file.length, []⟩, ?_,
    ⟨rfl, by dsimp only; omega, hlength, le_rfl, le_max_left _ _⟩, rfl, hbound,
    hnext, fun id hne hstored => (hpages id hne hstored).trans_le hle⟩
  rw [DiskBlockStore.open, if_neg hlength.ne',
    DiskBlockStore.readSuperblock_superblock hnext (Nat.zero_le _) (by omega) (by simp)]
  rfl

/-- Recovery that is interrupted leaves what a crash inside the flush may leave. -/
theorem Damaged.again (h : Damaged (images.map Prod.fst) c.block v.file)
    (hsuper : v.file[0]? = some (superblock v.nextId [])) (hle : v.nextId ≤ c.block.nextId)
    (hid : c.block.nextId < 2 ^ 64) (hvalid : v.Valid)
    (hids : ∀ d ∈ images, d.1 ≠ 0 ∧ d.1 < c.block.nextId) :
    ∃ v', applyImages (redoOps images) v = .ok v' ∧
      ∀ file, Damaged (images.map Prod.fst) v' file → Damaged (images.map Prod.fst) c.block
        file := by
  obtain ⟨v', happly, hvalid', hblocks, -, -, hbound⟩ := applyImages_redo images hvalid
  have hlast : v'.nextId ≤ c.block.nextId := hbound _ hle fun d hd => (hids d hd).2
  refine ⟨v', happly, ?_⟩
  intro file hfile
  constructor
  · intro i hi hmem
    rw [hfile.others i hi hmem, hblocks, redo_of_notMem hmem, h.others i hi hmem]
  · -- no image is the superblock's
    have hzeroth : 0 ∉ images.map Prod.fst := by
      intro hmem
      obtain ⟨d, hd, h0⟩ := List.mem_map.mp hmem
      exact (hids d hd).1 h0
    have hsame : v'.file[0]? = some (superblock v.nextId []) := by
      have hblock := congrFun hblocks 0
      rw [redo_of_notMem hzeroth, blockAt, blockAt, hsuper,
        List.getElem?_eq_getElem hvalid'.file] at hblock
      rw [List.getElem?_eq_getElem hvalid'.file]
      exact congrArg some hblock
    obtain ⟨old, next, hold, hnext, hle₁, hle₂⟩ := h.super
    obtain ⟨old', next', hold', hnext', hle₁', hle₂'⟩ := hfile.super
    obtain rfl := superblock_unique hnext hsuper (by omega) (by omega)
    obtain rfl := superblock_unique hold' hsame (by omega) (by omega)
    exact ⟨old, next', hold, hnext', by omega, by omega⟩

/-- Opening a cache over a store, once it is known what recovery makes of the store. -/
theorem withJournal_of_recover {ops : List JournalOp} {tail : Bytes}
    (hrecover : ∀ j : Journal, j.file = Journal.contents hash pageOpCodec ops tail →
      recover hash v j = .ok v')
    (hvalid : v'.Valid) (hpages : ∀ id b, stored crc v' id = some b → id ≠ 0 → id < v'.nextId)
    (hpolicy : ∀ f, ¬ Tracked policy f) :
    ∃ c' : Inner DiskBlockStore P' m,
      withJournal hash v policy (some (Journal.contents hash pageOpCodec ops tail)) = .ok c' ∧
      Inner.Inv crc none c' [] (storePages crc v') := by
  obtain ⟨j, hj, hfile⟩ := Journal.withCodec_contents hash pageOpCodec ops tail
  refine ⟨Inner.build v' policy (some j.truncate), ?_, Inner.inv_build hvalid hpages hpolicy⟩
  rw [withJournal, hj]
  show (recover hash v j >>= _) = _
  rw [hrecover j hfile]
  rfl

variable (hzero : ¬ Verifies crc Block.zeroed) (hvalid : v.Valid)
variable (hnext : ∀ id, id ≠ 0 → stored crc c.block id ≠ none → id < v.nextId)
variable (hids : ∀ d ∈ images, d.1 < 2 ^ 64) (hpolicy : ∀ f, ¬ Tracked policy f)

include hzero hvalid hnext hids hpolicy

/-- Before the marker is complete, recovery does nothing, and the store is as it was. -/
theorem Damaged.recover_cut (h : Damaged [] c.block v.file) {len : Nat}
    (hlen : Journal.HEADER_LEN ≤ len)
    (hcut : len < (Journal.contents hash pageOpCodec (flushLog images) []).length) :
    ∃ c' : Inner DiskBlockStore P' m, withJournal hash v policy
        (some ((Journal.contents hash pageOpCodec (flushLog images) []).take len)) = .ok c' ∧
      Inner.Inv crc none c' [] (storePages crc c.block) := by
  obtain ⟨i, tail, hi, htail, htake⟩ := take_contents hids hlen hcut
  rw [htake, ← storePages_congr hzero fun j hj => h.others j hj List.not_mem_nil]
  refine withJournal_of_recover ?_ hvalid ?_ hpolicy
  · intro j hfile
    rw [recover_contents htail (fun op hop => flushLog_lawful hids op (List.mem_of_mem_take hop))
      hfile,
      committed_take images hi]
  · intro id b hb hne
    refine hnext id hne ?_
    rw [stored_eq_blockAt hzero, h.others id hne List.not_mem_nil] at hb
    rw [stored_eq_blockAt hzero, hb]
    exact Option.some_ne_none b

/-- Once the marker is complete, recovery redoes the flush on whatever it finds. -/
theorem Damaged.recover_whole (h : Damaged (images.map Prod.fst) c.block v.file)
    {target : DiskBlockStore}
    (htarget : ∀ i, i ≠ 0 → blockAt target.file i = redo (blockAt c.block.file) images i) :
    ∃ c' : Inner DiskBlockStore P' m, withJournal hash v policy
        (some (Journal.contents hash pageOpCodec (flushLog images) [])) = .ok c' ∧
      Inner.Inv crc none c' [] (storePages crc target) := by
  obtain ⟨v₁, happly, hvalid₁, hblocks₁, hle, hlt, -⟩ := applyImages_redo images hvalid
  obtain ⟨v', hsync, hvalid', hcount, -⟩ := LawfulBlockStore.sync_spec (v := v₁) hvalid₁
  have hblocks (i : Nat) (hi : i ≠ 0) : blockAt v'.file i = blockAt target.file i := by
    rw [blockAt_of_sync hsync hi, hblocks₁, htarget i hi]
    exact redo_congr fun hmem => h.others i hi hmem
  rw [← storePages_congr hzero hblocks]
  refine withJournal_of_recover ?_ hvalid' ?_ hpolicy
  · intro j hfile
    rw [recover_contents (Journal.tornTail_nil hash) (flushLog_lawful hids) hfile,
      committed_flushLog]
    show (applyImages (redoOps images) v >>= _) = _
    rw [happly]
    show (sync v₁).mapError _ = _
    rw [hsync]
    rfl
  · intro id b hb hne
    rw [show v'.nextId = v₁.nextId from hcount]
    by_cases hmem : id ∈ images.map Prod.fst
    · obtain ⟨d, hd, rfl⟩ := List.mem_map.mp hmem
      exact hlt d hd
    · refine (hnext id hne ?_).trans_le hle
      rw [stored_eq_blockAt hzero, hblocks id hne, htarget id hne, redo_of_notMem hmem] at hb
      rw [stored_eq_blockAt hzero, hb]
      exact Option.some_ne_none b

end Opening

section Runs

variable {P : Type} {n : Nat} [EvictionPolicy P (Fin n)] [LawfulPolicy P] {crc : Crc32c}
  {hash : Bytes → UInt32}
variable {c c' : Inner DiskBlockStore P n} {hs : List (Handle n)} {pages : Nat → Option Block}
variable {s s' : System DiskBlockStore P n}
variable {m : Nat} {P' : Type} [EvictionPolicy P' (Fin m)] [LawfulPolicy P'] {policy : P'}

theorem Inner.Inv.stored_lt (h : Inner.Inv crc none c hs pages) (hid : id ≠ 0)
    (hstored : stored crc c.block id ≠ none) : id < c.block.nextId := by
  cases hpage : pages id with
  | none => exact absurd (h.contents.others id hid hpage) hstored
  | some b => exact (h.contents.live id b hpage).2

theorem Inner.Anchored.calm (h : c.Anchored crc) (hcalm : Inner.Calm c c')
    (hinv : Inner.Inv crc none c' hs pages) : c'.Anchored crc := by
  constructor
  · have hnext : c'.block.nextId = c.block.nextId := hcalm.blockCount
    rcases hcalm.synced with heq | ⟨v, hsync⟩
    · rw [heq]
      exact h.super
    · have hsuper := superblock_of_sync hsync
      rw [hinv.contents.valid.freeList] at hsuper
      exact ⟨_, hsuper, hinv.contents.valid.nextId, le_rfl, fun id hid hstored => hinv.stored_lt hid
        hstored⟩
  · obtain ⟨j, hj, hfile⟩ := h.log
    obtain ⟨j', hj'⟩ := Option.isSome_iff_exists.mp (hcalm.journaled.trans (by rw [hj]; rfl))
    exact ⟨j', hj', hcalm.log (fun k hk => by rwa [Option.some.inj (hk.symm.trans hj)]) j' hj'⟩

theorem Inner.Acquired.anchored {write : Bool}
    {r : Except FsError (Fin n) × Inner DiskBlockStore P n} {answer : Answer n}
    (h : Acquired crc s.cache s.handles pages write id r) (hanchored : s.cache.Anchored crc)
    (hopen : s.opened write id r = (answer, s')) : s'.cache.Anchored crc := by
  cases h with
  | ok inv calm => obtain ⟨-, rfl⟩ := Prod.mk.inj hopen; exact hanchored.calm calm inv
  | busy _ _ _ => obtain ⟨-, rfl⟩ := Prod.mk.inj hopen; exact hanchored
  | exhausted inv calm _ => obtain ⟨-, rfl⟩ := Prod.mk.inj hopen; exact hanchored.calm calm inv
  | absent inv calm _ => obtain ⟨-, rfl⟩ := Prod.mk.inj hopen; exact hanchored.calm calm inv

/-- **Every call keeps the anchor**: the store changes in a flush only. -/
theorem System.Step.anchored (hzero : ¬ Verifies crc Block.zeroed) {event : Call n × Answer n}
    (h : Inner.Inv crc none s.cache s.handles pages) (hanchored : s.cache.Anchored crc)
    (hstep : System.Step crc hash s event s') : s'.cache.Anchored crc := by
  obtain ⟨call, answer⟩ := event
  obtain ⟨hallowed, hcall⟩ := hstep
  cases call with
  | read id => exact (h.acquireRead hallowed).anchored hanchored hcall
  | write id => exact (h.acquireWrite hallowed).anchored hanchored hcall
  | allocate =>
    have halloc := h.allocate hash hzero
    simp only [System.call] at hcall
    generalize s.cache.allocate crc hash = r at halloc hcall
    cases halloc with
    | ok issued calm _ inv =>
      obtain ⟨-, rfl⟩ := Prod.mk.inj hcall
      exact (hanchored.issue hzero h.contents.valid issued).calm calm inv
    | exhausted issued calm inv _ =>
      obtain ⟨-, rfl⟩ := Prod.mk.inj hcall
      exact (hanchored.issue hzero h.contents.valid issued).calm calm inv
  | edit k b =>
    obtain ⟨-, rfl⟩ := Prod.mk.inj hcall
    exact ⟨hanchored.super, hanchored.log⟩
  | drop k =>
    obtain ⟨-, rfl⟩ := Prod.mk.inj hcall
    dsimp only
    split_ifs <;> exact ⟨hanchored.super, hanchored.log⟩
  | flush =>
    obtain ⟨c, hflush, hflushed⟩ := Inner.flush_ok hash h.placed h.contents
    simp only [System.call, hflush] at hcall
    obtain ⟨-, rfl⟩ := Prod.mk.inj hcall
    exact hanchored.calm hflushed.calm (h.flushed hflushed)

theorem Inner.Inv.images_lt (h : Inner.Inv crc none c hs pages) :
    ∀ d ∈ c.images crc, d.1 ≠ 0 ∧ d.1 < c.block.nextId := by
  intro d hd
  obtain ⟨e, he, rfl⟩ := List.mem_map.mp hd
  obtain ⟨b, hb, -⟩ := h.contents.resident e.1 e.2 (Inner.mem_dirtyFrames.mp he).2
  exact h.contents.live e.2 b hb

/-- The flush puts every page into the store that is not being written through a handle. -/
theorem Inner.FlushedTo.stores (hflushed : Inner.FlushedTo crc c c')
    (h : Inner.Inv crc none c hs pages) {b : Block} (hb : pages id = some b)
    (hfree : ∀ k ∈ hs, k.pageId = id → k.write = false) :
    ∃ p, storePages crc c'.block id = some p ∧ p.Agrees b := by
  have hafter := h.flushed hflushed
  rw [storePages, if_neg (hafter.contents.live id b hb).1]
  refine hafter.contents.clean id b hb ?_
  intro f hf
  constructor
  · rw [hflushed.frames, Frame.flushed_pageId] at hf
    rw [hflushed.frames, Frame.flushed_dirty, hf]
    simp
  · apply Bool.eq_false_iff.mpr
    intro hwriter
    obtain ⟨k, hk, rfl, hwrite⟩ := hafter.pins.writer_iff.mp hwriter
    rw [hfree k hk (Option.some.inj ((hafter.pins.handle k hk).symm.trans hf))] at hwrite
    cases hwrite

theorem FlushesIn.inv (h : FlushesIn c c') (hzero : ¬ Verifies crc Block.zeroed)
    (hinv : Inner.Inv crc none c hs pages) (hanchored : c.Anchored crc) :
    Inner.Inv crc none c' hs pages ∧ c'.Anchored crc ∧
      storePages crc c'.block = storePages crc c.block := by
  cases h with
  | flush => exact ⟨hinv, hanchored, rfl⟩
  | fetch => exact ⟨hinv.pickEvictable true, ⟨hanchored.super, hanchored.log⟩, rfl⟩
  | @allocate id v hissue =>
    have hissued := hanchored.issue hzero hinv.contents.valid hissue
    obtain ⟨v', hissue', hvalid, hcount, hgrown, -⟩ := allocate_spec hinv.contents.valid
    obtain ⟨-, rfl⟩ := Prod.mk.inj (Except.ok.inj (hissue.symm.trans hissue'))
    have hgrow : Inner.Inv crc none { c with block := v } hs pages :=
      ⟨hinv.placed.congr (fun _ => rfl) rfl rfl fun _ => Iff.rfl,
        hinv.pins.congr (fun _ => rfl) (fun _ => rfl) fun _ _ => rfl,
        hinv.contents.grow hzero hvalid ((Nat.le_succ _).trans hcount.ge) hgrown⟩
    refine ⟨hgrow.pickEvictable true, ⟨hissued.super, hissued.log⟩, ?_⟩
    funext i
    show (if i = 0 then none else stored crc v i) = _
    rw [hgrown.stored hzero]
    rfl

/-- **A flush of a journaled cache is atomic over crashes.**  After every run of calls,
    whatever a crash inside the next flush leaves, be it an explicit one or one that makes
    room for a page, opens to the pages of the store before this flush, or to those of the
    complete flush, which holds every page that is not being written through a handle.
    Recovery that is interrupted leaves again what a crash inside this flush may leave. -/
theorem journaled_flush_atomic (hzero : ¬ Verifies crc Block.zeroed) {store : DiskBlockStore}
    (hvalid : store.Valid) (hsuper : store.file[0]? = some (superblock store.nextId []))
    (hpages : ∀ id b, stored crc store id = some b → id ≠ 0 → id < store.nextId) {start : P}
    (hstart : ∀ f, ¬ Tracked start f) {journal : Journal} (hlog : journal.file = Journal.header)
    {events : List (Call n × Answer n)}
    (hrun : Run (System.Step crc hash) ⟨Inner.build store start (some journal), []⟩ events s)
    (hflushes : FlushesIn s.cache c) (hid : c.block.nextId < 2 ^ 64) {done : Bool}
    {file : List Block} {log : Bytes} (hcrash : FlushCrash crc hash c done file log)
    (hpolicy : ∀ f, ¬ Tracked policy f) :
    ∃ flushed v, c.flush crc hash = (.ok (), flushed) ∧ DiskBlockStore.open file = .ok v ∧
      (∃ c' : Inner DiskBlockStore P' m, withJournal hash v policy (some log) = .ok c' ∧
        Inner.Inv crc none c' [] (storePages crc (if done then flushed.block else s.cache.block))) ∧
      (∀ id b, pagesAfter (storePages crc store) events id = some b →
        (∀ k ∈ s.handles, k.pageId = id → k.write = false) →
        ∃ p, storePages crc flushed.block id = some p ∧ p.Agrees b) ∧
      (done = true → ∃ v', applyImages (redoOps (c.images crc)) v = .ok v' ∧
        ∀ file, Damaged ((c.images crc).map Prod.fst) v' file → FlushCrash crc hash c true file
          log) := by
  obtain ⟨hinv₀, hanchored₀⟩ : Inner.Inv crc none s.cache s.handles
    (pagesAfter (storePages crc store) events) ∧
      s.cache.Anchored crc := by
    refine hrun.history (P := fun events s => Inner.Inv crc none s.cache s.handles
      (pagesAfter (storePages crc store) events) ∧ s.cache.Anchored crc)
      ⟨Inner.inv_build hvalid hpages hstart, ⟨_, hsuper, hvalid.nextId, le_rfl, ?_⟩, journal, rfl,
        hlog⟩ ?_
    · intro events s event s' h hstep
      rw [pagesAfter, List.foldl_append]
      exact ⟨hstep.inv hzero h.1, hstep.anchored hzero h.1 h.2⟩
    · intro id hne hstored
      obtain ⟨b, hb⟩ := Option.ne_none_iff_exists'.mp hstored
      exact hpages id b hb hne
  obtain ⟨hinv, hanchored, hsame⟩ := hflushes.inv hzero hinv₀ hanchored₀
  obtain ⟨flushed, hflush, hflushed⟩ := Inner.flush_ok hash hinv.placed hinv.contents
  have hids := hinv.images_lt
  have hwide : ∀ d ∈ c.images crc, d.1 < 2 ^ 64 := fun d hd => (hids d hd).2.trans hid
  cases hcrash with
  | logging hj hlen hcut hfile =>
    obtain ⟨v, hopen, hv, rfl, -, -, hnext⟩ := hfile.open hanchored hid
    rw [hanchored.log_of_commit hj] at hcut ⊢
    refine ⟨flushed, v, hflush, hopen, ?_, fun id b hb hfree => hflushed.stores hinv hb hfree,
      fun h => by cases h⟩
    rw [if_neg Bool.false_ne_true, ← hsame]
    exact hfile.recover_cut hzero hv hnext hwide hpolicy hlen hcut
  | writing hj hfile =>
    obtain ⟨v, hopen, hv, rfl, hle, hsuper, hnext⟩ := hfile.open hanchored hid
    obtain ⟨v', happly, hagain⟩ := hfile.again hsuper hle hid hv hids
    refine ⟨flushed, v, hflush, hopen, ?_, fun id b hb hfree => hflushed.stores hinv hb hfree,
      fun _ => ⟨v', happly, fun file h => .writing hj (hagain file h)⟩⟩
    rw [hanchored.log_of_commit hj]
    exact hfile.recover_whole hzero hv hnext hwide hpolicy fun i hi => Inner.flush_redo hflush hi

end Runs

/-- A fresh file, one page allocated and let go: its flush may tear the block of the page
    in any way, and the page reads as zeros afterwards. -/
theorem journaled_flush_atomic_one_page :
    ∃ (journal : Journal) (s : System DiskBlockStore (Lru (Fin 1)) 1),
    Run (System.Step castagnoli Crc.crc32)
      ⟨Inner.build ⟨[superblock 1 []], 1, 1, []⟩ {} (some journal), []⟩
      [(.allocate, .ok (some ⟨true, 0, 1⟩)), (.drop ⟨true, 0, 1⟩, .ok none)] s ∧
    ∀ torn : Block, ∃ log, FlushCrash castagnoli Crc.crc32 s.cache true [superblock 1 [],
      torn] log ∧
      ∃ v c' pages p, DiskBlockStore.open [superblock 1 [], torn] = .ok v ∧
        withJournal Crc.crc32 v {} (some log) = .ok (c' : Inner DiskBlockStore (Lru (Fin 1)) 1) ∧
        Inner.Inv castagnoli none c' [] pages ∧ pages 1 = some p ∧ p.Agrees Block.zeroed := by
  obtain ⟨journal, -, hlog⟩ := Journal.withCodec_contents Crc.crc32 pageOpCodec [] []
  rw [Journal.contents_nil] at hlog
  obtain ⟨s, hrun, hdirty, hblock, hhandles, j, hj⟩ : ∃ s : System DiskBlockStore (Lru (Fin 1)) 1,
      Run (System.Step castagnoli Crc.crc32)
        ⟨Inner.build ⟨[superblock 1 []], 1, 1, []⟩ {} (some journal), []⟩
        (([] ++ [(.allocate, .ok (some ⟨true, 0, 1⟩))]) ++ [(.drop ⟨true, 0, 1⟩, .ok none)]) s ∧
      (0, 1) ∈ s.cache.dirtyFrames ∧
      s.cache.block = ⟨[superblock 1 []] ++ List.replicate 15 Block.zeroed, 2, 16, []⟩
        ∧ s.handles = [] ∧
      ∃ j, (s.cache.commit castagnoli Crc.crc32 s.cache.dirtyFrames).journal = some j := by
    refine ⟨_, .snoc (.snoc .nil ⟨?_, rfl⟩) ⟨List.mem_cons_self, rfl⟩, ?_, ?_, ?_, ?_⟩
    · trivial
    · exact Inner.mem_dirtyFrames.mpr ⟨rfl, rfl⟩
    · show DiskBlockStore.ensureCapacity ⟨[superblock 1 []], 2, 1, []⟩ 2 = _
      rfl
    · rfl
    · exact ⟨_, rfl⟩
  refine ⟨journal, s, hrun, ?_⟩
  intro torn
  have hcrash : FlushCrash castagnoli Crc.crc32 s.cache true [superblock 1 [], torn] j.file := by
    refine .writing hj ⟨?_, 1, 1, by rw [hblock]; rfl, rfl, le_rfl, by rw [hblock]; decide⟩
    intro i hi hmem
    rw [hblock, blockAt_grown]
    match i with
    | 0 => exact absurd rfl hi
    | 1 => exact absurd (List.mem_map_of_mem (List.mem_map_of_mem hdirty)) hmem
    | _ + 2 => rfl
  have hvalid : DiskBlockStore.Valid ⟨[superblock 1 []], 1, 1, []⟩ :=
    ⟨rfl, Nat.one_pos, Nat.one_pos, le_rfl, le_max_left _ _⟩
  have hpages (id : Nat) (b : Block)
    (hb : stored castagnoli (⟨[superblock 1 []], 1, 1, []⟩ : DiskBlockStore) id = some b)
      (_ : id ≠ 0) : id < 1 :=
    (List.getElem?_eq_some_iff.mp (readExactAt_eq_ok.mp (stored_eq_some.mp hb).1)).1
  obtain ⟨flushed, v, -, hopen, ⟨c', hjournal, hinv⟩, hstores, -⟩ :=
    @journaled_flush_atomic _ _ _ _ _ _ _ _ 1 (Lru (Fin 1)) _ _ {} not_verifies_castagnoli_zeroed _
      hvalid rfl hpages _ (fun f => AList.notMem_empty f) _ hlog _ hrun .flush
        (by rw [hblock]; decide) _ _ _ hcrash (fun f => AList.notMem_empty f)
  obtain ⟨p, hp, hagrees⟩ := hstores 1 Block.zeroed rfl (by simp [hhandles])
  exact ⟨j.file, hcrash, v, c', _, p, hopen, hjournal, hinv, hp, hagrees⟩

end StrataDb.Filesystem
