import StrataDb.Page

/-!
# Block stores (`crates/filesystem/src/block`)

`MemBlockStore` keeps blocks in memory, `DiskBlockStore` in a file whose block 0 is

```text
| "SVFS" | next_id (8B) | free_count (8B) | free ids (8B each) |
```

The file is the list of its whole blocks. What the page cache relies on, as long as no block is
freed, is `LawfulBlockStore`.
-/

namespace StrataDb.Filesystem

open ByteCodec
open Journal (IoError)
open List (replicate)

class BlockStore (V : Type) where
  allocate : V → Except FsError (Nat × V)
  free : V → Nat → V
  ensureAllocated : V → Nat → Except FsError V
  read : V → Nat → Except FsError Block
  write : V → Nat → Block → Except FsError V
  sync : V → Except FsError V
  blockCount : V → Nat

open BlockStore

/-- `v'` is `v` with some zeroed blocks more. -/
structure Grown {V : Type} [BlockStore V] (v v' : V) : Prop where
  keep : ∀ id b, read v id = .ok b → read v' id = .ok b
  new : ∀ id b, read v' id = .ok b → read v id = .ok b ∨ b = Block.zeroed

class LawfulBlockStore (V : Type) [BlockStore V] where
  /-- The states of a store in which no block was freed. -/
  Valid : V → Prop
  blockCount_pos : ∀ {v : V}, Valid v → 0 < blockCount v
  allocate_spec : ∀ {v : V}, Valid v → ∃ v', allocate v = .ok (blockCount v, v') ∧ Valid v' ∧
    blockCount v' = blockCount v + 1 ∧ Grown v v' ∧ ∃ b, read v' (blockCount v) = .ok b
  write_spec : ∀ {v : V} {id : Nat} {old : Block} (b : Block), Valid v →
    read v id = .ok old → ∃ v', write v id b = .ok v' ∧ Valid v' ∧ blockCount v' = blockCount v ∧
      ∀ j, read v' j = if j = id then .ok b else read v j
  sync_spec : ∀ {v : V}, Valid v → ∃ v', sync v = .ok v' ∧ Valid v' ∧
    blockCount v' = blockCount v ∧ ∀ j, j ≠ 0 → read v' j = read v j

structure MemBlockStore where
  blocks : List Block
  nextId : Nat
  freeList : List Nat

namespace MemBlockStore

def new : MemBlockStore := ⟨[Block.zeroed], 1, []⟩

instance : BlockStore MemBlockStore where
  allocate s :=
    match s.freeList.getLast? with
    | some id => .ok (id, { s with freeList := s.freeList.dropLast })
    | none =>
      .ok (s.nextId, { s with nextId := s.nextId + 1, blocks := s.blocks ++ [Block.zeroed] })
  free s id := { s with freeList := s.freeList ++ [id] }
  ensureAllocated s id :=
    .ok { s with
      blocks := s.blocks ++ replicate (id + 1 - s.blocks.length) Block.zeroed
      nextId := max s.nextId (id + 1) }
  read s id :=
    match s.blocks[id]? with
    | some b => .ok b
    | none => .error (.checksum id)
  write s id b :=
    if id < s.blocks.length then .ok { s with blocks := s.blocks.set id b }
    else .error (.checksum id)
  sync s := .ok s
  blockCount s := s.nextId

end MemBlockStore

/-! ### In a file -/

def setLen (file : List Block) (blocks : Nat) : List Block :=
  file.take blocks ++ replicate (blocks - file.length) Block.zeroed

def writeAllAt (file : List Block) (id : Nat) (b : Block) : List Block :=
  (file ++ replicate (id + 1 - file.length) Block.zeroed).set id b

def readExactAt (file : List Block) (id : Nat) : Except FsError Block :=
  match file[id]? with
  | some b => .ok b
  | none => .error (.io .unexpectedEof)

def SUPER_MAGIC : Bytes := [83, 86, 70, 83]
def GROWTH_CHUNK_BLOCKS : Nat := 16

def MAX_FREE : Nat := (BLOCK_SIZE - 20) / 8

def nextMultipleOf (a m : Nat) : Nat := (a + m - 1) / m * m

structure DiskBlockStore where
  file : List Block
  nextId : Nat
  capacityBlocks : Nat
  freeList : List Nat

namespace DiskBlockStore

def setCapacity (s : DiskBlockStore) (blocks : Nat) : DiskBlockStore :=
  { s with file := setLen s.file blocks, capacityBlocks := blocks }

def ensureCapacity (s : DiskBlockStore) (blocks : Nat) : DiskBlockStore :=
  if blocks > s.capacityBlocks then s.setCapacity (nextMultipleOf blocks GROWTH_CHUNK_BLOCKS)
  else s

def superblock (nextId : Nat) (freeList : List Nat) : Block :=
  Block.zeroed.put 0
    (SUPER_MAGIC
      ++ (beBytes 8 nextId ++ (beBytes 8 freeList.length ++ freeList.flatMap (beBytes 8))))

def writeSuperblock (s : DiskBlockStore) : Except FsError DiskBlockStore :=
  if s.freeList.length > MAX_FREE then .error (.freeListOverflow s.freeList.length MAX_FREE)
  else .ok { s with file := writeAllAt s.file 0 (superblock s.nextId s.freeList) }

def readSuperblock (file : List Block) : Except FsError (Nat × List Nat) := do
  let block ← readExactAt file 0
  if block.get 0 4 ≠ SUPER_MAGIC then .error .badMagic
  else
    .ok (beNat (block.get 4 8),
      (List.range (beNat (block.get 12 8))).map (fun i => beNat (block.get (20 + 8 * i) 8)))

instance : BlockStore DiskBlockStore where
  allocate s :=
    match s.freeList.getLast? with
    | some id => .ok (id, { s with freeList := s.freeList.dropLast })
    | none => .ok (s.nextId, { s with nextId := s.nextId + 1 }.ensureCapacity (s.nextId + 1))
  free s id := { s with freeList := s.freeList ++ [id] }
  ensureAllocated s id :=
    if id ≥ s.nextId then .ok ({ s with nextId := id + 1 }.ensureCapacity (id + 1)) else .ok s
  read s id := readExactAt s.file id
  write s id b := .ok { s with file := writeAllAt s.file id b }
  sync s := s.writeSuperblock
  blockCount s := s.nextId

end DiskBlockStore

/-- `open`: a fresh file gets its superblock, any other one has it read. -/
def DiskBlockStore.open (file : List Block) : Except FsError DiskBlockStore :=
  if file.length = 0 then
    (DiskBlockStore.setCapacity ⟨file, 1, 0, []⟩ 1).writeSuperblock
  else do
    let (nextId, freeList) ← DiskBlockStore.readSuperblock file
    .ok ⟨file, nextId, file.length, freeList⟩

/-! ### The laws -/

variable {id : Nat}

@[simp] theorem MemBlockStore.read_eq_ok {s : MemBlockStore} {b : Block} :
    read s id = .ok b ↔ s.blocks[id]? = some b := by
  simp only [BlockStore.read]
  split <;> rename_i h <;> simp [h]

variable {file : List Block}

@[simp] theorem readExactAt_eq_ok {b : Block} :
    readExactAt file id = .ok b ↔ file[id]? = some b := by
  simp only [readExactAt]
  split <;> rename_i h <;> simp [h]

theorem readExactAt_congr {file' : List Block} (h : file[id]? = file'[id]?) :
    readExactAt file id = readExactAt file' id := by
  rw [readExactAt, readExactAt, h]

theorem getElem?_snoc_zeroed {b : Block} {m : Nat} :
    (file ++ replicate m Block.zeroed)[id]? = some b ↔
      file[id]? = some b ∨ (file.length ≤ id ∧ id < file.length + m ∧ b = Block.zeroed) := by
  rcases Nat.lt_or_ge id file.length with h | h
  · rw [List.getElem?_append_left h]
    exact ⟨Or.inl, fun h' => h'.resolve_right (by omega)⟩
  · rw [List.getElem?_append_right h, List.getElem?_replicate, List.getElem?_eq_none h]
    split_ifs with hm
    · exact ⟨fun h' => Or.inr ⟨h, by omega, (Option.some.inj h').symm⟩,
        fun h' => by rw [(h'.resolve_left nofun).2.2]⟩
    · exact ⟨nofun, fun h' => absurd (h'.resolve_left nofun).2.1 (by omega)⟩

theorem setLen_of_le {blocks : Nat} (h : file.length ≤ blocks) :
    setLen file blocks = file ++ replicate (blocks - file.length) Block.zeroed := by
  rw [setLen, List.take_of_length_le h]

theorem le_nextMultipleOf (a : Nat) {m : Nat} (h : 0 < m) : a ≤ nextMultipleOf a m := by
  have := Nat.div_add_mod (a + m - 1) m
  have := Nat.mod_lt (a + m - 1) h
  rw [nextMultipleOf, Nat.mul_comm]
  omega

instance : LawfulBlockStore MemBlockStore where
  Valid s := s.freeList = [] ∧ s.blocks.length = s.nextId ∧ 0 < s.nextId
  blockCount_pos h := h.2.2
  allocate_spec := by
    rintro s ⟨hfree, hlength, hpos⟩
    refine ⟨{ s with nextId := s.nextId + 1, blocks := s.blocks ++ [Block.zeroed] },
      by simp only [allocate, hfree]; rfl, ⟨hfree, by simp [hlength], Nat.succ_pos _⟩, rfl,
      ⟨fun id b h => ?_, fun id b h => ?_⟩, Block.zeroed, ?_⟩
    · rw [MemBlockStore.read_eq_ok] at h ⊢
      exact (getElem?_snoc_zeroed (m := 1)).mpr (Or.inl h)
    · rw [MemBlockStore.read_eq_ok] at h ⊢
      exact ((getElem?_snoc_zeroed (m := 1)).mp h).imp_right (·.2.2)
    · rw [MemBlockStore.read_eq_ok]
      exact (getElem?_snoc_zeroed (m := 1)).mpr
        (Or.inr ⟨hlength.le, by rw [hlength]; exact Nat.lt_succ_self _, rfl⟩)
  write_spec := by
    rintro s id old b ⟨hfree, hlength, hpos⟩ hread
    rw [MemBlockStore.read_eq_ok] at hread
    have hlt := (List.getElem?_eq_some_iff.mp hread).1
    refine ⟨_, if_pos hlt, ⟨hfree, by simp [hlength], hpos⟩, rfl, fun j => ?_⟩
    simp only [BlockStore.read, List.getElem?_set]
    by_cases hj : j = id
    · simp [hj, hlt]
    · simp [Ne.symm hj, hj]
  sync_spec h := ⟨_, rfl, h, rfl, fun _ _ => rfl⟩

theorem getElem?_writeAllAt (file : List Block) (id : Nat) (b : Block) (j : Nat) :
    (writeAllAt file id b)[j]? =
      if j = id then some b else (file ++ replicate (id + 1 - file.length) Block.zeroed)[j]? := by
  rw [writeAllAt, List.getElem?_set]
  by_cases hj : j = id
  · rw [if_pos hj.symm, if_pos hj, if_pos (by simp; omega)]
  · rw [if_neg (Ne.symm hj), if_neg hj]

theorem writeAllAt_of_lt (h : id < file.length) (b : Block) :
    writeAllAt file id b = file.set id b := by
  rw [writeAllAt, Nat.sub_eq_zero_of_le h, List.replicate_zero, List.append_nil]

namespace DiskBlockStore

/-- No block was freed, and the file holds what the store thinks it holds; it may be
    longer, but not beyond the ids issued. -/
structure Valid (s : DiskBlockStore) : Prop where
  freeList : s.freeList = []
  nextId : 0 < s.nextId
  file : 0 < s.file.length
  capacity : s.capacityBlocks ≤ s.file.length
  issued : s.file.length ≤ max s.capacityBlocks s.nextId

theorem Valid.ensureCapacity {s : DiskBlockStore} (h : s.Valid) {next : Nat}
    (hnext : s.nextId < next) :
    ∃ m cap, { s with nextId := next }.ensureCapacity next =
        ⟨s.file ++ replicate m Block.zeroed, next, cap, []⟩ ∧
      next ≤ s.file.length + m ∧
      Valid ⟨s.file ++ replicate m Block.zeroed, next, cap, []⟩ := by
  have hpos := h.file
  have hissued := h.issued
  have hle := le_nextMultipleOf next (m := GROWTH_CHUNK_BLOCKS) (by decide)
  unfold DiskBlockStore.ensureCapacity
  split_ifs with hgrow
  · -- the file ends before `next`, so `set_len` only adds to it
    have hlength : s.file.length ≤ nextMultipleOf next GROWTH_CHUNK_BLOCKS := by
      simp only at hgrow
      omega
    refine ⟨_, _, by rw [setCapacity, setLen_of_le hlength, h.freeList], by omega, ?_⟩
    constructor <;> simp <;> omega
  · have hcapacity := h.capacity
    simp only at hgrow
    refine ⟨0, s.capacityBlocks, by simp [h.freeList], by omega, ?_⟩
    constructor <;> simp <;> omega

theorem Valid.grown {s : DiskBlockStore} {m next cap : Nat} :
    Grown s ⟨s.file ++ replicate m Block.zeroed, next, cap, []⟩ where
  keep _ _ h := readExactAt_eq_ok.mpr (getElem?_snoc_zeroed.mpr (Or.inl (readExactAt_eq_ok.mp h)))
  new _ _ h := (getElem?_snoc_zeroed.mp (readExactAt_eq_ok.mp h)).imp
    (fun h => readExactAt_eq_ok.mpr h) (·.2.2)

theorem Valid.write {s : DiskBlockStore} (h : s.Valid) {id : Nat} (hid : id < s.file.length)
    (b : Block) : Valid { s with file := writeAllAt s.file id b } := by
  rw [writeAllAt_of_lt hid]
  exact ⟨h.freeList, h.nextId, by simpa using h.file, by simpa using h.capacity,
    by simpa using h.issued⟩

end DiskBlockStore

instance : LawfulBlockStore DiskBlockStore where
  Valid := DiskBlockStore.Valid
  blockCount_pos h := h.nextId
  allocate_spec := by
    intro s h
    obtain ⟨m, cap, hgrow, hle, hvalid⟩ := h.ensureCapacity (Nat.lt_succ_self s.nextId)
    refine ⟨_, ?_, hvalid, rfl, DiskBlockStore.Valid.grown, ?_⟩
    · rw [h.freeList] at hgrow
      simp only [allocate, h.freeList]
      rw [← hgrow]
      rfl
    · have hlt : s.nextId < (s.file ++ replicate m Block.zeroed).length := by
        rw [List.length_append, List.length_replicate]
        exact hle
      exact ⟨_, readExactAt_eq_ok.mpr (List.getElem?_eq_getElem hlt)⟩
  write_spec := by
    intro s id old b h hread
    have hlt := (List.getElem?_eq_some_iff.mp (readExactAt_eq_ok.mp hread)).1
    refine ⟨_, rfl, h.write hlt b, rfl, fun j => ?_⟩
    show readExactAt (writeAllAt s.file id b) j = _
    by_cases hj : j = id
    · rw [if_pos hj, readExactAt_eq_ok, getElem?_writeAllAt, if_pos hj]
    · rw [if_neg hj]
      refine readExactAt_congr ?_
      rw [writeAllAt_of_lt hlt, List.getElem?_set_ne (Ne.symm hj)]
  sync_spec := by
    intro s h
    refine ⟨_, if_neg (by simp [h.freeList]), h.write h.file _, rfl, fun j hj => ?_⟩
    refine readExactAt_congr ?_
    rw [writeAllAt_of_lt h.file, List.getElem?_set_ne (Ne.symm hj)]

/-! ### The superblock -/

namespace DiskBlockStore

variable {nextId : Nat} {freeList : List Nat}

theorem length_superblock_fields (hlen : freeList.length ≤ MAX_FREE) :
    (SUPER_MAGIC
      ++ (beBytes 8 nextId ++ (beBytes 8 freeList.length ++ freeList.flatMap (beBytes 8)))).length
      = 20 + 8 * freeList.length ∧ 20 + 8 * freeList.length ≤ BLOCK_SIZE := by
  refine ⟨?_, ?_⟩
  · simp [List.length_flatMap, SUPER_MAGIC]
    omega
  · simp only [MAX_FREE, BLOCK_SIZE] at hlen ⊢
    omega

theorem get_superblock (hlen : freeList.length ≤ MAX_FREE) {off len : Nat}
    (h : off + len ≤ 20 + 8 * freeList.length) :
    (superblock nextId freeList).get off len =
      Slices.slice
        (SUPER_MAGIC
        ++ (beBytes 8 nextId ++ (beBytes 8 freeList.length ++ freeList.flatMap (beBytes 8))))
        off len := by
  obtain ⟨hlength, hle⟩ := @length_superblock_fields nextId freeList hlen
  have hput :=
    @Block.get_put_inside Block.zeroed 0 _ off len (by rw [Nat.zero_add, hlength]; exact hle)
    (by rw [hlength]; exact h)
  rwa [Nat.zero_add] at hput

theorem readSuperblock_superblock (hfile : file[0]? = some (superblock nextId freeList))
    (hlen : freeList.length ≤ MAX_FREE) (hnext : nextId < 2 ^ 64)
    (hfree : ∀ id ∈ freeList, id < 2 ^ 64) : readSuperblock file = .ok (nextId, freeList) := by
  have hmax : MAX_FREE < 2 ^ 64 := by decide
  have hmagic : (superblock nextId freeList).get 0 4 = SUPER_MAGIC := by
    rw [get_superblock hlen (by omega)]
    rfl
  have hid : (superblock nextId freeList).get 4 8 = beBytes 8 nextId := by
    rw [get_superblock hlen (by omega)]
    exact Slices.slice_between rfl (length_beBytes 8 _)
  have hcount : (superblock nextId freeList).get 12 8 = beBytes 8 freeList.length := by
    rw [get_superblock hlen (by omega), ← List.append_assoc]
    exact Slices.slice_between (by simp [SUPER_MAGIC]) (length_beBytes 8 _)
  have hentry (i id : Nat) (h : freeList[i]? = some id) :
      (superblock nextId freeList).get (20 + 8 * i) 8 = beBytes 8 id := by
    have hlt := (List.getElem?_eq_some_iff.mp h).1
    have hpre : (SUPER_MAGIC ++ (beBytes 8 nextId ++ beBytes 8 freeList.length)).length = 20 := by
      simp [SUPER_MAGIC]
    rw [get_superblock hlen (by omega), ← List.append_assoc (beBytes 8 nextId), ← List.append_assoc,
      ← hpre, Slices.slice_append_right, Slices.slice_flatMap (length_beBytes 8) h]
  have hids :
      (List.range freeList.length).map
      (fun i => beNat ((superblock nextId freeList).get (20 + 8 * i) 8))
      = freeList := by
    apply List.ext_getElem?
    intro i
    rw [List.getElem?_map]
    rcases Nat.lt_or_ge i freeList.length with hi | hi
    · have hget := List.getElem?_eq_getElem hi
      rw [List.getElem?_range hi, hget, Option.map_some, hentry i _ hget,
        beNat_beBytes_of_lt (hfree _ (List.getElem_mem hi))]
    · rw [List.getElem?_eq_none (by simpa using hi), List.getElem?_eq_none hi, Option.map_none]
  rw [readSuperblock, readExactAt, hfile]
  simp only [bind, Except.bind, hmagic, hid, hcount, ne_eq, not_true_eq_false, if_false]
  rw [beNat_beBytes_of_lt hnext, beNat_beBytes_of_lt (hlen.trans_lt hmax), hids]

end DiskBlockStore

end StrataDb.Filesystem
