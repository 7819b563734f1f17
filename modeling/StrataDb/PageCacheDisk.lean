import StrataDb.Heap

/-!
# Opening a journaled page cache (`with_journal`, `recover`), and closing it after a flush

Between flushes the superblock is as the last one left it, and whenever ids were issued since, a
page that is still to be written has one of them (`Inner.Settled`). Hence a flush leaves a file
from which the same pages are read.
-/

namespace StrataDb.Filesystem

open ByteCodec BlockStore LawfulBlockStore
open DiskBlockStore (superblock writeSuperblock)

/-! ### Opening -/

inductive Fault where
  | error (e : FsError)
  | panicked (msg : String)
deriving DecidableEq, Repr

def Block.copyFromSlice (image : Bytes) : Except Fault Block :=
  if h : image.length = BLOCK_SIZE then .ok ⟨image, h⟩
  else .error
    (.panicked "copy_from_slice: source slice length does not match destination slice length")

def committed (records : List JournalOp) : Option (List JournalOp) :=
  match records.reverse.dropWhile (· ≠ .commit) with
  | [] => none
  | _ :: before => some before.reverse

section Opening

variable {V P : Type} {n : Nat} [BlockStore V] (hash : Bytes → UInt32)

def applyImages : List JournalOp → V → Except Fault V
  | [], v => .ok v
  | .commit :: ops, v => applyImages ops v
  | .write id image :: ops, v => do
    let v ← (ensureAllocated v id).mapError .error
    let b ← Block.copyFromSlice image
    let v ← (write v id b).mapError .error
    applyImages ops v

/-- `recover`: redo the flushes that were committed. -/
def recover (v : V) (journal : Journal) : Except Fault V := do
  let records ← ((Journal.replay hash pageOpCodec journal.file).mapM id).mapError
    (.error ∘ .journal)
  match committed records with
  | none => .ok v
  | some ops =>
    let v ← applyImages ops v
    (sync v).mapError .error

/-- `with_journal`, over a policy that tracks nothing yet. -/
def withJournal (v : V) (policy : P) (file : Option Bytes) : Except Fault (Inner V P n) := do
  let journal ← (Journal.withCodec file).mapError (.error ∘ .journal)
  let v ← recover hash v journal
  return .build v policy (some journal.truncate)

end Opening

/-! ### Pages that are still to be written -/

namespace Inner

variable {V P : Type} {n : Nat} [BlockStore V] [EvictionPolicy P (Fin n)]

def Pending (c : Inner V P n) : Prop := ∃ f, (c.frames f).dirty = true ∧ (c.frames f).pageId ≠ none

def Synced (c : Inner V P n) : Prop := ∃ v, sync v = .ok c.block

/-- Dirty pages stay dirty, unless the store was synced. -/
def Keeps (c c' : Inner V P n) : Prop := Synced c' ∨ (Pending c → Pending c')

/-- The store is as a sync left it, or some page is dirty. -/
def Settled (c : Inner V P n) : Prop := Synced c ∨ Pending c

variable {c c' : Inner V P n}

omit [BlockStore V] [EvictionPolicy P (Fin n)] in
theorem Pending.of_frames
    (hframes : ∀ f, (c.frames f).dirty = true → (c.frames f).pageId ≠ none →
      (c'.frames f).dirty = true ∧ (c'.frames f).pageId ≠ none) (h : Pending c) : Pending c' := by
  obtain ⟨f, hdirty, hpage⟩ := h
  exact ⟨f, hframes f hdirty hpage⟩

omit [BlockStore V] [EvictionPolicy P (Fin n)] in
theorem Pending.modify {f : Fin n} {change : Frame → Frame} (h : Pending c)
    (hdirty : (change (c.frames f)).dirty = true ∨ (change (c.frames f)).dirty = (c.frames f).dirty)
    (hpage : (change (c.frames f)).pageId = (c.frames f).pageId) : Pending (c.modify f change) := by
  apply h.of_frames
  intro g hd hp
  rw [modify_frames]
  split_ifs with hg
  · subst hg
    rw [hpage]
    exact ⟨hdirty.elim id (·.trans hd), hp⟩
  · exact ⟨hd, hp⟩

variable {c₁ : Inner V P n}

omit [EvictionPolicy P (Fin n)] in
theorem Keeps.then (h : Keeps c c₁) (hblock : c'.block = c₁.block)
    (hpending : Pending c₁ → Pending c') : Keeps c c' := by
  rcases h with ⟨v, hv⟩ | h
  · exact Or.inl ⟨v, hblock ▸ hv⟩
  · exact Or.inr (hpending ∘ h)

omit [EvictionPolicy P (Fin n)] in
theorem Settled.keeps (h : Settled c) (hkeeps : Keeps c c') (hcalm : Calm c c') : Settled c' := by
  rcases hkeeps with hsynced | hpending
  · exact Or.inl hsynced
  · rcases h with ⟨v, hv⟩ | h
    · refine Or.inl ?_
      rcases hcalm.synced with heq | hsynced
      · exact ⟨v, heq ▸ hv⟩
      · exact hsynced
    · exact Or.inr (hpending h)

variable [LawfulBlockStore V] [LawfulPolicy P] {crc : Crc32c} {hash : Bytes → UInt32}
variable {c c' : Inner V P n} {hs : List (Handle n)} {pages : Nat → Option Block} {f : Fin n}
  {id : Nat}

omit [LawfulBlockStore V] [EvictionPolicy P (Fin n)] [LawfulPolicy P] in
theorem Pending.flush (h : Pending c) (hflush : c.flush crc hash = (.ok (), c')) : Synced c' := by
  have hne : c.dirtyFrames.isEmpty = false := by
    obtain ⟨f, hdirty, hpage⟩ := h
    rw [List.isEmpty_eq_false_iff]
    intro hnil
    have hmem := mem_map_dirtyFrames.mpr ⟨hdirty, hpage⟩
    rw [hnil] at hmem
    cases hmem
  rw [Inner.flush, hne, if_neg (by simp)] at hflush
  split at hflush
  · cases hflush
  · split at hflush
    · cases hflush
    · rename_i v hsync
      obtain ⟨-, rfl⟩ := Prod.mk.inj hflush
      exact ⟨_, hsync⟩

omit [BlockStore V] [LawfulBlockStore V] [LawfulPolicy P] in
theorem Pending.reclaim (h : Pending c) (hdirty : (c.frames f).dirty = false) :
    Pending (c.reclaim f) := by
  apply h.of_frames
  intro g hd hp
  rw [reclaim_frames]
  split_ifs with hg
  · rw [hg, hdirty] at hd
    cases hd
  · exact ⟨hd, hp⟩

omit [BlockStore V] [LawfulBlockStore V] [LawfulPolicy P] in
theorem Pending.enter (h : Pending c) {change : Frame → Frame}
    (hdirty : ∀ fr, fr.dirty = true → (change fr).dirty = true)
    (hpage : ∀ fr, (change fr).pageId = fr.pageId) : Pending (c.enter f id change) := by
  apply h.of_frames
  intro g hd hp
  rw [enter_frames]
  split_ifs with hg
  · subst hg
    rw [hpage]
    exact ⟨hdirty _ hd, by simp⟩
  · exact ⟨hd, hp⟩

variable {r : Except FsError (Fin n)}

theorem Inv.keeps_victimFrame (h : Inv crc none c hs pages)
    (hvictim : c.victimFrame crc hash = (r, c')) : Keeps c c' := by
  rw [Inner.victimFrame] at hvictim
  split at hvictim
  · obtain ⟨-, rfl⟩ := Prod.mk.inj hvictim
    exact Or.inr fun hp => hp
  · split at hvictim
    · rename_i f c₁ hpick
      obtain ⟨-, rfl⟩ := Prod.mk.inj hvictim
      obtain ⟨hsome, rfl⟩ := Prod.mk.inj hpick
      exact Or.inr fun hp => Pending.reclaim hp ((h.pickEvictable_some hsome).2.2 rfl)
    · rename_i c₁ hpick
      have h₁ : Inv crc none c₁ hs pages := by
        have hpicked := h.pickEvictable true
        rwa [hpick] at hpicked
      have hsame : Pending c → Pending c₁ := by
        obtain ⟨-, rfl⟩ := Prod.mk.inj hpick
        exact fun hp => hp
      split_ifs at hvictim with hany
      · -- an unpinned dirty frame holds a page, so the flush syncs
        obtain ⟨f, -, hf⟩ := List.any_eq_true.mp hany
        rw [Bool.and_eq_true] at hf
        have hpending : Pending c₁ := by
          refine ⟨f, hf.2, fun hnone => ?_⟩
          rw [h₁.contents.idle f hnone] at hf
          cases hf.2
        obtain ⟨c₂, hflush, -⟩ := flush_ok hash h₁.placed h₁.contents
        obtain ⟨v, hv⟩ := hpending.flush hflush
        refine Or.inl ⟨v, ?_⟩
        simp only [hflush] at hvictim
        split at hvictim
        · rename_i f' c₃ hpick₂
          obtain ⟨-, rfl⟩ := Prod.mk.inj hvictim
          obtain ⟨-, rfl⟩ := Prod.mk.inj hpick₂
          exact hv
        · rename_i c₃ hpick₂
          obtain ⟨-, rfl⟩ := Prod.mk.inj hvictim
          obtain ⟨-, rfl⟩ := Prod.mk.inj hpick₂
          exact hv
      · obtain ⟨-, rfl⟩ := Prod.mk.inj hvictim
        exact Or.inr hsame

omit [LawfulBlockStore V] [EvictionPolicy P (Fin n)] [LawfulPolicy P] in
theorem load_cases {r : Except FsError Unit} (hload : c.load crc f id = (r, c')) :
    c' = c ∨ ∃ b, c' = c.modify f (fun fr => { fr with buf := b }) := by
  rw [Inner.load] at hload
  split at hload
  · obtain ⟨-, rfl⟩ := Prod.mk.inj hload
    exact Or.inl rfl
  · rename_i b hread
    obtain ⟨-, rfl⟩ := Prod.mk.inj hload
    exact Or.inr ⟨b, rfl⟩

omit [LawfulBlockStore V] [EvictionPolicy P (Fin n)] [LawfulPolicy P] in
theorem Keeps.load (h : Keeps c c₁) {r : Except FsError Unit}
    (hload : c₁.load crc f id = (r, c')) : Keeps c c' := by
  rcases load_cases hload with rfl | ⟨b, rfl⟩
  · exact h
  · exact h.then rfl fun hp => hp.modify (Or.inr rfl) rfl

theorem Inv.keeps_fetch (h : Inv crc none c hs pages) {pin : Frame → Frame}
    (hfetch : c.fetch crc hash id pin = (r, c')) (hdirty : ∀ fr, (pin fr).dirty = fr.dirty)
    (hpage : ∀ fr, (pin fr).pageId = fr.pageId) : Keeps c c' := by
  rw [Inner.fetch] at hfetch
  split at hfetch
  · rename_i e c₁ hvictim
    obtain ⟨-, rfl⟩ := Prod.mk.inj hfetch
    exact h.keeps_victimFrame hvictim
  · rename_i f c₁ hvictim
    have hkeeps := h.keeps_victimFrame hvictim
    split at hfetch
    · rename_i e c₂ hload
      obtain ⟨-, rfl⟩ := Prod.mk.inj hfetch
      exact (hkeeps.load hload).then rfl fun hp => hp
    · rename_i c₂ hload
      obtain ⟨-, rfl⟩ := Prod.mk.inj hfetch
      exact (hkeeps.load hload).then rfl fun hp => hp.enter
        (fun fr hd => (hdirty fr).trans hd) hpage

theorem Inv.keeps_acquireRead (h : Inv crc none c hs pages)
    (hread : c.acquireRead crc hash id = (r, c')) : Keeps c c' := by
  rw [Inner.acquireRead] at hread
  split at hread
  · split_ifs at hread <;> obtain ⟨-, rfl⟩ := Prod.mk.inj hread
    · exact Or.inr fun hp => hp
    · exact Or.inr fun hp => Pending.modify hp (Or.inr rfl) rfl
  · exact h.keeps_fetch hread (fun _ => rfl) (fun _ => rfl)

theorem Inv.keeps_acquireWrite (h : Inv crc none c hs pages)
    (hwrite : c.acquireWrite crc hash id = (r, c')) : Keeps c c' := by
  rw [Inner.acquireWrite] at hwrite
  split at hwrite
  · split_ifs at hwrite <;> obtain ⟨-, rfl⟩ := Prod.mk.inj hwrite
    · exact Or.inr fun hp => hp
    · exact Or.inr fun hp => Pending.modify hp (Or.inr rfl) rfl
  · exact h.keeps_fetch hwrite (fun _ => rfl) (fun _ => rfl)

variable {α : Type}

theorem Inv.keeps_withWrite (h : Inv crc none c hs pages)
    (change : Block → Except FsError α × Block) {r : Except FsError α}
    (hwrite : c.withWrite crc hash id change = (r, c')) : Keeps c c' := by
  rw [Inner.withWrite] at hwrite
  split at hwrite <;> rename_i hacquire <;> obtain ⟨-, rfl⟩ := Prod.mk.inj hwrite
  · exact h.keeps_acquireWrite hacquire
  · exact (h.keeps_acquireWrite hacquire).then rfl fun hp =>
      (hp.modify (Or.inr rfl) rfl).modify (Or.inl rfl) rfl

omit [LawfulBlockStore V] [LawfulPolicy P] in
theorem pending_withNew {change : Block → Except FsError α × Block} {r : Except FsError (Nat × α)}
    {id : Nat} {f : Fin n} (halloc : c.allocate crc hash = (.ok (id, f), c₁))
    (hnew : c.withNew crc hash change = (r, c')) : Pending c' := by
  rw [Inner.withNew, halloc] at hnew
  obtain ⟨-, rfl⟩ := Prod.mk.inj hnew
  refine ⟨f, ?_, ?_⟩ <;> rw [Inner.releaseWrite, modify_frames_self]
  rw [modify_frames_self]
  rw [Inner.allocate] at halloc
  split at halloc
  · cases halloc
  · split at halloc
    · cases halloc
    · obtain ⟨hid, rfl⟩ := Prod.mk.inj halloc
      obtain ⟨-, rfl⟩ := Prod.mk.inj (Except.ok.inj hid)
      simp [enter_frames]

end Inner

/-! ### The file after a flush -/

variable {v : DiskBlockStore}

theorem superblock_of_sync {v' : DiskBlockStore} (hsync : sync v = .ok v') :
    v'.file[0]? = some (superblock v'.nextId v'.freeList) := by
  change v.writeSuperblock = .ok v' at hsync
  rw [writeSuperblock] at hsync
  split_ifs at hsync
  obtain rfl := Except.ok.inj hsync
  rw [getElem?_writeAllAt, if_pos rfl]

theorem sync_of_superblock (hvalid : v.Valid)
    (hfile : v.file[0]? = some (superblock v.nextId [])) : sync v = .ok v := by
  obtain ⟨hlt, hget⟩ := List.getElem?_eq_some_iff.mp hfile
  have hsame : writeAllAt v.file 0 (superblock v.nextId v.freeList) = v.file := by
    rw [writeAllAt_of_lt hvalid.file, hvalid.freeList, ← hget, List.set_getElem_self]
  show v.writeSuperblock = .ok v
  rw [writeSuperblock, if_neg (by simp [hvalid.freeList]), hsame]

theorem open_of_synced {v₀ : DiskBlockStore} (hvalid : v.Valid) (hsync : sync v₀ = .ok v)
    (hid : v.nextId < 2 ^ 64) : ∃ v', DiskBlockStore.open v.file = .ok v' ∧ v'.Valid ∧
      v'.file = v.file ∧ v'.nextId = v.nextId ∧ sync v' = .ok v' := by
  have hfile := superblock_of_sync hsync
  rw [hvalid.freeList] at hfile
  have hvalid' : DiskBlockStore.Valid ⟨v.file, v.nextId, v.file.length, []⟩ :=
    ⟨rfl, hvalid.nextId, hvalid.file, le_rfl, le_max_left _ _⟩
  refine ⟨⟨v.file, v.nextId, v.file.length, []⟩, ?_, hvalid', rfl, rfl,
    sync_of_superblock hvalid' hfile⟩
  rw [DiskBlockStore.open, if_neg hvalid.file.ne',
    DiskBlockStore.readSuperblock_superblock hfile (Nat.zero_le _) hid nofun]
  rfl

theorem open_of_empty :
    ∃ v, DiskBlockStore.open [] = .ok v ∧ v.Valid ∧ v.nextId = 1 ∧ v.file.length = 1 ∧
    sync v = .ok v := by
  have hvalid : DiskBlockStore.Valid ⟨[superblock 1 []], 1, 1, []⟩ :=
    ⟨rfl, Nat.one_pos, Nat.one_pos, le_rfl, le_rfl⟩
  exact ⟨_, rfl, hvalid, rfl, rfl, sync_of_superblock hvalid rfl⟩

/-! ### A cache that can be closed -/

section Closing

variable {P : Type} {n : Nat} [EvictionPolicy P (Fin n)] [LawfulPolicy P] {crc : Crc32c}
  {hash : Bytes → UInt32}
variable {c c' : Inner DiskBlockStore P n} {hs : List (Handle n)} {pages : Nat → Option Block}

/-- The log is empty, and the superblock is up to date unless a page is dirty. -/
structure Inner.Durable (c : Inner DiskBlockStore P n) : Prop where
  settled : Inner.Settled c
  log : ∃ j, c.journal = some j ∧ j.file = Journal.header

omit [EvictionPolicy P (Fin n)] [LawfulPolicy P] in
theorem Inner.Durable.keeps (h : Inner.Durable c) (hkeeps : Inner.Keeps c c')
    (hcalm : Inner.Calm c c') : Inner.Durable c' := by
  refine ⟨h.settled.keeps hkeeps hcalm, ?_⟩
  obtain ⟨j, hj, hfile⟩ := h.log
  obtain ⟨j', hj'⟩ := Option.isSome_iff_exists.mp (hcalm.journaled.trans (by rw [hj]; rfl))
  exact ⟨j', hj', hcalm.log (fun k hk => by rwa [Option.some.inj (hk.symm.trans hj)]) j' hj'⟩

omit [EvictionPolicy P (Fin n)] [LawfulPolicy P] in
theorem withJournal_empty {V : Type} [BlockStore V] (v : V) (policy : P) {file : Option Bytes}
    {j : Journal} (hopen : Journal.withCodec file = .ok j) (hfile : j.file = Journal.header) :
    withJournal hash v policy file = .ok (Inner.build v policy (some j.truncate) : Inner V P n)
      ∧ j.truncate.file = Journal.header := by
  have hempty : j.file = Journal.contents hash pageOpCodec [] [] := by
    rw [hfile, Journal.contents_nil]
  have hreplay :=
    @Journal.replay_contents JournalOp hash pageOpCodec [] nofun [] (Journal.tornTail_nil hash)
  have hrecover : recover hash v j = .ok v := by
    rw [recover, hempty, hreplay]
    rfl
  constructor
  · rw [withJournal, hopen]
    show (recover hash v j >>= _) = _
    rw [hrecover]
    rfl
  · rw [Journal.truncate_contents hempty, Journal.contents_nil]

/-- **Closing after a flush and opening again** keeps the pages. -/
theorem Inner.Inv.reopen (h : Inner.Inv crc none c hs pages) (hclean : ¬ Inner.Pending c)
    (hidle : ∀ k ∈ hs, k.write = false) (hdurable : Inner.Durable c) (hid : c.block.nextId < 2 ^ 64)
    {m : Nat} {P' : Type} [EvictionPolicy P' (Fin m)] [LawfulPolicy P'] {policy : P'}
    (hpolicy : ∀ f, ¬ LawfulPolicy.Tracked policy f) :
    ∃ v c' pages', DiskBlockStore.open c.block.file = .ok v ∧
      withJournal hash v policy (c.journal.map (·.file)) = .ok (c' : Inner DiskBlockStore P' m) ∧
      Inner.Inv crc none c' [] pages' ∧ Inner.Durable c' ∧ c'.block.nextId = c.block.nextId ∧
      ∀ id b, pages id = some b → ∃ s, pages' id = some s ∧ s.Agrees b := by
  obtain ⟨v₀, hsync⟩ := hdurable.settled.resolve_right hclean
  obtain ⟨v, hopen, hvalid, hfile, hnext, hsynced⟩ := open_of_synced h.contents.valid hsync hid
  obtain ⟨j, hj, hheader⟩ := hdurable.log
  obtain ⟨j', hj', hheader'⟩ :=
    Journal.withCodec_of_verified (Journal.verifyHeader_header_append [])
  rw [List.append_nil] at hj' hheader'
  obtain ⟨hbuild, hempty⟩ :=
    @withJournal_empty P' m hash DiskBlockStore _ v policy _ j' hj' hheader'
  have hstored (id : Nat) : stored crc v id = stored crc c.block id :=
    stored_congr (readExactAt_congr (by rw [hfile]))
  have hlive (id : Nat) (b : Block) (hb : stored crc v id = some b) (hne : id ≠ 0) :
      id < blockCount v := by
    rw [hstored] at hb
    cases hpage : pages id with
    | none =>
      rw [h.contents.others id hne hpage] at hb
      cases hb
    | some b' =>
      show id < v.nextId
      rw [hnext]
      exact (h.contents.live id b' hpage).2
  refine ⟨v, _, _, hopen, ?_, Inner.inv_build hvalid hlive hpolicy,
    ⟨Or.inl ⟨v, hsynced⟩, _, rfl, hempty⟩,
    hnext, fun id b hb => ?_⟩
  · rw [hj, Option.map_some, hheader]
    exact hbuild
  · -- a page nobody writes and that is not dirty is in the file
    obtain ⟨s, hs, hagrees⟩ := h.contents.clean id b hb fun f hf => by
      refine ⟨Bool.eq_false_iff.mpr fun hd => hclean ⟨f, hd, by simp [hf]⟩,
        Bool.eq_false_iff.mpr fun hw => ?_⟩
      obtain ⟨k, hk, -, hwrite⟩ := h.pins.writer_iff.mp hw
      rw [hidle k hk] at hwrite
      cases hwrite
    refine ⟨s, ?_, hagrees⟩
    rw [if_neg (h.contents.live id b hb).1, hstored, hs]

end Closing

end StrataDb.Filesystem
