import StrataDb.PageCache

/-!
# The invariant of the page cache, and what every operation does to it

`Inv held c hs pages` relates a cache, the handles open on it and the pages it stands for: the
page table, the frames, the free list and the policy agree (a frame that was taken out is `held`);
readers and writers are counted by the handles; and a page is in its frame, in the store, or in
both.
-/

namespace StrataDb.Filesystem

open ByteCodec BlockStore LawfulBlockStore LawfulPolicy
open Function (update update_apply update_of_ne)
open List (map_cons mem_cons mem_map nodup_cons)

structure Handle (n : Nat) where
  write : Bool
  frame : Fin n
  pageId : Nat
deriving DecidableEq

def stored {V : Type} [BlockStore V] (crc : Crc32c) (v : V) (id : Nat) : Option Block :=
  match read v id with
  | .ok b => if Verifies crc b then some b else none
  | .error _ => none

theorem stored_eq_some {V : Type} [BlockStore V] {crc : Crc32c} {v : V} {id : Nat} {b : Block} :
    stored crc v id = some b ↔ read v id = .ok b ∧ Verifies crc b := by
  unfold stored
  split
  · rename_i b' h
    rw [h, Except.ok.injEq]
    split_ifs with hv
    · rw [Option.some.injEq]
      exact ⟨fun heq => ⟨heq, heq ▸ hv⟩, And.left⟩
    · exact ⟨nofun, fun heq => absurd (heq.1 ▸ heq.2) hv⟩
  · rename_i e h
    simp [h]

theorem stored_congr {V : Type} [BlockStore V] {crc : Crc32c} {v v' : V} {id : Nat}
    (h : read v id = read v' id) : stored crc v id = stored crc v' id := by
  rw [stored, stored, h]

theorem Grown.stored {V : Type} [BlockStore V] {crc : Crc32c} (hzero : ¬ Verifies crc Block.zeroed)
    {v v' : V} (h : Grown v v') (id : Nat) : stored crc v' id = stored crc v id := by
  apply Option.ext
  intro b
  rw [stored_eq_some, stored_eq_some]
  constructor
  · rintro ⟨hread, hv⟩
    rcases h.new id b hread with hold | rfl
    · exact ⟨hold, hv⟩
    · exact absurd hv hzero
  · rintro ⟨hread, hv⟩
    exact ⟨h.keep id b hread, hv⟩

namespace Inner

variable {V P : Type} {n : Nat} [EvictionPolicy P (Fin n)]

theorem reclaim_frames (c : Inner V P n) (f g : Fin n) : (c.reclaim f).frames g =
    if g = f then { c.frames f with pageId := none, readers := 0, writer := false, dirty := false }
    else c.frames g := modify_frames _ _ _ _

theorem reclaim_table {c : Inner V P n} {f : Fin n} {id : Nat} (hid : c.table id = none) :
    (c.reclaim f).table id = none := by
  cases hpage : (c.frames f).pageId with
  | none => simpa [Inner.reclaim, hpage] using hid
  | some old =>
    simp only [Inner.reclaim, hpage, modify_table, update_apply, hid, ite_self]

theorem enter_frames (c : Inner V P n) (f : Fin n) (id : Nat) (change : Frame → Frame) (g : Fin n) :
    (c.enter f id change).frames g =
      if g = f then change { c.frames f with pageId := some id } else c.frames g :=
  modify_frames _ _ _ _

/-! ### Which page is where -/

/-- The table, the frames, the free list and the policy agree. -/
structure Placed [LawfulPolicy P] (held : Option (Fin n)) (c : Inner V P n) : Prop where
  table : ∀ id f, c.table id = some f ↔ (c.frames f).pageId = some id
  free : ∀ f, f ∈ c.free ↔ (c.frames f).pageId = none ∧ held ≠ some f
  nodup : c.free.Nodup
  held : ∀ f, held = some f → (c.frames f).pageId = none
  tracked : ∀ f, Tracked c.policy f ↔ (c.frames f).pageId ≠ none

namespace Placed

variable [LawfulPolicy P] {held : Option (Fin n)} {c c' : Inner V P n} {f : Fin n} {id : Nat}

theorem congr (h : Placed held c) (hframes : ∀ f, (c'.frames f).pageId = (c.frames f).pageId)
    (htable : c'.table = c.table) (hfree : c'.free = c.free)
    (hpolicy : ∀ f, Tracked c'.policy f ↔ Tracked c.policy f) : Placed held c' where
  table id f := by rw [htable, hframes, h.table]
  free f := by rw [hfree, hframes, h.free]
  nodup := hfree ▸ h.nodup
  held f hf := (hframes f).trans (h.held f hf)
  tracked f := by rw [hpolicy, hframes, h.tracked]

theorem frame_inj (h : Placed held c) {g : Fin n} (hf : (c.frames f).pageId = some id)
    (hg : (c.frames g).pageId = some id) : f = g :=
  Option.some.inj (((h.table id f).mpr hf).symm.trans ((h.table id g).mpr hg))

theorem pageId_ne (h : Placed held c) (hid : c.table id = none) (f : Fin n) :
    (c.frames f).pageId ≠ some id := by
  intro hf
  rw [(h.table id f).mpr hf] at hid
  cases hid

theorem pop (h : Placed none c) {rest : List (Fin n)} (hfree : c.free = f :: rest) :
    Placed (some f) { c with free := rest } := by
  have hnodup := h.nodup
  rw [hfree, nodup_cons] at hnodup
  have hmem : ∀ g, g ∈ f :: rest ↔ (c.frames g).pageId = none := fun g => by
    rw [← hfree, h.free]
    simp
  refine ⟨h.table, fun g => ?_, hnodup.2, ?_, h.tracked⟩
  · rw [← hmem, mem_cons, Ne, Option.some.injEq]
    constructor
    · intro hg
      exact ⟨Or.inr hg, fun heq => hnodup.1 (heq ▸ hg)⟩
    · rintro ⟨hg | hg, hne⟩
      · exact absurd hg.symm hne
      · exact hg
  · intro g hg
    exact (hmem g).mp (Option.some.inj hg ▸ List.mem_cons_self)

theorem push (h : Placed (some f) c) : Placed none { c with free := f :: c.free } := by
  refine ⟨h.table, fun g => ?_, ?_, nofun, h.tracked⟩
  · rw [mem_cons, h.free]
    constructor
    · rintro (rfl | hg)
      · exact ⟨h.held g rfl, nofun⟩
      · exact ⟨hg.1, nofun⟩
    · rintro ⟨hg, -⟩
      by_cases hgf : g = f
      · exact Or.inl hgf
      · exact Or.inr ⟨hg, fun heq => hgf (Option.some.inj heq).symm⟩
  · exact nodup_cons.mpr ⟨fun hmem => ((h.free f).mp hmem).2 rfl, h.nodup⟩

theorem reclaim (h : Placed none c) (hf : (c.frames f).pageId = some id) :
    Placed (some f) (c.reclaim f) := by
  have htable : (c.reclaim f).table = update c.table id none := by
    simp [Inner.reclaim, hf]
  have hpolicy : (c.reclaim f).policy = remove c.policy f := rfl
  have hpageId : ∀ g, ((c.reclaim f).frames g).pageId =
      if g = f then none else (c.frames g).pageId := fun g => by
    rw [reclaim_frames]
    split_ifs <;> rfl
  refine ⟨fun j g => ?_, fun g => ?_, h.nodup, fun g hg => ?_, fun g => ?_⟩
  · rw [htable, hpageId, update_apply]
    by_cases hj : j = id
    · subst hj
      simp only [if_true]
      split_ifs with hg
      · simp
      · exact ⟨nofun, fun hpage => absurd (h.frame_inj hpage hf) hg⟩
    · rw [if_neg hj, h.table]
      split_ifs with hg
      · subst hg
        exact ⟨fun hpage => absurd (Option.some.inj (hpage.symm.trans hf)) hj, nofun⟩
      · exact Iff.rfl
  · show g ∈ c.free ↔ _
    rw [h.free, hpageId]
    split_ifs with hg
    · subst hg
      simp [hf]
    · simp [Ne.symm hg]
  · rw [hpageId, if_pos (Option.some.inj hg).symm]
  · rw [hpolicy, tracked_remove, h.tracked, hpageId]
    split_ifs with hg <;> simp [hg]

theorem enter (h : Placed (some f) c) (hid : c.table id = none) {change : Frame → Frame}
    (hchange : ∀ fr, (change fr).pageId = fr.pageId) : Placed none (c.enter f id change) := by
  have hpageId : ∀ g, ((c.enter f id change).frames g).pageId =
      if g = f then some id else (c.frames g).pageId := fun g => by
    rw [enter_frames]
    split_ifs
    · rw [hchange]
    · rfl
  have htable : (c.enter f id change).table = update c.table id (some f) := rfl
  have hpolicy : (c.enter f id change).policy = recordAccess c.policy f := rfl
  refine ⟨fun j g => ?_, fun g => ?_, h.nodup, nofun, fun g => ?_⟩
  · rw [htable, hpageId, update_apply]
    by_cases hj : j = id
    · subst hj
      rw [if_pos rfl]
      split_ifs with hg
      · simp [hg]
      · exact ⟨fun heq => absurd (Option.some.inj heq).symm hg,
          fun hpage => absurd hpage (h.pageId_ne hid g)⟩
    · rw [if_neg hj, h.table]
      split_ifs with hg
      · subst hg
        rw [h.held g rfl]
        simp [Ne.symm hj]
      · exact Iff.rfl
  · show g ∈ c.free ↔ _
    rw [h.free, hpageId]
    split_ifs with hg
    · subst hg
      simp
    · simp [Ne.symm hg]
  · rw [hpolicy, tracked_recordAccess, h.tracked, hpageId]
    split_ifs with hg <;> simp [hg]

end Placed

/-! ### Handles -/

def readersOf (hs : List (Handle n)) (f : Fin n) : Nat :=
  hs.countP (fun h => h.frame = f ∧ h.write = false)

def writersOf (hs : List (Handle n)) (f : Fin n) : Nat :=
  hs.countP (fun h => h.frame = f ∧ h.write = true)

/-- The frames count the open handles; a writer is alone; a handle's frame holds its
    page. -/
structure Pins (c : Inner V P n) (hs : List (Handle n)) : Prop where
  readers : ∀ f, (c.frames f).readers = readersOf hs f
  writer : ∀ f, writersOf hs f = if (c.frames f).writer then 1 else 0
  exclusive : ∀ f, (c.frames f).writer = true → (c.frames f).readers = 0
  handle : ∀ h ∈ hs, (c.frames h.frame).pageId = some h.pageId

end Inner

section Counting

variable {n : Nat} (h : Handle n) (hs : List (Handle n)) (f : Fin n)

theorem Inner.readersOf_cons : Inner.readersOf (h :: hs) f =
    Inner.readersOf hs f + if h.frame = f ∧ h.write = false then 1 else 0 := by
  simp [Inner.readersOf, List.countP_cons]

theorem Inner.writersOf_cons : Inner.writersOf (h :: hs) f =
    Inner.writersOf hs f + if h.frame = f ∧ h.write = true then 1 else 0 := by
  simp [Inner.writersOf, List.countP_cons]

variable {h hs f}

theorem Inner.readersOf_pos :
    0 < Inner.readersOf hs f ↔ ∃ h ∈ hs, h.frame = f ∧ h.write = false := by
  simp [Inner.readersOf, List.countP_pos_iff]

theorem Inner.writersOf_pos :
    0 < Inner.writersOf hs f ↔ ∃ h ∈ hs, h.frame = f ∧ h.write = true := by
  simp [Inner.writersOf, List.countP_pos_iff]

end Counting

namespace Inner.Pins

variable {V P : Type} {n : Nat} {c c' : Inner V P n} {hs : List (Handle n)} {f : Fin n} {id : Nat}

theorem perm (h : Pins c hs) {hs' : List (Handle n)} (hperm : hs.Perm hs') : Pins c hs' where
  readers f := (h.readers f).trans (hperm.countP_eq _)
  writer f := (hperm.countP_eq _).symm.trans (h.writer f)
  exclusive := h.exclusive
  handle k hk := h.handle k (hperm.mem_iff.mpr hk)

theorem writer_iff (h : Pins c hs) :
    (c.frames f).writer = true ↔ ∃ k ∈ hs, k.frame = f ∧ k.write = true := by
  rw [← writersOf_pos, h.writer]
  split_ifs with hw <;> simp [hw]

theorem readers_pos_iff (h : Pins c hs) :
    0 < (c.frames f).readers ↔ ∃ k ∈ hs, k.frame = f ∧ k.write = false := by
  rw [h.readers, readersOf_pos]

theorem unpinned_iff (h : Pins c hs) : (c.frames f).unpinned = true ↔ ∀ k ∈ hs, k.frame ≠ f := by
  have hreaders := h.readers_pos_iff (f := f)
  have hwriter := h.writer_iff (f := f)
  simp only [Frame.unpinned, Bool.and_eq_true, beq_iff_eq, Bool.not_eq_true', ]
  constructor
  · rintro ⟨hr, hw⟩ k hk rfl
    cases hkw : k.write with
    | false => exact absurd (hreaders.mpr ⟨k, hk, rfl, hkw⟩) (by omega)
    | true => rw [hwriter.mpr ⟨k, hk, rfl, hkw⟩] at hw; cases hw
  · intro hnone
    refine ⟨?_, ?_⟩
    · by_contra hr
      obtain ⟨k, hk, hf, -⟩ := hreaders.mp (Nat.pos_of_ne_zero hr)
      exact hnone k hk hf
    · by_contra hw
      obtain ⟨k, hk, hf, -⟩ := hwriter.mp (Bool.of_not_eq_false hw)
      exact hnone k hk hf

theorem no_handle (h : Pins c hs) (hf : (c.frames f).pageId = none) : ∀ k ∈ hs, k.frame ≠ f := by
  rintro k hk rfl
  rw [h.handle k hk] at hf
  cases hf

theorem congr (h : Pins c hs) (hreaders : ∀ f, (c'.frames f).readers = (c.frames f).readers)
    (hwriter : ∀ f, (c'.frames f).writer = (c.frames f).writer)
    (hpage : ∀ k ∈ hs, (c'.frames k.frame).pageId = (c.frames k.frame).pageId) : Pins c' hs where
  readers f := (hreaders f).trans (h.readers f)
  writer f := by rw [hwriter, h.writer]
  exclusive f hw := by rw [hreaders, h.exclusive f (hwriter f ▸ hw)]
  handle k hk := (hpage k hk).trans (h.handle k hk)

/-- A handle is opened.  A reader asks for no writer, a writer for nobody. -/
theorem insert (h : Pins c hs) {k : Handle n}
    (hothers : ∀ g, g ≠ k.frame → c'.frames g = c.frames g)
    (hpage : (c'.frames k.frame).pageId = some k.pageId)
    (hsame : ∀ k' ∈ hs, k'.frame = k.frame → k'.pageId = k.pageId)
    (hr : (c'.frames k.frame).readers = (c.frames k.frame).readers + if k.write then 0 else 1)
    (hw : (c'.frames k.frame).writer = k.write) (hno : (c.frames k.frame).writer = false)
    (hnone : k.write = true → (c.frames k.frame).readers = 0) : Pins c' (k :: hs) where
  readers g := by
    rw [readersOf_cons, ← h.readers]
    by_cases hg : g = k.frame
    · subst hg
      rw [hr]
      cases k.write <;> simp
    · rw [hothers g hg, if_neg (fun heq => hg heq.1.symm), Nat.add_zero]
  writer g := by
    rw [writersOf_cons, h.writer]
    by_cases hg : g = k.frame
    · subst hg
      rw [hw, hno]
      cases k.write <;> simp
    · rw [hothers g hg, if_neg (fun heq : k.frame = g ∧ _ => hg heq.1.symm), Nat.add_zero]
  exclusive g hg := by
    by_cases hgk : g = k.frame
    · subst hgk
      rw [hw] at hg
      rw [hr, hnone hg, hg]
      rfl
    · rw [hothers g hgk] at hg ⊢
      exact h.exclusive g hg
  handle k' hk' := by
    rcases mem_cons.mp hk' with rfl | hmem
    · exact hpage
    · by_cases hf : k'.frame = k.frame
      · rw [hf, hpage, hsame k' hmem hf]
      · rw [hothers _ hf]
        exact h.handle k' hmem

theorem erase {k : Handle n} (h : Pins c (k :: hs))
    (hothers : ∀ g, g ≠ k.frame → c'.frames g = c.frames g)
    (hpage : (c'.frames k.frame).pageId = (c.frames k.frame).pageId)
    (hr : (c'.frames k.frame).readers = (c.frames k.frame).readers - if k.write then 0 else 1)
    (hw : (c'.frames k.frame).writer = ((c.frames k.frame).writer && !k.write)) : Pins c' hs where
  readers g := by
    have hcount := h.readers g
    rw [readersOf_cons] at hcount
    by_cases hg : g = k.frame
    · subst hg
      rw [hr, hcount]
      cases k.write <;> simp
    · rw [hothers g hg, hcount, if_neg (fun heq => hg heq.1.symm), Nat.add_zero]
  writer g := by
    have hcount := h.writer g
    rw [writersOf_cons] at hcount
    by_cases hg : g = k.frame
    · subst hg
      rw [hw]
      cases hk : k.write with
      | false => simpa [hk] using hcount
      -- the handle was the only writer of its frame
      | true =>
        simp only [hk, and_self, if_true] at hcount
        simp only [Bool.not_true, Bool.and_false, Bool.false_eq_true, if_false]
        split at hcount <;> omega
    · rw [hothers g hg]
      rwa [if_neg (fun heq => hg heq.1.symm), Nat.add_zero] at hcount
  exclusive g hg := by
    by_cases hgk : g = k.frame
    · subst hgk
      rw [hw, Bool.and_eq_true] at hg
      rw [hr, h.exclusive _ hg.1, Nat.zero_sub]
    · rw [hothers g hgk] at hg ⊢
      exact h.exclusive g hg
  handle k' hk' := by
    have hk := h.handle k' (List.mem_cons_of_mem _ hk')
    by_cases hf : k'.frame = k.frame
    · rwa [hf, hpage, ← hf]
    · rwa [hothers _ hf]

end Inner.Pins

/-! ### Contents -/

/-- The cache and its store hold the pages. -/
structure Inner.Contents {V P : Type} {n : Nat} [BlockStore V] [LawfulBlockStore V] (crc : Crc32c)
    (c : Inner V P n) (pages : Nat → Option Block) : Prop where
  valid : Valid c.block
  idle : ∀ f, (c.frames f).pageId = none → (c.frames f).dirty = false
  resident : ∀ f id, (c.frames f).pageId = some id →
    ∃ b, pages id = some b ∧ (c.frames f).buf.Agrees b
  readable : ∀ id b, pages id = some b → ∃ b', read c.block id = .ok b'
  clean : ∀ id b, pages id = some b →
    (∀ f, (c.frames f).pageId = some id → (c.frames f).dirty = false
      ∧ (c.frames f).writer = false) →
    ∃ s, stored crc c.block id = some s ∧ s.Agrees b
  live : ∀ id b, pages id = some b → id ≠ 0 ∧ id < blockCount c.block
  others : ∀ id, id ≠ 0 → pages id = none → stored crc c.block id = none

namespace Inner.Contents

variable {V P : Type} {n : Nat} [BlockStore V] [LawfulBlockStore V] {crc : Crc32c}
variable {c c' : Inner V P n} {pages : Nat → Option Block} {f : Fin n} {id : Nat}

theorem congr (h : Contents crc c pages) (hblock : c'.block = c.block)
    (hpage : ∀ f, (c'.frames f).pageId = (c.frames f).pageId)
    (hbuf : ∀ f, (c.frames f).pageId ≠ none → (c'.frames f).buf = (c.frames f).buf)
    (hidle : ∀ f, (c.frames f).pageId = none → (c'.frames f).dirty = false)
    (hclean : ∀ f, (c'.frames f).dirty = false → (c'.frames f).writer = false →
      (c.frames f).dirty = false ∧ (c.frames f).writer = false) : Contents crc c' pages where
  valid := hblock ▸ h.valid
  idle f hf := hidle f ((hpage f).symm.trans hf)
  resident f id hf := by
    rw [hpage] at hf
    rw [hbuf f (by simp [hf])]
    exact h.resident f id hf
  readable := hblock ▸ h.readable
  clean id b hb hmarks := by
    rw [hblock]
    refine h.clean id b hb (fun f hf => ?_)
    obtain ⟨hdirty, hwriter⟩ := hmarks f ((hpage f).trans hf)
    exact hclean f hdirty hwriter
  live := hblock ▸ h.live
  others := hblock ▸ h.others

theorem grow (h : Contents crc c pages) (hzero : ¬ Verifies crc Block.zeroed) {v : V}
    (hvalid : Valid v) (hcount : blockCount c.block ≤ blockCount v) (hgrown : Grown c.block v) :
    Contents crc { c with block := v } pages where
  valid := hvalid
  idle := h.idle
  resident := h.resident
  readable id b hb := by
    obtain ⟨b', hread⟩ := h.readable id b hb
    exact ⟨b', hgrown.keep id b' hread⟩
  clean id b hb hmarks := by
    rw [hgrown.stored hzero]
    exact h.clean id b hb hmarks
  live id b hb := ⟨(h.live id b hb).1, (h.live id b hb).2.trans_le hcount⟩
  others id hid hnone := by
    rw [hgrown.stored hzero]
    exact h.others id hid hnone

/-- The bytes of a page are changed through its write handle. -/
theorem edit (h : Contents crc c pages) (hf : (c.frames f).pageId = some id)
    (hunique : ∀ g, (c.frames g).pageId = some id → g = f) (hwriter : (c.frames f).writer = true)
    (b : Block) : Contents crc (c.modify f (fun fr => { fr with buf := b }))
      (update pages id (some b)) := by
  obtain ⟨old, hold, -⟩ := h.resident f id hf
  have hsome : ∀ j b', update pages id (some b) j = some b' → ∃ b'', pages j = some b'' := by
    intro j b' hb'
    by_cases hj : j = id
    · exact ⟨old, hj ▸ hold⟩
    · exact ⟨b', by rwa [update_of_ne hj] at hb'⟩
  have hpage : ∀ g, ((c.modify f (fun fr => { fr with buf := b })).frames g).pageId =
      (c.frames g).pageId := modify_field Frame.pageId rfl
  refine ⟨h.valid, fun g hg => ?_, fun g j hg => ?_, fun j b' hb' => ?_, fun j b' hb' hmarks => ?_,
    fun j b' hb' => ?_, fun j hj hnone => ?_⟩
  · rw [hpage] at hg
    rw [modify_field Frame.dirty rfl]
    exact h.idle g hg
  · rw [hpage] at hg
    rw [modify_frames]
    split_ifs with hgf
    · obtain rfl : id = j := Option.some.inj (hf.symm.trans (hgf ▸ hg))
      exact ⟨b, by simp, Block.Agrees.refl b⟩
    · have hj : j ≠ id := fun heq => hgf (hunique g (heq ▸ hg))
      rw [update_of_ne hj]
      exact h.resident g j hg
  · obtain ⟨b'', hb''⟩ := hsome j b' hb'
    exact h.readable j b'' hb''
  · by_cases hj : j = id
    · -- the frame still has its writer
      have hmark := (hmarks f (by rw [hpage, hj, hf])).2
      rw [modify_frames_self, hwriter] at hmark
      cases hmark
    · rw [update_of_ne hj] at hb'
      refine h.clean j b' hb' (fun g hg => ?_)
      have hgf : g ≠ f := fun heq => hj (Option.some.inj ((heq ▸ hg).symm.trans hf))
      have hmark := hmarks g
      rw [modify_frames, if_neg hgf] at hmark
      exact hmark hg
  · obtain ⟨b'', hb''⟩ := hsome j b' hb'
    exact h.live j b'' hb''
  · have hj' : j ≠ id := fun heq => by simp [heq] at hnone
    rw [update_of_ne hj'] at hnone
    exact h.others j hj hnone

variable [EvictionPolicy P (Fin n)]

theorem reclaim (h : Contents crc c pages) (hdirty : (c.frames f).dirty = false)
    (hwriter : (c.frames f).writer = false) : Contents crc (c.reclaim f) pages where
  valid := h.valid
  idle g hg := by
    rw [reclaim_frames] at hg ⊢
    split_ifs at hg ⊢ with hgf
    · rfl
    · exact h.idle g hg
  resident g id hg := by
    rw [reclaim_frames] at hg ⊢
    split_ifs at hg ⊢ with hgf
    exact h.resident g id hg
  readable := h.readable
  clean id b hb hmarks := by
    refine h.clean id b hb (fun g hg => ?_)
    by_cases hgf : g = f
    · exact hgf ▸ ⟨hdirty, hwriter⟩
    · have hmark := hmarks g
      rw [reclaim_frames, if_neg hgf] at hmark
      exact hmark hg
  live := h.live
  others := h.others

/-- A page comes into an idle frame: from the store, or a new one. -/
theorem enter (h : Contents crc c pages) (hidle : (c.frames f).pageId = none)
    (hothers : ∀ g, (c.frames g).pageId ≠ some id) (hid : id ≠ 0 ∧ id < blockCount c.block)
    (hread : ∃ b', read c.block id = .ok b') {change : Frame → Frame}
    (hchange : ∀ fr, (change fr).pageId = fr.pageId) {b : Block}
    (hbuf : (change { c.frames f with pageId := some id }).buf.Agrees b)
    (hclean : (change { c.frames f with pageId := some id }).dirty = false →
      ∃ s, stored crc c.block id = some s ∧ s.Agrees b) :
    Contents crc (c.enter f id change) (update pages id (some b)) where
  valid := h.valid
  idle g hg := by
    rw [enter_frames] at hg ⊢
    split_ifs at hg ⊢ with hgf
    · rw [hchange] at hg
      cases hg
    · exact h.idle g hg
  resident g j hg := by
    rw [enter_frames] at hg ⊢
    split_ifs at hg ⊢ with hgf
    · rw [hchange] at hg
      obtain rfl : id = j := Option.some.inj hg
      exact ⟨b, by simp, hbuf⟩
    · have hj : j ≠ id := fun heq => hothers g (heq ▸ hg)
      rw [update_of_ne hj]
      exact h.resident g j hg
  readable j b' hb' := by
    by_cases hj : j = id
    · exact hj ▸ hread
    · rw [update_of_ne hj] at hb'
      exact h.readable j b' hb'
  clean j b' hb' hmarks := by
    by_cases hj : j = id
    · subst hj
      obtain rfl : b = b' := by simpa using hb'
      have hmark := hmarks f
      rw [enter_frames, if_pos rfl, hchange] at hmark
      exact hclean (hmark rfl).1
    · rw [update_of_ne hj] at hb'
      refine h.clean j b' hb' (fun g hg => ?_)
      have hgf : g ≠ f := by
        rintro rfl
        rw [hidle] at hg
        cases hg
      have hmark := hmarks g
      rw [enter_frames, if_neg hgf] at hmark
      exact hmark hg
  live j b' hb' := by
    by_cases hj : j = id
    · exact hj ▸ hid
    · rw [update_of_ne hj] at hb'
      exact h.live j b' hb'
  others j hj0 hnone := by
    by_cases hj : j = id
    · simp [hj] at hnone
    · rw [update_of_ne hj] at hnone
      exact h.others j hj0 hnone

end Inner.Contents

/-! ### Flushing -/

def Frame.flushed (crc : Crc32c) (fr : Frame) : Frame :=
  if fr.dirty ∧ fr.pageId ≠ none then { fr with buf := finalizeChecksum crc fr.buf, dirty := false }
  else fr

/-- What no operation on the frames does: issue ids, leave the store unsynced, or leave
    records in the log. -/
structure Inner.Calm {V P : Type} {n : Nat} [BlockStore V] (c c' : Inner V P n) : Prop where
  blockCount : blockCount c'.block = blockCount c.block
  synced : c'.block = c.block ∨ ∃ v, sync v = .ok c'.block
  log : (∀ j, c.journal = some j → j.file = Journal.header) →
    ∀ j, c'.journal = some j → j.file = Journal.header
  journaled : c'.journal.isSome = c.journal.isSome

namespace Inner.Calm

variable {V P : Type} {n : Nat} [BlockStore V] {c c' c'' : Inner V P n}

theorem of_eq (hblock : c'.block = c.block) (hjournal : c'.journal = c.journal) : Calm c c' :=
  ⟨by rw [hblock], Or.inl hblock, by rw [hjournal]; exact fun h => h, by rw [hjournal]⟩

theorem trans (h : Calm c c') (h' : Calm c' c'') : Calm c c'' where
  blockCount := h'.blockCount.trans h.blockCount
  synced := h'.synced.elim (fun heq => by rw [heq]; exact h.synced) Or.inr
  log hlog := h'.log (h.log hlog)
  journaled := h'.journaled.trans h.journaled

end Inner.Calm

/-- What a flush leaves: the same pages in the same frames, all of them clean, and the
    dirty ones written. -/
structure Inner.FlushedTo {V P : Type} {n : Nat} [BlockStore V] [LawfulBlockStore V] (crc : Crc32c)
    (c c' : Inner V P n) : Prop where
  table : c'.table = c.table
  free : c'.free = c.free
  policy : c'.policy = c.policy
  frames : ∀ f, c'.frames f = (c.frames f).flushed crc
  valid : Valid c'.block
  calm : Calm c c'
  written : ∀ f id, (c.frames f).dirty = true → (c.frames f).pageId = some id →
    read c'.block id = .ok (finalizeChecksum crc (c.frames f).buf)
  kept : ∀ id, id ≠ 0 → (∀ f, (c.frames f).pageId = some id → (c.frames f).dirty = false) →
    read c'.block id = read c.block id

section Flushing

variable {V P : Type} {n : Nat} {crc : Crc32c} {hash : Bytes → UInt32}
variable {c c' : Inner V P n} {pages : Nat → Option Block}

@[simp] theorem Frame.flushed_pageId (fr : Frame) : (fr.flushed crc).pageId = fr.pageId := by
  unfold flushed
  split_ifs <;> rfl

@[simp] theorem Frame.flushed_readers (fr : Frame) : (fr.flushed crc).readers = fr.readers := by
  unfold flushed
  split_ifs <;> rfl

@[simp] theorem Frame.flushed_writer (fr : Frame) : (fr.flushed crc).writer = fr.writer := by
  unfold flushed
  split_ifs <;> rfl

theorem Frame.flushed_dirty (fr : Frame) :
    (fr.flushed crc).dirty = (fr.dirty && fr.pageId.isNone) := by
  unfold flushed
  split_ifs with h
  · cases hp : fr.pageId with
    | none => exact absurd hp h.2
    | some id => simp
  · cases hd : fr.dirty with
    | false => rfl
    | true => simpa [hd, Option.eq_none_iff_forall_ne_some] using h

theorem Frame.flushed_agrees (fr : Frame) : (fr.flushed crc).buf.Agrees fr.buf := by
  unfold flushed
  split_ifs
  · exact finalizeChecksum_agrees fr.buf
  · exact Block.Agrees.refl _

theorem Inner.mem_dirtyFrames {d : Fin n × Nat} : d ∈ c.dirtyFrames ↔
    (c.frames d.1).dirty = true ∧ (c.frames d.1).pageId = some d.2 := by
  obtain ⟨f, id⟩ := d
  simp only [Inner.dirtyFrames, List.mem_filterMap, List.mem_finRange, true_and]
  constructor
  · rintro ⟨g, hg⟩
    split_ifs at hg with hd
    obtain ⟨j, hj, heq⟩ := Option.map_eq_some_iff.mp hg
    obtain ⟨rfl, rfl⟩ := Prod.mk.inj heq
    exact ⟨hd, hj⟩
  · rintro ⟨hd, hp⟩
    exact ⟨f, by simp [hd, hp]⟩

theorem Inner.nodup_dirtyFrames : (c.dirtyFrames.map Prod.fst).Nodup := by
  have hfilter : c.dirtyFrames.map Prod.fst = (List.finRange n).filter
      (fun f => (c.frames f).dirty && (c.frames f).pageId.isSome) := by
    rw [Inner.dirtyFrames, List.map_filterMap, ← List.filterMap_eq_filter]
    congr 1
    funext f
    cases hd : (c.frames f).dirty <;> cases hp : (c.frames f).pageId <;> simp [Option.guard, hd, hp]
  rw [hfilter]
  exact (List.nodup_finRange n).filter _

theorem Inner.finalizeFrames_frames {dirty : List (Fin n × Nat)}
    (hnodup : (dirty.map Prod.fst).Nodup) (f : Fin n) :
    (c.finalizeFrames crc dirty).frames f =
      if f ∈ dirty.map Prod.fst then
        { c.frames f with buf := finalizeChecksum crc (c.frames f).buf }
      else c.frames f := by
  induction dirty generalizing c with
  | nil => rfl
  | cons d dirty ih =>
    rw [map_cons, nodup_cons] at hnodup
    show ((c.modify d.1 _).finalizeFrames crc dirty).frames f = _
    rw [ih hnodup.2, modify_frames, map_cons]
    by_cases hf : f = d.1
    · subst hf
      simp [hnodup.1]
    · rw [if_neg hf]
      simp only [mem_cons, hf, false_or]

theorem Inner.finalizeFrames_rest (dirty : List (Fin n × Nat)) :
    (c.finalizeFrames crc dirty).block = c.block ∧ (c.finalizeFrames crc dirty).table = c.table ∧
      (c.finalizeFrames crc dirty).free = c.free ∧ (c.finalizeFrames crc dirty).policy
      = c.policy := by
  induction dirty generalizing c with
  | nil => exact ⟨rfl, rfl, rfl, rfl⟩
  | cons d dirty ih => exact ih

section Commit

variable (dirty : List (Fin n × Nat))

theorem Inner.commit_block :
    (c.commit crc hash dirty).block = c.block := (finalizeFrames_rest dirty).1

theorem Inner.commit_table : (c.commit crc hash dirty).table = c.table :=
  (finalizeFrames_rest dirty).2.1

theorem Inner.commit_free : (c.commit crc hash dirty).free = c.free :=
  (finalizeFrames_rest dirty).2.2.1

theorem Inner.commit_policy : (c.commit crc hash dirty).policy = c.policy :=
  (finalizeFrames_rest dirty).2.2.2

theorem Inner.commit_frames (f : Fin n) : (c.commit crc hash c.dirtyFrames).frames f =
    if f ∈ c.dirtyFrames.map Prod.fst then
      { c.frames f with buf := finalizeChecksum crc (c.frames f).buf }
    else c.frames f := finalizeFrames_frames nodup_dirtyFrames f

end Commit

theorem Inner.mem_map_dirtyFrames {f : Fin n} : f ∈ c.dirtyFrames.map Prod.fst ↔
    (c.frames f).dirty = true ∧ (c.frames f).pageId ≠ none := by
  rw [mem_map]
  constructor
  · rintro ⟨d, hd, rfl⟩
    have hd := mem_dirtyFrames.mp hd
    exact ⟨hd.1, by simp [hd.2]⟩
  · rintro ⟨hd, hne⟩
    obtain ⟨id, hid⟩ := Option.ne_none_iff_exists'.mp hne
    exact ⟨(f, id), mem_dirtyFrames.mpr ⟨hd, hid⟩, rfl⟩

variable [BlockStore V] [LawfulBlockStore V]

/-- **Writing back succeeds** on readable blocks: each of them then holds its frame's
    bytes, and the frames are clean. -/
theorem Inner.writeBack_ok {dirty : List (Fin n × Nat)} (hvalid : Valid c.block)
    (hframes : (dirty.map Prod.fst).Nodup) (hids : (dirty.map Prod.snd).Nodup)
    (hread : ∀ d ∈ dirty, ∃ b, read c.block d.2 = .ok b) :
    ∃ c', writeBack dirty c = (.ok (), c') ∧ c'.table = c.table ∧ c'.free = c.free ∧
      c'.policy = c.policy ∧ c'.journal = c.journal ∧ Valid c'.block ∧
      blockCount c'.block = blockCount c.block ∧
      (∀ f, c'.frames f =
        if f ∈ dirty.map Prod.fst then { c.frames f with dirty := false } else c.frames f) ∧
      (∀ d ∈ dirty, read c'.block d.2 = .ok (c.frames d.1).buf) ∧
      ∀ id, id ∉ dirty.map Prod.snd → read c'.block id = read c.block id := by
  induction dirty generalizing c with
  | nil => exact ⟨c, rfl, rfl, rfl, rfl, rfl, hvalid, rfl, fun f => rfl, nofun, fun id _ => rfl⟩
  | cons d dirty ih =>
    obtain ⟨f, id⟩ := d
    rw [map_cons, nodup_cons] at hframes hids
    obtain ⟨old, hold⟩ := hread (f, id) List.mem_cons_self
    -- the first frame is written to its block and marked clean
    obtain ⟨v, hwrite, hv, hcount, hreads⟩ := write_spec (c.frames f).buf hvalid hold
    have hother : ∀ d ∈ dirty, d.2 ≠ id := fun d hd heq =>
      hids.1 (mem_map.mpr ⟨d, hd, heq⟩)
    have hreads' : ∀ d ∈ dirty, ∃ b, read ({ c with block := v }.modify f
        (fun fr => { fr with dirty := false })).block d.2 = .ok b := fun d hd => by
      obtain ⟨b, hb⟩ := hread d (List.mem_cons_of_mem _ hd)
      exact ⟨b, by rw [modify_block, hreads, if_neg (hother d hd), hb]⟩
    obtain ⟨c', hrun, htable, hfree, hpolicy, hjournal, hvalid', hcount', hframes', hwritten,
      hkept⟩ :=
      ih (c := { c with block := v }.modify f (fun fr => { fr with dirty := false })) hv
        hframes.2 hids.2 hreads'
    refine ⟨c', by rw [writeBack, hwrite]; exact hrun, htable, hfree, hpolicy, hjournal, hvalid',
      hcount'.trans hcount, fun g => ?_, fun d hd => ?_, fun j hj => ?_⟩
    · rw [hframes', modify_frames]
      by_cases hg : g = f
      · subst hg
        simp [hframes.1]
      · rw [if_neg hg]
        simp only [map_cons, mem_cons, hg, false_or]
    · rcases mem_cons.mp hd with rfl | hmem
      · rw [hkept id hids.1, modify_block, hreads, if_pos rfl]
      · have hne : d.1 ≠ f := fun heq => hframes.1 (mem_map.mpr ⟨d, hmem, heq⟩)
        rw [hwritten d hmem, modify_frames, if_neg hne]
    · rw [map_cons, mem_cons, not_or] at hj
      rw [hkept j hj.2, modify_block, hreads, if_neg hj.1]

theorem Inner.truncate_foldl_append {j : Journal} (h : j.file = Journal.header)
    (ops : List JournalOp) :
    (ops.foldl (Journal.append hash pageOpCodec) j).truncate.file = Journal.header := by
  rw [← Journal.contents_nil hash pageOpCodec] at h ⊢
  exact Journal.truncate_contents (Journal.foldl_append_contents h ops)

theorem Inner.Contents.flushed (h : Contents crc c pages) (hf : FlushedTo crc c c') :
    Contents crc c' pages := by
  -- a page is written, or its block is as it was
  have hcases : ∀ id, (∃ f, (c.frames f).dirty = true ∧ (c.frames f).pageId = some id) ∨
      ∀ f, (c.frames f).pageId = some id → (c.frames f).dirty = false := fun id => by
    by_cases hdirty : ∃ f, (c.frames f).dirty = true ∧ (c.frames f).pageId = some id
    · exact Or.inl hdirty
    · exact Or.inr (fun f hid => Bool.eq_false_iff.mpr (fun hd => hdirty ⟨f, hd, hid⟩))
  refine ⟨hf.valid, fun f hid => ?_, fun f id hid => ?_, fun id b hb => ?_,
    fun id b hb hmarks => ?_,
    fun id b hb => ?_, fun id hid hnone => ?_⟩
  · rw [hf.frames, Frame.flushed_pageId] at hid
    rw [hf.frames, Frame.flushed_dirty, h.idle f hid, Bool.false_and]
  · rw [hf.frames, Frame.flushed_pageId] at hid
    obtain ⟨b, hb, hagrees⟩ := h.resident f id hid
    rw [hf.frames]
    exact ⟨b, hb, (Frame.flushed_agrees _).trans hagrees⟩
  · rcases hcases id with ⟨f, hd, hid⟩ | hclean
    · exact ⟨_, hf.written f id hd hid⟩
    · rw [hf.kept id (h.live id b hb).1 hclean]
      exact h.readable id b hb
  · rcases hcases id with ⟨f, hd, hid⟩ | hclean
    · obtain ⟨b', hb', hagrees⟩ := h.resident f id hid
      obtain rfl : b' = b := Option.some.inj (hb'.symm.trans hb)
      exact ⟨_, stored_eq_some.mpr ⟨hf.written f id hd hid, verifies_finalizeChecksum _⟩,
        (finalizeChecksum_agrees _).trans hagrees⟩
    · rw [stored_congr (hf.kept id (h.live id b hb).1 hclean)]
      refine h.clean id b hb (fun f hid => ⟨hclean f hid, ?_⟩)
      have hmark := (hmarks f (by rw [hf.frames, Frame.flushed_pageId, hid])).2
      rwa [hf.frames, Frame.flushed_writer] at hmark
  · rw [hf.calm.blockCount]
    exact h.live id b hb
  · rw [stored_congr (hf.kept id hid (fun f hpage => ?_))]
    · exact h.others id hid hnone
    · obtain ⟨b, hb, -⟩ := h.resident f id hpage
      rw [hnone] at hb
      cases hb

theorem Inner.FlushedTo.of_clean (hc : Contents crc c pages) (hempty : c.dirtyFrames = []) :
    FlushedTo crc c c := by
  have hclean : ∀ f, ¬ ((c.frames f).dirty = true ∧ (c.frames f).pageId ≠ none) := fun f h => by
    have hmem := mem_map_dirtyFrames.mpr h
    rw [hempty] at hmem
    cases hmem
  refine ⟨rfl, rfl, rfl, fun f => ?_, hc.valid, .of_eq rfl rfl, fun f id hd hid => ?_,
    fun _ _ _ => rfl⟩
  · rw [Frame.flushed, if_neg (hclean f)]
  · exact absurd ⟨hd, by simp [hid]⟩ (hclean f)

variable [EvictionPolicy P (Fin n)] [LawfulPolicy P] {held : Option (Fin n)}

theorem Inner.flush_ok (hash : Bytes → UInt32) (hp : Placed held c) (hc : Contents crc c pages) :
    ∃ c', c.flush crc hash = (.ok (), c') ∧ FlushedTo crc c c' := by
  by_cases hempty : c.dirtyFrames = []
  · exact ⟨c, by rw [flush, hempty]; rfl, .of_clean hc hempty⟩
  -- no two frames hold one page
  have hids : (c.dirtyFrames.map Prod.snd).Nodup := by
    refine List.Nodup.map_on (fun d hd d' hd' heq => ?_) nodup_dirtyFrames.of_map
    have hd := (mem_dirtyFrames.mp hd).2
    have hd' := (mem_dirtyFrames.mp hd').2
    exact Prod.ext (hp.frame_inj hd (heq ▸ hd')) heq
  have hread : ∀ d ∈ c.dirtyFrames, ∃ b,
      read (c.commit crc hash c.dirtyFrames).block d.2 = .ok b := fun d hd => by
    obtain ⟨b, hb, -⟩ := hc.resident d.1 d.2 (mem_dirtyFrames.mp hd).2
    rw [commit_block]
    exact hc.readable d.2 b hb
  obtain ⟨c₁, hrun, htable, hfree, hpolicy, hjournal, hvalid₁, hcount₁, hframes, hwritten, hkept⟩ :=
    writeBack_ok (c := c.commit crc hash c.dirtyFrames) (by rw [commit_block]; exact hc.valid)
      nodup_dirtyFrames hids hread
  obtain ⟨v, hsync, hvalid, hcount, hreads⟩ := sync_spec hvalid₁
  -- the journal is cut only after the blocks are synced
  refine ⟨{ c₁ with block := v, journal := c₁.journal.map Journal.truncate }, ?_,
    htable.trans (commit_table _), hfree.trans (commit_free _), hpolicy.trans (commit_policy _),
    fun f => ?_, hvalid, ⟨?_, Or.inr ⟨c₁.block, hsync⟩, fun hheader j hj => ?_, ?_⟩,
    fun f id hd hid => ?_, fun id hid hclean => ?_⟩
  · rw [flush, if_neg (by simpa using hempty), hrun]
    simp only [hsync]
  · show c₁.frames f = _
    rw [hframes, commit_frames]
    unfold Frame.flushed
    by_cases hdirty : f ∈ c.dirtyFrames.map Prod.fst
    · rw [if_pos hdirty, if_pos hdirty, if_pos (mem_map_dirtyFrames.mp hdirty)]
    · rw [if_neg hdirty, if_neg hdirty, if_neg (fun h => hdirty (mem_map_dirtyFrames.mpr h))]
  · show blockCount v = _
    rw [hcount, hcount₁, commit_block]
  · obtain ⟨j₁, hj₁, rfl⟩ := Option.map_eq_some_iff.mp hj
    rw [hjournal] at hj₁
    obtain ⟨j₀, hj₀, rfl⟩ := Option.map_eq_some_iff.mp hj₁
    exact truncate_foldl_append (hheader j₀ hj₀) _
  · rw [Option.isSome_map, hjournal]
    exact Option.isSome_map
  · have hmem : (f, id) ∈ c.dirtyFrames := mem_dirtyFrames.mpr ⟨hd, hid⟩
    obtain ⟨b, hb, -⟩ := hc.resident f id hid
    rw [hreads id (hc.live id b hb).1, hwritten _ hmem, commit_frames,
      if_pos (List.mem_map_of_mem hmem)]
  · rw [hreads id hid, hkept, commit_block]
    intro hmem
    obtain ⟨d, hd, rfl⟩ := mem_map.mp hmem
    have hd := mem_dirtyFrames.mp hd
    rw [hclean d.1 hd.2] at hd
    cases hd.1

/-! ### The invariant -/

/-- **The invariant** between a cache, its open handles and the pages it stands for. -/
structure Inner.Inv (crc : Crc32c) (held : Option (Fin n)) (c : Inner V P n) (hs : List (Handle n))
    (pages : Nat → Option Block) : Prop where
  placed : Placed held c
  pins : Pins c hs
  contents : Contents crc c pages

variable {hs : List (Handle n)}

theorem Inner.Inv.flushed (h : Inv crc held c hs pages) (hf : FlushedTo crc c c') :
    Inv crc held c' hs pages where
  placed := h.placed.congr (fun f => by rw [hf.frames, Frame.flushed_pageId]) hf.table hf.free
    (fun f => by rw [hf.policy])
  pins := h.pins.congr (fun f => by rw [hf.frames, Frame.flushed_readers])
    (fun f => by rw [hf.frames, Frame.flushed_writer])
    (fun k _ => by rw [hf.frames, Frame.flushed_pageId])
  contents := h.contents.flushed hf

theorem Inner.inv_build {v : V} {p : P} {journal : Option Journal} (hvalid : Valid v)
    (hpages : ∀ id b, stored crc v id = some b → id ≠ 0 → id < blockCount v)
    (hpolicy : ∀ f, ¬ Tracked p f) :
    Inv crc none (build v p journal : Inner V P n) []
      (fun id => if id = 0 then none else stored crc v id) where
  placed := by
    refine ⟨fun id f => ?_, fun f => ?_, List.nodup_finRange n, nofun, fun f => ?_⟩
    · simp [build]
    · simp [build]
    · simpa [build] using hpolicy f
  pins := ⟨fun f => rfl, fun f => rfl, nofun, nofun⟩
  contents := by
    refine ⟨hvalid, fun f _ => rfl, nofun, fun id b hb => ?_, fun id b hb _ => ?_,
      fun id b hb => ?_,
      fun id hid hnone => by rwa [if_neg hid] at hnone⟩ <;> split_ifs at hb with hid
    · exact ⟨b, (stored_eq_some.mp hb).1⟩
    · exact ⟨b, hb, Block.Agrees.refl b⟩
    · exact ⟨hid, hpages id b hb hid⟩

end Flushing

end StrataDb.Filesystem
