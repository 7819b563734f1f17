import StrataDb.PageCacheInvariant

/-!
# What the operations of the page cache do to its invariant

Each keeps `Inv`, or fails: with `Busy`, with `PoolExhausted`, or for an id that names no page.
-/

namespace StrataDb.Filesystem.Inner

open ByteCodec BlockStore LawfulBlockStore LawfulPolicy

variable {V P : Type} {n : Nat} [BlockStore V] [LawfulBlockStore V]
variable [EvictionPolicy P (Fin n)] [LawfulPolicy P] {crc : Crc32c} {hash : Bytes → UInt32}
variable {c c' : Inner V P n} {hs : List (Handle n)} {pages : Nat → Option Block}
variable {f : Fin n} {id : Nat}

/-! ### Finding a frame -/

theorem Inv.pickEvictable {held : Option (Fin n)} (h : Inv crc held c hs pages) (cleanOnly : Bool) :
    Inv crc held (c.pickEvictable cleanOnly).2 hs pages where
  placed := h.placed.congr (fun _ => rfl) rfl rfl (fun f => tracked_evictCandidate _ _ f)
  pins := h.pins.congr (fun _ => rfl) (fun _ => rfl) (fun _ _ => rfl)
  contents := h.contents.congr rfl (fun _ => rfl) (fun _ _ => rfl) h.contents.idle
    (fun _ hdirty hwriter => ⟨hdirty, hwriter⟩)

theorem Inv.pickEvictable_some {held : Option (Fin n)} {cleanOnly : Bool}
    (h : Inv crc held c hs pages) (hpick : (c.pickEvictable cleanOnly).1 = some f) :
    (∃ id, (c.frames f).pageId = some id) ∧ (c.frames f).unpinned = true ∧
      (cleanOnly = true → (c.frames f).dirty = false) := by
  obtain ⟨htracked, hevict⟩ := evictCandidate_some _ _ _ hpick
  rw [Bool.and_eq_true, Bool.or_eq_true] at hevict
  refine ⟨Option.ne_none_iff_exists'.mp ((h.placed.tracked f).mp htracked), hevict.1, ?_⟩
  rintro rfl
  simpa using hevict.2

theorem Inv.pickEvictable_none {held : Option (Fin n)} {cleanOnly : Bool}
    (h : Inv crc held c hs pages) (hpick : (c.pickEvictable cleanOnly).1 = none)
    (hid : (c.frames f).pageId ≠ none) :
    (c.frames f).unpinned = false ∨ (cleanOnly = true ∧ (c.frames f).dirty = true) := by
  have hevict := evictCandidate_none _ _ hpick f ((h.placed.tracked f).mpr hid)
  rcases Bool.and_eq_false_iff.mp hevict with hpin | hdirty
  · exact Or.inl hpin
  · exact Or.inr (by simpa using hdirty)

theorem Inv.reclaim (h : Inv crc none c hs pages) (hid : (c.frames f).pageId = some id)
    (hpin : (c.frames f).unpinned = true) (hdirty : (c.frames f).dirty = false) :
    Inv crc (some f) (c.reclaim f) hs pages := by
  have hcounts : (c.frames f).readers = 0 ∧ (c.frames f).writer = false := by
    simpa [Frame.unpinned] using hpin
  have hnone := h.pins.unpinned_iff.mp hpin
  refine ⟨h.placed.reclaim hid, h.pins.congr (fun g => ?_) (fun g => ?_) (fun k hk => ?_),
    h.contents.reclaim hdirty hcounts.2⟩ <;> rw [reclaim_frames]
  · split_ifs with hg
    · rw [hg, hcounts.1]
    · rfl
  · split_ifs with hg
    · rw [hg, hcounts.2]
    · rfl
  · rw [if_neg (hnone k hk)]

structure Found (crc : Crc32c) (c c' : Inner V P n) (hs : List (Handle n))
    (pages : Nat → Option Block) (f : Fin n) : Prop where
  inv : Inv crc (some f) c' hs pages
  table : ∀ id, c.table id = none → c'.table id = none
  unused : ∀ id, id ≠ 0 → pages id = none → read c'.block id = read c.block id
  calm : Calm c c'

/-- **A frame is found, or a handle is open on every one.** -/
theorem Inv.victimFrame (hash : Bytes → UInt32) (h : Inv crc none c hs pages) :
    (∃ f c', c.victimFrame crc hash = (.ok f, c') ∧ Found crc c c' hs pages f) ∨
    (∃ c', c.victimFrame crc hash = (.error (.poolExhausted n), c') ∧ Inv crc none c' hs pages ∧
      Calm c c' ∧ ∀ f, ∃ k ∈ hs, k.frame = f) := by
  cases hfree : c.free with
  | cons f rest =>
    refine Or.inl ⟨f, { c with free := rest }, by rw [Inner.victimFrame, hfree],
      ⟨h.placed.pop hfree, h.pins.congr (fun _ => rfl) (fun _ => rfl) (fun _ _ => rfl),
        h.contents.congr rfl (fun _ => rfl) (fun _ _ => rfl) h.contents.idle
          (fun _ hdirty hwriter => ⟨hdirty, hwriter⟩)⟩, fun _ hid => hid, fun _ _ _ => rfl,
      .of_eq rfl rfl⟩
  | nil =>
    have hresident : ∀ f, (c.frames f).pageId ≠ none := fun f hid => by
      have hmem := (h.placed.free f).mpr ⟨hid, nofun⟩
      rw [hfree] at hmem
      cases hmem
    have h₁ := h.pickEvictable true
    cases hpick : (c.pickEvictable true).1 with
    | some f =>
      obtain ⟨⟨id, hid⟩, hpin, hdirty⟩ := h.pickEvictable_some hpick
      refine Or.inl ⟨f, (c.pickEvictable true).2.reclaim f, ?_,
        h₁.reclaim hid hpin (hdirty rfl), fun _ => reclaim_table, fun _ _ _ => rfl, .of_eq rfl rfl⟩
      rw [Inner.victimFrame, hfree, ← Prod.eta (c.pickEvictable true), hpick]
    | none =>
      by_cases hany : (List.finRange n).any
          (fun f => ((c.pickEvictable true).2.frames f).unpinned &&
            ((c.pickEvictable true).2.frames f).dirty) = true
      · -- a flush makes the dirty unpinned frame a victim
        obtain ⟨c₂, hflush, hflushed⟩ := flush_ok hash h₁.placed h₁.contents
        have h₂ := h₁.flushed hflushed
        have hcalm : Calm c (c₂.pickEvictable false).2 :=
          have hpicked : Calm c (c.pickEvictable true).2 := .of_eq rfl rfl
          (hpicked.trans hflushed.calm).trans (.of_eq rfl rfl)
        cases hpick₂ : (c₂.pickEvictable false).1 with
        | some f =>
          obtain ⟨⟨id, hid⟩, hpin, -⟩ := h₂.pickEvictable_some hpick₂
          have hdirty : (c₂.frames f).dirty = false := by
            rw [hflushed.frames] at hid ⊢
            rw [Frame.flushed_pageId] at hid
            rw [Frame.flushed_dirty, hid, Option.isNone_some, Bool.and_false]
          refine Or.inl ⟨f, (c₂.pickEvictable false).2.reclaim f, ?_,
            (h₂.pickEvictable false).reclaim hid hpin hdirty,
            fun _ hid => reclaim_table (by show c₂.table _ = none; rw [hflushed.table]; exact hid),
            fun id hid hnone => hflushed.kept id hid (fun g hg => ?_), hcalm.trans (.of_eq rfl rfl)⟩
          · rw [Inner.victimFrame, hfree, ← Prod.eta (c.pickEvictable true), hpick]
            simp only [hany, if_true]
            generalize Inner.flush crc hash (c.pickEvictable true).2 = flushed at hflush
            subst hflush
            dsimp only
            rw [← Prod.eta (c₂.pickEvictable false), hpick₂]
          · obtain ⟨b, hb, -⟩ := h₁.contents.resident g id hg
            rw [hnone] at hb
            cases hb
        | none =>
          obtain ⟨f, -, hf⟩ := List.any_eq_true.mp hany
          rw [Bool.and_eq_true] at hf
          have hpin := h₂.pickEvictable_none hpick₂ (f := f)
            (by rw [hflushed.frames, Frame.flushed_pageId]; exact hresident f)
          rw [hflushed.frames] at hpin
          have hunpinned : (((c.pickEvictable true).2.frames f).flushed crc).unpinned = true := by
            rw [Frame.unpinned, Frame.flushed_readers, Frame.flushed_writer]
            exact hf.1
          rw [hunpinned] at hpin
          simp at hpin
      · refine Or.inr ⟨(c.pickEvictable true).2, ?_, h₁, .of_eq rfl rfl, fun f => ?_⟩
        · rw [Inner.victimFrame, hfree, ← Prod.eta (c.pickEvictable true), hpick]
          simp only [if_neg hany]
        · -- an unpinned frame would be clean and a victim, or dirty and found
          by_contra hno
          have hpin : (c.frames f).unpinned = true :=
            h.pins.unpinned_iff.mpr (fun k hk heq => hno ⟨k, hk, heq⟩)
          rcases h.pickEvictable_none hpick (hresident f) with hpinned | ⟨-, hdirty⟩
          · rw [hpin] at hpinned
            cases hpinned
          · exact hany (List.any_eq_true.mpr ⟨f, List.mem_finRange f, by
              rw [Bool.and_eq_true]; exact ⟨hpin, hdirty⟩⟩)

/-! ### Taking and dropping handles -/

theorem Inv.same_page {held : Option (Fin n)} (h : Inv crc held c hs pages)
    (hid : (c.frames f).pageId = some id) : ∀ k ∈ hs, k.frame = f → k.pageId = id := by
  rintro k hk rfl
  exact Option.some.inj ((h.pins.handle k hk).symm.trans hid)

theorem Inv.hit (h : Inv crc none c hs pages) (write : Bool) (hid : (c.frames f).pageId = some id)
    (hwriter : (c.frames f).writer = false) (hreaders : write = true → (c.frames f).readers = 0)
    {pin : Frame → Frame} (hpage : (pin (c.frames f)).pageId = (c.frames f).pageId)
    (hbuf : (pin (c.frames f)).buf = (c.frames f).buf)
    (hdirty : (pin (c.frames f)).dirty = (c.frames f).dirty)
    (hr : (pin (c.frames f)).readers = (c.frames f).readers + if write then 0 else 1)
    (hw : (pin (c.frames f)).writer = write) :
    Inv crc none ({ c with policy := recordAccess c.policy f }.modify f pin)
      (⟨write, f, id⟩ :: hs) pages := by
  refine ⟨h.placed.congr (modify_field Frame.pageId hpage) rfl rfl (fun g => ?_),
    h.pins.insert (fun g hg => ?_) ?_ (h.same_page hid) ?_ ?_ hwriter hreaders,
    h.contents.congr rfl (modify_field Frame.pageId hpage)
      (fun g _ => modify_field Frame.buf hbuf g) (fun g hg => ?_) (fun g hclean hno => ?_)⟩
  · rw [modify_policy, tracked_recordAccess]
    refine ⟨fun ht => ht.elim (fun heq => ?_) (fun ht => ht), Or.inr⟩
    exact heq ▸ (h.placed.tracked f).mpr (by simp [hid])
  · rw [modify_frames, if_neg hg]
  · rw [modify_frames_self]
    exact hpage.trans hid
  · rw [modify_frames_self]
    exact hr
  · rw [modify_frames_self]
    exact hw
  · exact (modify_field Frame.dirty hdirty g).trans (h.contents.idle g hg)
  · refine ⟨(modify_field Frame.dirty hdirty g).symm.trans hclean, ?_⟩
    by_cases hg : g = f
    · exact hg ▸ hwriter
    · rwa [modify_frames, if_neg hg] at hno

theorem Inv.enter (h : Inv crc (some f) c hs pages) (htable : c.table id = none)
    (hlive : id ≠ 0 ∧ id < blockCount c.block) (hread : ∃ b', read c.block id = .ok b')
    {write : Bool} {change : Frame → Frame} (hpage : ∀ fr, (change fr).pageId = fr.pageId)
    (hreaders : ∀ fr, fr.readers = 0 → (change fr).readers = if write then 0 else 1)
    (hwriter : ∀ fr, fr.writer = false → (change fr).writer = write) {b : Block}
    (hbuf : (change { c.frames f with pageId := some id }).buf.Agrees b)
    (hclean : (change { c.frames f with pageId := some id }).dirty = false →
      ∃ s, stored crc c.block id = some s ∧ s.Agrees b) :
    Inv crc none (c.enter f id change) (⟨write, f, id⟩ :: hs)
      (Function.update pages id (some b)) := by
  have hidle := h.placed.held f rfl
  have hnone := h.pins.no_handle hidle
  have hcounts : (c.frames f).readers = 0 ∧ (c.frames f).writer = false := by
    simpa [Frame.unpinned] using h.pins.unpinned_iff.mpr hnone
  refine ⟨h.placed.enter htable hpage, h.pins.insert (fun g hg => ?_) ?_ ?_ ?_ ?_ hcounts.2
    (fun _ => hcounts.1), h.contents.enter hidle (h.placed.pageId_ne htable) hlive hread hpage hbuf
    hclean⟩
  · rw [enter_frames, if_neg hg]
  · rw [enter_frames, if_pos rfl, hpage]
  · intro k hk heq
    exact absurd heq (hnone k hk)
  · rw [enter_frames, if_pos rfl, hcounts.1, Nat.zero_add]
    exact hreaders _ hcounts.1
  · rw [enter_frames, if_pos rfl]
    exact hwriter _ hcounts.2

theorem Inv.load (h : Inv crc (some f) c hs pages) (b : Block) :
    Inv crc (some f) (c.modify f (fun fr => { fr with buf := b })) hs pages := by
  refine ⟨h.placed.congr (modify_field Frame.pageId rfl) rfl rfl (fun _ => Iff.rfl),
    h.pins.congr (modify_field Frame.readers rfl) (modify_field Frame.writer rfl)
      (fun k _ => modify_field Frame.pageId rfl k.frame),
    h.contents.congr rfl (modify_field Frame.pageId rfl) (fun g hg => ?_) (fun g hg => ?_)
      (fun g hd hw => ?_)⟩
  · have hgf : g ≠ f := fun heq => hg (heq ▸ h.placed.held f rfl)
    rw [modify_frames, if_neg hgf]
  · rw [modify_field Frame.dirty rfl]
    exact h.contents.idle g hg
  · rw [modify_field Frame.dirty rfl] at hd
    rw [modify_field Frame.writer rfl] at hw
    exact ⟨hd, hw⟩

theorem Inv.push (h : Inv crc (some f) c hs pages) (b : Block) :
    Inv crc none { c.modify f (fun fr => { fr with buf := b }) with free := f :: c.free } hs
      pages := by
  have hloaded := h.load b
  exact ⟨hloaded.placed.push, hloaded.pins.congr (fun _ => rfl) (fun _ => rfl) (fun _ _ => rfl),
    hloaded.contents.congr rfl (fun _ => rfl) (fun _ _ => rfl) hloaded.contents.idle
      (fun _ hdirty hwriter => ⟨hdirty, hwriter⟩)⟩

/-- How `acquire_read` or `acquire_write` of `id` ends.  It fails with `Busy` when a
    conflicting handle is open, with `PoolExhausted` when every frame has one, and
    otherwise only when `id` is no page. -/
inductive Acquired (crc : Crc32c) (c : Inner V P n) (hs : List (Handle n))
    (pages : Nat → Option Block) (write : Bool) (id : Nat) :
    Except FsError (Fin n) × Inner V P n → Prop
  | ok {f : Fin n} {c' : Inner V P n} (inv : Inv crc none c' (⟨write, f, id⟩ :: hs) pages)
      (calm : Calm c c') : Acquired crc c hs pages write id (.ok f, c')
  | busy {k : Handle n} (mem : k ∈ hs) (page : k.pageId = id) (conflict : k.write = true
    ∨ write = true) :
      Acquired crc c hs pages write id (.error (.busy id), c)
  | exhausted {c' : Inner V P n} (inv : Inv crc none c' hs pages) (calm : Calm c c')
      (pinned : ∀ f, ∃ k ∈ hs, k.frame = f) :
      Acquired crc c hs pages write id (.error (.poolExhausted n), c')
  | absent {c' : Inner V P n} {e : FsError} (inv : Inv crc none c' hs pages) (calm : Calm c c')
      (page : pages id = none) : Acquired crc c hs pages write id (.error e, c')

theorem Inv.fetch (h : Inv crc none c hs pages) (hid : id ≠ 0) (htable : c.table id = none)
    {write : Bool} {pin : Frame → Frame} (hpage : ∀ fr, (pin fr).pageId = fr.pageId)
    (hbuf : ∀ fr, (pin fr).buf = fr.buf)
    (hreaders : ∀ fr, fr.readers = 0 → (pin fr).readers = if write then 0 else 1)
    (hwriter : ∀ fr, fr.writer = false → (pin fr).writer = write) :
    Acquired crc c hs pages write id (c.fetch crc hash id pin) := by
  unfold Inner.fetch
  rcases h.victimFrame hash with ⟨f, c₁, hvictim, hfound⟩ | ⟨c₁, hvictim, hinv, hcalm, hpinned⟩
  · rw [hvictim]
    have htable₁ := hfound.table id htable
    cases hpages : pages id with
    | some b =>
      -- the page is nowhere in the pool, so the store has it
      obtain ⟨s, hs', hagrees⟩ := hfound.inv.contents.clean id b hpages
        (fun g hg => absurd hg (hfound.inv.placed.pageId_ne htable₁ g))
      obtain ⟨hread, hverifies⟩ := stored_eq_some.mp hs'
      have hload : c₁.load crc f id =
          (.ok (), c₁.modify f (fun fr => { fr with buf := s })) := by
        rw [Inner.load, hread]
        simp only [verifyChecksum_eq_ok.mpr hverifies]
      simp only [hload]
      have hentered := (hfound.inv.load s).enter htable₁ (hfound.inv.contents.live id b hpages)
        ⟨s, hread⟩ hpage hreaders hwriter (b := b)
        (by rw [hbuf, modify_frames_self]; exact hagrees) (fun _ => ⟨s, hs', hagrees⟩)
      rw [Function.update_eq_self_iff.mpr hpages.symm] at hentered
      exact .ok hentered (hfound.calm.trans (.of_eq rfl rfl))
    | none =>
      have hnone := hfound.inv.contents.others id hid hpages
      cases hread : read c₁.block id with
      | error e =>
        simp only [Inner.load, hread]
        refine .absent ?_ (hfound.calm.trans (.of_eq rfl rfl)) hpages
        have hpushed := hfound.inv.push (c₁.frames f).buf
        rwa [Inner.modify, Function.update_eq_self_iff.mpr rfl] at hpushed
      | ok s =>
        have hbad : ¬ Verifies crc s := fun hv => by
          rw [stored_eq_some.mpr ⟨hread, hv⟩] at hnone
          cases hnone
        simp only [Inner.load, hread, verifyChecksum_error hbad]
        exact .absent (hfound.inv.push s) (hfound.calm.trans (.of_eq rfl rfl)) hpages
  · rw [hvictim]
    exact .exhausted hinv hcalm hpinned

theorem Inv.acquireRead (h : Inv crc none c hs pages) (hid : id ≠ 0) :
    Acquired crc c hs pages false id (c.acquireRead crc hash id) := by
  unfold Inner.acquireRead
  cases htable : c.table id with
  | none =>
    exact h.fetch hid htable (fun _ => rfl) (fun _ => rfl) (fun _ _ => rfl) (fun _ hw => hw)
  | some f =>
    have hpage := (h.placed.table id f).mp htable
    by_cases hwriter : (c.frames f).writer = true
    · obtain ⟨k, hk, rfl, hkw⟩ := h.pins.writer_iff.mp hwriter
      simp only [hwriter, if_true]
      exact .busy hk (h.same_page hpage k hk rfl) (Or.inl hkw)
    · have hfalse := Bool.eq_false_iff.mpr hwriter
      simp only [hfalse, Bool.false_eq_true, if_false]
      exact .ok (h.hit false hpage hfalse nofun rfl rfl rfl rfl hfalse) (.of_eq rfl rfl)

theorem Inv.acquireWrite (h : Inv crc none c hs pages) (hid : id ≠ 0) :
    Acquired crc c hs pages true id (c.acquireWrite crc hash id) := by
  unfold Inner.acquireWrite
  cases htable : c.table id with
  | none =>
    exact h.fetch hid htable (fun _ => rfl) (fun _ => rfl) (fun _ hr => hr) (fun _ _ => rfl)
  | some f =>
    have hpage := (h.placed.table id f).mp htable
    by_cases hheld : ((c.frames f).writer || decide (0 < (c.frames f).readers)) = true
    · obtain ⟨k, hk, hkf⟩ : ∃ k ∈ hs, k.frame = f := by
        rcases Bool.or_eq_true_iff.mp hheld with hw | hr
        · obtain ⟨k, hk, hkf, -⟩ := h.pins.writer_iff.mp hw
          exact ⟨k, hk, hkf⟩
        · obtain ⟨k, hk, hkf, -⟩ := h.pins.readers_pos_iff.mp (of_decide_eq_true hr)
          exact ⟨k, hk, hkf⟩
      simp only [hheld, if_true]
      exact .busy hk (h.same_page hpage k hk hkf) (Or.inr rfl)
    · simp only [if_neg hheld]
      rw [Bool.or_eq_true, not_or, decide_eq_true_eq, Nat.not_lt, Nat.le_zero] at hheld
      exact .ok (h.hit true hpage (Bool.eq_false_iff.mpr hheld.1) (fun _ => hheld.2) rfl rfl
        rfl rfl rfl) (.of_eq rfl rfl)

/-- How `allocate` ends: with a new id, or because every frame has a handle. -/
inductive Allocated (crc : Crc32c) (c : Inner V P n) (hs : List (Handle n))
    (pages : Nat → Option Block) : Except FsError (Nat × Fin n) × Inner V P n → Prop
  | ok {id : Nat} {f : Fin n} {c' : Inner V P n} {v : V}
      (issued : BlockStore.allocate c.block = .ok (id, v)) (calm : Calm { c with block := v } c')
      (new : pages id = none)
      (inv : Inv crc none c' (⟨true, f, id⟩ :: hs) (Function.update pages id (some Block.zeroed))) :
      Allocated crc c hs pages (.ok (id, f), c')
  | exhausted {id : Nat} {c' : Inner V P n} {v : V}
      (issued : BlockStore.allocate c.block = .ok (id, v)) (calm : Calm { c with block := v } c')
      (inv : Inv crc none c' hs pages) (pinned : ∀ f, ∃ k ∈ hs, k.frame = f) :
      Allocated crc c hs pages (.error (.poolExhausted n), c')

theorem Inv.allocate (hash : Bytes → UInt32) (h : Inv crc none c hs pages)
    (hzero : ¬ Verifies crc Block.zeroed) : Allocated crc c hs pages (c.allocate crc hash) := by
  obtain ⟨v, halloc, hvalid, hcount, hgrown, b', hread⟩ := allocate_spec h.contents.valid
  -- the block after the last one is no page yet
  have hnew : pages (blockCount c.block) = none := by
    by_contra hsome
    obtain ⟨b, hb⟩ := Option.ne_none_iff_exists'.mp hsome
    exact absurd (h.contents.live _ b hb).2 (Nat.lt_irrefl _)
  have h₁ : Inv crc none { c with block := v } hs pages :=
    ⟨h.placed.congr (fun _ => rfl) rfl rfl (fun _ => Iff.rfl),
      h.pins.congr (fun _ => rfl) (fun _ => rfl) (fun _ _ => rfl),
      h.contents.grow hzero hvalid (by rw [hcount]; exact Nat.le_succ _) hgrown⟩
  have htable : c.table (blockCount c.block) = none := by
    by_contra hsome
    obtain ⟨f, hf⟩ := Option.ne_none_iff_exists'.mp hsome
    obtain ⟨b, hb, -⟩ := h.contents.resident f _ ((h.placed.table _ f).mp hf)
    rw [hnew] at hb
    cases hb
  unfold Inner.allocate
  simp only [halloc]
  -- the store has the block already when no frame is found for it
  rcases h₁.victimFrame hash with ⟨f, c₁, hvictim, hfound⟩ | ⟨c₁, hvictim, hinv, hcalm, hpinned⟩
  · simp only [hvictim]
    have hpos : blockCount c.block ≠ 0 := (blockCount_pos h.contents.valid).ne'
    have hlt : blockCount c.block < blockCount c₁.block := by
      rw [hfound.calm.blockCount, hcount]
      exact Nat.lt_succ_self _
    refine .ok halloc (hfound.calm.trans (.of_eq rfl rfl)) hnew ?_
    apply hfound.inv.enter (hfound.table _ htable) ⟨hpos, hlt⟩
    · exact ⟨b', by rw [hfound.unused _ hpos hnew, hread]⟩
    · exact fun _ => rfl
    · exact fun _ hr => hr
    · exact fun _ _ => rfl
    · exact Block.Agrees.refl _
    · exact nofun
  · simp only [hvictim]
    exact .exhausted halloc hcalm hinv hpinned

theorem Inv.releaseRead (h : Inv crc none c (⟨false, f, id⟩ :: hs) pages) :
    Inv crc none (c.releaseRead f) hs pages := by
  refine ⟨h.placed.congr (modify_field Frame.pageId rfl) rfl rfl (fun _ => Iff.rfl),
    h.pins.erase (fun g hg => by rw [Inner.releaseRead, modify_frames, if_neg hg])
      (modify_field Frame.pageId rfl f) (by simp [Inner.releaseRead]) (by simp [Inner.releaseRead]),
    h.contents.congr rfl (modify_field Frame.pageId rfl) (fun g _ => modify_field Frame.buf rfl g)
      (fun g hg => ?_) (fun g hd hw => ?_)⟩
  · rw [Inner.releaseRead, modify_field Frame.dirty rfl]
    exact h.contents.idle g hg
  · rw [Inner.releaseRead, modify_field Frame.dirty rfl] at hd
    rw [Inner.releaseRead, modify_field Frame.writer rfl] at hw
    exact ⟨hd, hw⟩

theorem Inv.releaseWrite (h : Inv crc none c (⟨true, f, id⟩ :: hs) pages) :
    Inv crc none (c.releaseWrite f) hs pages := by
  have hid : (c.frames f).pageId = some id := h.pins.handle _ List.mem_cons_self
  refine ⟨h.placed.congr (modify_field Frame.pageId rfl) rfl rfl (fun _ => Iff.rfl),
    h.pins.erase (fun g hg => by rw [Inner.releaseWrite, modify_frames, if_neg hg])
      (modify_field Frame.pageId rfl f) (by simp [Inner.releaseWrite])
        (by simp [Inner.releaseWrite]),
    h.contents.congr rfl (modify_field Frame.pageId rfl) (fun g _ => modify_field Frame.buf rfl g)
      (fun g hg => ?_) (fun g hd hw => ?_)⟩
  · have hgf : g ≠ f := by
      rintro rfl
      rw [hid] at hg
      cases hg
    rw [Inner.releaseWrite, modify_frames, if_neg hgf]
    exact h.contents.idle g hg
  · by_cases hgf : g = f
    · rw [hgf, Inner.releaseWrite, modify_frames_self] at hd
      cases hd
    · rw [Inner.releaseWrite, modify_frames, if_neg hgf] at hd hw
      exact ⟨hd, hw⟩

theorem Inv.edit (h : Inv crc none c hs pages) {k : Handle n} (hk : k ∈ hs)
    (hwrite : k.write = true) (b : Block) :
    Inv crc none (c.modify k.frame (fun fr => { fr with buf := b })) hs
      (Function.update pages k.pageId (some b)) where
  placed := h.placed.congr (modify_field Frame.pageId rfl) rfl rfl (fun _ => Iff.rfl)
  pins := h.pins.congr (modify_field Frame.readers rfl) (modify_field Frame.writer rfl)
    (fun k _ => modify_field Frame.pageId rfl k.frame)
  contents := h.contents.edit (h.pins.handle k hk)
    (fun _ hg => h.placed.frame_inj hg (h.pins.handle k hk))
    (h.pins.writer_iff.mpr ⟨k, hk, rfl, hwrite⟩) b

end StrataDb.Filesystem.Inner
