import StrataDb.LsmCrash

/-!
# Files that no run has

Without a crash the table directory holds the files of live runs only (`NoOrphans`). A flush cut
between the first byte of its table and the last byte of its edit leaves a file under the next id,
which opening does not remove (`flush_crash_orphans`).
-/

namespace StrataDb.Lsm

open ByteCodec Runs
open Crc (crc32)

def Tidy (t : Lsm) : Prop := ∀ id, t.sstables id ≠ none ↔ id ∈ t.manifest.version.liveFiles

def NoOrphans (t : Lsm) : Prop := ∀ id, t.sstables id ≠ none → id ∈ t.manifest.version.liveFiles

def FlushStage.Uncommitted (crc : Bytes → UInt32) (t : Lsm) : FlushStage → Prop
  | .started => False
  | .table _ => True
  | .edit n => n
    < (Journal.writeFrame crc (flushEdit t.manifest.version.nextSstId t.seq).encode).length
  | .cleared => False

section Opening

variable {B : FastBloom} {crc : Bytes → UInt32} {disk : Disk} {config : LsmConfig}
  {mem : BTreeMemtable}
  {manifest : ManifestManager} {t : Lsm}

theorem sstables_of_open (hopen : withMemtable crc disk config mem = .ok t)
    (hm : ManifestManager.open crc disk.manifests = .ok manifest) :
    t.manifest.version = manifest.version ∧
      t.sstables = manifest.version.garbageCollect disk.sstables := by
  obtain ⟨manifest', journaled, hm', -, rfl⟩ := withMemtable_eq_ok.mp hopen
  obtain rfl := Except.ok.inj (hm'.symm.trans hm)
  exact ⟨rfl, rfl⟩

theorem tidy_of_open (hopen : withMemtable crc disk config mem = .ok t)
    (hm : ManifestManager.open crc disk.manifests = .ok manifest)
    (hpresent : ∀ id ∈ manifest.version.liveFiles, disk.sstables id ≠ none)
    (hlive : ∀ id, disk.sstables id ≠ none → id ∈ manifest.version.liveFiles) : Tidy t := by
  obtain ⟨hversion, hfiles⟩ := sstables_of_open hopen hm
  intro id
  rw [hversion, hfiles, Version.garbageCollect]
  constructor
  · intro hfile
    split_ifs at hfile
    · exact absurd rfl hfile
    · exact hlive id hfile
  · intro hid
    rw [if_neg fun hold => hold.2 hid]
    exact hpresent id hid

theorem not_tidy_of_open (hopen : withMemtable crc disk config mem = .ok t)
    (hm : ManifestManager.open crc disk.manifests = .ok manifest)
    (hfile : disk.sstables manifest.version.nextSstId ≠ none)
    (hids : ∀ id ∈ manifest.version.liveFiles, id < manifest.version.nextSstId) : ¬ Tidy t := by
  obtain ⟨hversion, hfiles⟩ := sstables_of_open hopen hm
  intro htidy
  have hkept : t.sstables manifest.version.nextSstId ≠ none := by
    rw [hfiles, Version.garbageCollect, if_neg fun hold => lt_irrefl _ hold.1]
    exact hfile
  have hlive := (htidy _).mp hkept
  rw [hversion] at hlive
  exact lt_irrefl _ (hids _ hlive)

end Opening

section System

variable {B : FastBloom} {crc : Bytes → UInt32} {ws : List Write} {lo : Nat} {refused : Bool}
  {t t' : Lsm}

theorem NoOrphans.congr (h : NoOrphans t) (hfiles : t'.sstables = t.sstables)
    (hversion : t'.manifest.version = t.manifest.version) : NoOrphans t' := by
  intro id hid
  rw [hversion]
  exact h id (hfiles ▸ hid)

theorem RunsCover.present {dir : SstDir} {runs : List RunDescriptor} {hi : Nat}
    (h : RunsCover B dir ws runs hi) : ∀ id ∈ runs.flatMap (·.files), dir id ≠ none := by
  intro id hid
  obtain ⟨entries, config, -, -, hfile⟩ := h.stored id hid
  rw [hfile]
  exact Option.some_ne_none _

/-- **A clean reopen** finds the files of live runs and nothing else. -/
theorem Inv.tidy_reopen (h : Inv B crc ws lo refused t) (hno : NoOrphans t) {config : LsmConfig}
    {mem : BTreeMemtable} (hopen : withMemtable crc t.disk config mem = .ok t') : Tidy t' := by
  obtain ⟨manifest, hm, -, hversion⟩ := h.manifest.reopen
  refine tidy_of_open hopen hm ?_ ?_
  · rw [hversion]
    exact h.runs.present
  · rw [hversion]
    exact hno

theorem NoOrphans.flush (h : NoOrphans t) (hflush : t.flush B crc = .ok t') : NoOrphans t' := by
  rcases flush_ok hflush with ⟨-, rfl⟩ | ⟨-, -, sstables, hwrite, rfl⟩
  · exact h
  · intro id hid
    change sstables id ≠ none at hid
    have hlive : id ∈ t.manifest.version.liveFiles ++ [t.manifest.version.nextSstId] := by
      rw [SstDir.write] at hwrite
      split_ifs at hwrite
      obtain rfl := Except.ok.inj hwrite
      by_cases heq : id = t.manifest.version.nextSstId
      · exact List.mem_append_right _ (List.mem_singleton.mpr heq)
      · refine List.mem_append_left _ (h id ?_)
        rwa [Function.update_of_ne heq] at hid
    simpa [ManifestManager.commit, apply_flushEdit, Version.liveFiles, flushedRun] using hlive

theorem NoOrphans.step {as : List Attempt} {a : Attempt} (hno : NoOrphans t)
    (hinv : AttemptInv B crc as t) (hstep : AttemptStep B crc t a t') : NoOrphans t' := by
  obtain ⟨lo, h⟩ := hinv
  cases hstep with
  | call hcall hsame =>
    obtain ⟨hstep, hfits⟩ := hcall
    cases hstep with
    | put hput =>
      obtain ⟨-, inner, -, rfl⟩ := write_ok hput
      exact hno
    | delete hdelete =>
      obtain ⟨-, inner, -, rfl⟩ := write_ok hdelete
      exact hno
    | flush hflush => exact hno.flush hflush
    | checkpoint hcheckpoint =>
      obtain ⟨manifest, hm, rfl⟩ := checkpoint_ok hcheckpoint
      exact hno.congr rfl (h.manifest.checkpoint hfits hm).2
    | reopen hopen => exact fun id => ((h.tidy_reopen hno hopen) id).mp
    | cached hcache => exact hno
  | refused hw hsmall =>
    obtain ⟨-, rfl⟩ := write_error hw
    exact hno

theorem noOrphans_of_run {config : LsmConfig} {capacity : Nat} {t₀ : Lsm} {as : List Attempt}
    (hlevels : 0 < config.numLevels % 2 ^ 32)
    (hopen : withMemtable crc {} config (.withCapacity capacity) = .ok t₀)
    (hrun : Run (AttemptStep B crc) t₀ as t) : AttemptInv B crc as t ∧ NoOrphans t := by
  have hfresh : NoOrphans t₀ := by
    obtain ⟨manifest, journaled, -, -, rfl⟩ := withMemtable_eq_ok.mp hopen
    intro id hid
    refine absurd ?_ hid
    show (if _ then none else none) = none
    split_ifs <;> rfl
  exact Run.history (P := fun as t => AttemptInv B crc as t ∧ NoOrphans t)
    ⟨⟨0, inv_create hlevels hopen⟩, hfresh⟩
      (fun _ _ _ _ h hstep => ⟨h.1.step hstep, h.2.step h.1 hstep⟩) hrun

/-- **Which crashes leave an orphan.**  After a crash inside a flush and a reopen the
    directory holds exactly the files of live runs, unless the crash came between the
    creation of the table file and the end of its edit in the manifest. -/
theorem flush_crash_orphans {config config' : LsmConfig} {capacity capacity' : Nat} {t₀ : Lsm}
    {as : List Attempt} (hlevels : 0 < config.numLevels % 2 ^ 32)
    (hopen : withMemtable crc {} config (.withCapacity capacity) = .ok t₀)
    (hrun : Run (AttemptStep B crc) t₀ as t) (hfits : LsmFits B t .flush) {stage : FlushStage}
    {disk : Disk} (hcrash : FlushCrash B crc t stage disk)
    (hreopen : withMemtable crc disk config' (.withCapacity capacity') = .ok t') :
    Tidy t' ↔ ¬ stage.Uncommitted crc t := by
  obtain ⟨⟨lo, hinv⟩, hno⟩ := noOrphans_of_run hlevels hopen hrun
  obtain ⟨m, hm, -, hversion⟩ := hinv.manifest.reopen
  -- with the version of before, a file under the next id is an orphan
  have horphan : ∀ file {m' : ManifestManager}, disk.sstables
        = Function.update t.sstables t.manifest.version.nextSstId (some file) →
      ManifestManager.open crc disk.manifests = .ok m' → m'.version = t.manifest.version →
        ¬ Tidy t' := by
    intro file m' hdisk hm' hold
    refine not_tidy_of_open hreopen hm' ?_ ?_
    · rw [hold, hdisk, Function.update_self]
      exact Option.some_ne_none _
    · rw [hold]
      exact hinv.ids
  cases hcrash with
  | started => exact iff_of_true (hinv.tidy_reopen hno hreopen) not_false
  | table n => exact iff_of_false (horphan _ rfl hm hversion) (not_not_intro trivial)
  | edit n hne hsize hid =>
    obtain ⟨m', hm', hcommit⟩ :=
      hinv.manifest.open_commitCrash (length_encode_flushEdit t.manifest.version.nextSstId t.seq) n
    rcases hcommit with ⟨hn, hold⟩ | ⟨hn, hnew⟩
    · exact iff_of_false (horphan _ rfl hm' hold) (not_not_intro hn)
    · refine iff_of_true (tidy_of_open hreopen hm' ?_ ?_) (not_lt.mpr hn)
      · obtain ⟨-, m'', hm'', hruns, -⟩ := hinv.crash hfits (by simp) (.edit n hne hsize hid)
        obtain rfl := Except.ok.inj (hm'.symm.trans hm'')
        exact hruns.present
      · intro id hfile
        rw [hnew, apply_flushEdit, Version.liveFiles, List.flatMap_append]
        by_cases heq : id = t.manifest.version.nextSstId
        · exact List.mem_append_right _ (by simp [flushedRun, heq])
        · refine List.mem_append_left _ (hno id ?_)
          rwa [← Function.update_of_ne heq (some (t.flushBytes B)) t.sstables]
  | @cleared t'' hflush =>
    obtain ⟨lo', hinv'⟩ := hinv.flush hfits hflush
    exact iff_of_true (hinv'.tidy_reopen (hno.flush hflush) hreopen) not_false

end System

/-! ### Two crashes -/

/-- A crash when the edit is on disk: nothing is left over. -/
theorem flush_crash_orphans_committed : ∃ t₀ t disk t' n,
    withMemtable crc32 {} smallPages (.withCapacity 16) = .ok t₀ ∧
    Run (AttemptStep FastBloom.full crc32) t₀ [.call (.put [1] [2])] t ∧
    FlushCrash FastBloom.full crc32 t (.edit n) disk ∧
    withMemtable crc32 disk smallPages (.withCapacity t.mem.inner.capacity) = .ok t' ∧ Tidy t' := by
  obtain ⟨t₀, t, h⟩ := exists_written
  obtain ⟨disk, hcrash⟩ := h.crash_edit
    (Journal.writeFrame crc32 (flushEdit t.manifest.version.nextSstId t.seq).encode).length
  obtain ⟨t', hreopen⟩ := h.reopen (by simp) hcrash
  exact ⟨t₀, t, disk, t', _, h.create, h.run, hcrash, hreopen,
    (flush_crash_orphans (by decide) h.create h.run h.fits hcrash hreopen).mpr (lt_irrefl _)⟩

/-- **Three bytes of the table reach the disk**, and the file stays when the tree is opened
    again. -/
theorem flush_crash_leaves_orphan : ∃ t₀ t disk t',
    withMemtable crc32 {} smallPages (.withCapacity 16) = .ok t₀ ∧
    Run (AttemptStep FastBloom.full crc32) t₀ [.call (.put [1] [2])] t ∧
    FlushCrash FastBloom.full crc32 t (.table 3) disk ∧
    withMemtable crc32 disk smallPages (.withCapacity t.mem.inner.capacity) = .ok t' ∧
    ∃ id, t'.sstables id ≠ none ∧ id ∉ t'.manifest.version.liveFiles := by
  obtain ⟨t₀, t, h⟩ := exists_written
  obtain ⟨disk, hcrash⟩ := h.crash_table 3
  obtain ⟨t', hreopen⟩ := h.reopen (by simp) hcrash
  obtain ⟨⟨lo, hinv⟩, -⟩ := noOrphans_of_run (by decide) h.create h.run
  obtain ⟨manifest, hm, -, hversion⟩ := hinv.manifest.reopen
  refine ⟨t₀, t, disk, t', h.create, h.run, hcrash, hreopen, t.manifest.version.nextSstId, ?_, ?_⟩
  · cases hcrash with
    | table =>
      rw [(sstables_of_open hreopen hm).2, Version.garbageCollect, hversion,
        if_neg fun hold => lt_irrefl _ hold.1]
      show Function.update t.sstables t.manifest.version.nextSstId _ _ ≠ none
      rw [Function.update_self]
      exact Option.some_ne_none _
  · cases hcrash with
    | table =>
      rw [(sstables_of_open hreopen hm).1, hversion]
      exact fun hlive => lt_irrefl _ (hinv.ids _ hlive)

end StrataDb.Lsm
