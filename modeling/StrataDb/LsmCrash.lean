import StrataDb.LsmRejected

/-!
# Crashes inside a flush

A crash leaves a prefix of the table file, or the whole table and a prefix of the manifest's
frame, or all of it with the journal truncated. They all read as the same map
(`flush_crash_safe`), as long as the journal can be replayed at all.
-/

namespace StrataDb.Lsm

open ByteCodec Runs
open Crc (crc32)
open FastBloom (full)

/-- How far a flush got: `n` bytes of the table file, `n` bytes of the manifest's
    frame, or the end. -/
inductive FlushStage where
  | started
  | table (n : Nat)
  | edit (n : Nat)
  | cleared
deriving DecidableEq, Repr

section System

variable (B : FastBloom) (crc : Bytes → UInt32)

def flushBytes (t : Lsm) : Bytes :=
  tableBytes B t.manifest.version.nextSstId t.config.flushTable t.mem.inner.entries

/-- The disk a crash inside a flush leaves. -/
inductive FlushCrash (t : Lsm) : FlushStage → Disk → Prop
  | started : FlushCrash t .started t.disk
  | table (n : Nat) (hne : t.mem.inner.entries ≠ []) (hsize : (t.flushBytes B).length ≤ ISIZE_MAX) :
      FlushCrash t (.table n)
        { t.disk with
          sstables := Function.update t.sstables t.manifest.version.nextSstId
            (some ((t.flushBytes B).take n)) }
  | edit (n : Nat) (hne : t.mem.inner.entries ≠ []) (hsize : (t.flushBytes B).length ≤ ISIZE_MAX)
      (hid : t.manifest.version.nextSstId ≠ U64_MAX) :
      FlushCrash t (.edit n)
        { t.disk with
          sstables := Function.update t.sstables t.manifest.version.nextSstId
            (some (t.flushBytes B))
          manifests := t.manifest.commitCrash crc (flushEdit t.manifest.version.nextSstId t.seq) n }
  | cleared {t' : Lsm} (h : t.flush B crc = .ok t') : FlushCrash t .cleared t'.disk

variable {B crc} {ws : List Write} {lo : Nat} {refused : Bool} {t : Lsm}

/-- What a crash in the middle of a flush leaves: the journal as it was, and a manifest
    whose runs, in the files on disk, cover the history up to their last write. -/
theorem Inv.crash (h : Inv B crc ws lo refused t) (hfits : LsmFits B t .flush) {stage : FlushStage}
    (hstage : stage ≠ .cleared) {disk : Disk} (hcrash : FlushCrash B crc t stage disk) :
    disk.journal = t.disk.journal ∧
      ∃ manifest, ManifestManager.open crc disk.manifests = .ok manifest ∧
        RunsCover B disk.sstables ws manifest.version.runs manifest.version.lastSeq.toNat ∧
        lo ≤ manifest.version.lastSeq.toNat := by
  -- a file under the next id is no business of the runs there are
  have hruns : ∀ file, RunsCover B (Function.update t.sstables t.manifest.version.nextSstId file) ws
      t.manifest.version.runs t.manifest.version.lastSeq.toNat := by
    intro file
    refine h.runs.congr ?_
    intro id hid
    rw [Function.update_of_ne (ne_of_lt (h.ids id hid))]
  obtain ⟨m, hopen, -, hversion⟩ := h.manifest.reopen
  cases hcrash with
  | started => exact ⟨rfl, m, hopen, hversion ▸ h.runs, hversion ▸ h.overlap⟩
  | table n => exact ⟨rfl, m, hopen, hversion ▸ hruns _, hversion ▸ h.overlap⟩
  | edit n hne hsize =>
    obtain ⟨m, hopen, ⟨-, hm⟩ | ⟨-, hm⟩⟩ :=
      h.manifest.open_commitCrash (length_encode_flushEdit t.manifest.version.nextSstId t.seq) n
    · exact ⟨rfl, m, hopen, hm ▸ hruns _, hm ▸ h.overlap⟩
    · have hstored : Stored B (Function.update t.sstables t.manifest.version.nextSstId
          (some (t.flushBytes B))) t.manifest.version.nextSstId t.mem.inner.entries :=
        ⟨_, hfits hne, hsize, Function.update_self _ _ _⟩
      have hnew := RunsCover.snoc (hruns _) h.overlap h.runs.le_length (Nat.le_refl _) hstored h.mem
      rw [apply_flushEdit] at hm
      refine ⟨rfl, m, hopen, ?_, ?_⟩
      · rw [hm]
        dsimp only
        rw [h.seq]
        exact hnew
      · rw [hm]
        dsimp only
        rw [h.seq]
        exact h.overlap.trans h.runs.le_length
  | cleared => exact absurd rfl hstage

/-- A tree that came up whole: it reads as the map of the history, and every file of a
    live run is there, complete and as the crash left it. -/
structure Recovered (B : FastBloom) (ws : List Write) (disk : Disk) (t : Lsm) : Prop where
  serves : Serves B ws t
  complete : ∀ id ∈ t.manifest.version.liveFiles, ∃ entries, Stored B disk.sstables id entries
  kept : ∀ id ∈ t.manifest.version.liveFiles, t.sstables id = disk.sstables id

theorem Inv.recovered (h : Inv B crc ws lo false t) {disk : Disk} {manifest : ManifestManager}
    (hj : disk.journal = t.disk.journal)
    (hm : ManifestManager.open crc disk.manifests = .ok manifest)
    (hruns : RunsCover B disk.sstables ws manifest.version.runs manifest.version.lastSeq.toNat)
    (hlo : lo ≤ manifest.version.lastSeq.toNat) {config : LsmConfig}
    (hlevels : 0 < config.numLevels % 2 ^ 32) :
    ∃ t', withMemtable crc disk config (.withCapacity t.mem.inner.capacity) = .ok t' ∧
      Recovered B ws disk t' := by
  obtain ⟨records, hlogs, hstate⟩ := h.journal
  cases hstate with
  | kept hreplay =>
    have hfile : t.disk.journal =
        some (Journal.contents crc keyValueCodec (slice ws lo ws.length) []) :=
      congrArg some hlogs.file
    obtain ⟨journal, -, heq⟩ := withMemtable_contents disk hm (hj.trans hfile) hlogs.small config
      (.withCapacity t.mem.inner.capacity)
    rw [hreplay] at heq
    refine ⟨_, heq, (layered_opened journal h.length hlevels hruns hlo h.mem).serves,
      hruns.stored, ?_⟩
    intro id hid
    exact garbageCollect_of_live hid disk.sstables

/-- **A flush is crash safe.**  Wherever it is cut short, the tree reopens with the
    contents it had before, every file of a live run complete and kept, exactly when no
    write was refused since the last flush or the crash came after the truncation. -/
theorem flush_crash_safe {config config' : LsmConfig} {capacity : Nat} {t₀ : Lsm}
    {as : List Attempt} (hlevels : 0 < config.numLevels % 2 ^ 32)
    (hlevels' : 0 < config'.numLevels % 2 ^ 32)
    (hopen : withMemtable crc {} config (.withCapacity capacity) = .ok t₀)
    (hrun : Run (AttemptStep B crc) t₀ as t) (hfits : LsmFits B t .flush) {stage : FlushStage}
    {disk : Disk} (hcrash : FlushCrash B crc t stage disk) :
    Serves B (accepted as) t ∧
    ((∃ t', withMemtable crc disk config' (.withCapacity t.mem.inner.capacity) = .ok t' ∧
        Recovered B (accepted as) disk t') ↔
      refusedSinceFlush as = false ∨ stage = .cleared) := by
  obtain ⟨lo, hinv⟩ := attemptInv_of_run hlevels hopen hrun
  refine ⟨hinv.toLayered.serves, ?_⟩
  by_cases hstage : stage = .cleared
  · subst hstage
    cases hcrash with
    | @cleared t' hflush =>
      obtain ⟨lo', hinv'⟩ := hinv.flush hfits hflush
      have hcap : t'.mem.inner.capacity = t.mem.inner.capacity := by
        rcases flush_ok hflush with ⟨-, rfl⟩ | ⟨-, -, sstables, -, rfl⟩
        · rfl
        · rfl
      obtain ⟨manifest, hm, -, hversion⟩ := hinv'.manifest.reopen
      rw [← hcap]
      exact iff_of_true (hinv'.recovered rfl hm (hversion ▸ hinv'.runs) (hversion ▸ hinv'.overlap)
        hlevels') (Or.inr rfl)
  · obtain ⟨hj, manifest, hm, hruns, hlo⟩ := hinv.crash hfits hstage hcrash
    cases hrefused : refusedSinceFlush as with
    | false =>
      rw [hrefused] at hinv
      exact iff_of_true (hinv.recovered hj hm hruns hlo hlevels') (Or.inl rfl)
    | true =>
      rw [hrefused] at hinv
      refine iff_of_false ?_ (by simp [hstage])
      rintro ⟨t', hopen', -⟩
      rw [hinv.open_refused hm hj] at hopen'
      cases hopen'

end System

/-! ### Two crashes -/

theorem length_flushBytes {t : Lsm} (hentries : t.mem.inner.entries = [logEntry 0 ([1], some [2])])
    (hid : t.manifest.version.nextSstId = 0) (hconfig : t.config = smallPages) :
    (t.flushBytes full).length ≤ ISIZE_MAX := by
  rw [flushBytes, hentries, hid, hconfig]
  decide +kernel

structure Written (t₀ t : Lsm) : Prop where
  create : withMemtable crc32 {} smallPages (.withCapacity 16) = .ok t₀
  run : Run (AttemptStep full crc32) t₀ [.call (.put [1] [2])] t
  entries : t.mem.inner.entries = [logEntry 0 ([1], some [2])]
  id : t.manifest.version.nextSstId = 0
  config : t.config = smallPages

theorem exists_written : ∃ t₀ t, Written t₀ t := by
  obtain ⟨t₀, t, t₂, h⟩ :=
    exists_flushed full crc32 smallPages 16 [1] [2] (by decide +kernel)
  obtain ⟨hentries, hid, hconfig⟩ := h.before
  refine ⟨t₀, t, h.create, .snoc .nil (.call ⟨.put h.put, ?_⟩ (by simp)), hentries, hid, hconfig⟩
  show (t₀.record [1] [2] .put).encode.length < 2 ^ 32
  rw [h.record]
  decide +kernel

section Written

variable {t₀ t : Lsm} (h : Written t₀ t)

include h

theorem Written.fits : LsmFits full t .flush := by
  intro _
  rw [h.entries, h.id, h.config]
  exact tableFits_smallPages

theorem Written.reopen {stage : FlushStage} (hstage : stage ≠ .cleared) {disk : Disk}
    (hcrash : FlushCrash full crc32 t stage disk) :
    ∃ t', withMemtable crc32 disk smallPages (.withCapacity t.mem.inner.capacity) = .ok t' := by
  obtain ⟨lo, hinv⟩ := attemptInv_of_run (by decide) h.create h.run
  obtain ⟨hj, manifest, hm, hruns, hlo⟩ := hinv.crash h.fits hstage hcrash
  obtain ⟨t', hopen, -⟩ :=
    Inv.recovered hinv hj hm hruns hlo (by decide : 0 < smallPages.numLevels % 2 ^ 32)
  exact ⟨t', hopen⟩

theorem Written.crash_edit (n : Nat) : ∃ disk, FlushCrash full crc32 t (.edit n) disk :=
  ⟨_, .edit n (by simp [h.entries]) (length_flushBytes h.entries h.id h.config)
    (by rw [h.id]; decide +kernel)⟩

theorem Written.crash_table (n : Nat) : ∃ disk, FlushCrash full crc32 t (.table n) disk :=
  ⟨_, .table n (by simp [h.entries]) (length_flushBytes h.entries h.id h.config)⟩

end Written

/-- Five bytes of the manifest's frame reach the disk. -/
theorem flush_crash_torn_edit : ∃ t₀ t disk,
    withMemtable crc32 {} smallPages (.withCapacity 16) = .ok t₀ ∧
    Run (AttemptStep full crc32) t₀ [.call (.put [1] [2])] t ∧
    FlushCrash full crc32 t (.edit 5) disk ∧
    ∃ t', withMemtable crc32 disk smallPages (.withCapacity t.mem.inner.capacity) = .ok t' ∧
      Recovered full [([1], some [2])] disk t' := by
  obtain ⟨t₀, t, h⟩ := exists_written
  obtain ⟨disk, hcrash⟩ := h.crash_edit 5
  exact ⟨t₀, t, disk, h.create, h.run, hcrash,
    (flush_crash_safe (by decide) (by decide) h.create h.run h.fits hcrash).2.mpr (Or.inl rfl)⟩

/-- **A refused write before the flush**: a crash while the table is written leaves a
    tree that does not open. -/
theorem flush_crash_after_refusal : ∃ t₀ t disk,
    withMemtable crc32 {} smallPages (.withCapacity 2) = .ok t₀ ∧
    Run (AttemptStep full crc32) t₀
      [.call (.put [1] [2]), .refused ([3], some [4])] t ∧
    FlushCrash full crc32 t (.table 3) disk ∧
    withMemtable crc32 disk smallPages (.withCapacity 2) = .error (.write .storeFull) := by
  obtain ⟨t₀, t, hopen, hrun, hentries, hid, hconfig, hcap⟩ := exists_refused
  have hlevels : 0 < smallPages.numLevels % 2 ^ 32 := by decide
  obtain ⟨lo, hinv⟩ := attemptInv_of_run hlevels hopen hrun
  obtain ⟨manifest, hm, -, -⟩ := hinv.manifest.reopen
  obtain ⟨disk, hcrash, hdisk, hj⟩ : ∃ disk, FlushCrash full crc32 t (.table 3) disk ∧
      disk.manifests = t.manifest.dir ∧ disk.journal = t.disk.journal :=
    ⟨_, .table 3 (by simp [hentries]) (length_flushBytes hentries hid hconfig), rfl, rfl⟩
  rw [← hdisk] at hm
  have herror := hinv.open_refused hm hj smallPages
  rw [hcap] at herror
  exact ⟨t₀, t, disk, hopen, hrun, hcrash, herror⟩

end StrataDb.Lsm
