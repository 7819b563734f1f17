import StrataDb.Crc
import StrataDb.Manifest
import StrataDb.Runs

/-!
# Manifest recovery under crashes

A reopen gives the fold of all committed edits, as long as a checkpoint never meets the file of an
earlier one that left runs in it (`manifest_recovers`). A crash between the snapshot and the
rename leaves such a file, the next checkpoint appends to it, and its runs are there twice.
-/

namespace StrataDb.Lsm

open ByteCodec Runs
open Journal (withCodec contents replay_contents tornTail_nil)
open Crc (crc32)
open Function (update update_of_ne update_self)
open ManifestManager (created)
open Version (ofEdits toSnapshot)

/-! ### Events -/

/-- How far a checkpoint got: nothing, the complete snapshot in the next file,
    `CURRENT` renamed, the old file removed. -/
inductive CheckpointStage where
  | untouched
  | snapshotWritten
  | renamed
  | removed
deriving DecidableEq, Repr

inductive ManifestEvent where
  | commit (edit : ManifestEdit)
  | checkpoint
  | crash (stage : CheckpointStage)
deriving DecidableEq, Repr

section System

variable (crc : Bytes → UInt32)

def ManifestManager.crashDir (m : ManifestManager) : CheckpointStage → Except Fault ManifestDir
  | .untouched => .ok m.dir
  | .snapshotWritten => do
    let fresh ← m.freshJournal crc
    .ok { m.dir with files := update m.dir.files (m.current + 1) (some fresh.file) }
  | .renamed => do
    let fresh ← m.freshJournal crc
    .ok { current := some (m.current + 1)
          files := update m.dir.files (m.current + 1) (some fresh.file) }
  | .removed => do
    let fresh ← m.freshJournal crc
    .ok { current := some (m.current + 1)
          files := update (update m.dir.files (m.current + 1) (some fresh.file))
            m.current none }

/-- One event; a crash is followed by a reopen. -/
inductive ManifestStep : ManifestManager → ManifestEvent → ManifestManager → Prop
  | commit {m : ManifestManager} {edit : ManifestEdit} :
      ManifestStep m (.commit edit) (m.commit crc edit)
  | checkpoint {m m' : ManifestManager} (h : m.checkpoint crc = .ok m') :
      ManifestStep m .checkpoint m'
  | crash {m m' : ManifestManager} {stage : CheckpointStage} {dir : ManifestDir}
      (hdir : m.crashDir crc stage = .ok dir) (hopen : ManifestManager.open crc dir = .ok m') :
      ManifestStep m (.crash stage) m'

def committed (es : List ManifestEvent) : List ManifestEdit :=
  es.filterMap fun e => match e with
    | .commit edit => some edit
    | _ => none

/-- The runs in the file the next checkpoint will append to. -/
def ManifestManager.leftoverRuns (m : ManifestManager) : List RunDescriptor :=
  match m.others (m.current + 1) with
  | none => []
  | some file =>
    match replayVersion crc file with
    | .ok v => v.runs
    | .error _ => []

/-- The condition on one step: records below 4 GiB, and no runs in the next file when
    it becomes the active one. -/
def ManifestManager.Clean (m : ManifestManager) : ManifestEvent → Prop
  | .commit edit => edit.encode.length < 2 ^ 32
  | .crash .untouched => True
  | .crash .snapshotWritten => m.version.toSnapshot.encode.length < 2 ^ 32
  | _ => m.version.toSnapshot.encode.length < 2 ^ 32 ∧ m.leftoverRuns crc = []

def CleanManifestStep (m : ManifestManager) (e : ManifestEvent) (m' : ManifestManager) : Prop :=
  ManifestStep crc m e m' ∧ m.Clean crc e

/-- **Exact recovery** after the history `es`: the version in memory is the fold of
    the committed edits, and so is the one a reopen gives after a crash at `stage`. -/
def Recovers (es : List ManifestEvent) (m : ManifestManager) (stage : CheckpointStage) : Prop :=
  m.version = ofEdits (committed es) ∧
    (m.current + 1 < 2 ^ 64 → ∃ dir m', m.crashDir crc stage = .ok dir ∧
      ManifestManager.open crc dir = .ok m' ∧ m'.version = ofEdits (committed es))

variable {crc}

/-! ### The invariant -/

/-- What clean steps keep: the active file folds to the version, which is the fold of
    what was committed; the next file holds whole records or is absent; there is no
    file beyond it. -/
structure ManifestInv (crc : Bytes → UInt32) (es : List ManifestEvent) (m : ManifestManager) :
    Prop where
  version : m.version = ofEdits (committed es)
  active : ∃ edits, Holds crc (some m.journal.file) edits ∧ ofEdits edits = m.version
  next : ∃ edits, Holds crc (m.others (m.current + 1)) edits
  beyond : ∀ n, m.current + 1 < n → m.others n = none

theorem committed_snoc (es : List ManifestEvent) (e : ManifestEvent) :
    committed (es ++ [e]) = committed es ++ (match e with | .commit edit => [edit] | _ => []) := by
  cases e <;> simp [committed]

variable {m : ManifestManager}

theorem leftoverRuns_of_holds {edits : List ManifestEdit}
    (h : Holds crc (m.others (m.current + 1)) edits) :
    m.leftoverRuns crc = (ofEdits edits).runs := by
  rcases h.2 with ⟨hnone, rfl⟩ | hsome
  · simp [ManifestManager.leftoverRuns, hnone, ofEdits]
  · simp only [ManifestManager.leftoverRuns, hsome,
      replayVersion_contents h.1 (Journal.tornTail_nil crc)]

variable {es : List ManifestEvent}

theorem open_inv {n : Nat} {files : Nat → Option Bytes}
    {active : List ManifestEdit} (next : List ManifestEdit) (hactive : Holds crc (files n) active)
    (hfold : ofEdits active = ofEdits (committed es))
    (hnext : Holds crc (files (n + 1)) next) (hbeyond : ∀ k, n + 1 < k → files k = none) :
    ∃ m, ManifestManager.open crc { current := some n, files } = .ok m ∧ ManifestInv crc es m := by
  obtain ⟨m, hopen, rfl, hfile, hversion, hothers⟩ := open_of_holds files hactive
  refine ⟨m, hopen, ?_, ⟨active, ⟨hactive.1, Or.inr (by rw [hfile])⟩, hversion.symm⟩,
    ⟨next, ?_⟩, ?_⟩
  · rw [hversion, hfold]
  · rw [hothers, update_of_ne (by omega)]
    exact hnext
  · intro k hk
    rw [hothers, update_of_ne (by omega)]
    exact hbeyond k hk

/-- **Reopening after a crash** at any clean stage gives the version back, and a
    manager that again satisfies the invariant. -/
theorem ManifestInv.open_crashDir
    (h : ManifestInv crc es m) {stage : CheckpointStage} (hclean : m.Clean crc (.crash stage))
    {dir : ManifestDir} (hdir : m.crashDir crc stage = .ok dir) :
    ∃ m', ManifestManager.open crc dir = .ok m' ∧ ManifestInv crc es m' := by
  obtain ⟨active, hactive, hfold⟩ := h.active
  obtain ⟨next, hnext⟩ := h.next
  rw [h.version] at hfold
  have hfile : Holds crc (m.dir.files m.current) active := by
    simpa [ManifestManager.dir] using hactive
  have hbeyond : ∀ k, m.current + 1 < k → m.dir.files k = none := by
    intro k hk
    have hk' : k ≠ m.current := by omega
    simpa [ManifestManager.dir, hk'] using h.beyond k hk
  cases stage with
  | untouched =>
    obtain rfl := Except.ok.inj hdir
    refine open_inv next hfile hfold ?_ hbeyond
    rwa [update_of_ne (by omega)]
  | snapshotWritten =>
    obtain ⟨fresh, hfresh, hdir⟩ := bind_eq_ok.mp hdir
    obtain rfl := Except.ok.inj hdir
    refine open_inv (next ++ [m.version.toSnapshot]) ?_ hfold ?_ ?_
    · rwa [update_of_ne (by omega)]
    · rw [update_self]
      exact holds_fresh hnext hclean hfresh
    · intro k hk
      rw [update_of_ne (by omega)]
      exact hbeyond k hk
  | renamed =>
    obtain ⟨fresh, hfresh, hdir⟩ := bind_eq_ok.mp hdir
    obtain rfl := Except.ok.inj hdir
    have hruns : (ofEdits next).runs = [] := (leftoverRuns_of_holds hnext).symm.trans hclean.2
    refine open_inv [] ?_ ((ofEdits_snoc_toSnapshot hruns _).trans h.version) ?_ ?_
    · rw [update_self]
      exact holds_fresh hnext hclean.1 hfresh
    · rw [update_of_ne (by omega)]
      exact ⟨by simp, Or.inl ⟨hbeyond _ (by omega), rfl⟩⟩
    · intro k hk
      rw [update_of_ne (by omega)]
      exact hbeyond k (by omega)
  | removed =>
    obtain ⟨fresh, hfresh, hdir⟩ := bind_eq_ok.mp hdir
    obtain rfl := Except.ok.inj hdir
    have hruns : (ofEdits next).runs = [] := (leftoverRuns_of_holds hnext).symm.trans hclean.2
    refine open_inv [] ?_ ((ofEdits_snoc_toSnapshot hruns _).trans h.version) ?_ ?_
    · rw [update_of_ne (by omega), update_self]
      exact holds_fresh hnext hclean.1 hfresh
    · rw [update_of_ne (by omega), update_of_ne (by omega)]
      exact ⟨by simp, Or.inl ⟨hbeyond _ (by omega), rfl⟩⟩
    · intro k hk
      rw [update_of_ne (by omega), update_of_ne (by omega)]
      exact hbeyond k (by omega)

theorem ManifestInv.crashDir_ok (h : ManifestInv crc es m) (hlt : m.current + 1 < 2 ^ 64)
    (stage : CheckpointStage) : ∃ dir, m.crashDir crc stage = .ok dir := by
  obtain ⟨next, hnext⟩ := h.next
  obtain ⟨fresh, hfresh⟩ := freshJournal_ok hnext hlt
  cases stage <;> simp [ManifestManager.crashDir, hfresh, bind, Except.bind]

theorem ManifestInv.commit
    (h : ManifestInv crc es m) {edit : ManifestEdit} (hsize : edit.encode.length < 2 ^ 32) :
    ManifestInv crc (es ++ [.commit edit]) (m.commit crc edit) := by
  obtain ⟨active, hactive, hfold⟩ := h.active
  refine ⟨?_, ⟨active ++ [edit], holds_commit hactive hsize, ?_⟩, h.next, h.beyond⟩
  · rw [committed_snoc, Version.ofEdits_snoc, ← h.version]
    rfl
  · rw [Version.ofEdits_snoc, hfold]
    rfl

theorem ManifestInv.checkpoint {m' : ManifestManager}
    (h : ManifestInv crc es m) (hclean : m.Clean crc .checkpoint)
    (hm : m.checkpoint crc = .ok m') : ManifestInv crc (es ++ [.checkpoint]) m' := by
  obtain ⟨next, hnext⟩ := h.next
  obtain ⟨fresh, hfresh, hm⟩ := bind_eq_ok.mp hm
  obtain rfl := Except.ok.inj hm
  have hruns : (ofEdits next).runs = [] := (leftoverRuns_of_holds hnext).symm.trans hclean.2
  refine ⟨?_, ⟨_, holds_fresh hnext hclean.1 hfresh, ofEdits_snoc_toSnapshot hruns _⟩, ⟨[], ?_⟩, ?_⟩
  · rw [committed_snoc, List.append_nil]
    exact h.version
  · exact ⟨by simp, Or.inl ⟨by simpa using h.beyond _ (by omega), rfl⟩⟩
  · intro k hk
    have hk' : m.current + 1 < k := Nat.lt_of_succ_lt hk
    simpa [hk'.ne'] using h.beyond k hk'

theorem ManifestInv.step {m' : ManifestManager} {e : ManifestEvent} (h : ManifestInv crc es m)
    (hstep : CleanManifestStep crc m e m') : ManifestInv crc (es ++ [e]) m' := by
  obtain ⟨hstep, hclean⟩ := hstep
  cases hstep with
  | commit => exact h.commit hclean
  | checkpoint hm => exact h.checkpoint hclean hm
  | crash hdir hopen =>
    obtain ⟨m'', hopen', h'⟩ := h.open_crashDir hclean hdir
    obtain rfl := Except.ok.inj (hopen.symm.trans hopen')
    refine ⟨?_, h'.active, h'.next, h'.beyond⟩
    rw [committed_snoc, List.append_nil]
    exact h'.version

theorem manifestInv_open (h : ManifestManager.open crc {} = .ok m) : ManifestInv crc [] m := by
  obtain ⟨hsound, hversion⟩ := sound_open_empty h
  obtain ⟨edits, hholds, hfold⟩ := hsound.active
  exact ⟨hversion, ⟨edits, hholds, hfold⟩, ⟨[], hsound.next⟩,
    fun n hn => hsound.newest n (by omega)⟩

/-- **Manifest recovery is exact** in every state of every run whose steps are clean,
    at whatever stage the next checkpoint is cut short. -/
theorem manifest_recovers {es : List ManifestEvent} {m₀ m : ManifestManager}
    (hopen : ManifestManager.open crc {} = .ok m₀) (hrun : Run (CleanManifestStep crc) m₀ es m)
    {stage : CheckpointStage} (hclean : m.Clean crc (.crash stage)) : Recovers crc es m stage := by
  have h : ManifestInv crc es m :=
    hrun.history (manifestInv_open hopen) (fun _ _ _ _ hP hstep => hP.step hstep)
  refine ⟨h.version, fun hlt => ?_⟩
  obtain ⟨dir, hdir⟩ := h.crashDir_ok hlt stage
  obtain ⟨m', hopen', h'⟩ := h.open_crashDir hclean hdir
  exact ⟨dir, m', hdir, hopen', h'.version⟩

end System

def firstFlush : ManifestEdit :=
  { ops := [.addRun { level := 0, run := 0, files := [0] }, .setNextSstId 1, .setLastSeq 1] }

theorem checkpoint_created (j : Journal) : ∃ m,
    ManifestManager.checkpoint crc32 ((created j).commit crc32 firstFlush) = .ok m ∧
      m.version = Version.apply {} firstFlush ∧ m.others (m.current + 1) = none := by
  obtain ⟨fresh, hfresh⟩ := freshJournal_ok
    (show Holds crc32 (((created j).commit crc32 firstFlush).others 1) [] from
      ⟨by simp, Or.inl ⟨rfl, rfl⟩⟩) (show 0 + 1 < 2 ^ 64 by decide)
  rw [ManifestManager.checkpoint, hfresh]
  exact ⟨_, rfl, rfl, rfl⟩

theorem leftoverRuns_of_none {crc : Bytes → UInt32} {m : ManifestManager}
    (h : m.others (m.current + 1) = none) : m.leftoverRuns crc = [] := by
  simp only [ManifestManager.leftoverRuns, h]

/-- A clean run: a flush and a checkpoint, and then a second checkpoint that is cut
    short after its rename. -/
theorem manifest_recovers_second_checkpoint : ∃ m₀ m,
    ManifestManager.open crc32 {} = .ok m₀ ∧
    Run (CleanManifestStep crc32) m₀ [.commit firstFlush, .checkpoint] m ∧
    m.Clean crc32 (.crash .renamed) ∧
    Recovers crc32 [.commit firstFlush, .checkpoint] m .renamed := by
  obtain ⟨j, -, hopen⟩ := open_empty crc32
  obtain ⟨m, hm, hversion, hothers⟩ := checkpoint_created j
  have hcommit : firstFlush.encode.length < 2 ^ 32 := by decide
  have hsize : (toSnapshot (Version.apply {} firstFlush)).encode.length < 2 ^ 32 := by decide
  have hrun : Run (CleanManifestStep crc32) (.created j) [.commit firstFlush, .checkpoint] m :=
    (Run.nil.snoc ⟨.commit, hcommit⟩).snoc ⟨.checkpoint hm, hsize, leftoverRuns_of_none rfl⟩
  have hclean : m.Clean crc32 (.crash .renamed) :=
    ⟨by rw [hversion]; exact hsize, leftoverRuns_of_none hothers⟩
  exact ⟨_, m, hopen, hrun, hclean, manifest_recovers hopen hrun hclean⟩

/-! ### The run that breaks it -/

def firstSnapshot : ManifestEdit := toSnapshot (Version.apply {} firstFlush)

theorem firstSnapshot_small : ∀ e ∈ [firstSnapshot], e.encode.length < 2 ^ 32 := by decide

/-- A first flush, and a checkpoint cut short before its rename: the reopened manager
    has the snapshot in its next file. -/
theorem reopen_after_snapshot (j : Journal) (hfile : j.file = Journal.header) : ∃ dir m,
    ((created j).commit crc32 firstFlush).crashDir crc32 .snapshotWritten = .ok dir ∧
      ManifestManager.open crc32 dir = .ok m ∧ m.current = 0 ∧
      m.version = ofEdits [firstFlush] ∧ Holds crc32 (m.others 1) [firstSnapshot] := by
  have hnext : Holds crc32 (((created j).commit crc32 firstFlush).others 1) [] :=
    ⟨by simp, Or.inl ⟨rfl, rfl⟩⟩
  obtain ⟨fresh, hfresh⟩ := freshJournal_ok hnext (show 0 + 1 < 2 ^ 64 by decide)
  have hactive : ((created j).commit crc32 firstFlush).journal.file =
      contents crc32 manifestEditCodec [firstFlush] [] :=
    Journal.append_contents (hfile.trans (Journal.contents_nil crc32 manifestEditCodec).symm) _
  have hsnapshot := holds_fresh hnext (firstSnapshot_small _ (List.mem_singleton_self _)) hfresh
  obtain ⟨m, hopen, hcurrent, -, hversion, hothers⟩ := open_of_holds (n := 0)
    (update ((created j).commit crc32 firstFlush).dir.files 1
      (some fresh.file))
    (show Holds crc32 _ [firstFlush] from ⟨by decide, Or.inr (congrArg some hactive)⟩)
  refine ⟨_, m, ?_, hopen, hcurrent, hversion, ?_⟩
  · rw [ManifestManager.crashDir, hfresh]
    rfl
  · rw [hothers]
    exact hsnapshot

/-- **A later checkpoint doubles the runs.**  The snapshot of the checkpoint that was
    cut short is still in `MANIFEST-1`; the next checkpoint appends its own, and the
    reopen after it finds the run of the first flush twice. -/
theorem manifest_doubles_runs : ∃ m₀ m,
    ManifestManager.open crc32 {} = .ok m₀ ∧
    Run (ManifestStep crc32) m₀ [.commit firstFlush, .crash .snapshotWritten, .checkpoint] m ∧
    ¬ Recovers crc32 [.commit firstFlush, .crash .snapshotWritten, .checkpoint] m .untouched := by
  obtain ⟨j, hfile, hopen⟩ := open_empty crc32
  obtain ⟨dir, m, hdir, hreopen, hcurrent, hversion, hnext⟩ := reopen_after_snapshot j hfile
  have hnext' : Holds crc32 (m.others (m.current + 1)) [firstSnapshot] := by rwa [hcurrent]
  obtain ⟨fresh, hfresh⟩ := freshJournal_ok hnext' (by rw [hcurrent]; decide)
  have hholds := holds_fresh hnext' (by rw [hversion]; decide) hfresh
  obtain ⟨m₂, hm, hjournal, hcurrent₂⟩ : ∃ m₂, m.checkpoint crc32 = .ok m₂ ∧
      m₂.journal = fresh ∧ m₂.current = 1 := by
    rw [ManifestManager.checkpoint, hfresh]
    exact ⟨_, rfl, rfl, congrArg (· + 1) hcurrent⟩
  refine ⟨_, m₂, hopen, ((Run.nil.snoc .commit).snoc (.crash hdir hreopen)).snoc (.checkpoint hm),
    ?_⟩
  rintro ⟨-, hrecovers⟩
  obtain ⟨dir', m', hdir', hopen', hversion'⟩ := hrecovers (by rw [hcurrent₂]; decide)
  obtain rfl := Except.ok.inj hdir'
  rw [← hjournal] at hholds
  obtain ⟨m'', hopen'', hversion''⟩ := open_dir hholds
  obtain rfl := Except.ok.inj (hopen'.symm.trans hopen'')
  rw [hversion'', hversion] at hversion'
  exact absurd hversion' (by decide)

end StrataDb.Lsm
