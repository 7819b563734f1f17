import StrataDb.Runs
import StrataDb.SsTable

/-!
# The manifest (`crates/lsm/src/manifest`): which runs are live, as a journal of edits

A `Version` is the fold of all edits. A checkpoint starts a new file with one edit that rebuilds
the version, and moves the `CURRENT` pointer to it by an atomic rename.
-/

namespace StrataDb.Lsm

open ByteCodec Runs
open Journal (JournalError withCodec append replay contents replay_contents TornTail tornTail_nil)
open Decoder (reads_count reads_u64 reads_u8)
open Decoder.Reads (bind_pure)
open Function (update)
open Journal (writeFrame)

/-! ### Edits and versions -/

abbrev RunId := UInt64

structure RunDescriptor where
  level : UInt32
  run : RunId
  files : List SsTableId
deriving DecidableEq, Repr

inductive ManifestOp where
  | addRun (run : RunDescriptor)
  | removeRun (id : RunId)
  | setNextSstId (next : UInt64)
  | setLastSeq (seq : UInt64)
deriving DecidableEq, Repr

structure ManifestEdit where
  ops : List ManifestOp
deriving DecidableEq, Repr

structure Version where
  runs : List RunDescriptor := []
  nextSstId : UInt64 := 0
  lastSeq : UInt64 := 0
deriving DecidableEq, Repr

def Version.applyOp (v : Version) : ManifestOp → Version
  | .addRun run => { v with runs := v.runs ++ [run] }
  | .removeRun id => { v with runs := v.runs.filter (fun r => r.run ≠ id) }
  | .setNextSstId next => { v with nextSstId := next }
  | .setLastSeq seq => { v with lastSeq := seq }

def Version.apply (v : Version) (edit : ManifestEdit) : Version := edit.ops.foldl Version.applyOp v

def Version.toSnapshot (v : Version) : ManifestEdit where
  ops := v.runs.map .addRun ++ [.setNextSstId v.nextSstId, .setLastSeq v.lastSeq]

def Version.runsIn (v : Version) (level : UInt32) : List RunDescriptor :=
  v.runs.filter (fun r => r.level = level)

def Version.liveFiles (v : Version) : List SsTableId := v.runs.flatMap (·.files)

def Version.ofEdits (edits : List ManifestEdit) : Version := edits.foldl Version.apply {}

theorem Version.ofEdits_snoc (edits : List ManifestEdit) (edit : ManifestEdit) :
    Version.ofEdits (edits ++ [edit]) = (Version.ofEdits edits).apply edit := by
  simp [Version.ofEdits, List.foldl_append]

theorem Version.foldl_addRun (v : Version) (runs : List RunDescriptor) :
    (runs.map ManifestOp.addRun).foldl Version.applyOp v = { v with runs := v.runs ++ runs } := by
  induction runs generalizing v with
  | nil => simp
  | cons run runs ih => simp [Version.applyOp, ih]

/-- **A snapshot adds its runs to those already there.**  It rebuilds its version
    exactly on top of a version without runs. -/
theorem Version.apply_toSnapshot (base v : Version) :
    base.apply v.toSnapshot = { v with runs := base.runs ++ v.runs } := by
  simp [Version.apply, Version.toSnapshot, List.foldl_append, Version.foldl_addRun, Version.applyOp]

/-! ### Edits as bytes -/

def OP_ADD_RUN : UInt8 := 1
def OP_REMOVE_RUN : UInt8 := 2
def OP_SET_NEXT_SST_ID : UInt8 := 3
def OP_SET_LAST_SEQ : UInt8 := 4

def ManifestOp.encode : ManifestOp → Bytes
  | .addRun run =>
    [OP_ADD_RUN] ++ (beBytes 4 run.level.toNat ++ (beBytes 8 run.run.toNat ++
      (beBytes 4 run.files.length ++ run.files.flatMap (fun f => beBytes 8 f.toNat))))
  | .removeRun id => [OP_REMOVE_RUN] ++ beBytes 8 id.toNat
  | .setNextSstId next => [OP_SET_NEXT_SST_ID] ++ beBytes 8 next.toNat
  | .setLastSeq seq => [OP_SET_LAST_SEQ] ++ beBytes 8 seq.toNat

def ManifestEdit.encode (edit : ManifestEdit) : Bytes :=
  beBytes 4 edit.ops.length ++ edit.ops.flatMap ManifestOp.encode

def truncatedEdit : JournalError := .decode "truncated manifest edit"

def ManifestOp.decode : Decoder JournalError ManifestOp := do
  let tag ← Decoder.u8 truncatedEdit
  if tag = OP_ADD_RUN then do
    let level ← Decoder.u32 truncatedEdit
    let run ← Decoder.u64 truncatedEdit
    let fileCount ← Decoder.u32 truncatedEdit
    let files ← Decoder.times fileCount.toNat (Decoder.u64 truncatedEdit)
    pure (.addRun { level, run, files })
  else if tag = OP_REMOVE_RUN then do
    let id ← Decoder.u64 truncatedEdit
    pure (.removeRun id)
  else if tag = OP_SET_NEXT_SST_ID then do
    let next ← Decoder.u64 truncatedEdit
    pure (.setNextSstId next)
  else if tag = OP_SET_LAST_SEQ then do
    let seq ← Decoder.u64 truncatedEdit
    pure (.setLastSeq seq)
  else Decoder.fail (.decode ("unknown manifest op " ++ toString tag.toNat))

def ManifestEdit.decode : Decoder JournalError ManifestEdit := do
  let count ← Decoder.u32 truncatedEdit
  let ops ← Decoder.times count.toNat ManifestOp.decode
  pure { ops }

def manifestEditCodec : Journal.Codec ManifestEdit where
  encode := ManifestEdit.encode
  decode bytes :=
    match ManifestEdit.decode bytes with
    | .ok (edit, _) => .ok edit
    | .error e => .error e

theorem ManifestOp.encode_ne_nil (op : ManifestOp) : op.encode ≠ [] := by
  cases op <;> simp [ManifestOp.encode]

def ManifestOp.Fits : ManifestOp → Prop
  | .addRun run => run.files.length < 2 ^ 32
  | _ => True

def ManifestEdit.Fits (edit : ManifestEdit) : Prop :=
  edit.ops.length < 2 ^ 32 ∧ ∀ op ∈ edit.ops, op.Fits

theorem ManifestOp.fits_of_length {op : ManifestOp} (h : op.encode.length < 2 ^ 32) : op.Fits := by
  cases op with
  | addRun run =>
    have hfiles : run.files.length ≤ (run.files.flatMap (fun f => beBytes 8 f.toNat)).length := by
      apply count_le_length_flatMap
      intro f _
      rw [← List.length_pos_iff, length_beBytes]
      omega
    simp only [ManifestOp.encode, List.length_append, length_beBytes] at h
    show run.files.length < 2 ^ 32
    omega
  | _ => trivial

variable {edit : ManifestEdit}

theorem ManifestEdit.fits_of_length (h : edit.encode.length < 2 ^ 32) : edit.Fits := by
  have hops : edit.ops.length ≤ (edit.ops.flatMap ManifestOp.encode).length :=
    count_le_length_flatMap (fun op _ => op.encode_ne_nil)
  simp only [ManifestEdit.encode, List.length_append, length_beBytes] at h
  refine ⟨by omega, fun op hop => ManifestOp.fits_of_length ?_⟩
  have := length_le_flatMap_of_mem ManifestOp.encode hop
  omega

theorem ManifestOp.reads_encode {op : ManifestOp} (h : op.Fits) :
    ManifestOp.decode.Reads op.encode op := by
  cases op with
  | addRun run =>
    refine Decoder.Reads.bind (reads_u8 _ _) ?_
    refine Decoder.Reads.bind (Decoder.reads_u32 _ _) ?_
    refine Decoder.Reads.bind (reads_u64 _ _) ?_
    refine Decoder.Reads.bind (reads_count _ h) ?_
    rw [UInt32.toNat_ofNat_of_lt' h]
    exact bind_pure (Decoder.Reads.times (fun f _ => reads_u64 _ f))
  | removeRun id =>
    exact Decoder.Reads.bind (reads_u8 _ _) (bind_pure (reads_u64 _ _))
  | setNextSstId next =>
    exact Decoder.Reads.bind (reads_u8 _ _) (bind_pure (reads_u64 _ _))
  | setLastSeq seq =>
    exact Decoder.Reads.bind (reads_u8 _ _) (bind_pure (reads_u64 _ _))

theorem ManifestEdit.reads_encode (h : edit.Fits) : ManifestEdit.decode.Reads edit.encode edit := by
  refine Decoder.Reads.bind (reads_count _ h.1) ?_
  rw [UInt32.toNat_ofNat_of_lt' h.1]
  exact bind_pure (Decoder.Reads.times (fun op hop => ManifestOp.reads_encode (h.2 op hop)))

theorem manifestEditCodec_decode {bytes rest : Bytes}
    (h : ManifestEdit.decode bytes = .ok (edit, rest)) :
    manifestEditCodec.decode bytes = .ok edit := by
  simp only [manifestEditCodec, h]

theorem manifestEditCodec_lawful (h : edit.Fits) : manifestEditCodec.Lawful edit := by
  have hread := ManifestEdit.reads_encode h []
  rw [List.append_nil] at hread
  exact manifestEditCodec_decode hread

/-- **Every record decodes to what was encoded**, and the decoder stops where its bytes end:
    manifest edits, data blocks and table headers, with lengths and counts below `2 ^ 32`. -/
theorem records_round_trip (B : FastBloom) (hbloom : ∀ f, B.reload f = f) :
    (∀ edit : ManifestEdit, edit.Fits →
        manifestEditCodec.Lawful edit ∧ ManifestEdit.decode.Reads edit.encode edit) ∧
      (∀ entries : List KeyValue, (∀ kv ∈ entries, kv.Fits) →
        decodeBlock (encodeBlock entries) = .ok entries ∧ ∀ kv ∈ entries,
          KeyValue.decode.Reads kv.encode kv) ∧
      (∀ header : Header B, header.Fits B → (Header.decode B).Reads (header.encode B) header) := by
  refine ⟨fun edit h => ?_, fun entries h => ?_, fun header h => ?_⟩
  · exact ⟨manifestEditCodec_lawful h, ManifestEdit.reads_encode h⟩
  · exact ⟨decodeBlock_encodeBlock h, fun kv hkv => KeyValue.reads_encode (h kv hkv)⟩
  · have hreloaded : header.reloaded B = header := by
      cases header with
      | root sstId range bloom sizeBytes index => rw [Header.reloaded, hbloom]
      | child sstId blocks => rfl
    have hreads := Header.reads_encode h
    rwa [hreloaded] at hreads

/-- An edit with two files in a run, a block with a put and a delete, a root over two children. -/
theorem records_round_trip_full :
    ManifestEdit.decode.Reads (ManifestEdit.encode ⟨[.addRun ⟨1, 2, [3, 4]⟩, .removeRun 5]⟩)
        ⟨[.addRun ⟨1, 2, [3, 4]⟩, .removeRun 5]⟩ ∧
      decodeBlock (encodeBlock [⟨⟨[1], 2, .put⟩, [3]⟩, ⟨⟨[1], 1, .delete⟩, []⟩]) =
        .ok [⟨⟨[1], 2, .put⟩, [3]⟩, ⟨⟨[1], 1, .delete⟩, []⟩] ∧
      (Header.decode FastBloom.full).Reads
        (Header.encode FastBloom.full
          (.root 7 ⟨[1], [4]⟩ () 90 (.sharded [⟨[1], [2], 0, 40⟩, ⟨[3], [4], 40, 50⟩])))
        (.root 7 ⟨[1], [4]⟩ () 90 (.sharded [⟨[1], [2], 0, 40⟩, ⟨[3], [4], 40, 50⟩])) := by
  obtain ⟨hedits, hblocks, hheaders⟩ := records_round_trip FastBloom.full (fun _ => rfl)
  refine ⟨(hedits _ ?_).2, (hblocks _ ?_).1, hheaders _ ?_⟩
  · simp [ManifestEdit.Fits, ManifestOp.Fits]
  · simp [KeyValue.Fits]
  · simp [Header.Fits, MetasFit, Index.metas, BlockMeta.Fits, FastBloom.full]

/-! ### The manager -/

structure ManifestDir where
  current : Option Nat := none
  files : Nat → Option Bytes := fun _ => none

structure ManifestManager where
  current : Nat
  journal : Journal
  version : Version
  others : Nat → Option Bytes

def ManifestManager.dir (m : ManifestManager) : ManifestDir where
  current := some m.current
  files := update m.others m.current (some m.journal.file)

def LsmError.ofJournal (e : JournalError) : LsmError := .internal e.text

section Manager

variable (crc : Bytes → UInt32)

def foldEdits : Version → List (Except JournalError ManifestEdit) → Except JournalError Version
  | v, [] => .ok v
  | _, .error e :: _ => .error e
  | v, .ok edit :: rest => foldEdits (v.apply edit) rest

def replayVersion (file : Bytes) : Except JournalError Version :=
  foldEdits {} (replay crc manifestEditCodec file)

/-- `ManifestManager::open`.  Without a `CURRENT` pointer the manifest starts empty,
    at number zero; a file of that name is opened but not replayed. -/
def ManifestManager.open (dir : ManifestDir) : Except LsmError ManifestManager :=
  match dir.current with
  | some current => do
    let journal ← (withCodec (dir.files current)).mapError LsmError.ofJournal
    let version ← (replayVersion crc journal.file).mapError LsmError.ofJournal
    .ok { current, journal, version, others := update dir.files current none }
  | none => do
    let journal ← (withCodec (dir.files 0)).mapError LsmError.ofJournal
    .ok { current := 0, journal, version := {}, others := update dir.files 0 none }

def ManifestManager.commit (m : ManifestManager) (edit : ManifestEdit) : ManifestManager where
  current := m.current
  journal := append crc manifestEditCodec m.journal edit
  version := m.version.apply edit
  others := m.others

def ManifestManager.freshJournal (m : ManifestManager) : Except Fault Journal :=
  if m.current + 1 = 2 ^ 64 then .error (.panicked "attempt to add with overflow")
  else do
    let fresh ← (withCodec (m.others (m.current + 1))).mapError
      (fun e => Fault.error (LsmError.ofJournal e))
    .ok (append crc manifestEditCodec fresh m.version.toSnapshot)

/-- `checkpoint`: write the snapshot to the next file, move `CURRENT`, drop the old
    file. -/
def ManifestManager.checkpoint (m : ManifestManager) : Except Fault ManifestManager := do
  let fresh ← m.freshJournal crc
  .ok { current := m.current + 1, journal := fresh, version := m.version
        others := update m.others (m.current + 1) none }

end Manager

/-- `garbage_collect`: drop the tables below the watermark that no run names. -/
def Version.garbageCollect (v : Version) (dir : SstDir) : SstDir := fun id =>
  if id < v.nextSstId ∧ id ∉ v.liveFiles then none else dir id

/-! ### Files of edits -/

section Files

variable (crc : Bytes → UInt32)

def Holds (file : Option Bytes) (edits : List ManifestEdit) : Prop :=
  (∀ e ∈ edits, e.encode.length < 2 ^ 32) ∧
    (file = none ∧ edits = [] ∨ file = some (contents crc manifestEditCodec edits []))

variable {crc}

variable {edits : List ManifestEdit}

theorem Holds.file {file : Bytes} (h : Holds crc (some file) edits) :
    file = contents crc manifestEditCodec edits [] := by
  rcases h.2 with ⟨hnone, -⟩ | hsome
  · exact absurd hnone (by simp)
  · exact Option.some.inj hsome

theorem foldEdits_ok (v : Version) (edits : List ManifestEdit) :
    foldEdits v (edits.map .ok) = .ok (edits.foldl Version.apply v) := by
  induction edits generalizing v with
  | nil => rfl
  | cons e edits ih => exact ih (v.apply e)

theorem replayVersion_contents
    (h : ∀ e ∈ edits, e.encode.length < 2 ^ 32) {tail : Bytes} (htail : TornTail crc tail) :
    replayVersion crc (contents crc manifestEditCodec edits tail)
      = .ok (Version.ofEdits edits) := by
  have hlawful (e : ManifestEdit) (he : e ∈ edits) : manifestEditCodec.Lawful e :=
    manifestEditCodec_lawful (ManifestEdit.fits_of_length (h e he))
  rw [replayVersion, replay_contents (fun e he => ⟨h e he, hlawful e he⟩) htail]
  exact foldEdits_ok {} edits

theorem Holds.withCodec {file : Option Bytes} (h : Holds crc file edits) :
    ∃ j, Journal.withCodec file = .ok j ∧ j.file = contents crc manifestEditCodec edits [] := by
  rcases h.2 with ⟨rfl, rfl⟩ | rfl
  · rw [Journal.contents_nil]
    exact Journal.withCodec_of_empty rfl
  · exact Journal.withCodec_contents crc manifestEditCodec edits []

theorem open_of_journal {n : Nat} {files : Nat → Option Bytes} {j : Journal} {v : Version}
    (hj : Journal.withCodec (files n) = .ok j) (hv : replayVersion crc j.file = .ok v) :
    ManifestManager.open crc { current := some n, files } =
      .ok { current := n, journal := j, version := v, others := update files n none } := by
  simp only [ManifestManager.open, hj, hv, Except.mapError, bind, Except.bind]

/-- **Reopening** the active file gives the fold of its edits. -/
theorem open_of_holds {n : Nat} (files : Nat → Option Bytes) (h : Holds crc (files n) edits) :
    ∃ m, ManifestManager.open crc { current := some n, files } = .ok m ∧ m.current = n ∧
      m.journal.file = contents crc manifestEditCodec edits [] ∧
      m.version = Version.ofEdits edits ∧ m.others = update files n none := by
  obtain ⟨j, hj, hfile⟩ := h.withCodec
  have hversion : replayVersion crc j.file = .ok (Version.ofEdits edits) := by
    rw [hfile]
    exact replayVersion_contents h.1 (tornTail_nil crc)
  exact ⟨_, open_of_journal hj hversion, rfl, hfile, rfl, rfl⟩

variable {m : ManifestManager}

theorem open_dir (h : Holds crc (some m.journal.file) edits) :
    ∃ m', ManifestManager.open crc m.dir = .ok m' ∧ m'.version = Version.ofEdits edits := by
  have hfile : Holds crc (m.dir.files m.current) edits := by simpa [ManifestManager.dir] using h
  obtain ⟨m', hopen, -, -, hversion, -⟩ := open_of_holds m.dir.files hfile
  exact ⟨m', hopen, hversion⟩

theorem holds_commit
    (h : Holds crc (some m.journal.file) edits) (hsize : edit.encode.length < 2 ^ 32) :
    Holds crc (some (m.commit crc edit).journal.file) (edits ++ [edit]) := by
  refine ⟨?_, Or.inr (congrArg some (Journal.append_contents h.file edit))⟩
  intro e he
  rcases List.mem_append.mp he with he | he
  · exact h.1 e he
  · rwa [List.mem_singleton.mp he]

theorem freshJournal_ok (h : Holds crc (m.others (m.current + 1)) edits)
    (hlt : m.current + 1 < 2 ^ 64) : ∃ fresh, m.freshJournal crc = .ok fresh := by
  obtain ⟨j, hj, -⟩ := h.withCodec
  refine ⟨Journal.append crc manifestEditCodec j m.version.toSnapshot, ?_⟩
  rw [ManifestManager.freshJournal, if_neg (by omega), hj]
  rfl

theorem freshJournal_of_holds {fresh : Journal}
    (h : Holds crc (m.others (m.current + 1)) edits) (hfresh : m.freshJournal crc = .ok fresh) :
    fresh.file = contents crc manifestEditCodec (edits ++ [m.version.toSnapshot]) [] := by
  obtain ⟨j, hj, hfile⟩ := h.withCodec
  unfold ManifestManager.freshJournal at hfresh
  split_ifs at hfresh
  simp only [hj, Except.mapError, bind, Except.bind] at hfresh
  rw [← Except.ok.inj hfresh]
  exact Journal.append_contents hfile _

theorem ofEdits_snoc_toSnapshot (h : (Version.ofEdits edits).runs = [])
    (v : Version) : Version.ofEdits (edits ++ [v.toSnapshot]) = v := by
  rw [Version.ofEdits_snoc, Version.apply_toSnapshot, h, List.nil_append]

theorem holds_fresh {fresh : Journal}
    (h : Holds crc (m.others (m.current + 1)) edits)
    (hsize : m.version.toSnapshot.encode.length < 2 ^ 32)
    (hfresh : m.freshJournal crc = .ok fresh) :
    Holds crc (some fresh.file) (edits ++ [m.version.toSnapshot]) := by
  refine ⟨?_, Or.inr (by rw [freshJournal_of_holds h hfresh])⟩
  intro e he
  rcases List.mem_append.mp he with he | he
  · exact h.1 e he
  · rwa [List.mem_singleton.mp he]

/-! ### A manager without crashes behind it -/

/-- The active file folds to the version, and no later file exists. -/
structure ManifestManager.Sound (crc : Bytes → UInt32) (m : ManifestManager) : Prop where
  active : ∃ edits, Holds crc (some m.journal.file) edits ∧ Version.ofEdits edits = m.version
  newest : ∀ n, m.current < n → m.others n = none

theorem ManifestManager.Sound.commit (h : m.Sound crc)
    (hsize : edit.encode.length < 2 ^ 32) : (m.commit crc edit).Sound crc := by
  obtain ⟨edits, hholds, hfold⟩ := h.active
  refine ⟨⟨edits ++ [edit], holds_commit hholds hsize, ?_⟩, h.newest⟩
  rw [Version.ofEdits_snoc, hfold]
  rfl

theorem ManifestManager.Sound.next (h : m.Sound crc) : Holds crc (m.others (m.current + 1)) [] :=
  ⟨by simp, Or.inl ⟨h.newest _ (Nat.lt_succ_self _), rfl⟩⟩

theorem ManifestManager.Sound.checkpoint {m' : ManifestManager} (h : m.Sound crc)
    (hsize : m.version.toSnapshot.encode.length < 2 ^ 32) (hm : m.checkpoint crc = .ok m') :
    m'.Sound crc ∧ m'.version = m.version := by
  obtain ⟨fresh, hfresh, hm⟩ := bind_eq_ok.mp hm
  obtain rfl := Except.ok.inj hm
  refine ⟨⟨⟨_, holds_fresh h.next hsize hfresh, ofEdits_snoc_toSnapshot rfl _⟩, ?_⟩, rfl⟩
  intro n hn
  have hn' : m.current + 1 < n := hn
  simpa [hn'.ne'] using h.newest n (by omega)

theorem ManifestManager.Sound.reopen {m : ManifestManager} (h : m.Sound crc) :
    ∃ m', ManifestManager.open crc m.dir = .ok m' ∧ m'.Sound crc ∧ m'.version = m.version := by
  obtain ⟨edits, hholds, hfold⟩ := h.active
  have hfile : Holds crc (m.dir.files m.current) edits := by
    simpa [ManifestManager.dir] using hholds
  obtain ⟨m', hopen, hcurrent, hfile', hversion, hothers⟩ := open_of_holds m.dir.files hfile
  refine ⟨m', hopen, ⟨⟨edits, ⟨hholds.1, Or.inr (by rw [hfile'])⟩, hversion.symm⟩, ?_⟩,
    hversion.trans hfold⟩
  intro n hn
  rw [hcurrent] at hn
  simpa [hothers, ManifestManager.dir, hn.ne'] using h.newest n hn

/-- The directory after a crash inside `commit` that let the first `n` bytes of the
    frame through. -/
def ManifestManager.commitCrash (crc : Bytes → UInt32) (m : ManifestManager) (edit : ManifestEdit)
    (n : Nat) : ManifestDir where
  current := some m.current
  files := update m.others m.current
    (some (m.journal.file ++ (writeFrame crc edit.encode).take n))

/-- **A commit is atomic**: a crash inside it leaves the version before or, with the
    whole frame on disk, the one after. -/
theorem ManifestManager.Sound.open_commitCrash (h : m.Sound crc)
    (hsize : edit.encode.length < 2 ^ 32) (n : Nat) :
    ∃ m', ManifestManager.open crc (m.commitCrash crc edit n) = .ok m' ∧
      (n < (writeFrame crc edit.encode).length ∧ m'.version = m.version ∨
        (writeFrame crc edit.encode).length ≤ n ∧ m'.version = m.version.apply edit) := by
  rcases Nat.lt_or_ge n (writeFrame crc edit.encode).length with hn | hn
  · -- a torn frame is not read
    obtain ⟨edits, hholds, hfold⟩ := h.active
    have htail : TornTail crc ((writeFrame crc edit.encode).take n) := ⟨_, n, hsize, hn, rfl⟩
    have hfile : m.journal.file ++ (writeFrame crc edit.encode).take n =
        contents crc manifestEditCodec edits ((writeFrame crc edit.encode).take n) := by
      rw [hholds.file]
      simp [contents]
    obtain ⟨j, hj, hjfile⟩ := Journal.withCodec_contents crc manifestEditCodec edits
      ((writeFrame crc edit.encode).take n)
    have hversion : replayVersion crc j.file = .ok (Version.ofEdits edits) := by
      rw [hjfile]
      exact replayVersion_contents hholds.1 htail
    refine ⟨_, open_of_journal ?_ hversion, Or.inl ⟨hn, hfold⟩⟩
    rw [Function.update_self, hfile]
    exact hj
  · have hdir : m.commitCrash crc edit n = (m.commit crc edit).dir := by
      have hfile : (m.commit crc edit).journal.file =
          m.journal.file ++ writeFrame crc edit.encode :=
            Journal.append_file crc manifestEditCodec _ _
      rw [commitCrash, List.take_of_length_le hn, ← hfile]
      rfl
    obtain ⟨m', hopen, -, hversion⟩ := (h.commit hsize).reopen
    exact ⟨m', hdir ▸ hopen, Or.inr ⟨hn, hversion⟩⟩

def ManifestManager.created (j : Journal) : ManifestManager where
  current := 0
  journal := j
  version := {}
  others := fun _ => none

theorem open_empty (crc : Bytes → UInt32) : ∃ j : Journal, j.file = Journal.header ∧
    ManifestManager.open crc {} = .ok (.created j) := by
  obtain ⟨j, hj, hfile⟩ :=
    Journal.withCodec_of_empty (show (none : Option Bytes).getD [] = [] from rfl)
  refine ⟨j, hfile, ?_⟩
  have hothers : update (fun _ => none) 0 none = fun _ : Nat => (none : Option Bytes) :=
    Function.update_eq_self 0 _
  simp only [ManifestManager.open, hj, Except.mapError, bind, Except.bind, hothers,
    ManifestManager.created]

theorem sound_open_empty (h : ManifestManager.open crc {} = .ok m) :
    m.Sound crc ∧ m.version = {} := by
  obtain ⟨j, hfile, hopen⟩ := open_empty crc
  obtain rfl := Except.ok.inj (hopen.symm.trans h)
  refine ⟨⟨⟨[], ⟨by simp, Or.inr ?_⟩, rfl⟩, fun _ _ => rfl⟩, rfl⟩
  rw [Journal.contents_nil, ← hfile]
  rfl

end Files

end StrataDb.Lsm
