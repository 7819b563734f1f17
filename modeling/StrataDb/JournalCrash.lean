import StrataDb.Crc
import StrataDb.Journal
import StrataDb.Runs

/-!
# The journal over repeated crashes

A crash during creation leaves a prefix of the header, a crash during an append a prefix of its
frame. A reader is owed every record whose append returned since the last truncation (`Yields`).
The code does not keep this (`journal_forgets`): a partial header blocks every later open, and
what is appended behind a torn frame is never read. Away from these it holds (`journal_durable`).
-/

namespace StrataDb.Journal

open ByteCodec Runs
open Crc (crc32)
open List (mem_append mem_append_left mem_singleton replicate)

/-! ### Events and states -/

/-- What can happen to a journal file.  `openCrash n` is an open cut short after `n`
    bytes of a new header, `appendCrash r n` an append cut short after `n` bytes of
    the frame, `closed` the loss of the handle (a drop, or a crash in between). -/
inductive Event (R : Type) where
  | opened
  | openCrash (n : Nat)
  | append (r : R)
  | appendCrash (r : R) (n : Nat)
  | truncate
  | closed
deriving DecidableEq, Repr

inductive State where
  | disk (file : Option Bytes)
  | handle (j : Journal)

section System

variable {R : Type} (crc : Bytes → UInt32) (c : Codec R)

/-- One event.  An open that fails has no step: the file stays as it is. -/
inductive Step : State → Event R → State → Prop
  | opened {file : Option Bytes} {j : Journal} (h : withCodec file = .ok j) :
      Step (.disk file) .opened (.handle j)
  | createCrash {file : Option Bytes} {n : Nat} (h : file.getD [] = []) :
      Step (.disk file) (.openCrash n) (.disk (some (header.take n)))
  | verifyCrash {file : Option Bytes} {n : Nat} (h : file.getD [] ≠ []) :
      Step (.disk file) (.openCrash n) (.disk file)
  | append {j : Journal} {r : R} :
      Step (.handle j) (.append r) (.handle (append crc c j r))
  | appendCrash {j : Journal} {r : R} {n : Nat} :
      Step (.handle j) (.appendCrash r n)
        (.disk (some (j.file ++ (writeFrame crc (c.encode r)).take n)))
  | truncate {j : Journal} : Step (.handle j) .truncate (.handle (truncate j))
  | closed {j : Journal} : Step (.handle j) .closed (.disk (some j.file))

/-! ### What a reader is owed -/

/-- A record in the journal: acknowledged, or written by an append that a crash
    cut short. -/
inductive Entry (R : Type) where
  | acked (r : R)
  | interrupted (r : R)
deriving DecidableEq, Repr

def journalled : List (Event R) → List (Entry R) :=
  List.foldl (fun entries e => match e with
    | .append r => entries ++ [.acked r]
    | .appendCrash r _ => entries ++ [.interrupted r]
    | .truncate => []
    | _ => entries) []

def Entry.record : Entry R → R
  | .acked r => r
  | .interrupted r => r

/-- The records of the appends in a history, cut short or not. -/
def appended (es : List (Event R)) : List R :=
  es.filterMap fun
    | .append r => some r
    | .appendCrash r _ => some r
    | _ => none

/-- `rs` holds every acknowledged record in order, and each interrupted one either
    in its place or not at all. -/
inductive Yields : List (Entry R) → List R → Prop
  | nil : Yields [] []
  | acked {es : List (Entry R)} {rs : List R} (r : R) :
      Yields es rs → Yields (es ++ [.acked r]) (rs ++ [r])
  | kept {es : List (Entry R)} {rs : List R} (r : R) :
      Yields es rs → Yields (es ++ [.interrupted r]) (rs ++ [r])
  | lost {es : List (Entry R)} {rs : List R} (r : R) :
      Yields es rs → Yields (es ++ [.interrupted r]) rs

def State.file : State → Option Bytes
  | .disk file => file
  | .handle j => some j.file

/-- **Durability** after the history `es` in state `s`: an open succeeds, and replay
    gives the records the history owes its reader. -/
def Durable (es : List (Event R)) (s : State) : Prop :=
  ∃ j rs, withCodec s.file = .ok j ∧ replay crc c j.file = rs.map .ok ∧
    Yields (journalled es) rs

/-! ### The runs that keep it -/

/-- The condition on one step: a crash during creation leaves no partial header; an
    append encodes to less than 4 GiB and starts where replay stops reading. -/
def Clean : State → Event R → Prop
  | .disk file, .openCrash n => file.getD [] = [] → n = 0 ∨ HEADER_LEN ≤ n
  | .handle j, .append r =>
      (c.encode r).length < 2 ^ 32 ∧ replayEnd crc j.file = j.file.length
  | .handle j, .appendCrash r _ =>
      (c.encode r).length < 2 ^ 32 ∧ replayEnd crc j.file = j.file.length
  | _, _ => True

def CleanStep (s : State) (e : Event R) (s' : State) : Prop :=
  Step crc c s e s' ∧ Clean crc c s e

/-- What clean steps keep: the file is still to be created, or it holds the frames of
    a list the history allows, and after them at most a torn frame. -/
inductive Framed (es : List (Event R)) : State → Prop
  | fresh {file : Option Bytes} (h : file.getD [] = []) (hy : Yields (journalled es) []) :
      Framed es (.disk file)
  | frames {s : State} (rs : List R) (tail : Bytes) (hfile : s.file = some (contents crc c rs tail))
      (hsmall : ∀ r ∈ rs, (c.encode r).length < 2 ^ 32) (htail : TornTail crc tail)
      (hy : Yields (journalled es) rs) : Framed es s

variable {crc c}

/-- An append that starts where replay stops has no torn frame before it. -/
theorem tail_nil_of_replayEnd {rs : List R} (hsmall : ∀ r ∈ rs, (c.encode r).length < 2 ^ 32)
    {tail : Bytes} (htail : TornTail crc tail)
    (hend : replayEnd crc (contents crc c rs tail) = (contents crc c rs tail).length) :
    tail = [] := by
  rw [replayEnd, payloads_contents hsmall htail] at hend
  simp only [contents, List.length_append, length_header] at hend
  exact List.length_eq_zero_iff.mp (by omega)

theorem journalled_snoc (es : List (Event R)) (e : Event R) :
    journalled (es ++ [e]) = match e with
      | .append r => journalled es ++ [.acked r]
      | .appendCrash r _ => journalled es ++ [.interrupted r]
      | .truncate => []
      | _ => journalled es := by
  simp [journalled, List.foldl_append]

theorem Framed.handle_file {es : List (Event R)} {j : Journal} (h : Framed crc c es (.handle j)) :
    ∃ rs tail, j.file = contents crc c rs tail ∧ (∀ r ∈ rs, (c.encode r).length < 2 ^ 32) ∧
      TornTail crc tail ∧ Yields (journalled es) rs := by
  cases h with
  | frames rs tail hfile hsmall htail hy =>
    exact ⟨rs, tail, Option.some.inj hfile, hsmall, htail, hy⟩

theorem Framed.whole_file {es : List (Event R)} {j : Journal} (h : Framed crc c es (.handle j))
    (hend : replayEnd crc j.file = j.file.length) :
    ∃ rs, j.file = contents crc c rs [] ∧ (∀ r ∈ rs, (c.encode r).length < 2 ^ 32) ∧
      Yields (journalled es) rs := by
  obtain ⟨rs, tail, hfile, hsmall, htail, hy⟩ := h.handle_file
  rw [hfile] at hend
  obtain rfl : tail = [] := tail_nil_of_replayEnd hsmall htail hend
  exact ⟨rs, hfile, hsmall, hy⟩

private theorem small_snoc {rs : List R} {r : R} (hsmall : ∀ r ∈ rs, (c.encode r).length < 2 ^ 32)
    (hr : (c.encode r).length < 2 ^ 32) : ∀ q ∈ rs ++ [r], (c.encode q).length < 2 ^ 32 := by
  intro q hq
  rcases mem_append.mp hq with hq | hq
  · exact hsmall q hq
  · rw [mem_singleton.mp hq]
    exact hr

theorem Framed.step {es : List (Event R)} {s s' : State} {e : Event R} (h : Framed crc c es s)
    (hstep : CleanStep crc c s e s') : Framed crc c (es ++ [e]) s' := by
  obtain ⟨hstep, hclean⟩ := hstep
  cases hstep with
  | opened hopen =>
    cases h with
    | fresh hempty hy =>
      -- the header is written now
      obtain ⟨j, hj, hfile⟩ := withCodec_of_empty hempty
      obtain rfl : j = _ := Except.ok.inj (hj.symm.trans hopen)
      refine .frames [] [] ?_ (by simp) (tornTail_nil crc) ?_
      · rw [State.file, hfile, contents_nil]
      · rw [journalled_snoc]; exact hy
    | frames rs tail hdisk hsmall htail hy =>
      obtain ⟨j, hj, hfile⟩ := withCodec_contents crc c rs tail
      rw [State.file] at hdisk
      subst hdisk
      obtain rfl : j = _ := Except.ok.inj (hj.symm.trans hopen)
      refine .frames rs tail (by rw [State.file, hfile]) hsmall htail ?_
      rw [journalled_snoc]; exact hy
  | createCrash hempty =>
    cases h with
    | fresh _ hy =>
      rcases hclean hempty with rfl | hn
      · exact .fresh (by simp) (by rw [journalled_snoc]; exact hy)
      · refine .frames [] [] ?_ (by simp) (tornTail_nil crc) ?_
        · rw [State.file, List.take_of_length_le (by simpa using hn), contents_nil]
        · rw [journalled_snoc]; exact hy
    | frames rs tail hdisk _ _ _ =>
      rw [State.file] at hdisk
      subst hdisk
      exact absurd hempty (contents_ne_nil crc c rs tail)
  | verifyCrash hne =>
    cases h with
    | fresh hempty _ => exact absurd hempty hne
    | frames rs tail hdisk hsmall htail hy =>
      exact .frames rs tail hdisk hsmall htail (by rw [journalled_snoc]; exact hy)
  | @append j r =>
    obtain ⟨rs, hfile, hsmall, hy⟩ := h.whole_file hclean.2
    refine .frames (rs ++ [r]) [] ?_ (small_snoc hsmall hclean.1)
      (tornTail_nil crc) ?_
    · rw [State.file, append_contents hfile]
    · rw [journalled_snoc]; exact hy.acked r
  | @appendCrash j r n =>
    obtain ⟨rs, hfile, hsmall, hy⟩ := h.whole_file hclean.2
    by_cases hn : n < (writeFrame crc (c.encode r)).length
    · refine .frames rs ((writeFrame crc (c.encode r)).take n) ?_ hsmall
        ⟨_, n, hclean.1, hn, rfl⟩ ?_
      · rw [State.file, hfile]
        simp [contents]
      · rw [journalled_snoc]; exact hy.lost r
    · -- the whole frame reached the disk
      refine .frames (rs ++ [r]) [] ?_ (small_snoc hsmall hclean.1)
        (tornTail_nil crc) ?_
      · rw [State.file, List.take_of_length_le (Nat.not_lt.mp hn), hfile, ← contents_snoc,
          List.append_nil]
      · rw [journalled_snoc]; exact hy.kept r
  | @truncate j =>
    obtain ⟨rs, tail, hfile, _, _, _⟩ := h.handle_file
    refine .frames [] [] ?_ (by simp) (tornTail_nil crc) ?_
    · rw [State.file, truncate_contents hfile]
    · rw [journalled_snoc]; exact .nil
  | closed =>
    obtain ⟨rs, tail, hfile, hsmall, htail, hy⟩ := h.handle_file
    refine .frames rs tail (by rw [State.file, hfile]) hsmall htail ?_
    rw [journalled_snoc]; exact hy

theorem Yields.mem_entries {es : List (Entry R)} {rs : List R} (h : Yields es rs) :
    ∀ r ∈ rs, ∃ e ∈ es, e.record = r := by
  induction h with
  | nil => simp
  | acked r _ ih | kept r _ ih =>
    intro q hq
    rcases mem_append.mp hq with hq | hq
    · obtain ⟨e, he, rfl⟩ := ih q hq
      exact ⟨e, mem_append_left _ he, rfl⟩
    · exact ⟨_, List.mem_append_right _ List.mem_cons_self, (mem_singleton.mp hq).symm⟩
  | lost r _ ih =>
    intro q hq
    obtain ⟨e, he, rfl⟩ := ih q hq
    exact ⟨e, mem_append_left _ he, rfl⟩

theorem record_mem_appended (es : List (Event R)) :
    ∀ e ∈ journalled es, e.record ∈ appended es := by
  induction es using List.reverseRecOn with
  | nil => simp [journalled]
  | append_singleton es event ih =>
    intro e he
    rw [appended, List.filterMap_append]
    rw [journalled_snoc] at he
    cases event <;> simp only [mem_append, mem_singleton, List.not_mem_nil] at he
    case append r | appendCrash r n =>
      rcases he with he | rfl
      · exact mem_append_left _ (ih e he)
      · exact List.mem_append_right _ List.mem_cons_self
    all_goals exact mem_append_left _ (ih e he)

theorem Framed.durable {es : List (Event R)} (hc : ∀ r ∈ appended es, c.Lawful r) {s : State}
    (h : Framed crc c es s) : Durable crc c es s := by
  cases h with
  | fresh hempty hy =>
    obtain ⟨j, hj, hfile⟩ := withCodec_of_empty hempty
    refine ⟨j, [], hj, ?_, hy⟩
    rw [hfile, ← contents_nil crc c]
    exact replay_contents (by simp) (tornTail_nil crc)
  | frames rs tail hdisk hsmall htail hy =>
    obtain ⟨j, hj, hfile⟩ := withCodec_contents crc c rs tail
    refine ⟨j, rs, by rw [hdisk]; exact hj, ?_, hy⟩
    rw [hfile]
    refine replay_contents (fun r hr => ⟨hsmall r hr, ?_⟩) htail
    obtain ⟨e, he, rfl⟩ := hy.mem_entries r hr
    exact hc _ (record_mem_appended es e he)

/-- **Durability over repeated crashes.**  From no file at all, in every state of
    every run whose steps are clean, the next open succeeds and replays every
    acknowledged record since the last truncation, in order. -/
theorem journal_durable {es : List (Event R)} (hc : ∀ r ∈ appended es, c.Lawful r) {s : State}
    (h : Run (CleanStep crc c) (.disk none) es s) : Durable crc c es s := by
  have hframed : Framed crc c es s :=
    h.history (.fresh rfl .nil) (fun _ _ _ _ hP hstep => hP.step hstep)
  exact hframed.durable hc

end System

/-- A clean run with a torn frame in it: it is truncated away before the next append. -/
theorem journal_durable_after_torn_append : ∃ s,
    Run (CleanStep crc32 bytesCodec) (.disk none)
      [.opened, .append [7], .appendCrash [1, 2, 3] 9, .opened, .truncate, .append [9]] s ∧
    Durable crc32 bytesCodec
      [.opened, .append [7], .appendCrash [1, 2, 3] 9, .opened, .truncate, .append [9]] s := by
  obtain ⟨j, hj, hfile⟩ := withCodec_of_empty (show (none : Option Bytes).getD [] = [] from rfl)
  have hfile' : (append crc32 bytesCodec j [7]).file = header ++ writeFrame crc32 [7] := by
    rw [append_file, hfile]; rfl
  obtain ⟨k, hk, hkfile⟩ := withCodec_of_verified (verifyHeader_header_append
    (writeFrame crc32 [7] ++ (writeFrame crc32 [1, 2, 3]).take 9))
  rw [← List.append_assoc, ← hfile'] at hk
  have hcut : (truncate k).file = header := by
    rw [truncate_file, hkfile, ← length_header, List.take_left]
  have hclean₁ : Clean crc32 bytesCodec (.handle j) (.append [7]) := by
    refine ⟨by decide, ?_⟩
    rw [hfile]; decide
  have hclean₂ : Clean crc32 bytesCodec (.handle (append crc32 bytesCodec j [7]))
      (.appendCrash [1, 2, 3] 9) := by
    refine ⟨by decide, ?_⟩
    rw [hfile']; decide +kernel
  have hclean₃ : Clean crc32 bytesCodec (.handle (truncate k)) (.append [9]) := by
    refine ⟨by decide, ?_⟩
    rw [hcut]; decide
  have hrun : Run (CleanStep crc32 bytesCodec) (.disk none)
      [.opened, .append [7], .appendCrash [1, 2, 3] 9, .opened, .truncate, .append [9]]
      (.handle (append crc32 bytesCodec (truncate k) [9])) :=
    (((((Run.nil.snoc ⟨.opened hj, trivial⟩).snoc ⟨.append, hclean₁⟩).snoc
      ⟨.appendCrash, hclean₂⟩).snoc ⟨.opened hk, trivial⟩).snoc ⟨.truncate, trivial⟩).snoc
      ⟨.append, hclean₃⟩
  exact ⟨_, hrun, journal_durable (fun r _ => bytesCodec_lawful r) hrun⟩

/-! ### The runs that break it -/

theorem Yields.mem_of_acked {R : Type} {es : List (Entry R)} {rs : List R} {r : R}
    (h : Yields es rs) (hr : .acked r ∈ es) : r ∈ rs := by
  induction h with
  | nil => cases hr
  | acked q _ ih =>
    rcases mem_append.mp hr with hr | hr
    · exact mem_append_left _ (ih hr)
    · cases mem_singleton.mp hr
      simp
  | kept q _ ih =>
    rcases mem_append.mp hr with hr | hr
    · exact mem_append_left _ (ih hr)
    · cases mem_singleton.mp hr
  | lost q _ ih =>
    rcases mem_append.mp hr with hr | hr
    · exact ih hr
    · cases mem_singleton.mp hr

/-- **Two ways to lose the journal.**  A crash after three bytes of the first header
    makes every later open fail; and a record appended behind the first eight bytes
    of a torn frame is acknowledged and never replayed. -/
theorem journal_forgets :
    (∃ s, Run (Step crc32 bytesCodec) (.disk none) [.openCrash 3] s ∧
      withCodec s.file = .error (.io .unexpectedEof)) ∧
    (∃ s, Run (Step crc32 bytesCodec) (.disk none)
        [.opened, .appendCrash (replicate 20 0) 8, .opened, .append [7]] s ∧
      ¬ Durable crc32 bytesCodec
        [.opened, .appendCrash (replicate 20 0) 8, .opened, .append [7]] s) := by
  constructor
  · exact ⟨_, Run.nil.snoc (.createCrash rfl), rfl⟩
  · -- the file the crash leaves: a header, and a frame header that promises 20 bytes
    obtain ⟨j, hj, hfile⟩ := withCodec_of_empty (show (none : Option Bytes).getD [] = [] from rfl)
    obtain ⟨k, hk, hfile'⟩ := withCodec_of_verified (verifyHeader_header_append
      ((writeFrame crc32 (replicate 20 0)).take 8))
    rw [← hfile] at hk
    refine ⟨_, (((Run.nil.snoc (.opened hj)).snoc .appendCrash).snoc (.opened hk)).snoc .append, ?_⟩
    rintro ⟨j', rs, hj', hreplay, hy⟩
    have hfile'' : j'.file = header ++ (writeFrame crc32 (replicate 20 0)).take 8 ++
        writeFrame crc32 [7] := by
      have hne : k.file ++ writeFrame crc32 [7] ≠ [] := by simp [hfile', header, beBytes]
      rw [withCodec_some hne (by simpa [State.file, bytesCodec] using hj'), hfile']
    have hnone : replay crc32 bytesCodec j'.file = [] := by
      rw [hfile'']
      decide +kernel
    have hrs : rs = [] := by simpa [hnone] using hreplay.symm
    have hmem : [7] ∈ rs := hy.mem_of_acked (by decide)
    simp [hrs] at hmem

end StrataDb.Journal
