import StrataDb.LsmRefinement

/-!
# Writes the tree refuses

A full memtable refuses a write. The open tree still reads as the map of the accepted writes, but
the record stays in the journal until the next flush: reopening with the same capacity works
exactly when no write was refused since (`rejected_writes`).
-/

namespace StrataDb.Lsm

open ByteCodec Runs
open Crc (crc32)
open FastBloom (full)

/-! ### Attempts -/

inductive Attempt where
  | call (e : LsmEvent)
  | refused (w : Write)
deriving DecidableEq, Repr

def Attempt.toCall : Attempt → Option LsmEvent
  | .call e => some e
  | .refused _ => none

def accepted (as : List Attempt) : List Write := writes (as.filterMap Attempt.toCall)

def refusedSinceFlush (as : List Attempt) : Bool :=
  as.foldl (fun refused a =>
    match a with
    | .refused _ => true
    | .call e => e.refusedAfter refused) false

section System

variable (B : FastBloom) (crc : Bytes → UInt32)

/-- The journal can be replayed into a memtable of the tree's capacity. -/
def Replays (t : Lsm) : Prop :=
  ∃ j, Journaled.open crc (some t.mem.journal.file) (.withCapacity t.mem.inner.capacity) = .ok j

/-- One attempt.  The capacity changes at a reopen only, and only while the journal
    replays with the old one. -/
inductive AttemptStep : Lsm → Attempt → Lsm → Prop
  | call {t t' : Lsm} {e : LsmEvent} (h : LsmFitStep B crc t e t')
      (hsame : ∀ config capacity, e = .reopen config capacity →
        capacity = t.mem.inner.capacity ∨ t.Replays crc) : AttemptStep t (.call e) t'
  | refused {t t' : Lsm} {w : Write} {e : LsmError}
      (h : t.write crc w.1 (w.2.getD []) (opOf w.2) = (.error (.error e), t'))
      (hsmall : (t.record w.1 (w.2.getD []) (opOf w.2)).encode.length < 2 ^ 32) :
      AttemptStep t (.refused w) t'

variable {B crc}

theorem accepted_snoc_call (as : List Attempt) (e : LsmEvent) :
    accepted (as ++ [.call e]) = writes (as.filterMap Attempt.toCall ++ [e]) := by
  rw [accepted, List.filterMap_append]
  rfl

theorem accepted_snoc_refused (as : List Attempt) (w : Write) :
    accepted (as ++ [.refused w]) = accepted as := by
  rw [accepted, List.filterMap_append]
  exact congrArg writes (List.append_nil _)

theorem refusedSinceFlush_snoc (as : List Attempt) (a : Attempt) :
    refusedSinceFlush (as ++ [a]) =
      match a with
      | .refused _ => true
      | .call e => e.refusedAfter (refusedSinceFlush as) := by
  rw [refusedSinceFlush, List.foldl_append]
  rfl

/-! ### Steps -/

/-- A refused record in the journal is refused again when it is replayed. -/
theorem Inv.not_replays {ws : List Write} {lo : Nat} {t : Lsm} (h : Inv B crc ws lo true t) :
    ¬ t.Replays crc := by
  rintro ⟨j, hj⟩
  obtain ⟨records, hlogs, hstate⟩ := h.journal
  obtain ⟨journal, -, hopen⟩ := Journaled.open_contents hlogs.small (Journal.tornTail_nil crc)
    (.withCapacity t.mem.inner.capacity)
  cases hstate with
  | stuck hreplay _ =>
    rw [hlogs.file, hopen, hreplay] at hj
    cases hj

def AttemptInv (B : FastBloom) (crc : Bytes → UInt32) (as : List Attempt) (t : Lsm) : Prop :=
  ∃ lo, Inv B crc (accepted as) lo (refusedSinceFlush as) t

theorem AttemptInv.step {as : List Attempt} {a : Attempt} {t t' : Lsm} (h : AttemptInv B crc as t)
    (hstep : AttemptStep B crc t a t') : AttemptInv B crc (as ++ [a]) t' := by
  obtain ⟨lo, hinv⟩ := h
  cases hstep with
  | @call _ e hcall hsame =>
    rw [AttemptInv, accepted_snoc_call, refusedSinceFlush_snoc]
    refine hinv.step hcall ?_
    -- with a refused record in the journal the reopen would have failed
    rintro config capacity rfl
    cases hrefused : refusedSinceFlush as with
    | false => rfl
    | true =>
      rw [hrefused] at hinv
      rcases hsame config capacity rfl with rfl | hreplays
      · cases hcall.1 with
        | reopen hopen =>
          rw [hinv.reopen_error] at hopen
          cases hopen
      · exact absurd hreplays hinv.not_replays
  | @refused _ w e hw hsmall =>
    rw [record_eq_logEntry hinv.seq] at hsmall
    rw [AttemptInv, accepted_snoc_refused, refusedSinceFlush_snoc]
    exact ⟨lo, hinv.refuse hsmall hw⟩

theorem attemptInv_of_run {config : LsmConfig} {capacity : Nat} {t₀ t : Lsm} {as : List Attempt}
    (hlevels : 0 < config.numLevels % 2 ^ 32)
    (hopen : withMemtable crc {} config (.withCapacity capacity) = .ok t₀)
    (hrun : Run (AttemptStep B crc) t₀ as t) : AttemptInv B crc as t :=
  hrun.history ⟨0, inv_create hlevels hopen⟩ (fun _ _ _ _ h hstep => h.step hstep)

/-- **Refused writes.**  After any calls and refusals the tree reads as the map of the
    accepted writes; reopening it with its capacity gives that map again exactly when
    no write was refused since the last flush, and else fails. -/
theorem rejected_writes {config config' : LsmConfig} {capacity : Nat} {t₀ t : Lsm}
    {as : List Attempt} (hlevels : 0 < config.numLevels % 2 ^ 32)
    (hlevels' : 0 < config'.numLevels % 2 ^ 32)
    (hopen : withMemtable crc {} config (.withCapacity capacity) = .ok t₀)
    (hrun : Run (AttemptStep B crc) t₀ as t) :
    Serves B (accepted as) t ∧
    ((∃ t', withMemtable crc t.disk config' (.withCapacity t.mem.inner.capacity) = .ok t' ∧
        Serves B (accepted as) t') ↔ refusedSinceFlush as = false) := by
  obtain ⟨lo, hinv⟩ := attemptInv_of_run hlevels hopen hrun
  refine ⟨hinv.toLayered.serves, ?_⟩
  cases hrefused : refusedSinceFlush as with
  | false =>
    rw [hrefused] at hinv
    obtain ⟨t', hreopen, -⟩ := hinv.reopen_ok config'
    exact iff_of_true ⟨t', hreopen, (hinv.reopen hlevels' hreopen).toLayered.serves⟩ rfl
  | true =>
    rw [hrefused] at hinv
    refine iff_of_false ?_ Bool.noConfusion
    rintro ⟨t', hreopen, -⟩
    rw [hinv.reopen_error] at hreopen
    cases hreopen

end System

/-! ### The shortest run -/

theorem exists_refused : ∃ t₀ t, withMemtable crc32 {} smallPages (.withCapacity 2) = .ok t₀ ∧
    Run (AttemptStep full crc32) t₀
      [.call (.put [1] [2]), .refused ([3], some [4])] t ∧
    t.mem.inner.entries = [logEntry 0 ([1], some [2])] ∧
    t.manifest.version.nextSstId = 0 ∧ t.config = smallPages ∧ t.mem.inner.capacity = 2 := by
  obtain ⟨t₀, hopen, hconfig, -, hmem, hversion, hseq⟩ := create_ok crc32 smallPages 2
  have hmax : t₀.seq ≠ U64_MAX ∧ t₀.seq + 1 ≠ U64_MAX := by
    rw [hseq]
    decide +kernel
  have hempty : t₀.mem.inner.entries = [] := by
    rw [hmem]
    rfl
  obtain ⟨inner, hentries, hcapacity, hsize, hput⟩ :=
    write_of_empty crc32 hmax.1 hempty [1] [2] .put
  have hrecord : t₀.record [1] [2] .put = logEntry 0 ([1], some [2]) := by
    simp only [record, hseq]
    rfl
  rw [hrecord] at hentries
  obtain ⟨t₁, ht₁⟩ : ∃ t₁ : Lsm, t₁ =
      { t₀ with mem := t₀.logged crc32 (t₀.record [1] [2] .put) inner, seq := t₀.seq + 1 } :=
        ⟨_, rfl⟩
  rw [← ht₁] at hput
  -- the first write has used up both bytes
  have hfull : t₁.mem.inner.put (t₁.record [3] [4] .put).key [4] = .error .storeFull := by
    rw [ht₁]
    refine BTreeMemtable.put_of_full ?_ ?_
    · show inner.entries ≠ []
      simp [hentries]
    · show inner.capacity < inner.size + 2
      rw [hcapacity, hsize, hmem]
      decide
  rcases write_cases crc32 (show t₁.seq ≠ U64_MAX by rw [ht₁]; exact hmax.2) [3] [4] .put with
    ⟨inner', hok, -⟩ | ⟨-, hrefuse⟩
  · rw [hfull] at hok
    cases hok
  have hstep₁ : AttemptStep full crc32 t₀ (.call (.put [1] [2])) t₁ := by
    refine .call ⟨.put hput, ?_⟩ (by simp)
    show (t₀.record [1] [2] .put).encode.length < 2 ^ 32
    rw [hrecord]
    decide +kernel
  have hstep₂ : AttemptStep full crc32 t₁ (.refused ([3], some [4]))
      { t₁ with mem := t₁.logged crc32 (t₁.record [3] [4] .put) t₁.mem.inner } := by
    refine .refused hrefuse ?_
    simp [entrySize, record]
  refine ⟨t₀, _, hopen, .snoc (.snoc .nil hstep₁) hstep₂, ?_⟩
  subst ht₁
  refine ⟨hentries, ?_, hconfig, ?_⟩
  · show t₀.manifest.version.nextSstId = 0
    rw [hversion]
  · show inner.capacity = 2
    rw [hcapacity, hmem]
    rfl

/-- A refused write, flushed away. -/
theorem rejected_writes_flushed : ∃ t₀ t,
    withMemtable crc32 {} smallPages (.withCapacity 2) = .ok t₀ ∧
    Run (AttemptStep full crc32) t₀
      [.call (.put [1] [2]), .refused ([3], some [4]), .call .flush] t ∧
    ∃ t', withMemtable crc32 t.disk smallPages (.withCapacity t.mem.inner.capacity) = .ok t' ∧
      Serves full [([1], some [2])] t' := by
  obtain ⟨t₀, t, hopen, hrun, hentries, hid, hconfig, -⟩ := exists_refused
  obtain ⟨t', hflush⟩ : ∃ t', t.flush full crc32 = .ok t' :=
    ⟨_, flush_of_entries (by simp [hentries]) (by rw [hid]; decide +kernel)
      (by rw [hid, hconfig, hentries]; decide +kernel)⟩
  have hstep : AttemptStep full crc32 t (.call .flush) t' := by
    refine .call ⟨.flush hflush, ?_⟩ (by simp)
    intro _
    rw [hentries, hid, hconfig]
    exact tableFits_smallPages
  have hrun' := Run.snoc hrun hstep
  exact ⟨t₀, t', hopen, hrun', (rejected_writes (by decide) (by decide) hopen hrun').2.mpr rfl⟩

/-- **A refused write blocks the reopen**: its record is replayed from the journal and
    refused again. -/
theorem refused_write_blocks_reopen : ∃ t₀ t,
    withMemtable crc32 {} smallPages (.withCapacity 2) = .ok t₀ ∧
    Run (AttemptStep full crc32) t₀
      [.call (.put [1] [2]), .refused ([3], some [4])] t ∧
    withMemtable crc32 t.disk smallPages (.withCapacity 2) = .error (.write .storeFull) := by
  obtain ⟨t₀, t, hopen, hrun, -, -, -, hcap⟩ := exists_refused
  have hlevels : 0 < smallPages.numLevels % 2 ^ 32 := by decide
  obtain ⟨lo, hinv⟩ := attemptInv_of_run hlevels hopen hrun
  have herror := hinv.reopen_error smallPages
  rw [hcap] at herror
  exact ⟨t₀, t, hopen, hrun, herror⟩

end StrataDb.Lsm
