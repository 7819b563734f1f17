import StrataDb.EngineRefinement

/-!
# Crashes of the storage engine (`crates/strata-store/src/engine.rs`)

The index syncs at every write, the heap when it is flushed. After a crash the index may name
pages that the heap never wrote and will issue again (`crash_mixes_keys`). As long as the heap has
started no page since the last flush, whatever a key answers was put under it
(`crash_keeps_keys_apart`); `Attributed` asks of what the engine holds which call it came from.
-/

namespace StrataDb.Store

open ByteCodec OrderedMap Runs
open Filesystem
open Lsm (FastBloom LsmConfig Write smallPages)
open Crc (crc32)
open DiskEngine (open_eq_ok)
open Lsm.FastBloom (full)
open StorageEngine (put_of_insert)

/-- What is in the files after a crash: all that was written to the index, and the heap as
    it was when it was last synced. -/
def crashDisk (e synced : DiskEngine) : Disk where
  index := e.index.disk
  tuples := synced.heap.cache.block.file
  journal := synced.heap.cache.journal.map (·.file)

/-! ### Calls -/

inductive EngineCall where
  | put (key value : Bytes)
  | delete (key : Bytes)
  | flush

section System

variable (B : FastBloom) (crc32 : Bytes → UInt32) (crc : Crc32c) (hash : Bytes → UInt32)

def EngineCall.run (e : DiskEngine) : EngineCall → Except Fault Unit × DiskEngine
  | .put key value => e.put crc32 crc hash key value
  | .delete key => e.delete crc32 key
  | .flush => e.flush B crc32 crc hash

def EngineCall.Fits (e : DiskEngine) : EngineCall → Prop
  | .put key _ => key.length + 27 < 2 ^ 32 ∧ e.heap.cache.block.nextId + 1 < 2 ^ 64
  | .delete key => key.length + 17 < 2 ^ 32
  | .flush => Lsm.LsmFits B e.index .flush

def CallStep (e : DiskEngine) (call : EngineCall) (e' : DiskEngine) : Prop :=
  (∃ r, call.run B crc32 crc hash e = (r, e')) ∧ call.Fits B e

def WriteStep (e : DiskEngine) (call : EngineCall) (e' : DiskEngine) : Prop :=
  call ≠ .flush ∧ call.run B crc32 crc hash e = (.ok (), e') ∧ call.Fits B e

/-- What the index has for a key: the location of a slot with bytes that were put under the
    key, or of a slot that is missing, on a page that is not being filled. -/
def Traced (calls : List EngineCall) (content : Nat → Option (List Bytes)) (current : Option Nat)
    (key bytes : Bytes) : Prop :=
  ∃ (loc : TupleLoc) (ts : List Bytes), loc.Fits ∧ bytes = loc.encode
    ∧ content loc.pageId = some ts ∧
    ((∃ value, ts[loc.slotId]? = some value ∧ .put key value ∈ calls) ∨
      ts[loc.slotId]? = none ∧ current ≠ some loc.pageId)

/-- What the engine holds came from the calls; `refused` is whether the index has refused a
    write since the last flush. -/
structure Attributed (calls : List EngineCall) (ils : List Write)
    (content : Nat → Option (List Bytes))
    (refused : Bool) (e : DiskEngine) : Prop where
  index : ∃ lo, Lsm.Inv B crc32 ils lo refused e.index
  heap : HeapReady crc e.heap [] content
  ids : e.heap.cache.block.nextId < 2 ^ 64
  entries : ∀ key bytes, (key, some bytes) ∈ ils → Traced calls content e.heap.current key bytes

variable {B crc32 crc hash} {calls : List EngineCall} {ils : List Write}
  {content : Nat → Option (List Bytes)}
  {refused : Bool} {e e' : DiskEngine} {key bytes : Bytes}

/-! ### One call -/

theorem Traced.later {current : Option Nat} (h : Traced calls content current key bytes)
    (calls' : List EngineCall) : Traced (calls ++ calls') content current key bytes := by
  obtain ⟨loc, ts, hfits, rfl, hpage, ⟨v, hslot, hput⟩ | hlost⟩ := h
  · exact ⟨loc, ts, hfits, rfl, hpage, Or.inl ⟨v, hslot, List.mem_append_left _ hput⟩⟩
  · exact ⟨loc, ts, hfits, rfl, hpage, Or.inr hlost⟩

/-- A page that is filled further has no missing slot that the index knows of. -/
theorem Traced.appended {current : Option Nat} (h : Traced calls content current key bytes)
    {id : Nat} (hpage : current = some id ∨ content id = none) (value : Bytes) :
    Traced calls (appended content id value) (some id) key bytes := by
  obtain ⟨loc, ts, hfits, rfl, hts, hslot⟩ := h
  by_cases hid : loc.pageId = id
  · subst hid
    obtain rfl : current = some loc.pageId := by simpa [hts] using hpage
    obtain ⟨v, hslot, hput⟩ | ⟨-, hother⟩ := hslot
    · refine ⟨loc, ts ++ [value], hfits, rfl, ?_, Or.inl ⟨v, ?_, hput⟩⟩
      · rw [Filesystem.appended, tuplesAt, hts]
        exact Function.update_self ..
      · rw [List.getElem?_append_left (List.getElem?_eq_some_iff.mp hslot).1, hslot]
    · exact absurd rfl hother
  · refine ⟨loc, ts, hfits, rfl, (Function.update_of_ne hid ..).trans hts,
      hslot.imp_right fun hlost => ⟨hlost.1, ?_⟩⟩
    exact fun heq => hid (Option.some.inj heq).symm

theorem attributed_create {config : LsmConfig} {capacity : Nat}
    (hlevels : 0 < config.numLevels % 2 ^ 32)
    (hopen : DiskEngine.open crc32 hash {} config (.withCapacity capacity) = .ok e) :
    ∃ content, Attributed B crc32 crc [] [] content false e := by
  obtain ⟨content, h, -⟩ := holding_create B crc hopen
  exact ⟨content, ⟨0, Lsm.inv_create hlevels (open_eq_ok.mp hopen).1⟩, h.heap, h.ids, by simp⟩

/-- **A put** that returns no error adds to the page being filled, or starts one. -/
theorem Attributed.put (hash : Bytes → UInt32)
    (h : Attributed B crc32 crc calls ils content refused e) (hzero : ¬ Verifies crc Block.zeroed)
    (hkey : key.length + 27 < 2 ^ 32) (hids : e.heap.cache.block.nextId + 1 < 2 ^ 64)
    (value : Bytes) :
    ∃ r e', e.put crc32 crc hash key value = (r, e')
      ∧ ((r = .ok () ∧ ∃ id loc, (e.heap.current = some id ∨ content id = none)
        ∧ e'.heap.current = some id
          ∧ Attributed B crc32 crc (calls ++ [.put key value]) (ils ++ [(key, some loc)])
            (Filesystem.appended content id value) refused e')
        ∨ (∃ f, r = .error f) ∧ ∃ content' refused',
          Attributed B crc32 crc (calls ++ [.put key value]) ils content' refused' e') := by
  have hidle : Idle ([] : List (Handle HEAP_FRAMES)) := idle_nil (by decide)
  obtain ⟨lo, hinv⟩ := h.index
  rcases Nat.lt_or_ge maxTuple value.length with hlarge | hfits
  · obtain ⟨err, heap, hrun, hready, hnext, hcurrent⟩ :=
      h.heap.insert_too_large hash hidle nofun hzero hlarge
    refine ⟨_, { e with heap := heap }, by rw [StorageEngine.put, hrun],
      Or.inr ⟨⟨_, rfl⟩, content, refused, ?_⟩⟩
    refine ⟨h.index, hready, hnext.trans_lt hids, fun k bytes hmem => ?_⟩
    show Traced _ content heap.current k bytes
    rw [hcurrent]
    exact (h.entries k bytes hmem).later _
  · obtain ⟨loc, heap, hrun, hinserted, hready, hnext⟩ := h.heap.insert hash hidle nofun hzero hfits
    have hentries (k bytes : Bytes) (hmem : (k, some bytes) ∈ ils) :
        Traced (calls ++ [.put key value])
        (Filesystem.appended content loc.pageId value) heap.current k bytes := by
      rw [hinserted.current]
      exact ((h.entries k bytes hmem).appended hinserted.page value).later _
    have hsmall := encode_put_lt hkey (length_encode_loc loc) ils.length
    -- the value is in the heap, whether the index takes its location or not
    cases hwrite : e.index.write crc32 key loc.encode .put with
    | mk r index =>
      cases r with
      | error f =>
        obtain ⟨refused', hinv'⟩ := hinv.not_accepted (w := (key, some loc.encode)) hsmall hwrite
        exact ⟨_, _, put_of_insert hrun hwrite,
          Or.inr ⟨⟨_, rfl⟩, _, refused', ⟨lo, hinv'⟩, hready, hnext.trans_lt hids, hentries⟩⟩
      | ok u =>
        obtain ⟨hloc, ts, hpage, hslot⟩ := hinserted.found (hnext.trans_lt hids)
        refine ⟨_, _, put_of_insert hrun hwrite,
          Or.inl ⟨rfl, loc.pageId, loc.encode, hinserted.page,
          hinserted.current, ⟨lo, hinv.write (w := (key, some loc.encode)) hsmall hwrite⟩, hready,
          hnext.trans_lt hids, fun k bytes hmem => ?_⟩⟩
        rcases List.mem_append.mp hmem with hmem | hmem
        · exact hentries k bytes hmem
        · obtain ⟨rfl, hbytes⟩ := Prod.mk.inj (List.mem_singleton.mp hmem)
          exact ⟨loc, ts, hloc, Option.some.inj hbytes, hpage,
            Or.inl ⟨value, hslot, List.mem_append_right _ List.mem_cons_self⟩⟩

theorem Attributed.delete (h : Attributed B crc32 crc calls ils content refused e)
    (hkey : key.length + 17 < 2 ^ 32) :
    ∃ r e', e.delete crc32 key = (r, e') ∧ e'.heap = e.heap
      ∧ ((r = .ok () ∧ Attributed B crc32 crc (calls ++ [.delete key]) (ils ++ [(key, none)])
        content refused e')
        ∨ (∃ f, r = .error f) ∧ ∃ refused', Attributed B crc32 crc (calls ++ [.delete key]) ils
          content refused' e') := by
  obtain ⟨lo, hinv⟩ := h.index
  have hentries (k bytes : Bytes) (hmem : (k, some bytes) ∈ ils) :=
    (h.entries k bytes hmem).later [.delete key]
  have hsmall := encode_delete_lt hkey ils.length
  cases hwrite : e.index.write crc32 key [] .delete with
  | mk r index =>
    refine ⟨_, _, StorageEngine.delete_of_write hwrite, rfl, ?_⟩
    cases r with
    | error f =>
      obtain ⟨refused', hinv'⟩ := hinv.not_accepted (w := (key, none)) hsmall hwrite
      exact Or.inr ⟨⟨_, rfl⟩, refused', ⟨lo, hinv'⟩, h.heap, h.ids, hentries⟩
    | ok u =>
      refine Or.inl ⟨rfl, ⟨lo, hinv.write (w := (key, none)) hsmall hwrite⟩, h.heap, h.ids,
        fun k bytes hmem => ?_⟩
      rcases List.mem_append.mp hmem with hmem | hmem
      · exact hentries k bytes hmem
      · cases (Prod.mk.inj (List.mem_singleton.mp hmem)).2

/-- **A flush.**  The heap is flushed even if the index is not. -/
theorem Attributed.flush (hash : Bytes → UInt32)
    (h : Attributed B crc32 crc calls ils content refused e)
    (hfits : Lsm.LsmFits B e.index .flush) :
    ∃ r e', e.flush B crc32 crc hash = (r, e') ∧ ¬ Inner.Pending e'.heap.cache
      ∧ ((r = .ok () ∧ Attributed B crc32 crc (calls ++ [.flush]) ils content false e')
        ∨ (∃ f, r = .error f) ∧ Attributed B crc32 crc (calls ++ [.flush]) ils content refused
          e') := by
  obtain ⟨lo, hinv⟩ := h.index
  obtain ⟨heap, hrun, hready, hclean, hcurrent, hnext⟩ := h.heap.flush hash
  have hids : heap.cache.block.nextId < 2 ^ 64 := by rw [hnext]; exact h.ids
  have hentries (k bytes : Bytes) (hmem : (k, some bytes) ∈ ils) :
      Traced (calls ++ [.flush]) content heap.current k bytes := by
    rw [hcurrent]
    exact (h.entries k bytes hmem).later _
  rw [StorageEngine.flush, hrun]
  cases hindex : e.index.flush B crc32 with
  | error f => exact ⟨_, _, rfl, hclean, Or.inr ⟨⟨_, rfl⟩, h.index, hready, hids, hentries⟩⟩
  | ok index =>
    exact ⟨_, _, rfl, hclean, Or.inl ⟨rfl, hinv.flush hfits hindex, hready, hids, hentries⟩⟩

/-- **A lookup** gives nothing, a slot that is missing, or bytes that were put under its key. -/
theorem Attributed.get (hash : Bytes → UInt32)
    (h : Attributed B crc32 crc calls ils content refused e) (key : Bytes) :
    ∃ found : Option (Option Bytes), (e.get B crc hash key).1 = .ok found
      ∧ ∀ value, found = some (some value) → .put key value ∈ calls := by
  obtain ⟨lo, hinv⟩ := h.index
  rw [StorageEngine.get, hinv.toLayered.serves.get key]
  cases hbytes : VersionedMap.apply ils key with
  | none => exact ⟨none, rfl, nofun⟩
  | some bytes =>
    obtain ⟨i, hnewest, -⟩ := (VersionedMap.apply_eq_some_iff ils key bytes).mp hbytes
    obtain ⟨loc, ts, hfits, rfl, hpage, hslot⟩ := h.entries key bytes (List.mem_of_getElem? hnewest)
    obtain ⟨heap, hget, -⟩ := h.heap.toHeapInv.get hash (idle_nil (by decide)) hpage
    refine ⟨some ts[loc.slotId]?, ?_, fun value hvalue => ?_⟩
    · dsimp only
      rw [decodeLoc_encode hfits]
      dsimp only
      rw [hget]
      rfl
    · rcases hslot with ⟨v, hslot, hput⟩ | ⟨hslot, -⟩
      · obtain rfl := Option.some.inj (hslot.symm.trans (Option.some.inj hvalue))
        exact hput
      · cases hslot.symm.trans (Option.some.inj hvalue)

/-! ### Runs -/

theorem Attributed.step {call : EngineCall} (hzero : ¬ Verifies crc Block.zeroed)
    (h : Attributed B crc32 crc calls ils content refused e)
    (hstep : CallStep B crc32 crc hash e call e') :
    ∃ ils' content' refused', Attributed B crc32 crc (calls ++ [call]) ils' content' refused'
      e' := by
  obtain ⟨⟨r, hrun⟩, hfits⟩ := hstep
  cases call with
  | put key value =>
    obtain ⟨_, _, hput, hcases⟩ := h.put hash hzero hfits.1 hfits.2 value
    obtain ⟨-, rfl⟩ := Prod.mk.inj (hput.symm.trans hrun)
    rcases hcases with ⟨-, id, loc, -, -, h'⟩ | ⟨-, content', refused', h'⟩
    · exact ⟨_, _, _, h'⟩
    · exact ⟨_, _, _, h'⟩
  | delete key =>
    obtain ⟨_, _, hdelete, -, hcases⟩ := h.delete hfits
    obtain ⟨-, rfl⟩ := Prod.mk.inj (hdelete.symm.trans hrun)
    rcases hcases with ⟨-, h'⟩ | ⟨-, refused', h'⟩
    · exact ⟨_, _, _, h'⟩
    · exact ⟨_, _, _, h'⟩
  | flush =>
    obtain ⟨_, _, hflush, -, hcases⟩ := h.flush hash hfits
    obtain ⟨-, rfl⟩ := Prod.mk.inj (hflush.symm.trans hrun)
    rcases hcases with ⟨-, h'⟩ | ⟨-, h'⟩
    · exact ⟨_, _, _, h'⟩
    · exact ⟨_, _, _, h'⟩

theorem Attributed.run {calls' : List EngineCall} (hzero : ¬ Verifies crc Block.zeroed)
    (h : Attributed B crc32 crc calls ils content refused e)
    (hrun : Run (CallStep B crc32 crc hash) e calls' e') :
    ∃ ils' content' refused', Attributed B crc32 crc (calls ++ calls') ils' content' refused'
      e' := by
  refine hrun.history (P := fun calls' e' => ∃ ils' content' refused',
    Attributed B crc32 crc (calls ++ calls') ils' content' refused' e')
      ⟨ils, content, refused, ?_⟩ ?_
  · rwa [List.append_nil]
  · rintro calls' t call u ⟨ils', content', refused', h⟩ hstep
    rw [← List.append_assoc]
    exact h.step hzero hstep

/-! ### Between a flush and a crash -/

structure Filled (current₁ : Option Nat) (content₁ : Nat → Option (List Bytes))
    (current : Option Nat)
    (content : Nat → Option (List Bytes)) : Prop where
  known : ∀ id, content id = none → content₁ id = none
  same : current = current₁ → ∀ id ts, content id = some ts → ∃ ts₁, content₁ id = some ts₁
    ∧ ts₁ <+: ts
  new : current ≠ current₁ → ∀ id, current = some id → content₁ id = none

theorem Filled.refl (current : Option Nat) (content : Nat → Option (List Bytes)) :
    Filled current content current content :=
  ⟨fun _ h => h, fun _ _ ts hts => ⟨ts, hts, List.prefix_rfl⟩, fun hne => absurd rfl hne⟩

/-- A put adds to the page being filled, or starts one that was not known at the flush. -/
theorem Filled.put {current₁ current : Option Nat} {content₁ : Nat → Option (List Bytes)} {id : Nat}
    (h : Filled current₁ content₁ current content)
    (hcurrent₁ : ∀ id, current₁ = some id → ∃ ts, content₁ id = some ts)
    (hpage : current = some id ∧ (∃ ts, content id = some ts) ∨ content id = none) (value : Bytes) :
    Filled current₁ content₁ (some id) (Filesystem.appended content id value) := by
  have hknown (j : Nat) (hj : Filesystem.appended content id value j = none) :
      content₁ j = none := by
    rw [Filesystem.appended, Function.update_apply] at hj
    split_ifs at hj
    exact h.known j hj
  rcases hpage with ⟨rfl, ts, hts⟩ | hnone
  · refine ⟨hknown, fun heq j us hj => ?_, h.new⟩
    rw [Filesystem.appended, Function.update_apply] at hj
    split_ifs at hj with hid
    · subst hid
      obtain ⟨ts₁, hts₁, hprefix⟩ := h.same heq j ts hts
      rw [tuplesAt, hts] at hj
      obtain rfl := Option.some.inj hj
      exact ⟨ts₁, hts₁, hprefix.trans (List.prefix_append ts [value])⟩
    · exact h.same heq j us hj
  · -- a page is started, so the one of the flush is full
    refine ⟨hknown, fun heq => ?_, fun _ j hj => ?_⟩
    · obtain ⟨ts, hts⟩ := hcurrent₁ id heq.symm
      cases hts.symm.trans (h.known id hnone)
    · rw [← Option.some.inj hj]
      exact h.known id hnone

theorem Attributed.writes {e₁ : DiskEngine} {writes : List EngineCall}
    (hzero : ¬ Verifies crc Block.zeroed) (h : Attributed B crc32 crc calls ils content false e₁)
    (hrun : Run (WriteStep B crc32 crc hash) e₁ writes e) :
    ∃ ils' content', Attributed B crc32 crc (calls ++ writes) ils' content' false e
      ∧ Filled e₁.heap.current content e.heap.current content' := by
  refine hrun.history (P := fun writes e => ∃ ils' content',
    Attributed B crc32 crc (calls ++ writes) ils' content' false e
      ∧ Filled e₁.heap.current content e.heap.current content') ⟨ils, content, ?_, .refl _ _⟩ ?_
  · rwa [List.append_nil]
  rintro writes t call u ⟨ils', content', h', hfilled⟩ ⟨hwrites, hcall, hfits⟩
  rw [← List.append_assoc]
  cases call with
  | put key value =>
    obtain ⟨_, _, hput, ⟨-, id, loc, hpage, hcurrent, h''⟩ | ⟨⟨f, rfl⟩, -⟩⟩ :=
      h'.put hash hzero hfits.1 hfits.2 value
    · obtain ⟨-, rfl⟩ := Prod.mk.inj (hput.symm.trans hcall)
      refine ⟨_, _, h'', ?_⟩
      rw [hcurrent]
      exact hfilled.put h.heap.current (hpage.imp_left fun hid => ⟨hid, h'.heap.current id hid⟩)
        value
    · cases congrArg Prod.fst (hput.symm.trans hcall)
  | delete key =>
    obtain ⟨_, _, hdelete, hheap, ⟨-, h''⟩ | ⟨⟨f, rfl⟩, -⟩⟩ := h'.delete hfits
    · obtain ⟨-, rfl⟩ := Prod.mk.inj (hdelete.symm.trans hcall)
      rw [← hheap] at hfilled
      exact ⟨_, _, h'', hfilled⟩
    · cases congrArg Prod.fst (hdelete.symm.trans hcall)
  | flush => exact absurd rfl hwrites

/-- **The crash.**  If the page being filled is still the one of the flush, the tuples that
    are lost leave their slots missing. -/
theorem Attributed.crash {e₁ e₃ : DiskEngine} {calls₁ : List EngineCall} {ils₁ : List Write}
    {content₁ : Nat → Option (List Bytes)} {config : LsmConfig} {capacity : Nat}
    (h : Attributed B crc32 crc calls ils content false e)
    (h₁ : Attributed B crc32 crc calls₁ ils₁ content₁ false e₁)
    (hclean : ¬ Inner.Pending e₁.heap.cache)
    (hfilled : Filled e₁.heap.current content₁ e.heap.current content)
    (hcurrent : e.heap.current = e₁.heap.current) (hlevels : 0 < config.numLevels % 2 ^ 32)
    (hopen : DiskEngine.open crc32 hash (crashDisk e e₁) config (.withCapacity capacity) = .ok e₃) :
    Attributed B crc32 crc calls ils content₁ false e₃ := by
  obtain ⟨hindex, hheap⟩ := open_eq_ok.mp hopen
  obtain ⟨lo, hinv⟩ := h.index
  obtain ⟨heap, hrun, hready, hnext, hnone⟩ :=
    h₁.heap.reopen hash (fun _ h => absurd h List.not_mem_nil) hclean h₁.ids HEAP_FRAMES
  obtain rfl := Except.ok.inj (hheap.symm.trans hrun)
  refine ⟨⟨lo, hinv.reopen hlevels hindex⟩, hready, by rw [hnext]; exact h₁.ids,
    fun k bytes hmem => ?_⟩
  obtain ⟨loc, ts, hfits, rfl, hts, hslot⟩ := h.entries k bytes hmem
  obtain ⟨ts₁, hts₁, lost, rfl⟩ := hfilled.same hcurrent loc.pageId ts hts
  refine ⟨loc, ts₁, hfits, rfl, hts₁, ?_⟩
  rcases Nat.lt_or_ge loc.slotId ts₁.length with hlt | hge
  · rw [List.getElem?_append_left hlt] at hslot
    rcases hslot with hput | ⟨hmissing, -⟩
    · exact Or.inl hput
    · exact absurd hlt (Nat.not_lt.mpr (List.getElem?_eq_none_iff.mp hmissing))
  · -- a slot after those of the flush is gone
    refine Or.inr ⟨List.getElem?_eq_none hge, ?_⟩
    rw [hnone]
    exact (Option.some_ne_none _).symm

end System

/-! ### After a crash -/

/-- **Keys stay apart.**  After any calls and a flush that succeeds, puts and deletes that
    succeed; a crash, with the page being filled still the one of the flush; a reopen, and
    any further calls.  A lookup gives nothing, a slot that is missing, or bytes that were put
    under its key. -/
theorem crash_keeps_keys_apart {B : FastBloom} {crc32 hash : Bytes → UInt32}
    {config config' : LsmConfig} {capacity capacity' : Nat} {e₀ e e₁ e₂ e₃ e₄ : DiskEngine}
    {calls writes calls' : List EngineCall} (hlevels : 0 < config.numLevels % 2 ^ 32)
    (hlevels' : 0 < config'.numLevels % 2 ^ 32)
    (hopen : DiskEngine.open crc32 hash {} config (.withCapacity capacity) = .ok e₀)
    (hrun : Run (CallStep B crc32 castagnoli hash) e₀ calls e)
    (hflush : e.flush B crc32 castagnoli hash = (.ok (), e₁)) (hfits : Lsm.LsmFits B e.index .flush)
    (hwrites : Run (WriteStep B crc32 castagnoli hash) e₁ writes e₂)
    (hcurrent : e₂.heap.current = e₁.heap.current)
    (hreopen : DiskEngine.open crc32 hash (crashDisk e₂ e₁) config' (.withCapacity capacity')
      = .ok e₃)
    (hrun' : Run (CallStep B crc32 castagnoli hash) e₃ calls' e₄) (key : Bytes) :
    ∃ found : Option (Option Bytes), (e₄.get B castagnoli hash key).1 = .ok found ∧
      ∀ value, found = some (some value) → .put key value ∈ calls ++ [.flush] ++ writes
        ++ calls' := by
  have hzero := not_verifies_castagnoli_zeroed
  obtain ⟨_, hnew⟩ := attributed_create hlevels hopen
  obtain ⟨ils, content, refused, h⟩ := hnew.run hzero hrun
  obtain ⟨_, _, hflush', hclean, ⟨-, h₁⟩ | ⟨⟨f, rfl⟩, -⟩⟩ := h.flush hash hfits
  · obtain ⟨-, rfl⟩ := Prod.mk.inj (hflush'.symm.trans hflush)
    obtain ⟨ils₂, content₂, h₂, hfilled⟩ := h₁.writes hzero hwrites
    obtain ⟨_, _, _, h₄⟩ := (h₂.crash h₁ hclean hfilled hcurrent hlevels' hreopen).run hzero hrun'
    exact h₄.get hash key
  · cases congrArg Prod.fst (hflush'.symm.trans hflush)

theorem exists_heap_filled : ∃ (h₀ h₁ h₂ h₃ h₄ : DiskHeap HEAP_FRAMES) (loc : TupleLoc),
    Heap.open crc32 HEAP_FRAMES [] none = .ok h₀ ∧ h₀.cache.block.nextId = 1 ∧
    h₀.insert castagnoli crc32 [2] = (.ok ⟨1, 0⟩, h₁) ∧ h₁.flush castagnoli crc32 = (.ok (), h₂) ∧
    h₂.cache.block.nextId + 1 < 2 ^ 64 ∧
    h₂.insert castagnoli crc32 [4] = (.ok loc, h₃) ∧ h₃.current = h₂.current ∧
    Heap.open crc32 HEAP_FRAMES h₂.cache.block.file (h₂.cache.journal.map (·.file)) = .ok h₄ := by
  have hframes : 0 < HEAP_FRAMES := by decide
  obtain ⟨h₀, hopen, hready, hnext, -⟩ := heapReady_create castagnoli crc32 HEAP_FRAMES
  obtain ⟨h₁, hinsert, hready₁, hcurrent⟩ := @HeapReady.first_insert _ _ _ [2] crc32 hready hnext
    not_verifies_castagnoli_zeroed hframes (by decide)
  have hnext₁ : h₁.cache.block.nextId ≤ h₀.cache.block.nextId + 1 :=
    (hready.durable_insert (idle_nil hframes) nofun not_verifies_castagnoli_zeroed hinsert).2
  obtain ⟨h₂, hflush, hready₂, hclean, hcurrent₂, hnext₂⟩ := hready₁.flush crc32
  obtain ⟨loc, h₃, hinsert₃, hinserted, hroom⟩ :=
    @HeapInv.insert_at _ _ _ _ _ _ _ _ _ _ _ [4] crc32 hready₂.toHeapInv
    (idle_nil hframes) nofun not_verifies_castagnoli_zeroed (by decide)
  have hpage : loc.pageId = 1 :=
    (hroom 1 [[2]] (hcurrent₂.trans hcurrent) (Function.update_self ..)).mpr (by decide)
  obtain ⟨h₄, hopen₄, -⟩ :=
    hready₂.reopen crc32 (fun _ h => absurd h List.not_mem_nil) hclean (by omega) HEAP_FRAMES
  refine ⟨h₀, h₁, h₂, h₃, h₄, loc, hopen, hnext, hinsert, hflush, by omega, hinsert₃, ?_, hopen₄⟩
  rw [hinserted.current, hpage, hcurrent₂, hcurrent]

/-- A put, a flush, a put to the same page, a crash and a reopen. -/
theorem crash_keeps_first_key : ∃ e₀ e₁ e₂ e₃ e₄,
    FirstPut smallPages 16 e₀ e₁ ∧ e₁.flush full crc32 castagnoli crc32 = (.ok (), e₂) ∧
    e₂.put crc32 castagnoli crc32 [3] [4] = (.ok (), e₃) ∧
    DiskEngine.open crc32 crc32 (crashDisk e₃ e₂) smallPages (.withCapacity 16) = .ok e₄ ∧
    ∃ found : Option (Option Bytes), (e₄.get full castagnoli crc32 [3]).1 = .ok found ∧
      ∀ value, found = some (some value) → .put [3] value ∈ [.put [1] [2], .flush,
        EngineCall.put [3] [4]] := by
  have hlevels : 0 < smallPages.numLevels % 2 ^ 32 := by decide
  obtain ⟨h₀, h₁, h₂, h₃, h₄, loc, hopen, hnext, hinsert, hflush, hnext₂, hinsert₃, hcurrent,
    hheap⟩ := exists_heap_filled
  obtain ⟨t₀, t₁, t₂, h⟩ :=
    Lsm.exists_flushed full crc32 smallPages 16 [1] firstLoc (by decide +kernel)
  have hfits := lsmFits_firstLoc h
  -- the memtable is empty after the flush, so the index takes the second put
  have hmax : (1 : UInt64) ≠ Lsm.U64_MAX := by decide +kernel
  obtain ⟨inner, -, hcapacity, -, hwrite⟩ := Lsm.write_of_empty crc32 (h.seq.trans_ne hmax)
    (show t₂.mem.inner.entries = [] by rw [h.mem]; rfl) [3] loc.encode .put
  rw [h.mem] at hcapacity
  obtain ⟨t₃, hput₃, rfl⟩ : ∃ t₃ : Lsm, t₂.write crc32 [3] loc.encode .put = (.ok (), t₃)
    ∧ t₃.mem.inner = inner :=
    ⟨_, hwrite, rfl⟩
  have hinv₁ : Lsm.Inv full crc32 [([1], some firstLoc)] 0 false t₁ :=
    (Lsm.inv_create hlevels h.create).write (w := ([1], some firstLoc)) (by decide +kernel) h.put
  obtain ⟨lo, hinv₂⟩ := hinv₁.flush hfits h.flush
  have hinv₃ :=
    hinv₂.write (w := ([3], some loc.encode)) (encode_put_lt (by decide) (length_encode_loc loc) _)
      hput₃
  obtain ⟨t₄, hindex, -⟩ := hinv₃.reopen_ok smallPages
  rw [hcapacity] at hindex
  -- the engine of both
  have hfirst : FirstPut smallPages 16 ⟨t₀, h₀⟩ ⟨t₁, h₁⟩ := by
    have hput := h.put
    rw [← encode_firstLoc] at hput
    exact ⟨open_eq_ok.mpr ⟨h.create, hopen⟩, put_of_insert (e := ⟨t₀, h₀⟩) hinsert hput, hnext⟩
  have hput : CallStep full crc32 castagnoli crc32 ⟨t₀, h₀⟩ (.put [1] [2]) ⟨t₁, h₁⟩ :=
    ⟨⟨_, hfirst.put⟩, by decide, by rw [hfirst.next]; decide⟩
  have hflush' : (⟨t₁, h₁⟩ : DiskEngine).flush full crc32 castagnoli crc32
    = (.ok (), ⟨t₂, h₂⟩) := by
    rw [StorageEngine.flush, hflush]
    dsimp only
    rw [h.flush]
  have hput' := put_of_insert (e := ⟨t₂, h₂⟩) hinsert₃ hput₃
  have hstep : WriteStep full crc32 castagnoli crc32 ⟨t₂, h₂⟩ (.put [3] [4]) ⟨t₃, h₃⟩ :=
    ⟨by simp, hput', by decide, hnext₂⟩
  have hreopen : DiskEngine.open crc32 crc32 (crashDisk ⟨t₃, h₃⟩ ⟨t₂, h₂⟩) smallPages
    (.withCapacity 16) = .ok ⟨t₄, h₄⟩ :=
    open_eq_ok.mpr ⟨hindex, hheap⟩
  exact ⟨_, _, _, _, _, hfirst, hflush', hput', hreopen,
    crash_keeps_keys_apart hlevels hlevels hfirst.create (.snoc .nil hput) hflush' hfits
      (.snoc .nil hstep) hcurrent hreopen .nil [3]⟩

/-- The index over the crash: it has a location of the first put and takes it once more. -/
theorem exists_index_crash : ∃ t₀ t₁ t₂ t₃,
    Lsm.withMemtable crc32 {} .default (.withCapacity Lsm.DEFAULT_CAPACITY) = .ok t₀ ∧
    t₀.put crc32 [1] firstLoc = (.ok (), t₁) ∧
    Lsm.withMemtable crc32 t₁.disk .default (.withCapacity Lsm.DEFAULT_CAPACITY) = .ok t₂ ∧
    t₂.put crc32 [3] firstLoc = (.ok (), t₃) ∧ t₃.get full [1] = .ok (some firstLoc) := by
  have hlevels : 0 < LsmConfig.default.numLevels % 2 ^ 32 := by decide
  obtain ⟨t₀, hcreate, -, -, hmem, -, hseq⟩ := Lsm.create_ok crc32 .default Lsm.DEFAULT_CAPACITY
  have hmax : (0 : UInt64) ≠ Lsm.U64_MAX := by decide +kernel
  obtain ⟨inner, -, hcapacity, hsize, hwrite⟩ := Lsm.write_of_empty crc32 (hseq.trans_ne hmax)
    (show t₀.mem.inner.entries = [] by rw [hmem]; rfl) [1] firstLoc .put
  rw [hmem] at hcapacity hsize
  obtain ⟨t₁, hput, rfl⟩ : ∃ t₁, t₀.put crc32 [1] firstLoc = (.ok (), t₁) ∧ t₁.mem.inner = inner :=
    ⟨_, hwrite, rfl⟩
  have hinv₁ : Lsm.Inv full crc32 [([1], some firstLoc)] 0 false t₁ :=
    (Lsm.inv_create hlevels hcreate).write (w := ([1], some firstLoc)) (by decide +kernel) hput
  -- the reopened index has the memtable it had, with room in it
  obtain ⟨t₂, hopen, hsame⟩ := hinv₁.reopen_ok .default
  rw [hcapacity] at hopen
  have hinv₂ := hinv₁.reopen hlevels hopen
  have hseq₂ : t₂.seq ≠ Lsm.U64_MAX := by
    intro heq
    have hlast := hinv₂.seq
    rw [heq] at hlast
    revert hlast
    decide +kernel
  obtain ⟨t₃, hput₃⟩ := Lsm.write_of_room crc32 hseq₂ [3] firstLoc
    (by rw [hsame, hcapacity, hsize]; decide +kernel) .put
  have hinv₃ := hinv₂.write (w := ([3], some firstLoc)) (by decide +kernel) hput₃
  exact ⟨t₀, t₁, t₂, t₃, hcreate, hput, hopen, hput₃, hinv₃.toLayered.serves.get [1]⟩

theorem exists_heap_crash : ∃ h₀ h₁ h₂ h₃ h₄ : DiskHeap HEAP_FRAMES,
    Heap.open crc32 HEAP_FRAMES [] none = .ok h₀ ∧ h₀.cache.block.nextId = 1 ∧
    h₀.insert castagnoli crc32 [2] = (.ok ⟨1, 0⟩, h₁) ∧
    Heap.open crc32 HEAP_FRAMES h₀.cache.block.file (h₀.cache.journal.map (·.file)) = .ok h₂ ∧
    h₂.insert castagnoli crc32 [4] = (.ok ⟨1, 0⟩, h₃) ∧ h₃.get castagnoli crc32 ⟨1, 0⟩
      = (.ok (some [4]), h₄) := by
  have hframes : 0 < HEAP_FRAMES := by decide
  obtain ⟨h₀, hopen, hready, hnext, hclean⟩ := heapReady_create castagnoli crc32 HEAP_FRAMES
  obtain ⟨h₁, hinsert, -⟩ :=
    @HeapReady.first_insert _ _ _ [2] crc32 hready hnext not_verifies_castagnoli_zeroed
    hframes (by decide)
  obtain ⟨h₂, hopen₂, hready₂, hnext₂, -⟩ :=
    hready.reopen crc32 (fun _ h => absurd h List.not_mem_nil) hclean
    (by rw [hnext]; decide) HEAP_FRAMES
  obtain ⟨h₃, hinsert₃, hready₃, -⟩ :=
    @HeapReady.first_insert _ _ _ [4] crc32 hready₂ (hnext₂.trans hnext)
    not_verifies_castagnoli_zeroed hframes (by decide)
  have hpage : appended (fun _ => none) 1 [4] (TupleLoc.mk 1 0).pageId = some [[4]] :=
    Function.update_self ..
  obtain ⟨h₄, hget, -⟩ := hready₃.toHeapInv.get crc32 (idle_nil hframes) hpage
  exact ⟨h₀, h₁, h₂, h₃, h₄, hopen, hnext, hinsert, hopen₂, hinsert₃, hget⟩

/-- **Keys mix.**  `[2]` is put under `[1]`, and the process crashes.  The index still has the
    location of the tuple, on page 1, which the heap never wrote.  After a reopen `[4]` is
    put under `[3]`; the heap issues page 1 again, and `[1]` answers with `[4]`. -/
theorem crash_mixes_keys : ∃ e₀ e₁ e₂ e₃,
    FirstPut .default Lsm.DEFAULT_CAPACITY e₀ e₁ ∧
    DiskEngine.open crc32 crc32 (crashDisk e₁ e₀) .default (.withCapacity Lsm.DEFAULT_CAPACITY)
      = .ok e₂ ∧
    e₂.put crc32 castagnoli crc32 [3] [4] = (.ok (), e₃) ∧
    (e₃.get full castagnoli crc32 [1]).1 = .ok (some (some [4])) := by
  obtain ⟨t₀, t₁, t₂, t₃, hcreate, hput, hindex, hput₃, hfound⟩ := exists_index_crash
  obtain ⟨h₀, h₁, h₂, h₃, h₄, hopen, hnext, hinsert, hheap, hinsert₃, hget⟩ := exists_heap_crash
  have hdecode : decodeLoc firstLoc = .ok ⟨1, 0⟩ := by decide
  rw [← encode_firstLoc] at hput hput₃
  refine ⟨⟨t₀, h₀⟩, ⟨t₁, h₁⟩, ⟨t₂, h₂⟩, ⟨t₃, h₃⟩,
    ⟨open_eq_ok.mpr ⟨hcreate, hopen⟩, put_of_insert (e := ⟨t₀, h₀⟩) hinsert hput, hnext⟩,
    open_eq_ok.mpr ⟨hindex, hheap⟩, put_of_insert (e := ⟨t₂, h₂⟩) hinsert₃ hput₃, ?_⟩
  rw [StorageEngine.get, hfound]
  dsimp only
  rw [hdecode]
  dsimp only
  rw [hget]
  rfl

end StrataDb.Store
