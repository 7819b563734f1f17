import StrataDb.Runs
import StrataDb.SsTableSpec

/-!
# The memtable and its journal (`crates/lsm/src/memstore`)

`BTreeMemtable` buffers writes in internal-key order, up to a capacity; the first entry is taken
whatever its size. `Journaled` logs a write before it applies it, and rebuilds the memtable from
the log when it is opened: the first record that is refused ends the open.
-/

namespace StrataDb.Lsm

open ByteCodec OrderedMap Runs
open Journal (JournalError withCodec append truncate replay contents replay_contents TornTail)

/-! ### The memtable -/

structure BTreeMemtable where
  store : OrderedMap InternalKey.rank Bytes
  capacity : Nat
  size : Nat

def DEFAULT_CAPACITY : Nat := 4 * 1024 * 1024

def BTreeMemtable.withCapacity (capacity : Nat) : BTreeMemtable := ⟨.empty, capacity, 0⟩

/-- `put`: the first entry is accepted even if it alone exceeds the capacity. -/
def BTreeMemtable.put (m : BTreeMemtable) (key : InternalKey) (value : Bytes) :
    Except WriteError BTreeMemtable :=
  let added := key.userKey.length + value.length
  if !m.store.entries.isEmpty && decide (m.capacity < m.size + added) then .error .storeFull
  else .ok { store := m.store.insert key value, capacity := m.capacity, size := m.size + added }

def BTreeMemtable.clear (m : BTreeMemtable) : BTreeMemtable where
  store := .empty
  capacity := m.capacity
  size := 0

def BTreeMemtable.entries (m : BTreeMemtable) : List KeyValue :=
  m.store.entries.map (fun x => { key := x.1, value := x.2 })

def U64_MAX : UInt64 := UInt64.ofNat (2 ^ 64 - 1)

def boundKey (userKey : Bytes) (seq : UInt64) : Rank :=
  InternalKey.rank { userKey, seq, op := .put }

def startBound : Bound Bytes → Bound Rank
  | .included k => .included (boundKey k U64_MAX)
  | .excluded k => .excluded (boundKey k 0)
  | .unbounded => .unbounded

def endBound : Bound Bytes → Bound Rank
  | .included k => .included (boundKey k 0)
  | .excluded k => .excluded (boundKey k U64_MAX)
  | .unbounded => .unbounded

/-- `scan_at`; `none` where `BTreeMap::range` panics. -/
def BTreeMemtable.scanAt (m : BTreeMemtable) (start stop : Bound Bytes) (maxSeq : UInt64) :
    Option (List KeyValue) :=
  (m.store.range (startBound start) (endBound stop)).map fun found =>
    (found.filter (fun x => decide (x.1.seq ≤ maxSeq))).map (fun x => { key := x.1, value := x.2 })

theorem le_u64Max (seq : UInt64) : seq ≤ U64_MAX := by
  have hmax : U64_MAX.toNat = 2 ^ 64 - 1 := UInt64.toNat_ofNat_of_lt' (by decide)
  have hlt := seq.toNat_lt
  rw [UInt64.le_iff_toNat_le, hmax]
  omega

theorem zero_le_seq (seq : UInt64) : 0 ≤ seq := by
  rw [UInt64.le_iff_toNat_le]
  exact Nat.zero_le _

theorem boundKey_le_boundKey {k k' : Bytes} {s s' : UInt64} :
    boundKey k s ≤ boundKey k' s' ↔ k < k' ∨ k = k' ∧ s' ≤ s := by
  simp [boundKey, InternalKey.rank, Prod.Lex.toLex_le_toLex]

theorem newest_le_boundKey {k k' : Bytes} {s : UInt64} :
    boundKey k U64_MAX ≤ boundKey k' s ↔ k ≤ k' := by
  rw [boundKey_le_boundKey, and_iff_left (le_u64Max s), ← le_iff_lt_or_eq]

theorem boundKey_le_oldest {k k' : Bytes} {s : UInt64} : boundKey k s ≤ boundKey k' 0 ↔ k ≤ k' := by
  rw [boundKey_le_boundKey, and_iff_left (zero_le_seq s), ← le_iff_lt_or_eq]

theorem rank_eq_boundKey (key : InternalKey) : key.rank = boundKey key.userKey key.seq := rfl

theorem inBounds_internal (start stop : Bound Bytes) (key : InternalKey) :
    inBounds (startBound start) (endBound stop) key.rank = inBounds start stop key.userKey := by
  have hstart : afterStart (startBound start) key.rank = afterStart start key.userKey := by
    cases start with
    | included k => simp [startBound, afterStart, rank_eq_boundKey, newest_le_boundKey]
    | excluded k => simp [startBound, afterStart, rank_eq_boundKey, ← not_le, boundKey_le_oldest]
    | unbounded => rfl
  have hstop : beforeEnd (endBound stop) key.rank = beforeEnd stop key.userKey := by
    cases stop with
    | included k => simp [endBound, beforeEnd, rank_eq_boundKey, boundKey_le_oldest]
    | excluded k => simp [endBound, beforeEnd, rank_eq_boundKey, ← not_le, newest_le_boundKey]
    | unbounded => rfl
  rw [inBounds, inBounds, hstart, hstop]

theorem reversed_internal (start stop : Bound Bytes) :
    reversed (startBound start) (endBound stop) = reversed start stop := by
  cases start <;> cases stop <;>
    simp [startBound, endBound, reversed, ← not_le, newest_le_boundKey, boundKey_le_oldest]

/-- **A memtable scan** that is not the wrong way around: the visible entries of the
    range, in order. -/
theorem BTreeMemtable.scanAt_eq (m : BTreeMemtable) {start stop : Bound Bytes}
    (h : reversed start stop = false) (maxSeq : UInt64) :
    m.scanAt start stop maxSeq = some (m.entries.filter (visible start stop maxSeq)) := by
  rw [BTreeMemtable.scanAt, range_of_not_reversed _ (by rw [reversed_internal, h]), Option.map_some,
    BTreeMemtable.entries, List.filter_map, List.filter_filter]
  congr 2
  apply List.filter_congr
  intro x _
  simp [visible, inBounds_internal]

theorem BTreeMemtable.scanAt_fine (m : BTreeMemtable) {start stop : Bound Bytes}
    (h : reversed start stop = false ∨ m.entries = []) (maxSeq : UInt64) :
    m.scanAt start stop maxSeq = some (m.entries.filter (visible start stop maxSeq)) := by
  rcases h with h | hnil
  · exact m.scanAt_eq h maxSeq
  · have hempty : m.store.entries.isEmpty = true := by
      rwa [List.isEmpty_iff, ← List.map_eq_nil_iff]
    rw [BTreeMemtable.scanAt, OrderedMap.range, if_pos hempty, hnil]
    rfl

theorem BTreeMemtable.sorted (m : BTreeMemtable) :
    m.entries.Pairwise (fun a b => a.key.rank < b.key.rank) :=
  List.pairwise_map.mpr m.store.ascending

@[simp] theorem entries_withCapacity (capacity : Nat) :
    (BTreeMemtable.withCapacity capacity).entries = [] := rfl

theorem BTreeMemtable.clear_eq (m : BTreeMemtable) : m.clear = .withCapacity m.capacity := rfl

variable {key : InternalKey} {value : Bytes} {m : BTreeMemtable}

theorem BTreeMemtable.put_ok {m' : BTreeMemtable} (h : m.put key value = .ok m') :
    m'.store = m.store.insert key value ∧ m'.capacity = m.capacity ∧
      m'.size = m.size + (key.userKey.length + value.length) := by
  simp only [BTreeMemtable.put] at h
  split_ifs at h
  cases h
  exact ⟨rfl, rfl, rfl⟩

theorem BTreeMemtable.put_of_full
    (hne : m.entries ≠ []) (hfull : m.capacity < m.size + (key.userKey.length + value.length)) :
    m.put key value = .error .storeFull := by
  have hstore : m.store.entries ≠ [] := fun hnil => hne (List.map_eq_nil_iff.mpr hnil)
  simp [BTreeMemtable.put, hstore, hfull]

theorem BTreeMemtable.put_error
    {e : WriteError} (h : m.put key value = .error e) : e = .storeFull ∧ m.entries ≠ [] := by
  simp only [BTreeMemtable.put] at h
  split_ifs at h with hfull
  cases h
  refine ⟨rfl, ?_⟩
  intro hempty
  have hstore : m.store.entries = [] := List.map_eq_nil_iff.mp hempty
  simp [hstore] at hfull

theorem BTreeMemtable.mem_entries_put {m' : BTreeMemtable} {kv : KeyValue}
    (h : m.put kv.key kv.value = .ok m') (hfresh : ∀ x ∈ m.entries, x.key.rank ≠ kv.key.rank)
    (x : KeyValue) : x ∈ m'.entries ↔ x = kv ∨ x ∈ m.entries := by
  have hfresh' : ∀ y ∈ m.store.entries, y.1.rank ≠ kv.key.rank := fun y hy =>
    hfresh _ (List.mem_map_of_mem (f := fun y => ({ key := y.1, value := y.2 } : KeyValue)) hy)
  simp only [BTreeMemtable.entries, (BTreeMemtable.put_ok h).1, OrderedMap.insert, List.mem_map,
    mem_insertEntry_of_fresh hfresh']
  constructor
  · rintro ⟨y, rfl | hy, rfl⟩
    · exact Or.inl rfl
    · exact Or.inr ⟨y, hy, rfl⟩
  · rintro (rfl | ⟨y, hy, rfl⟩)
    · exact ⟨_, Or.inl rfl, rfl⟩
    · exact ⟨y, Or.inr hy, rfl⟩

def replayAll (m : BTreeMemtable) (records : List KeyValue) : Except WriteError BTreeMemtable :=
  records.foldlM (fun m r => m.put r.key r.value) m

theorem replayAll_snoc (m : BTreeMemtable) (records : List KeyValue) (r : KeyValue) :
    replayAll m (records ++ [r]) = replayAll m records >>= fun m => m.put r.key r.value := by
  simp [replayAll, List.foldlM_append]

/-! ### The journal around it -/

def intoWrite (e : JournalError) : WriteError := .internal e.text

def keyValueCodec : Journal.Codec KeyValue where
  encode := KeyValue.encode
  decode bytes :=
    match KeyValue.decode bytes with
    | .ok (kv, _) => .ok kv
    | .error e => .error (.decode e.text)

theorem keyValueCodec_decode {bytes rest : Bytes} {kv : KeyValue}
    (h : KeyValue.decode bytes = .ok (kv, rest)) : keyValueCodec.decode bytes = .ok kv := by
  simp only [keyValueCodec, h]

theorem keyValueCodec_lawful {kv : KeyValue} (h : kv.encode.length < 2 ^ 32) :
    keyValueCodec.Lawful kv := by
  have hread := KeyValue.reads_encode (KeyValue.fits_of_encode h) []
  rw [List.append_nil] at hread
  exact keyValueCodec_decode hread

structure Journaled where
  inner : BTreeMemtable
  journal : Journal

def replayInto : BTreeMemtable → List (Except JournalError KeyValue) →
    Except WriteError BTreeMemtable
  | m, [] => .ok m
  | _, .error e :: _ => .error (intoWrite e)
  | m, .ok r :: rest => do
    let m ← m.put r.key r.value
    replayInto m rest

theorem replayInto_ok (m : BTreeMemtable) (records : List KeyValue) :
    replayInto m (records.map .ok) = replayAll m records := by
  induction records generalizing m with
  | nil => rfl
  | cons r records ih =>
    show (m.put r.key r.value >>= fun m => replayInto m (records.map .ok)) =
      (m.put r.key r.value >>= fun m => replayAll m records)
    simp only [ih]

section Operations

variable (crc : Bytes → UInt32)

def Journaled.open (file : Option Bytes) (inner : BTreeMemtable) : Except WriteError Journaled := do
  let journal ← (withCodec file).mapError intoWrite
  let inner ← replayInto inner (replay crc keyValueCodec journal.file)
  .ok { inner, journal }

/-- `put`: log, then apply.  The record stays in the log when the memtable refuses
    the write. -/
def Journaled.put (j : Journaled) (key : InternalKey) (value : Bytes) :
    Except WriteError Unit × Journaled :=
  let journal := append crc keyValueCodec j.journal { key, value }
  match j.inner.put key value with
  | .ok inner => (.ok (), { inner, journal })
  | .error e => (.error e, { inner := j.inner, journal })

def Journaled.clear (j : Journaled) : Journaled where
  inner := j.inner.clear
  journal := truncate j.journal

variable {crc}

structure Journaled.Logs (crc : Bytes → UInt32) (j : Journaled) (records : List KeyValue) :
    Prop where
  file : j.journal.file = contents crc keyValueCodec records []
  small : ∀ r ∈ records, r.encode.length < 2 ^ 32

theorem Journaled.put_of_ok {j : Journaled}
    {inner : BTreeMemtable} (h : j.inner.put key value = .ok inner) :
    j.put crc key value =
      (.ok (), { inner, journal := append crc keyValueCodec j.journal { key, value } }) := by
  simp only [Journaled.put, h]

theorem Journaled.put_of_error {j : Journaled} {e : WriteError}
    (h : j.inner.put key value = .error e) :
    j.put crc key value = (.error e,
      { inner := j.inner, journal := append crc keyValueCodec j.journal { key, value } }) := by
  simp only [Journaled.put, h]

theorem Journaled.Logs.append {j : Journaled} {records : List KeyValue} (h : j.Logs crc records)
    {kv : KeyValue} (hsmall : kv.encode.length < 2 ^ 32) (inner : BTreeMemtable) :
    Journaled.Logs crc { inner, journal := Journal.append crc keyValueCodec j.journal kv }
      (records ++ [kv]) := by
  refine ⟨Journal.append_contents h.file kv, ?_⟩
  intro r hr
  rcases List.mem_append.mp hr with hr | hr
  · exact h.small r hr
  · rwa [List.mem_singleton.mp hr]

theorem Journaled.Logs.clear {j : Journaled} {records : List KeyValue} (h : j.Logs crc records) :
    j.clear.Logs crc [] :=
  ⟨Journal.truncate_contents h.file, by simp⟩

/-- **Opening a log** puts its records into the memtable, and succeeds exactly when
    they are all accepted. -/
theorem Journaled.open_contents {records : List KeyValue}
    (hsmall : ∀ r ∈ records, r.encode.length < 2 ^ 32) {tail : Bytes} (htail : TornTail crc tail)
    (inner : BTreeMemtable) : ∃ journal : Journal,
    journal.file = contents crc keyValueCodec records tail ∧
    Journaled.open crc (some (contents crc keyValueCodec records tail)) inner =
      (replayAll inner records).map (fun inner => { inner, journal }) := by
  obtain ⟨journal, hj, hfile⟩ := Journal.withCodec_contents crc keyValueCodec records tail
  refine ⟨journal, hfile, ?_⟩
  have hreplay : replay crc keyValueCodec journal.file = records.map .ok := by
    rw [hfile]
    exact replay_contents (fun r hr => ⟨hsmall r hr, keyValueCodec_lawful (hsmall r hr)⟩) htail
  simp only [Journaled.open, hj, hreplay, replayInto_ok, Except.mapError, bind, Except.bind]
  cases replayAll inner records <;> rfl

theorem Journaled.open_none (crc : Bytes → UInt32) (inner : BTreeMemtable) : ∃ journal : Journal,
    journal.file = contents crc keyValueCodec [] [] ∧
    Journaled.open crc none inner = .ok { inner, journal } := by
  obtain ⟨journal, hj, hfile⟩ :=
    Journal.withCodec_of_empty (show (none : Option Bytes).getD [] = [] from rfl)
  have hfile' : journal.file = contents crc keyValueCodec [] [] := by
    rw [hfile, Journal.contents_nil]
  have hreplay : replay crc keyValueCodec journal.file = [] := by
    rw [hfile']
    exact replay_contents (by simp) (Journal.tornTail_nil crc)
  refine ⟨journal, hfile', ?_⟩
  simp only [Journaled.open, hj, hreplay, Except.mapError, bind, Except.bind, replayInto]

end Operations

end StrataDb.Lsm
