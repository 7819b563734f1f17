import StrataDb.RowStream
import StrataDb.StableSort
import StrataDb.Workspace

/-!
# External merge sort (`crates/strata-db/src/query/volcano/sort.rs`)

Batches are sorted by their key bytes and spilled as runs, which are read back and merged. The
result is one stable sort of the input, and the only failures are those of the input, of a key,
and of a row that is too wide for a page (`sort_cases`).
-/

namespace StrataDb.Sql

open ByteCodec LexOrder StableSort
open Filesystem (FileWorkspace FsError maxTuple Verifies Block)
open Runs (bind_eq_ok)
open List (Forall₂ mem_cons_of_mem mem_cons_self mem_map mem_map_of_mem)
open RowStream (mem_ofRows ofRows)

def SORT_RUN_TUPLES : Nat := 4096
def SORT_RUN_MEMORY : Nat := 8 * 1024 * 1024
def SORT_RUN_DISK : Nat := 2 ^ 30

abbrev SortRun := FileWorkspace (FileWorkspace.framesOf SORT_RUN_MEMORY)

abbrev Keyed := List Bytes × Tuple

def spillError (what : String) (e : FsError) : Fault := .error (.internal (what ++ ": " ++ e.text))

section Definitions

variable (ctx : QueryContext) (keys : List SortKey) (schema : Schema)

def appendAll : List Tuple → SortRun → Outcome SortRun
  | [], run => .ok run
  | tuple :: rest, run => do
    let bytes ← schema.encode ctx.runtime tuple
    match run.append ctx.crc ctx.hash bytes with
    | (.error e, _) => .error (spillError "sort run" e)
    | (.ok _, run) => appendAll rest run

def flushRun (batch : List Keyed) : Outcome SortRun :=
  match FileWorkspace.new SORT_RUN_MEMORY SORT_RUN_DISK with
  | .error (.error e) => .error (spillError "sort spill" e)
  | .error (.panicked msg) => .error (.panicked msg)
  | .ok run => appendAll ctx schema ((stableSort Prod.fst batch).map Prod.snd) run

def generateRuns : RowStream → List Keyed → Outcome (List SortRun)
  | [], batch => if batch.isEmpty then .ok [] else do return [← flushRun ctx schema batch]
  | row :: rest, batch => do
    let tuple ← row
    let key ← sortKeyBytes ctx.runtime tuple keys
    let batch := batch ++ [(key, tuple)]
    if SORT_RUN_TUPLES ≤ batch.length then
      let run ← flushRun ctx schema batch
      return run :: (← generateRuns rest [])
    else generateRuns rest batch

/-! ### Merging -/

structure MergeItem where
  key : List Bytes
  tuple : Tuple
  cursor : List Bytes

/-- Pull the next tuple from a run's cursor, decode it and compute its key. -/
def nextItem : List Bytes → Outcome (Option MergeItem)
  | [] => .ok none
  | bytes :: cursor => do
    let tuple ← (schema.decode ctx.runtime bytes).mapError (fun e => .error (.ofDecode e))
    let key ← sortKeyBytes ctx.runtime tuple keys
    return some ⟨key, tuple, cursor⟩

def firstItems : List (List Bytes) → Outcome (List (Option MergeItem))
  | [] => .ok []
  | cursor :: cursors => do
    let item ← nextItem ctx keys schema cursor
    return item :: (← firstItems cursors)

def MergeItem.cmp (a b : MergeItem) : Ordering := order a.key b.key

/-- The second phase.  The heap has at most one item of every run, and pops the least
    key, of equal keys that of the earliest run: `heads` has the items by run. -/
def mergeHeads : Nat → List (Option MergeItem) → Outcome (List Tuple)
  | 0, _ => .ok []
  | fuel + 1, heads =>
    match Merge.minHead MergeItem.cmp 0 none (heads.map Option.toList) with
    | none => .ok []
    | some (run, item) => do
      let next ← nextItem ctx keys schema item.cursor
      return item.tuple :: (← mergeHeads fuel (heads.set run next))

def sort (input : RowStream) : Outcome RowStream := do
  let runs ← generateRuns ctx keys schema input []
  let cursors := runs.map fun run => (run.tuples ctx.crc ctx.hash).1
  let heads ← firstItems ctx keys schema cursors
  let out ← mergeHeads ctx keys schema cursors.flatten.length heads
  return .ofRows out

end Definitions

/-! ### What the runs hold -/

/-- The bytes of a row that a page can take. -/
def Spilled (ctx : QueryContext) (schema : Schema) (tuple : Tuple) (bytes : Bytes) : Prop :=
  schema.encode ctx.runtime tuple = .ok bytes ∧ bytes.length ≤ maxTuple

/-- A row that no page can take, and how it is reported. -/
def TooWide (ctx : QueryContext) (schema : Schema) (tuple : Tuple) (f : Fault) : Prop :=
  ∃ bytes, schema.encode ctx.runtime tuple = .ok bytes ∧ maxTuple < bytes.length
    ∧ f = spillError "sort run" (.tupleTooLarge bytes.length maxTuple)

/-- What the sort relies on of the crates. -/
structure Scratch (ctx : QueryContext) : Prop where
  codec : ctx.runtime.CodecLaws
  zeroed : ¬ Verifies ctx.crc Block.zeroed

section Runs

variable {ctx : QueryContext} {keys : List SortKey} {schema : Schema}

theorem appendAll_cases (hscratch : Scratch ctx) {tuples : List Tuple}
    (htyped : ∀ t ∈ tuples, Typed ctx.runtime schema.fields t) {run : SortRun} {ts : List Bytes}
    (hstores : FileWorkspace.Stores ctx.crc run ts)
    (hroom : run.pages.length + tuples.length ≤ run.maxPages) :
    (∃ run' bss, appendAll ctx schema tuples run = .ok run'
        ∧ FileWorkspace.Stores ctx.crc run' (ts ++ bss)
        ∧ Forall₂ (Spilled ctx schema) tuples bss)
      ∨ ∃ t ∈ tuples, ∃ f, TooWide ctx schema t f ∧ appendAll ctx schema tuples run = .error f := by
  induction tuples generalizing run ts with
  | nil => exact Or.inl ⟨run, [], rfl, by rwa [List.append_nil], .nil⟩
  | cons t tuples ih =>
    obtain ⟨bytes, henc, -⟩ := Schema.encode_ok hscratch.codec (htyped t mem_cons_self).fitting
    have happend :=
      hstores.append ctx.hash (t := bytes) (FileWorkspace.framesOf_pos _) hscratch.zeroed
    have hstep : appendAll ctx schema (t :: tuples) run =
        match run.append ctx.crc ctx.hash bytes with
        | (.error e, _) => .error (spillError "sort run" e)
        | (.ok _, run) => appendAll ctx schema tuples run := by
      rw [appendAll, henc]
      rfl
    rw [hstep]
    generalize run.append ctx.crc ctx.hash bytes = r at happend
    cases happend with
    | ok stores fits maxPages grows =>
      rw [List.length_cons] at hroom
      rcases ih (fun u hu => htyped u (mem_cons_of_mem _ hu)) stores (by omega) with
        ⟨run', bss, hrun, hstores', hspilled⟩ | ⟨u, hu, f, hwide, hrun⟩
      · refine Or.inl ⟨run', bytes :: bss, hrun, ?_, .cons ⟨henc, fits⟩ hspilled⟩
        rwa [List.append_assoc] at hstores'
      · exact Or.inr ⟨u, mem_cons_of_mem _ hu, f, hwide, hrun⟩
    -- there is a page left for every row
    | full stores full =>
      rw [List.length_cons] at hroom
      omega
    | tooLarge stores large =>
      exact Or.inr ⟨t, mem_cons_self, _, ⟨bytes, henc, large, rfl⟩, rfl⟩

/-- A run that holds a batch, sorted. -/
def RunHolds (ctx : QueryContext) (schema : Schema) (run : SortRun) (batch : List Keyed) : Prop :=
  ∃ bss, FileWorkspace.Stores ctx.crc run bss
    ∧ Forall₂ (Spilled ctx schema) ((stableSort Prod.fst batch).map Prod.snd) bss

theorem flushRun_cases (hscratch : Scratch ctx) {batch : List Keyed}
    (htyped : ∀ p ∈ batch, Typed ctx.runtime schema.fields p.2)
    (hlen : batch.length ≤ SORT_RUN_TUPLES) :
    (∃ run, flushRun ctx schema batch = .ok run ∧ RunHolds ctx schema run batch)
      ∨ ∃ p ∈ batch, ∃ f, TooWide ctx schema p.2 f ∧ flushRun ctx schema batch = .error f := by
  have hperm := stableSort_perm Prod.fst batch
  have htyped' : ∀ t ∈ (stableSort Prod.fst batch).map Prod.snd,
    Typed ctx.runtime schema.fields t := by
    intro t ht
    obtain ⟨p, hp, rfl⟩ := mem_map.mp ht
    exact htyped p (hperm.subset hp)
  obtain ⟨run, hnew, hstores, hpages, hmax⟩ :=
    @FileWorkspace.stores_new ctx.crc SORT_RUN_MEMORY SORT_RUN_DISK (by decide)
  have hroom : run.pages.length + ((stableSort Prod.fst batch).map Prod.snd).length
    ≤ run.maxPages := by
    -- a run may take a page for each of its rows
    have hconst : SORT_RUN_TUPLES ≤ SORT_RUN_DISK / Filesystem.PAGE_SIZE := by decide
    rw [hpages, hmax, List.length_map, hperm.length_eq, List.length_nil]
    omega
  rw [flushRun, hnew]
  rcases appendAll_cases hscratch htyped' hstores hroom with
    ⟨run', bss, hrun, hstores', hspilled⟩ | ⟨t, ht, f, hwide, hrun⟩
  · exact Or.inl ⟨run', hrun, bss, hstores', hspilled⟩
  · obtain ⟨p, hp, rfl⟩ := mem_map.mp ht
    exact Or.inr ⟨p, hperm.subset hp, f, hwide, hrun⟩

def KeyedRow (ctx : QueryContext) (keys : List SortKey) (row : Outcome Tuple) (p : Keyed) : Prop :=
  row = .ok p.2 ∧ sortKeyBytes ctx.runtime p.2 keys = .ok p.1

/-- What can be wrong with the input of a sort. -/
inductive SortFault (ctx : QueryContext) (keys : List SortKey) (schema : Schema)
    (input : RowStream) : Fault → Prop
  | input {f : Fault} (mem : .error f ∈ input) : SortFault ctx keys schema input f
  | key {f : Fault} {t : Tuple} (mem : .ok t ∈ input)
      (fails : sortKeyBytes ctx.runtime t keys = .error f) : SortFault ctx keys schema input f
  | width {f : Fault} {t : Tuple} (mem : .ok t ∈ input) (wide : TooWide ctx schema t f) :
      SortFault ctx keys schema input f

theorem SortFault.mono {input input' : RowStream} {f : Fault}
    (h : SortFault ctx keys schema input f) (hsub : ∀ item ∈ input, item ∈ input') :
    SortFault ctx keys schema input' f := by
  cases h with
  | input mem => exact .input (hsub _ mem)
  | key mem fails => exact .key (hsub _ mem) fails
  | width mem wide => exact .width (hsub _ mem) wide

/-- A row with its key joins the batch, which is spilled when it is full. -/
theorem generateRuns_keyed {tuple : Tuple} {key : List Bytes}
    (hkey : sortKeyBytes ctx.runtime tuple keys = .ok key) (rest : RowStream) (batch : List Keyed) :
    generateRuns ctx keys schema (.ok tuple :: rest) batch =
      if SORT_RUN_TUPLES ≤ (batch ++ [(key, tuple)]).length then do
        let run ← flushRun ctx schema (batch ++ [(key, tuple)])
        return run :: (← generateRuns ctx keys schema rest [])
      else generateRuns ctx keys schema rest (batch ++ [(key, tuple)]) := by
  show (sortKeyBytes ctx.runtime tuple keys >>= _) = _
  rw [hkey]
  rfl

/-- **The first phase** cuts the keyed rows into batches and spills each of them sorted. -/
theorem generateRuns_cases (hscratch : Scratch ctx) {input : RowStream} {batch : List Keyed}
    (htyped : ∀ t, .ok t ∈ input → Typed ctx.runtime schema.fields t)
    (hbatch : ∀ p ∈ batch, Typed ctx.runtime schema.fields p.2)
    (hlen : batch.length < SORT_RUN_TUPLES) :
    (∃ runs batches rows, generateRuns ctx keys schema input batch = .ok runs
        ∧ Forall₂ (KeyedRow ctx keys) input rows
        ∧ Forall₂ (RunHolds ctx schema) runs batches ∧ batches.flatten = batch ++ rows)
      ∨ ∃ f, generateRuns ctx keys schema input batch = .error f
        ∧ SortFault ctx keys schema (ofRows (batch.map Prod.snd) ++ input) f := by
  induction input generalizing batch with
  | nil =>
    rw [generateRuns]
    split_ifs with hempty
    · rw [List.isEmpty_iff.mp hempty]
      exact Or.inl ⟨[], [], [], rfl, .nil, .nil, rfl⟩
    · -- what was gathered is the last batch
      rcases flushRun_cases hscratch hbatch hlen.le with ⟨run, hrun, hholds⟩ | ⟨p, hp, f,
        hwide, hrun⟩
      · rw [hrun]
        exact Or.inl ⟨[run], [batch], [], rfl, .nil, .cons hholds .nil, by simp⟩
      · rw [hrun]
        refine Or.inr ⟨f, rfl, .width (t := p.2) ?_ hwide⟩
        rw [List.append_nil]
        exact mem_map_of_mem (mem_map_of_mem hp)
  | cons row rest ih =>
    cases row with
    | error f => exact Or.inr ⟨f, rfl, .input (by simp)⟩
    | ok tuple =>
      cases hkey : sortKeyBytes ctx.runtime tuple keys with
      | error f =>
        refine Or.inr ⟨f, ?_, .key (t := tuple) (by simp) hkey⟩
        show (sortKeyBytes ctx.runtime tuple keys >>= _) = _
        rw [hkey]
        rfl
      | ok key =>
        have hrest : ∀ t, .ok t ∈ rest → Typed ctx.runtime schema.fields t :=
          fun t ht => htyped t (mem_cons_of_mem _ ht)
        have hmore : ∀ p ∈ batch ++ [(key, tuple)], Typed ctx.runtime schema.fields p.2 := by
          intro p hp
          rcases List.mem_append.mp hp with hp | hp
          · exact hbatch p hp
          · rw [List.mem_singleton.mp hp]
            exact htyped tuple mem_cons_self
        have hitems : ∀ item ∈ ofRows ((batch ++ [(key, tuple)]).map Prod.snd) ++ rest,
            item ∈ ofRows (batch.map Prod.snd) ++ .ok tuple :: rest := by
          intro item hitem
          simpa [ofRows, or_assoc] using hitem
        rw [generateRuns_keyed hkey]
        split_ifs with hfull
        · -- this row fills the batch
          have hexact : (batch ++ [(key, tuple)]).length ≤ SORT_RUN_TUPLES := by
            rw [List.length_append, List.length_singleton]
            omega
          rcases flushRun_cases hscratch hmore hexact with ⟨run, hrun, hholds⟩ | ⟨p, hp, f,
            hwide, hrun⟩
          · rw [hrun]
            rcases @ih [] hrest (fun _ hp => absurd hp List.not_mem_nil) (by decide) with
              ⟨runs, batches, rows, hruns, hrows, hall, hflat⟩ | ⟨f, hruns, hfault⟩
            · refine Or.inl ⟨run :: runs, (batch ++ [(key, tuple)]) :: batches,
                (key, tuple) :: rows,
                ?_, .cons ⟨rfl, hkey⟩ hrows, .cons hholds hall, ?_⟩
              · rw [hruns]
                rfl
              · rw [List.flatten_cons, hflat]
                simp
            · refine Or.inr ⟨f, ?_, hfault.mono fun item hitem => ?_⟩
              · rw [hruns]
                rfl
              · exact List.mem_append_right _ (mem_cons_of_mem _ (by simpa [ofRows] using hitem))
          · rw [hrun]
            refine Or.inr ⟨f, rfl, .width (t := p.2) (hitems _ ?_) hwide⟩
            exact List.mem_append_left _ (mem_map_of_mem (mem_map_of_mem hp))
        · rcases ih hrest hmore (Nat.lt_of_not_le hfull) with
            ⟨runs, batches, rows, hruns, hrows, hall, hflat⟩ | ⟨f, hruns, hfault⟩
          · refine Or.inl ⟨runs, batches, (key, tuple) :: rows, hruns, .cons ⟨rfl, hkey⟩ hrows,
              hall, ?_⟩
            rw [hflat]
            simp
          · exact Or.inr ⟨f, hruns, hfault.mono hitems⟩

end Runs

/-! ### Merging the runs -/

section Merging

variable {ctx : QueryContext} {keys : List SortKey} {schema : Schema}

/-- Bytes that read back as a row, with its key. -/
def ReadsBack (ctx : QueryContext) (keys : List SortKey) (schema : Schema) (bytes : Bytes)
    (p : Keyed) : Prop :=
  schema.decode ctx.runtime bytes = .ok p.2 ∧ sortKeyBytes ctx.runtime p.2 keys = .ok p.1

/-- The rows a run still has to give, its head first. -/
inductive HeadReads (ctx : QueryContext) (keys : List SortKey) (schema : Schema) :
    Option MergeItem → List Keyed → Prop
  | done : HeadReads ctx keys schema none []
  | head {item : MergeItem} {rows : List Keyed}
      (cursor : Forall₂ (ReadsBack ctx keys schema) item.cursor rows) :
      HeadReads ctx keys schema (some item) ((item.key, item.tuple) :: rows)

theorem nextItem_eq {cursor : List Bytes} {rows : List Keyed}
    (h : Forall₂ (ReadsBack ctx keys schema) cursor rows) :
    ∃ next, nextItem ctx keys schema cursor = .ok next ∧ HeadReads ctx keys schema next rows := by
  cases h with
  | nil => exact ⟨none, rfl, .done⟩
  | @cons bytes p cursor rows hp hrest =>
    refine ⟨some ⟨p.1, p.2, cursor⟩, ?_, .head hrest⟩
    exact bind_eq_ok.mpr ⟨p.2, by rw [hp.1]; rfl, bind_eq_ok.mpr ⟨p.1, hp.2, rfl⟩⟩

theorem firstItems_eq {cursors : List (List Bytes)} {sources : List (List Keyed)}
    (h : Forall₂ (Forall₂ (ReadsBack ctx keys schema)) cursors sources) :
    ∃ heads, firstItems ctx keys schema cursors = .ok heads
      ∧ Forall₂ (HeadReads ctx keys schema) heads sources := by
  induction h with
  | nil => exact ⟨[], rfl, .nil⟩
  | cons hcursor _ ih =>
    obtain ⟨head, hhead, hreads⟩ := nextItem_eq hcursor
    obtain ⟨heads, hheads, hall⟩ := ih
    exact ⟨head :: heads, bind_eq_ok.mpr ⟨head, hhead, bind_eq_ok.mpr ⟨heads, hheads, rfl⟩⟩,
      .cons hreads hall⟩

theorem forall₂_headReads_set {heads : List (Option MergeItem)} {sources : List (List Keyed)}
    (h : Forall₂ (HeadReads ctx keys schema) heads sources) {i : Nat} {item : MergeItem}
    (hi : heads[i]? = some (some item)) :
    ∃ rows, sources[i]? = some ((item.key, item.tuple) :: rows)
      ∧ Forall₂ (ReadsBack ctx keys schema) item.cursor rows
      ∧ ∀ next, HeadReads ctx keys schema next rows →
        Forall₂ (HeadReads ctx keys schema) (heads.set i next) (sources.modify i List.tail) := by
  induction h generalizing i with
  | nil => simp at hi
  | @cons head rows heads sources hhead hrest ih =>
    cases i with
    | zero =>
      obtain rfl := Option.some.inj hi
      cases hhead with
      | head cursor => exact ⟨_, rfl, cursor, fun next hnext => .cons hnext hrest⟩
    | succ i =>
      obtain ⟨rows, hsource, hcursor, hset⟩ := ih (by simpa using hi)
      exact ⟨rows, by simpa using hsource, hcursor, fun next hnext => .cons hhead (hset next hnext)⟩

theorem mergeHeads_eq {heads : List (Option MergeItem)} {sources : List (List Keyed)}
    (h : Forall₂ (HeadReads ctx keys schema) heads sources) (fuel : Nat) :
    mergeHeads ctx keys schema fuel heads
      = .ok ((Merge.mergeLoop (fun p q => order p.1 q.1) fuel sources).map Prod.snd) := by
  induction fuel generalizing heads sources with
  | zero => rfl
  | succ fuel ih =>
    -- a head is the first row its run has left
    have hheads : Forall₂ (fun (s : List MergeItem) s' =>
        s'.head? = s.head?.map fun item => (item.key, item.tuple)) (heads.map Option.toList)
          sources := by
      refine List.forall₂_map_left_iff.mpr (h.imp fun head rows hread => ?_)
      cases hread with
      | done => rfl
      | head => rfl
    have hpass := @Merge.minHead_map _ MergeItem.cmp _ (fun p q : Keyed => order p.1 q.1)
      (fun item => (item.key, item.tuple)) (fun _ _ => rfl) _ _ hheads 0 none
    rw [Option.map_none] at hpass
    rw [mergeHeads, Merge.mergeLoop, Merge.next, hpass]
    cases hmin : Merge.minHead MergeItem.cmp 0 none (heads.map Option.toList) with
    | none => rfl
    | some found =>
      obtain ⟨i, item⟩ := found
      have hcmp : ∀ a b : MergeItem, a.cmp b = .lt ↔ a.key < b.key := fun a b => cmp_eq_lt_iff _ _
      obtain ⟨n, t, hn, ht⟩ := (Merge.minHead_eq_some hcmp hmin).1.resolve_left (by simp)
      obtain rfl : i = n := by omega
      have hhead : heads[i]? = some (some item) := by
        rw [List.getElem?_map, Option.map_eq_some_iff] at ht
        obtain ⟨head, hhead, hlist⟩ := ht
        cases head with
        | none => cases hlist
        | some found =>
          cases hlist
          exact hhead
      obtain ⟨rows, -, hcursor, hset⟩ := forall₂_headReads_set h hhead
      obtain ⟨next, hnext, hreads⟩ := nextItem_eq hcursor
      simp only [Option.map_some, Prod.map, id]
      exact bind_eq_ok.mpr ⟨next, hnext, bind_eq_ok.mpr ⟨_, ih (hset next hreads), rfl⟩⟩

theorem RunHolds.reads (hscratch : Scratch ctx) {run : SortRun} {batch : List Keyed}
    (h : RunHolds ctx schema run batch) (htyped : ∀ p ∈ batch, Typed ctx.runtime schema.fields p.2)
    (hkeys : ∀ p ∈ batch, sortKeyBytes ctx.runtime p.2 keys = .ok p.1) :
    Forall₂ (ReadsBack ctx keys schema) (run.tuples ctx.crc ctx.hash).1
      (stableSort Prod.fst batch) := by
  obtain ⟨bss, hstores, hspilled⟩ := h
  obtain ⟨run', hrun, -⟩ := hstores.tuples ctx.hash (FileWorkspace.framesOf_pos _)
  rw [hrun]
  have hmem : ∀ p ∈ stableSort Prod.fst batch, p ∈ batch :=
    fun p hp => (stableSort_perm Prod.fst batch).subset hp
  generalize stableSort Prod.fst batch = sorted at hmem hspilled
  clear hrun hstores
  induction sorted generalizing bss with
  | nil =>
    obtain rfl := List.forall₂_nil_left_iff.mp hspilled
    exact .nil
  | cons p sorted ih =>
    obtain ⟨bytes, bss, ⟨henc, hlen⟩, hrest, rfl⟩ := List.forall₂_cons_left_iff.mp hspilled
    have hp := hmem p mem_cons_self
    have hshort : bytes.length < 2 ^ 32 := Nat.lt_of_le_of_lt hlen (by decide)
    exact .cons ⟨Schema.decode_encode_of_length hscratch.codec (htyped p hp) henc hshort,
      hkeys p hp⟩
      (ih bss (fun q hq => hmem q (mem_cons_of_mem _ hq)) hrest)

end Merging

/-! ### The whole sort -/

def emptyContext : QueryContext where
  runtime := default
  crc := Filesystem.castagnoli
  hash _ := 0
  xxh3 _ _ := 0
  joinConfig := ⟨0, 0, 0, 0⟩
  scan _ := []
  catalog := ⟨.ok [], fun _ => .ok [], fun _ _ => .ok [], fun _ => .ok [], .ok []⟩

theorem scratch_emptyContext : Scratch emptyContext where
  codec := codecLaws_default
  zeroed := Filesystem.not_verifies_castagnoli_zeroed

def keySchema (ty : LogicalType) : Schema := ⟨[⟨"k", ty, true, none⟩]⟩

section Whole

variable {ctx : QueryContext} {keys : List SortKey} {schema : Schema} {input : RowStream}

/-- **Sorting rows of the schema's shape** gives the stable sort of the input, or reports
    what is wrong with it. -/
theorem sort_cases (hscratch : Scratch ctx)
    (htyped : ∀ t, .ok t ∈ input → Typed ctx.runtime schema.fields t) :
    (∃ rows, Forall₂ (KeyedRow ctx keys) input rows
        ∧ sort ctx keys schema input = .ok (.ofRows ((stableSort Prod.fst rows).map Prod.snd)))
      ∨ ∃ f, sort ctx keys schema input = .error f ∧ SortFault ctx keys schema input f := by
  rcases @generateRuns_cases ctx keys schema hscratch input [] htyped nofun (by decide) with
    ⟨runs, batches, rows, hruns, hrows, hholds, hflat⟩ | ⟨f, hruns, hfault⟩
  · rw [List.nil_append] at hflat
    have hrow : ∀ batch ∈ batches, ∀ p ∈ batch,
        Typed ctx.runtime schema.fields p.2 ∧ sortKeyBytes ctx.runtime p.2 keys = .ok p.1 := by
      intro batch hbatch p hp
      have hmem : p ∈ rows := hflat ▸ List.mem_flatten.mpr ⟨batch, hbatch, hp⟩
      obtain ⟨item, hitem, rfl, hkey⟩ := exists_of_forall₂ hrows hmem
      exact ⟨htyped p.2 hitem, hkey⟩
    -- each run reads back as its batch, sorted
    have hcursors : Forall₂ (Forall₂ (ReadsBack ctx keys schema))
        (runs.map fun run => (run.tuples ctx.crc ctx.hash).1)
          (batches.map (stableSort Prod.fst)) := by
      rw [List.forall₂_map_left_iff, List.forall₂_map_right_iff]
      refine List.forall₂_iff_get.mpr ⟨hholds.length_eq, fun i hi hi' => ?_⟩
      have hmem : batches.get ⟨i, hi'⟩ ∈ batches := List.get_mem _ _
      exact (hholds.get hi hi').reads hscratch (fun p hp => (hrow _ hmem p hp).1)
        fun p hp => (hrow _ hmem p hp).2
    obtain ⟨heads, hheads, hreads⟩ := firstItems_eq hcursors
    refine Or.inl ⟨rows, hrows, ?_⟩
    have hfuel : batches.flatten.length
        ≤ (runs.map fun run => (run.tuples ctx.crc ctx.hash).1).flatten.length := by
      rw [(List.rel_flatten hcursors).length_eq, length_flatten_map_stableSort]
    have hcmp : ∀ p q : Keyed, order p.1 q.1 = .lt ↔ p.1 < q.1 := fun p q => cmp_eq_lt_iff _ _
    have hmerged := mergeHeads_eq hreads
      (runs.map fun run => (run.tuples ctx.crc ctx.hash).1).flatten.length
    rw [merge_eq_stableSort hcmp batches hfuel, hflat] at hmerged
    exact bind_eq_ok.mpr
      ⟨runs, hruns, bind_eq_ok.mpr ⟨heads, hheads, bind_eq_ok.mpr ⟨_, hmerged, rfl⟩⟩⟩
  · refine Or.inr ⟨f, ?_, hfault⟩
    rw [sort, hruns]
    rfl

theorem ofRows_of_keyedRow {rows : List Keyed} (h : Forall₂ (KeyedRow ctx keys) input rows) :
    ofRows (rows.map Prod.snd) = input := by
  induction h with
  | nil => rfl
  | @cons item p input rows hrow hrest ih =>
    rw [hrow.1]
    exact congrArg (_ :: ·) ih

theorem sort_ok (hscratch : Scratch ctx) {rows : List Tuple}
    (htyped : ∀ t ∈ rows, Typed ctx.runtime schema.fields t)
    (hkeys : ∀ t ∈ rows, ∃ key, sortKeyBytes ctx.runtime t keys = .ok key)
    (hwidth : ∀ t ∈ rows, schema.encodedSize t ≤ maxTuple) :
    ∃ output, sort ctx keys schema (.ofRows rows) = .ok output := by
  have hmem : ∀ t, .ok t ∈ ofRows rows → t ∈ rows := fun t => mem_ofRows.mp
  rcases @sort_cases ctx keys schema (.ofRows rows) hscratch (fun t ht => htyped t (hmem t ht)) with
    ⟨keyed, -, hsort⟩ | ⟨f, -, hfault⟩
  · exact ⟨_, hsort⟩
  · exfalso
    cases hfault with
    | input mem => exact RowStream.error_notMem_ofRows mem
    | @key t mem fails =>
      obtain ⟨key, hkey⟩ := hkeys t (hmem t mem)
      rw [hkey] at fails
      cases fails
    | @width t mem wide =>
      obtain ⟨bytes, henc, hlt, -⟩ := wide
      obtain ⟨bytes', henc', hsize⟩ :=
        Schema.encode_ok hscratch.codec (htyped t (hmem t mem)).fitting
      cases henc.symm.trans henc'
      have hfits := hwidth t (hmem t mem)
      omega

theorem encodedSize_le_of_sort (hscratch : Scratch ctx)
    (htyped : ∀ t, .ok t ∈ input → Typed ctx.runtime schema.fields t) {output : RowStream}
    (h : sort ctx keys schema input = .ok output) {t : Tuple} (ht : .ok t ∈ input) :
    schema.encodedSize t ≤ maxTuple := by
  rcases @generateRuns_cases ctx keys schema hscratch input [] htyped (by simp) (by decide) with
    ⟨runs, batches, rows, -, hrows, hholds, hflat⟩ | ⟨f, hruns, -⟩
  · have hmem : t ∈ rows.map Prod.snd := by
      rw [← ofRows_of_keyedRow hrows] at ht
      exact mem_ofRows.mp ht
    obtain ⟨p, hp, rfl⟩ := mem_map.mp hmem
    rw [List.nil_append] at hflat
    obtain ⟨batch, hbatch, hp⟩ := List.mem_flatten.mp (hflat ▸ hp)
    obtain ⟨run, -, bss, -, hspilled⟩ := exists_of_forall₂ hholds hbatch
    obtain ⟨bytes, -, henc, hlen⟩ := exists_of_forall₂ hspilled.flip
      (mem_map_of_mem ((stableSort_perm Prod.fst batch).mem_iff.mpr hp))
    obtain ⟨bytes', henc', hsize⟩ := Schema.encode_ok hscratch.codec (htyped p.2 ht).fitting
    cases henc.symm.trans henc'
    exact hsize ▸ hlen
  · rw [sort, hruns] at h
    cases h

/-- **External merge sort is a stable sort**, however many runs the input takes: the output
    is a rearrangement of the input, its keys ascend, and the rows of one key stand in the
    order they came in. -/
theorem sort_is_stable (hscratch : Scratch ctx)
    (htyped : ∀ t, .ok t ∈ input → Typed ctx.runtime schema.fields t) {output : RowStream}
    (h : sort ctx keys schema input = .ok output) :
    output.Perm input ∧ ∃ rows sorted : List Keyed, Forall₂ (KeyedRow ctx keys) input rows
      ∧ Forall₂ (KeyedRow ctx keys) output sorted ∧ Ascends Prod.fst sorted
      ∧ (∀ key, sorted.filter (fun p => p.1 = key) = rows.filter (fun p => p.1 = key))
      ∧ sorted = stableSort Prod.fst rows := by
  rcases @sort_cases ctx keys schema input hscratch htyped with ⟨rows, hrows, hsort⟩ | ⟨f,
    hfails, -⟩
  · obtain rfl := Except.ok.inj (hsort.symm.trans h)
    have hperm := stableSort_perm Prod.fst rows
    refine ⟨?_, rows, stableSort Prod.fst rows, hrows, ?_, ascends_stableSort _ _,
      fun key => ?_, rfl⟩
    · rw [← ofRows_of_keyedRow hrows]
      exact (hperm.map Prod.snd).map _
    · rw [ofRows, List.map_map, List.forall₂_map_left_iff, List.forall₂_same]
      intro p hp
      obtain ⟨item, -, -, hkey⟩ := exists_of_forall₂ hrows (hperm.mem_iff.mp hp)
      exact ⟨rfl, hkey⟩
    · convert filter_stableSort Prod.fst rows key
  · rw [h] at hfails
    cases hfails

/-- Three rows, two of them of one key. -/
theorem sort_is_stable_three_rows :
    ∃ output, sort emptyContext [⟨.column 0, true, false⟩] (keySchema .int32)
        (.ofRows [[.int32 2], [.int32 1], [.int32 2]]) = .ok output
      ∧ output.Perm (ofRows [[.int32 2], [.int32 1], [.int32 2]]) := by
  have htyped : ∀ t ∈ [[Value.int32 2], [.int32 1], [.int32 2]],
    Typed default (keySchema .int32).fields t := by
    intro t ht
    fin_cases ht <;> exact .cons ⟨rfl, trivial⟩ .nil
  have hkeys : ∀ t ∈ [[Value.int32 2], [.int32 1], [.int32 2]],
      ∃ key, sortKeyBytes emptyContext.runtime t [⟨.column 0, true, false⟩] = .ok key := by
    intro t ht
    fin_cases ht <;> exact ⟨_, rfl⟩
  obtain ⟨output, hsort⟩ := sort_ok scratch_emptyContext htyped hkeys (by decide)
  exact ⟨output, hsort, (sort_is_stable scratch_emptyContext
    (fun t ht => htyped t (mem_ofRows.mp ht)) hsort).1⟩

end Whole

end StrataDb.Sql
