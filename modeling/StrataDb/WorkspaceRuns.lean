import StrataDb.Runs
import StrataDb.Workspace

/-!
# Workspaces over whole runs (`crates/filesystem/src/workspace.rs`)

After any appends and replays with no block held, the tuples of the successful appends come back
in order. A consumer of `blocks` may hold on to blocks; a page that cannot be pinned is passed
over, so an iteration is complete exactly if there is room for a block whenever one is pulled
(`blocks_complete_iff`).
-/

namespace StrataDb.Filesystem

open ByteCodec BlockStore LawfulBlockStore Runs
open Crc (crc32)
open FileWorkspace (framesOf framesOf_pos packs_new)
open List (flatMap_cons mem_append mem_cons_self mem_singleton nil_append replicate)

/-! ### Appends and replays -/

inductive WorkspaceCall where
  | append (tuple : Bytes)
  | tuples

structure Acknowledged (W : Type) where
  ws : W
  tuples : List Bytes := []

section Calls

variable {W : Type} (append : W → Bytes → Except FsError WorkspaceLoc × W)
  (tuples : W → List Bytes × W)

def Acknowledged.call (s : Acknowledged W) : WorkspaceCall → Acknowledged W
  | .append t =>
    match append s.ws t with
    | (.ok _, ws) => ⟨ws, s.tuples ++ [t]⟩
    | (.error _, ws) => ⟨ws, s.tuples⟩
  | .tuples => { s with ws := (tuples s.ws).2 }

def Acknowledged.calls (s : Acknowledged W) (calls : List WorkspaceCall) : Acknowledged W :=
  calls.foldl (Acknowledged.call append tuples) s

theorem Acknowledged.calls_induction {append : W → Bytes → Except FsError WorkspaceLoc × W}
    {tuples : W → List Bytes × W} {P : Acknowledged W → Prop}
    (hcall : ∀ s call, P s → P (s.call append tuples call)) {s : Acknowledged W} (h : P s)
    (calls : List WorkspaceCall) : P (s.calls append tuples calls) := by
  induction calls generalizing s with
  | nil => exact h
  | cons call calls ih => exact ih (hcall s call h)

end Calls

def MemoryWorkspace.afterCalls (capacity : Nat) (calls : List WorkspaceCall) :
    Acknowledged MemoryWorkspace :=
  Acknowledged.calls MemoryWorkspace.append (fun ws => (ws.tuples, ws)) ⟨.new capacity, []⟩ calls

theorem MemoryWorkspace.stores_afterCalls (capacity : Nat) (calls : List WorkspaceCall) :
    (afterCalls capacity calls).ws.Stores (afterCalls capacity calls).tuples ∧
      (afterCalls capacity calls).ws.capacity = capacity := by
  refine Acknowledged.calls_induction
    (P := fun s : Acknowledged MemoryWorkspace => s.ws.Stores s.tuples
      ∧ s.ws.capacity = capacity) ?_
    ⟨stores_new capacity, rfl⟩ calls
  rintro s (t | _) ⟨hstores, hcapacity⟩
  · have happended : Appended s.ws s.tuples t (s.ws.append t) := hstores.append
    rw [Acknowledged.call]
    generalize s.ws.append t = r at happended
    cases happended with
    | ok stores _ capacity _ => exact ⟨stores, capacity.trans hcapacity⟩
    | full _ => exact ⟨hstores, hcapacity⟩
    | tooLarge _ => exact ⟨hstores, hcapacity⟩
  · exact ⟨hstores, hcapacity⟩

namespace FileWorkspace

variable {frames : Nat} (crc : Crc32c) (hash : Bytes → UInt32)

def afterCalls (ws : FileWorkspace frames) (calls : List WorkspaceCall) :
    Acknowledged (FileWorkspace frames) :=
  Acknowledged.calls (append crc hash) (tuples crc hash) ⟨ws, []⟩ calls

variable {crc}

theorem stores_afterCalls (hzero : ¬ Verifies crc Block.zeroed) (hframes : 0 < frames)
    {ws : FileWorkspace frames} (h : Stores crc ws []) (calls : List WorkspaceCall) :
    Stores crc (afterCalls crc hash ws calls).ws (afterCalls crc hash ws calls).tuples := by
  refine Acknowledged.calls_induction (P := fun s => Stores crc s.ws s.tuples) ?_ h calls
  rintro s (t | _) hstores
  · have happended : Appended crc s.ws s.tuples t (s.ws.append crc hash t) :=
      hstores.append hash hframes hzero
    rw [Acknowledged.call]
    generalize s.ws.append crc hash t = r at happended
    cases happended with
    | ok stores _ _ _ => exact stores
    | full stores _ => exact stores
    | tooLarge stores _ => exact stores
  · obtain ⟨ws', htuples, hstores'⟩ := hstores.tuples hash hframes
    rw [Acknowledged.call, htuples]
    exact hstores'

end FileWorkspace

/-! ### The owned cursor -/

structure FileWorkspaceTuples (frames : Nat) where
  ws : FileWorkspace frames
  nextPage : Nat
  page : List Bytes

def FileWorkspace.intoTuples {frames : Nat} (ws : FileWorkspace frames) :
    FileWorkspaceTuples frames := ⟨ws, 0, []⟩

namespace FileWorkspaceTuples

variable {frames : Nat} (crc : Crc32c) (hash : Bytes → UInt32)

def next (cursor : FileWorkspaceTuples frames) : Option Bytes × FileWorkspaceTuples frames :=
  match cursor.page with
  | t :: page => (some t, { cursor with page })
  | [] =>
    match _hpage : cursor.ws.pages[cursor.nextPage]? with
    | none => (none, cursor)
    | some id =>
      match cursor.ws.heap.page crc hash id with
      | (.error _, heap) => next ⟨{ cursor.ws with heap }, cursor.nextPage + 1, []⟩
      | (.ok page, heap) => next ⟨{ cursor.ws with heap }, cursor.nextPage + 1, page⟩
termination_by cursor.ws.pages.length - cursor.nextPage
decreasing_by
  all_goals
    have hlt := (List.getElem?_eq_some_iff.mp _hpage).1
    show cursor.ws.pages.length - (cursor.nextPage + 1) < cursor.ws.pages.length - cursor.nextPage
    omega

/-- The cursor gives these tuples and then nothing. -/
inductive Yields : FileWorkspaceTuples frames → List Bytes → Prop
  | done {cursor cursor' : FileWorkspaceTuples frames} : cursor.next crc hash = (none, cursor') →
    Yields cursor []
  | more {cursor cursor' : FileWorkspaceTuples frames} {t : Bytes} {ts : List Bytes} :
      cursor.next crc hash = (some t, cursor') → Yields cursor' ts → Yields cursor (t :: ts)

variable {crc}

/-- What is still to come: the rest of the page, and the pages after it. -/
structure Remains (cursor : FileWorkspaceTuples frames) (ts : List Bytes)
    (crc : Crc32c) : Prop where
  content : ∃ content, HeapInv crc cursor.ws.heap [] content
    ∧ (∀ id ∈ cursor.ws.pages, content id ≠ none) ∧
    cursor.page ++ (cursor.ws.pages.drop cursor.nextPage).flatMap (tuplesAt content) = ts

variable {cursor : FileWorkspaceTuples frames}

theorem next_spec (hframes : 0 < frames) {ts : List Bytes} (h : cursor.Remains ts crc) :
    (ts = [] ∧ ∃ cursor', cursor.next crc hash = (none, cursor')) ∨
      ∃ t rest cursor', ts = t :: rest ∧ cursor.next crc hash = (some t, cursor')
        ∧ cursor'.Remains rest crc := by
  fun_induction next crc hash cursor with
  | case1 cursor t page hpage =>
    obtain ⟨content, hheap, hpages, rfl⟩ := h.content
    rw [hpage]
    exact Or.inr ⟨t, _, _, rfl, rfl, ⟨content, hheap, hpages, rfl⟩⟩
  | case2 cursor hpage hnext =>
    obtain ⟨content, hheap, hpages, rfl⟩ := h.content
    rw [hpage, List.drop_of_length_le (List.getElem?_eq_none_iff.mp hnext)]
    exact Or.inl ⟨rfl, _, rfl⟩
  -- a page of the workspace is read without error
  | case3 cursor hpage id hnext e heap hread ih =>
    obtain ⟨content, hheap, hpages, rfl⟩ := h.content
    obtain ⟨us, hus⟩ := Option.ne_none_iff_exists'.mp (hpages id (List.mem_of_getElem? hnext))
    obtain ⟨heap', hok, -⟩ := hheap.page hash (idle_nil hframes) hus
    rw [hread] at hok
    cases hok
  -- the next page is taken, which may hold nothing
  | case4 cursor hpage id hnext page heap hread ih =>
    obtain ⟨content, hheap, hpages, rfl⟩ := h.content
    obtain ⟨us, hus⟩ := Option.ne_none_iff_exists'.mp (hpages id (List.mem_of_getElem? hnext))
    obtain ⟨heap', hok, -, hheap'⟩ := hheap.page hash (idle_nil hframes) hus
    obtain ⟨hus', rfl⟩ := Prod.mk.inj (hread.symm.trans hok)
    obtain rfl := Except.ok.inj hus'
    refine ih ⟨content, hheap', hpages, ?_⟩
    obtain ⟨hlt, hid⟩ := List.getElem?_eq_some_iff.mp hnext
    rw [hpage, nil_append, List.drop_eq_getElem_cons hlt, hid, flatMap_cons, tuplesAt, hus]
    rfl

theorem Remains.yields (hframes : 0 < frames) {ts : List Bytes}
    (h : cursor.Remains ts crc) : Yields crc hash cursor ts := by
  induction ts generalizing cursor with
  | nil =>
    rcases next_spec hash hframes h with ⟨-, cursor', hnext⟩ | ⟨t, rest, cursor', hts, -⟩
    · exact .done hnext
    · cases hts
  | cons t ts ih =>
    rcases next_spec hash hframes h with ⟨hts, -⟩ | ⟨t', rest, cursor', hts, hnext, hrest⟩
    · cases hts
    · obtain ⟨rfl, rfl⟩ := List.cons.inj hts
      exact .more hnext (ih hrest)

end FileWorkspaceTuples

/-- **Workspaces replay what was appended.**  For every budget that `new` takes, after any calls
    with no block held: `tuples` and `into_tuples` give the acknowledged tuples in order, and a
    memory workspace uses no more than its capacity. -/
theorem workspaces_replay {crc : Crc32c} (hash : Bytes → UInt32)
    (hzero : ¬ Verifies crc Block.zeroed) {capacity : Nat} (hcapacity : 0 < capacity)
    (memoryBudget : Nat) {diskBudget : Nat} (hdisk : PAGE_SIZE ≤ diskBudget)
    (calls : List WorkspaceCall) :
    ((MemoryWorkspace.afterCalls capacity calls).ws.tuples
      = (MemoryWorkspace.afterCalls capacity calls).tuples ∧
        (MemoryWorkspace.afterCalls capacity calls).ws.used ≤ capacity) ∧
      ∃ ws, FileWorkspace.new memoryBudget diskBudget = .ok ws ∧
        ((ws.afterCalls crc hash calls).ws.tuples crc hash).1
        = (ws.afterCalls crc hash calls).tuples ∧
        FileWorkspaceTuples.Yields crc hash (ws.afterCalls crc hash calls).ws.intoTuples
          (ws.afterCalls crc hash calls).tuples := by
  constructor
  · obtain ⟨hstores, hsame⟩ := MemoryWorkspace.stores_afterCalls capacity calls
    have hbounded := hstores.bounded
    rw [hsame] at hbounded
    exact ⟨hstores.tuples, hbounded.resolve_left hcapacity.ne'⟩
  · obtain ⟨ws, hnew, hstores, -⟩ := FileWorkspace.stores_new crc memoryBudget hdisk
    have hframes := framesOf_pos memoryBudget
    have hafter := FileWorkspace.stores_afterCalls hash hzero hframes hstores calls
    obtain ⟨ws', htuples, -⟩ := hafter.tuples hash hframes
    refine ⟨ws, hnew, congrArg Prod.fst htuples, FileWorkspaceTuples.Remains.yields hash hframes ?_⟩
    obtain ⟨content, hheap, hpages, hts⟩ := hafter.content
    exact ⟨content, hheap, hpages, hts⟩

/-- A tuple that fits, and one that is too large for any page, in memory and in a file of one
    page. -/
theorem workspaces_replay_one_page :
    (MemoryWorkspace.afterCalls PAGE_SIZE [.append [7], .append (replicate 9000 0),
      .tuples]).ws.tuples = [[7]] ∧
      ∃ ws, FileWorkspace.new 0 PAGE_SIZE = .ok ws ∧
        ((ws.afterCalls castagnoli crc32 [.append [7], .tuples]).ws.tuples castagnoli crc32).1
        = [[7]] ∧
        FileWorkspaceTuples.Yields castagnoli crc32
          (ws.afterCalls castagnoli crc32 [.append [7], .tuples]).ws.intoTuples [[7]] := by
  have hreplay :=
    @workspaces_replay _ crc32 not_verifies_castagnoli_zeroed PAGE_SIZE (by decide) 0
      PAGE_SIZE le_rfl
  constructor
  · refine (hreplay [.append [7], .append (replicate 9000 0), .tuples]).1.1.trans ?_
    decide +kernel
  · obtain ⟨-, ws, hnew, htuples, hyields⟩ := hreplay [.append [7], .tuples]
    obtain ⟨ws', hnew', hpacks, hmax⟩ := @FileWorkspace.packs_new castagnoli 0 PAGE_SIZE le_rfl
    obtain rfl := Except.ok.inj (hnew.symm.trans hnew')
    obtain ⟨loc, ws₁, happend, -⟩ := hpacks.append Crc.crc32 (framesOf_pos 0)
      not_verifies_castagnoli_zeroed (t := [7]) (by decide) (by rw [hmax]; decide)
    have hack : (ws.afterCalls castagnoli crc32 [.append [7], .tuples]).tuples = [[7]] := by
      simp [FileWorkspace.afterCalls, Acknowledged.calls, Acknowledged.call, happend]
    rw [hack] at htuples hyields
    exact ⟨ws, hnew, htuples, hyields⟩

/-! ### Blocks that the consumer holds -/

structure Consumer (frames : Nat) where
  cache : Inner DiskBlockStore (LruK (Fin frames)) frames
  held : List (Handle frames)
  todo : List Nat

/-- What happens at a consumer; `skipped` is what it is not told. -/
inductive BlockEvent (frames : Nat) where
  | start
  | yielded (id : Nat) (tuples : List Bytes)
  | skipped (id : Nat)
  | dropped (block : Handle frames)

namespace BlockEvent

variable {frames : Nat}

def page : BlockEvent frames → Option Nat
  | .yielded id _ => some id
  | _ => none

def tuples : BlockEvent frames → List Bytes
  | .yielded _ ts => ts
  | _ => []

def skippedPage : BlockEvent frames → Option Nat
  | .skipped id => some id
  | _ => none

def pulled : BlockEvent frames → Option Nat
  | .yielded id _ => some id
  | .skipped id => some id
  | _ => none

theorem length_pulled (events : List (BlockEvent frames)) :
    (events.filterMap page).length + (events.filterMap skippedPage).length
    = (events.filterMap pulled).length := by
  induction events with
  | nil => rfl
  | cons e events ih =>
    cases e <;> simp [List.filterMap_cons, page, skippedPage, pulled, ← ih] <;> omega

variable {events : List (BlockEvent frames)}

theorem filterMap_page (h : ∀ id, .skipped id ∉ events) :
    events.filterMap page = events.filterMap pulled := by
  apply List.filterMap_congr
  intro e he
  cases e with
  | skipped id => exact absurd he (h id)
  | _ => rfl

theorem flatMap_tuples {content : Nat → Option (List Bytes)}
    (h : ∀ id ts, .yielded id ts ∈ events → ts = tuplesAt content id) :
    events.flatMap tuples = (events.filterMap page).flatMap (tuplesAt content) := by
  induction events with
  | nil => rfl
  | cons e events ih =>
    have hrest := ih fun id ts hmem => h id ts (List.mem_cons_of_mem _ hmem)
    cases e with
    | yielded id ts =>
      rw [flatMap_cons, List.filterMap_cons, hrest]
      simp only [tuples, page, flatMap_cons, h id ts mem_cons_self]
    | _ => exact hrest

end BlockEvent

namespace Consumer

variable {frames : Nat} (crc : Crc32c) (hash : Bytes → UInt32)

def pull (s : Consumer frames) : Option (BlockEvent frames × Consumer frames) :=
  match s.todo with
  | [] => none
  | id :: todo =>
    match s.cache.acquireRead crc hash id with
    | (.error _, cache) => some (.skipped id, { s with cache, todo })
    | (.ok f, cache) =>
      some (.yielded id (Heap.pageTuples (cache.frames f).buf),
        ⟨cache, ⟨false, f, id⟩ :: s.held, todo⟩)

/-- The consumer starts to iterate over the pages, pulls, or drops a block it holds. -/
inductive Step (pages : List Nat) : Consumer frames → BlockEvent frames → Consumer frames → Prop
  | start {s : Consumer frames} : Step pages s .start { s with todo := pages }
  | pull {s s' : Consumer frames} {e : BlockEvent frames} : s.pull crc hash = some (e, s') →
    Step pages s e s'
  | drop {s : Consumer frames} {k : Handle frames} : k ∈ s.held →
      Step pages s (.dropped k) ⟨s.cache.releaseRead k.frame, s.held.erase k, s.todo⟩

/-- There is room for a block of the page: a frame without a block, or a block of it. -/
def Room (s : Consumer frames) (id : Nat) : Prop :=
  (∃ f, ∀ k ∈ s.held, k.frame ≠ f) ∨ ∃ k ∈ s.held, k.pageId = id

/-- The steps of a consumer that pulls only when there is room. -/
def RoomyStep (pages : List Nat) (s : Consumer frames) (e : BlockEvent frames)
    (s' : Consumer frames) : Prop :=
  Step crc hash pages s e s' ∧ ∀ id, e.pulled = some id → s.Room id

variable {crc}

/-- The cache is sound for the consumer's blocks, and the pages to come are among the known. -/
structure Sound (crc : Crc32c) (content : Nat → Option (List Bytes))
    (s : Consumer frames) : Prop where
  cache : ∃ blocks, Inner.Inv crc none s.cache s.held blocks ∧
    ∀ id ts, content id = some ts → ∃ b, blocks id = some b ∧ Holds b ts
  reads : ∀ k ∈ s.held, k.write = false
  todo : ∀ id ∈ s.todo, content id ≠ none

theorem acquireRead_of_held {c : Inner DiskBlockStore (LruK (Fin frames)) frames}
    {held : List (Handle frames)} {blocks : Nat → Option Block}
    (hinv : Inner.Inv crc none c held blocks) (hreads : ∀ k ∈ held, k.write = false)
    {k : Handle frames} (hk : k ∈ held) :
    ∃ c', c.acquireRead crc hash k.pageId = (.ok k.frame, c') := by
  have htable : c.table k.pageId = some k.frame :=
    (hinv.placed.table _ _).mpr (hinv.pins.handle k hk)
  have hwriter : ¬ (c.frames k.frame).writer = true := fun hw => by
    obtain ⟨k', hk', -, hwrite⟩ := hinv.pins.writer_iff.mp hw
    rw [hreads k' hk'] at hwrite
    cases hwrite
  rw [Inner.acquireRead, htable]
  simp only [if_neg hwriter]
  exact ⟨_, rfl⟩

variable {content : Nat → Option (List Bytes)} {s : Consumer frames}

/-- **A pull**: the page with its tuples exactly if there is room. -/
theorem Sound.pull (h : s.Sound crc content) {id : Nat}
    {todo : List Nat} (htodo : s.todo = id :: todo) :
    ∃ e s', s.pull crc hash = some (e, s') ∧ s'.Sound crc content ∧ s'.todo = todo ∧
      ((s.Room id ∧ e = .yielded id (tuplesAt content id) ∧ ∃ f, s'.held = ⟨false, f, id⟩
        :: s.held) ∨
        (¬ s.Room id ∧ e = .skipped id)) := by
  obtain ⟨blocks, hinv, hholds⟩ := h.cache
  have hmem : id ∈ s.todo := by rw [htodo]; exact mem_cons_self
  have hrest (j : Nat) (hj : j ∈ todo) : content j ≠ none :=
    h.todo j (by rw [htodo]; exact List.mem_cons_of_mem _ hj)
  obtain ⟨ts, hts⟩ := Option.ne_none_iff_exists'.mp (h.todo id hmem)
  obtain ⟨b, hb, hstored⟩ := hholds id ts hts
  have hacquired :
      Inner.Acquired crc s.cache s.held blocks false id (s.cache.acquireRead crc hash id) :=
    hinv.acquireRead (hinv.contents.live id b hb).1
  have hheld (k : Handle frames) (hk : k ∈ s.held) (hid : k.pageId = id) :
      ∃ c', s.cache.acquireRead crc hash id = (.ok k.frame, c') := by
    rw [← hid]
    exact acquireRead_of_held hash hinv h.reads hk
  rw [Consumer.pull, htodo]
  dsimp only
  generalize s.cache.acquireRead crc hash id = r at hacquired hheld
  cases hacquired with
  | @ok f c' inv calm =>
    obtain ⟨b', hb', hagrees⟩ := inv.contents.resident f id (inv.pins.handle _ mem_cons_self)
    obtain rfl := Option.some.inj (hb.symm.trans hb')
    have hpage := hstored.agrees hagrees
    have htuples : Heap.pageTuples (c'.frames f).buf = tuplesAt content id := by
      rw [Heap.pageTuples, hpage.opens, hpage.tuples, tuplesAt, hts]
      rfl
    refine ⟨.yielded id (Heap.pageTuples (c'.frames f).buf),
      ⟨c', ⟨false, f, id⟩ :: s.held, todo⟩, rfl,
      ⟨⟨blocks, inv, hholds⟩, ?_, hrest⟩, rfl, Or.inl ⟨?_, by rw [htuples], f, rfl⟩⟩
    · rintro k (_ | ⟨_, hk⟩)
      · rfl
      · exact h.reads k hk
    · -- if every frame has a block, so has this one, and it is one of the page
      by_contra hroom
      obtain ⟨hfull, hnone⟩ := not_or.mp hroom
      obtain ⟨k, hk, hkf⟩ : ∃ k ∈ s.held, k.frame = f := by
        by_contra hfree
        exact hfull ⟨f, fun k hk heq => hfree ⟨k, hk, heq⟩⟩
      have hsame := inv.pins.handle k (List.mem_cons_of_mem _ hk)
      rw [hkf, inv.pins.handle _ mem_cons_self] at hsame
      exact hnone ⟨k, hk, (Option.some.inj hsame).symm⟩
  | busy mem page conflict =>
    rw [h.reads _ mem] at conflict
    simp at conflict
  | @exhausted c' inv calm pinned =>
    refine ⟨.skipped id, ⟨c', s.held, todo⟩, rfl, ⟨⟨blocks, inv, hholds⟩, h.reads, hrest⟩, rfl,
      Or.inr ⟨?_, rfl⟩⟩
    rintro (⟨f, hf⟩ | ⟨k, hk, hid⟩)
    · obtain ⟨k, hk, hkf⟩ := pinned f
      exact hf k hk hkf
    · obtain ⟨c', hc'⟩ := hheld k hk hid
      cases hc'
  | absent inv calm page =>
    rw [hb] at page
    cases page

/-- Each step keeps the consumer sound, and what it pulls is there exactly if there is room. -/
theorem Sound.step {pages : List Nat} (hpages : ∀ id ∈ pages, content id ≠ none)
    {s' : Consumer frames} {e : BlockEvent frames} (h : s.Sound crc content)
    (hstep : Step crc hash pages s e s') :
    s'.Sound crc content ∧ ∀ id, e.pulled = some id → s.todo = id :: s'.todo ∧
      ((s.Room id ∧ e = .yielded id (tuplesAt content id)) ∨ (¬ s.Room id ∧ e = .skipped id)) := by
  cases hstep with
  | start => exact ⟨⟨h.cache, h.reads, hpages⟩, fun id hid => by cases hid⟩
  | pull hpull =>
    cases htodo : s.todo with
    | nil =>
      rw [Consumer.pull, htodo] at hpull
      cases hpull
    | cons id todo =>
      obtain ⟨e', s'', hpull', hsound, rfl, hcases⟩ := h.pull hash htodo
      obtain ⟨rfl, rfl⟩ := Prod.mk.inj (Option.some.inj (hpull.symm.trans hpull'))
      refine ⟨hsound, ?_⟩
      intro id' hid'
      rcases hcases with ⟨hroom, rfl, -⟩ | ⟨hroom, rfl⟩
      · obtain rfl := Option.some.inj hid'
        exact ⟨rfl, Or.inl ⟨hroom, rfl⟩⟩
      · obtain rfl := Option.some.inj hid'
        exact ⟨rfl, Or.inr ⟨hroom, rfl⟩⟩
  | @drop k hk =>
    obtain ⟨blocks, hinv, hholds⟩ := h.cache
    obtain ⟨write, f, id⟩ := k
    obtain rfl : write = false := h.reads _ hk
    have hperm : Inner.Inv crc none s.cache (⟨false, f, id⟩ :: s.held.erase ⟨false, f, id⟩)
      blocks :=
      ⟨hinv.placed, hinv.pins.perm (List.perm_cons_erase hk), hinv.contents⟩
    refine ⟨⟨⟨blocks, hperm.releaseRead, hholds⟩,
      fun k hk' => h.reads k (List.mem_of_mem_erase hk'), h.todo⟩,
      fun id hid => by cases hid⟩

theorem Sound.run {content : Nat → Option (List Bytes)} {pages : List Nat}
    (hpages : ∀ id ∈ pages, content id ≠ none) {start s : Consumer frames}
    (h : start.Sound crc content) {events : List (BlockEvent frames)}
    (hrun : Run (Step crc hash pages) start events s) :
    s.Sound crc content ∧ (∀ id ts, .yielded id ts ∈ events → ts = tuplesAt content id) ∧
      (.start ∉ events → start.todo = events.filterMap BlockEvent.pulled ++ s.todo) := by
  refine hrun.history (P := fun events s => s.Sound crc content ∧
    (∀ id ts, .yielded id ts ∈ events → ts = tuplesAt content id) ∧
      (.start ∉ events → start.todo = events.filterMap BlockEvent.pulled ++ s.todo))
        ⟨h, by simp, fun _ => rfl⟩ ?_
  rintro events s e s' ⟨hsound, htuples, htodo⟩ hstep
  obtain ⟨hsound', hpulled⟩ := hsound.step hash hpages hstep
  refine ⟨hsound', ?_, ?_⟩
  · intro id ts hmem
    rcases mem_append.mp hmem with hmem | hmem
    · exact htuples id ts hmem
    · obtain rfl := mem_singleton.mp hmem
      rcases (hpulled id rfl).2 with ⟨-, heq⟩ | ⟨-, heq⟩
      · exact (BlockEvent.yielded.inj heq).2
      · cases heq
  · intro hone
    rw [mem_append, mem_singleton, not_or] at hone
    rw [htodo hone.1, List.filterMap_append, List.append_assoc]
    refine congrArg _ ?_
    cases hid : e.pulled with
    | none =>
      have hsame : s'.todo = s.todo := by
        cases hstep with
        | start => exact absurd rfl hone.2
        | drop hk => rfl
        | pull hpull =>
          rw [Consumer.pull] at hpull
          split at hpull
          · cases hpull
          · split at hpull <;> obtain ⟨rfl, -⟩ := Prod.mk.inj (Option.some.inj hpull) <;> cases hid
      simp [hid, hsame]
    | some id => simp [hid, (hpulled id hid).1]

theorem Sound.run_roomy_iff {pages : List Nat} (hpages : ∀ id ∈ pages, content id ≠ none)
    {start : Consumer frames} (h : start.Sound crc content) {events : List (BlockEvent frames)}
    (hrun : Run (Step crc hash pages) start events s) :
    Run (RoomyStep crc hash pages) start events s ↔ ∀ id, .skipped id ∉ events := by
  constructor
  · intro hroomy
    clear hrun
    induction hroomy with
    | nil => simp
    | @snoc events t u e hbefore hlast ih =>
      intro id hmem
      rcases mem_append.mp hmem with hmem | hmem
      · exact ih id hmem
      · obtain rfl := mem_singleton.mp hmem
        obtain ⟨hsound, -⟩ := h.run hash hpages (hbefore.mono fun _ _ _ hstep => hstep.1)
        rcases ((hsound.step hash hpages hlast.1).2 id rfl).2 with ⟨-, heq⟩ | ⟨hroom, -⟩
        · cases heq
        · exact hroom (hlast.2 id rfl)
  · intro hskip
    induction hrun with
    | nil => exact .nil
    | @snoc events t u e hbefore hlast ih =>
      refine .snoc (ih fun id hmem => hskip id (List.mem_append_left _ hmem))
        ⟨hlast, fun id hid => ?_⟩
      obtain ⟨hsound, -⟩ := h.run hash hpages hbefore
      rcases ((hsound.step hash hpages hlast).2 id hid).2 with ⟨hroom, -⟩ | ⟨-, rfl⟩
      · exact hroom
      · exact absurd (List.mem_append_right _ mem_cons_self) (hskip id)

theorem sound_of_stores {ws : FileWorkspace frames} {ts : List Bytes}
    (h : FileWorkspace.Stores crc ws ts) :
    ∃ content, Sound crc content ⟨ws.heap.cache, [], []⟩ ∧ (∀ id ∈ ws.pages, content id ≠ none) ∧
      ws.pages.flatMap (tuplesAt content) = ts := by
  obtain ⟨content, hheap, hpages, hts⟩ := h.content
  exact ⟨content, ⟨hheap.pages, by simp, by simp⟩, hpages, hts⟩

end Consumer

/-- **An iteration over the blocks is complete exactly if there is room at each pull.**  For
    every file workspace, whatever blocks the consumer holds when it starts and however it drops
    blocks in between: it gets all pages in order with all acknowledged tuples if and only if,
    whenever it pulls, a frame has no block or the page has one. -/
theorem blocks_complete_iff {crc : Crc32c} {hash : Bytes → UInt32}
    (hzero : ¬ Verifies crc Block.zeroed) {memoryBudget diskBudget : Nat}
    {ws : FileWorkspace (framesOf memoryBudget)}
    (hnew : FileWorkspace.new memoryBudget diskBudget = .ok ws) {calls : List WorkspaceCall}
    {filled : Acknowledged (FileWorkspace (framesOf memoryBudget))}
    (hfilled : ws.afterCalls crc hash calls = filled) {earlier events : List (BlockEvent _)}
    {start s : Consumer _}
    (hearlier : Run (Consumer.Step crc hash filled.ws.pages) ⟨filled.ws.heap.cache, [], []⟩
      earlier start)
    (hstart : start.todo = filled.ws.pages)
    (hrun : Run (Consumer.Step crc hash filled.ws.pages) start events s) (hone : .start ∉ events)
    (hend : s.todo = []) :
    (events.filterMap BlockEvent.page = filled.ws.pages ∧ events.flatMap BlockEvent.tuples
      = filled.tuples) ↔
      Run (Consumer.RoomyStep crc hash filled.ws.pages) start events s := by
  obtain ⟨ws', hnew', hstores, -⟩ :=
    FileWorkspace.stores_new crc memoryBudget (FileWorkspace.page_le_of_new hnew)
  obtain rfl := Except.ok.inj (hnew.symm.trans hnew')
  have hafter :=
    FileWorkspace.stores_afterCalls hash hzero (framesOf_pos memoryBudget) hstores calls
  rw [hfilled] at hafter
  obtain ⟨content, hsound, hpages, hts⟩ := Consumer.sound_of_stores hafter
  obtain ⟨hsound, -⟩ := hsound.run hash hpages hearlier
  obtain ⟨-, htuples, htodo⟩ := hsound.run hash hpages hrun
  have hpulled := htodo hone
  rw [hend, List.append_nil, hstart] at hpulled
  rw [hsound.run_roomy_iff hash hpages hrun]
  constructor
  · rintro ⟨hall, -⟩ id hmem
    -- every page is pulled once, so if all of them came, none was skipped
    have hlength := BlockEvent.length_pulled events
    rw [hall, ← hpulled] at hlength
    have hnone : events.filterMap BlockEvent.skippedPage = [] :=
      List.length_eq_zero_iff.mp (by omega)
    exact absurd (List.filterMap_eq_nil_iff.mp hnone _ hmem) (by simp [BlockEvent.skippedPage])
  · intro hskip
    have hall := (BlockEvent.filterMap_page hskip).trans hpulled.symm
    exact ⟨hall, by rw [BlockEvent.flatMap_tuples htuples, hall, hts]⟩

theorem Consumer.Sound.first {frames : Nat} (hframes : 0 < frames) {crc : Crc32c}
    (hash : Bytes → UInt32) {content : Nat → Option (List Bytes)}
    {cache : Inner DiskBlockStore (LruK (Fin frames)) frames}
    (h : Sound crc content ⟨cache, [], []⟩) {pages : List Nat}
    (hpages : ∀ j ∈ pages, content j ≠ none) {id : Nat} {rest : List Nat}
    (hcons : pages = id :: rest) :
    ∃ s f, RoomyStep crc hash pages ⟨cache, [], pages⟩ (.yielded id (tuplesAt content id)) s
      ∧ s.Sound crc content ∧
      s.todo = rest ∧ s.held = [⟨false, f, id⟩] := by
  have hsound : Sound crc content ⟨cache, [], pages⟩ := ⟨h.cache, h.reads, hpages⟩
  have hroom (j : Nat) : (⟨cache, [], pages⟩ : Consumer frames).Room j :=
    Or.inl ⟨⟨0, hframes⟩, by simp⟩
  obtain ⟨e, s, hpull, hsound', htodo, ⟨-, rfl, f, hheld⟩ | ⟨hnone, -⟩⟩ := hsound.pull hash hcons
  · exact ⟨s, f, ⟨.pull hpull, fun j _ => hroom j⟩, hsound', htodo, hheld⟩
  · exact absurd (hroom id) hnone

/-- One frame and one page. -/
theorem blocks_complete_one_page :
    ∃ (ws : FileWorkspace (framesOf PAGE_SIZE)) (filled : Acknowledged _)
      (events : List (BlockEvent (framesOf PAGE_SIZE))),
      FileWorkspace.new PAGE_SIZE PAGE_SIZE = .ok ws ∧
      ws.afterCalls castagnoli crc32 [.append [7]] = filled ∧ filled.tuples = [[7]] ∧
      events.filterMap BlockEvent.page = filled.ws.pages ∧ events.flatMap BlockEvent.tuples
        = filled.tuples := by
  obtain ⟨ws, hnew, hpacks, hmax⟩ := packs_new castagnoli PAGE_SIZE le_rfl
  have hframes := framesOf_pos PAGE_SIZE
  obtain ⟨loc, ws₁, happend, hpacks₁, -⟩ :=
    hpacks.append Crc.crc32 hframes not_verifies_castagnoli_zeroed
    (t := [7]) (by decide) (by rw [hmax]; decide)
  have hfilled : ws.afterCalls castagnoli crc32 [.append [7]] = ⟨ws₁, [[7]]⟩ := by
    simp [FileWorkspace.afterCalls, Acknowledged.calls, Acknowledged.call, happend]
  obtain ⟨id, hid⟩ := List.length_eq_one_iff.mp hpacks₁.length_eq
  obtain ⟨content, hsound, hpages, -⟩ := Consumer.sound_of_stores hpacks₁.stores
  obtain ⟨s, f, hstep, -, htodo, -⟩ := hsound.first hframes crc32 hpages hid
  have hcomplete :=
    (blocks_complete_iff not_verifies_castagnoli_zeroed hnew hfilled (.snoc .nil .start) rfl
    (.snoc .nil hstep.1) (by simp) htodo).mpr (.snoc .nil hstep)
  exact ⟨ws, _, _, hnew, hfilled, rfl, hcomplete⟩

/-- **A page is lost.**  One frame and two pages: while the first block is held, the second page
    is passed over, and the iteration ends without an error. -/
theorem blocks_skip_page :
    ∃ (ws : FileWorkspace (framesOf PAGE_SIZE)) (filled : Acknowledged _)
      (events : List (BlockEvent (framesOf PAGE_SIZE))) (s : Consumer _),
      FileWorkspace.new PAGE_SIZE (2 * PAGE_SIZE) = .ok ws ∧
      ws.afterCalls castagnoli crc32 [.append (replicate 5000 1), .append (replicate 5000 2)]
        = filled ∧
      filled.tuples = [replicate 5000 1, replicate 5000 2] ∧
      Run (Consumer.Step castagnoli crc32 filled.ws.pages) ⟨filled.ws.heap.cache, [],
        filled.ws.pages⟩ events s ∧
      s.todo = [] ∧ events.flatMap BlockEvent.tuples = [replicate 5000 1] := by
  have hframes := framesOf_pos PAGE_SIZE
  obtain ⟨ws, hnew, hpacks, hmax⟩ :=
    @FileWorkspace.packs_new castagnoli PAGE_SIZE (2 * PAGE_SIZE) (by decide)
  have hfits (b : UInt8) : (replicate 5000 b).length ≤ maxTuple := by
    rw [List.length_replicate]
    decide
  have hfull : packTuple [[replicate 5000 1]] (replicate 5000 2) =
      [[replicate 5000 1], [replicate 5000 2]] := by
    refine @packTuple_of_full [] _ _ ?_
    have hfree := freeBytes_concat [] (replicate 5000 1)
    rw [nil_append] at hfree
    rw [hfree, List.length_replicate, List.length_replicate]
    decide
  obtain ⟨loc₁, ws₁, happend₁, hpacks₁, hmax₁⟩ :=
    hpacks.append Crc.crc32 hframes not_verifies_castagnoli_zeroed
    (hfits 1) (by rw [hmax]; decide)
  have hpacks₁ : ws₁.Packs castagnoli [[replicate 5000 1]] := hpacks₁
  obtain ⟨loc₂, ws₂, happend₂, hpacks₂, -⟩ :=
    hpacks₁.append Crc.crc32 hframes not_verifies_castagnoli_zeroed
    (hfits 2) (by rw [hfull, hmax₁, hmax]; decide)
  rw [hfull] at hpacks₂
  have hfilled :
      ws.afterCalls castagnoli crc32 [.append (replicate 5000 1), .append (replicate 5000 2)]
      = ⟨ws₂, [replicate 5000 1, replicate 5000 2]⟩ := by
    simp only [FileWorkspace.afterCalls, Acknowledged.calls, Acknowledged.call, List.foldl_cons,
      List.foldl_nil, happend₁, happend₂]
    rfl
  obtain ⟨a, b, hab⟩ := List.length_eq_two.mp hpacks₂.length_eq
  have hne : a ≠ b := by
    have hnodup := hpacks₂.nodup
    rw [hab] at hnodup
    simpa using hnodup
  obtain ⟨content, hheap, hmap⟩ := hpacks₂.content
  have hpages := FileWorkspace.ne_none_of_map_eq hmap
  rw [hab] at hmap
  have ha : tuplesAt content a = [replicate 5000 1] := by
    rw [tuplesAt, (List.cons.inj hmap).1]
    rfl
  have hsound : Consumer.Sound castagnoli content ⟨ws₂.heap.cache, [], []⟩ :=
    ⟨hheap.pages, by simp, by simp⟩
  obtain ⟨s₁, f, hstep, hsound₁, htodo₁, hheld⟩ := hsound.first hframes crc32 hpages hab
  obtain ⟨e, s₂, hpull, -, htodo₂, ⟨hroom, -⟩ | ⟨-, rfl⟩⟩ := hsound₁.pull crc32 htodo₁
  · -- the only frame has the first block
    rcases hroom with ⟨g, hg⟩ | ⟨k, hk, hkb⟩
    · have hone : framesOf PAGE_SIZE = 1 := by decide
      have hsame : f = g := Fin.ext (by have := f.isLt; have := g.isLt; omega)
      exact absurd hsame (hg ⟨false, f, a⟩ (by rw [hheld]; exact mem_cons_self))
    · rw [hheld, mem_singleton] at hk
      subst hk
      exact absurd hkb hne
  · refine ⟨ws, _, _, s₂, hnew, hfilled, rfl, .snoc (.snoc .nil hstep.1) (.pull hpull), htodo₂, ?_⟩
    simp only [nil_append, List.cons_append, flatMap_cons, List.flatMap_nil, BlockEvent.tuples,
      List.append_nil, ha]

end StrataDb.Filesystem
