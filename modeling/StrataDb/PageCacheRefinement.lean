import StrataDb.PageCacheOperations
import StrataDb.Runs

/-!
# The page cache is a map from page ids to bytes

What a page should show is a function of the history (`pagesAfter`). In every state of every run,
over every lawful block store and eviction policy, each open handle shows its page; a call fails
only with `Busy` or `PoolExhausted`, for the handles that are open, and flushing does not fail.
-/

namespace StrataDb.Filesystem

open ByteCodec BlockStore LawfulBlockStore LawfulPolicy Runs

/-! ### Programs over a cache -/

structure System (V P : Type) (n : Nat) where
  cache : Inner V P n
  handles : List (Handle n)

/-- What a program can do.  `edit k b` leaves the bytes `b` in the page of its handle. -/
inductive Call (n : Nat) where
  | read (id : Nat)
  | write (id : Nat)
  | allocate
  | edit (k : Handle n) (b : Block)
  | drop (k : Handle n)
  | flush

abbrev Answer (n : Nat) := Except FsError (Option (Handle n))

namespace System

variable {V P : Type} {n : Nat} [BlockStore V] [EvictionPolicy P (Fin n)]
variable (crc : Crc32c) (hash : Bytes → UInt32)

def opened (s : System V P n) (write : Bool) (id : Nat) :
    Except FsError (Fin n) × Inner V P n → Answer n × System V P n
  | (.ok f, c) => (.ok (some ⟨write, f, id⟩), ⟨c, ⟨write, f, id⟩ :: s.handles⟩)
  | (.error e, c) => (.error e, ⟨c, s.handles⟩)

def call (s : System V P n) : Call n → Answer n × System V P n
  | .read id => s.opened false id (s.cache.acquireRead crc hash id)
  | .write id => s.opened true id (s.cache.acquireWrite crc hash id)
  | .allocate =>
    match s.cache.allocate crc hash with
    | (.ok (id, f), c) => (.ok (some ⟨true, f, id⟩), ⟨c, ⟨true, f, id⟩ :: s.handles⟩)
    | (.error e, c) => (.error e, ⟨c, s.handles⟩)
  | .edit k b => (.ok none, ⟨s.cache.modify k.frame (fun fr => { fr with buf := b }), s.handles⟩)
  | .drop k =>
    (.ok none, ⟨if k.write then s.cache.releaseWrite k.frame else s.cache.releaseRead k.frame,
      s.handles.erase k⟩)
  | .flush =>
    match s.cache.flush crc hash with
    | (.ok (), c) => (.ok none, ⟨c, s.handles⟩)
    | (.error e, c) => (.error e, ⟨c, s.handles⟩)

def shows (s : System V P n) (k : Handle n) : Block := (s.cache.frames k.frame).buf

/-- What ownership allows: only open handles are used, and bytes are changed through
    write handles.  Block 0 belongs to the store. -/
def Allows (s : System V P n) : Call n → Prop
  | .read id => id ≠ 0
  | .write id => id ≠ 0
  | .edit k _ => k ∈ s.handles ∧ k.write = true
  | .drop k => k ∈ s.handles
  | _ => True

def Step (s : System V P n) (event : Call n × Answer n) (s' : System V P n) : Prop :=
  s.Allows event.1 ∧ s.call crc hash event.1 = (event.2, s')

end System

def storePages {V : Type} [BlockStore V] (crc : Crc32c) (v : V) (id : Nat) : Option Block :=
  if id = 0 then none else stored crc v id

def pagesStep {n : Nat} (pages : Nat → Option Block) : Call n × Answer n → (Nat → Option Block)
  | (.allocate, .ok (some k)) => Function.update pages k.pageId (some Block.zeroed)
  | (.edit k b, _) => Function.update pages k.pageId (some b)
  | _ => pages

def pagesAfter {n : Nat} (pages : Nat → Option Block) (events : List (Call n × Answer n)) :
    Nat → Option Block := events.foldl pagesStep pages

/-- The failures a program has to expect of a call on pages. -/
def Expected {V P : Type} {n : Nat} (s : System V P n) (e : FsError) : Call n → Prop
  | .read id => (e = .busy id ∧ ∃ k ∈ s.handles, k.pageId = id ∧ k.write = true) ∨
      (e = .poolExhausted n ∧ ∀ f, ∃ k ∈ s.handles, k.frame = f)
  | .write id => (e = .busy id ∧ ∃ k ∈ s.handles, k.pageId = id) ∨
      (e = .poolExhausted n ∧ ∀ f, ∃ k ∈ s.handles, k.frame = f)
  | .allocate => e = .poolExhausted n ∧ ∀ f, ∃ k ∈ s.handles, k.frame = f
  | _ => False

def OnPage {n : Nat} (pages : Nat → Option Block) : Call n → Prop
  | .read id => pages id ≠ none
  | .write id => pages id ≠ none
  | _ => True

/-! ### Every run -/

section Runs

variable {V P : Type} {n : Nat} [BlockStore V] [LawfulBlockStore V]
variable [EvictionPolicy P (Fin n)] [LawfulPolicy P] {crc : Crc32c} {hash : Bytes → UInt32}
variable {s s' : System V P n} {pages : Nat → Option Block}

theorem Inner.Acquired.opened {write : Bool} {id : Nat} {call : Call n} {answer : Answer n}
    {r : Except FsError (Fin n) × Inner V P n} (h : Acquired crc s.cache s.handles pages write id r)
    (hinv : Inv crc none s.cache s.handles pages) (hopen : s.opened write id r = (answer, s'))
    (hsame : ∀ answer, pagesStep pages (call, answer) = pages) :
    Inv crc none s'.cache s'.handles (pagesStep pages (call, answer)) := by
  rw [hsame]
  cases h with
  | ok inv _ => obtain ⟨-, rfl⟩ := Prod.mk.inj hopen; exact inv
  | busy _ _ _ => obtain ⟨-, rfl⟩ := Prod.mk.inj hopen; exact hinv
  | exhausted inv _ _ => obtain ⟨-, rfl⟩ := Prod.mk.inj hopen; exact inv
  | absent inv _ _ => obtain ⟨-, rfl⟩ := Prod.mk.inj hopen; exact inv

theorem Inner.Acquired.expected {write : Bool} {id : Nat} {r : Except FsError (Fin n) × Inner V P n}
    (h : Acquired crc s.cache s.handles pages write id r) (hpage : pages id ≠ none) {e : FsError}
    (hopen : (s.opened write id r).1 = .error e) :
    (e = .busy id ∧ ∃ k ∈ s.handles, k.pageId = id ∧ (k.write = true ∨ write = true)) ∨
      (e = .poolExhausted n ∧ ∀ f, ∃ k ∈ s.handles, k.frame = f) := by
  cases h with
  | ok _ _ => cases hopen
  | busy mem page conflict =>
    obtain rfl := Except.error.inj hopen
    exact Or.inl ⟨rfl, _, mem, page, conflict⟩
  | exhausted _ _ pinned =>
    obtain rfl := Except.error.inj hopen
    exact Or.inr ⟨rfl, pinned⟩
  | absent _ _ page => exact absurd page hpage

theorem System.Step.inv (hzero : ¬ Verifies crc Block.zeroed) {event : Call n × Answer n}
    (h : Inner.Inv crc none s.cache s.handles pages) (hstep : System.Step crc hash s event s') :
    Inner.Inv crc none s'.cache s'.handles (pagesStep pages event) := by
  obtain ⟨call, answer⟩ := event
  obtain ⟨hallowed, hcall⟩ := hstep
  cases call with
  | read id => exact (h.acquireRead hallowed).opened h hcall (fun _ => rfl)
  | write id => exact (h.acquireWrite hallowed).opened h hcall (fun _ => rfl)
  | allocate =>
    have halloc := h.allocate hash hzero
    simp only [System.call] at hcall
    generalize s.cache.allocate crc hash = r at halloc hcall
    cases halloc with
    | ok _ _ _ inv => obtain ⟨rfl, rfl⟩ := Prod.mk.inj hcall; exact inv
    | exhausted _ _ inv _ => obtain ⟨rfl, rfl⟩ := Prod.mk.inj hcall; exact inv
  | edit k b =>
    obtain ⟨rfl, rfl⟩ := Prod.mk.inj hcall
    exact h.edit hallowed.1 hallowed.2 b
  | drop k =>
    obtain ⟨rfl, rfl⟩ := Prod.mk.inj hcall
    obtain ⟨write, f, id⟩ := k
    have hperm : Inner.Inv crc none s.cache (⟨write, f, id⟩ :: s.handles.erase ⟨write, f, id⟩)
      pages :=
      ⟨h.placed, h.pins.perm (List.perm_cons_erase hallowed), h.contents⟩
    cases write with
    | false => exact hperm.releaseRead
    | true => exact hperm.releaseWrite
  | flush =>
    obtain ⟨c, hflush, hflushed⟩ := Inner.flush_ok hash h.placed h.contents
    simp only [System.call, hflush] at hcall
    obtain ⟨rfl, rfl⟩ := Prod.mk.inj hcall
    exact h.flushed hflushed

theorem Inner.Inv.expected (h : Inner.Inv crc none s.cache s.handles pages)
    (hzero : ¬ Verifies crc Block.zeroed) {call : Call n} (hallowed : s.Allows call)
    (hpage : OnPage pages call) {e : FsError} (hcall : (s.call crc hash call).1 = .error e) :
    Expected s e call := by
  cases call with
  | read id =>
    refine ((h.acquireRead hallowed).expected hpage hcall).imp_left ?_
    rintro ⟨rfl, k, hk, hid, hconflict⟩
    exact ⟨rfl, k, hk, hid, hconflict.resolve_right nofun⟩
  | write id =>
    refine ((h.acquireWrite hallowed).expected hpage hcall).imp_left ?_
    rintro ⟨rfl, k, hk, hid, -⟩
    exact ⟨rfl, k, hk, hid⟩
  | allocate =>
    have halloc := h.allocate hash hzero
    simp only [System.call] at hcall
    generalize s.cache.allocate crc hash = r at halloc hcall
    cases halloc with
    | ok _ _ _ _ => cases hcall
    | exhausted _ _ _ pinned =>
      obtain rfl := Except.error.inj hcall
      exact ⟨rfl, pinned⟩
  | edit k b => cases hcall
  | drop k => cases hcall
  | flush =>
    obtain ⟨c, hflush, -⟩ := Inner.flush_ok hash h.placed h.contents
    simp only [System.call, hflush] at hcall
    cases hcall

theorem System.inv_run (hzero : ¬ Verifies crc Block.zeroed) {store : V} (hvalid : Valid store)
    (hpages : ∀ id b, stored crc store id = some b → id ≠ 0 → id < blockCount store) {policy : P}
    (hpolicy : ∀ f, ¬ Tracked policy f) {journal : Option Journal}
    {events : List (Call n × Answer n)}
    (hrun : Run (System.Step crc hash) ⟨Inner.build store policy journal, []⟩ events s) :
    Inner.Inv crc none s.cache s.handles (pagesAfter (storePages crc store) events) := by
  refine hrun.history
    (P := fun events s => Inner.Inv crc none s.cache s.handles
      (pagesAfter (storePages crc store) events))
    (Inner.inv_build hvalid hpages hpolicy) ?_
  intro events s event s' hinv hstep
  rw [pagesAfter, List.foldl_append]
  exact hstep.inv hzero hinv

/-- **The page cache refines a map** from page ids to bytes.  For every pool size, every
    lawful store and policy and every run: each open handle shows the bytes last left in
    its page, outside the checksum field, and its frame holds that page; calls on pages
    fail only with `Busy` and `PoolExhausted`, for the reasons these give. -/
theorem page_cache_refines_map (hzero : ¬ Verifies crc Block.zeroed) {store : V}
    (hvalid : Valid store)
    (hpages : ∀ id b, stored crc store id = some b → id ≠ 0 → id < blockCount store) {policy : P}
    (hpolicy : ∀ f, ¬ Tracked policy f) (journal : Option Journal)
    {events : List (Call n × Answer n)}
    (hrun : Run (System.Step crc hash) ⟨Inner.build store policy journal, []⟩ events s) :
    (∀ k ∈ s.handles, (s.cache.frames k.frame).pageId = some k.pageId ∧
      ∃ b, pagesAfter (storePages crc store) events k.pageId = some b ∧ (s.shows k).Agrees b) ∧
    ∀ call, s.Allows call → OnPage (pagesAfter (storePages crc store) events) call →
      ∀ e, (s.call crc hash call).1 = .error e → Expected s e call := by
  have hinv := System.inv_run hzero hvalid hpages hpolicy hrun
  refine ⟨fun k hk => ?_, fun call hallowed hpage e hcall => hinv.expected hzero hallowed
    hpage hcall⟩
  have hpage := hinv.pins.handle k hk
  exact ⟨hpage, hinv.contents.resident k.frame k.pageId hpage⟩

end Runs

theorem stored_memBlockStore_new (id : Nat) (b : Block)
    (hb : stored castagnoli MemBlockStore.new id = some b) (_ : id ≠ 0) :
    id < blockCount MemBlockStore.new := by
  have hread := MemBlockStore.read_eq_ok.mp (stored_eq_some.mp hb).1
  exact (List.getElem?_eq_some_iff.mp hread).1

/-- A pool of one frame over an empty store: the allocated page shows zeros, and while its
    handle is open another allocation can only fail for want of a frame. -/
theorem page_cache_refines_map_one_frame :
    ∃ s : System MemBlockStore (Lru (Fin 1)) 1,
      Run (System.Step castagnoli Crc.crc32) ⟨Inner.build MemBlockStore.new {} none, []⟩
        [(.allocate, .ok (some ⟨true, 0, 1⟩))] s ∧ s.handles = [⟨true, 0, 1⟩] ∧
      (∃ b, b = Block.zeroed ∧ (s.shows ⟨true, 0, 1⟩).Agrees b) ∧
      ∀ e, (s.call castagnoli Crc.crc32 .allocate).1 = .error e → e = .poolExhausted 1 := by
  have hrun : Run (System.Step castagnoli Crc.crc32)
      (⟨Inner.build MemBlockStore.new {} none, []⟩ : System MemBlockStore (Lru (Fin 1)) 1)
      ([] ++ [(.allocate, .ok (some ⟨true, 0, 1⟩))]) _ := .snoc .nil ⟨trivial, rfl⟩
  have hvalid : Valid MemBlockStore.new := ⟨rfl, rfl, Nat.one_pos⟩
  obtain ⟨hshows, hfails⟩ := page_cache_refines_map not_verifies_castagnoli_zeroed hvalid
    stored_memBlockStore_new (fun f => AList.notMem_empty f) none hrun
  obtain ⟨-, b, hb, hagrees⟩ := hshows ⟨true, 0, 1⟩ List.mem_cons_self
  exact ⟨_, hrun, rfl, ⟨b, (Option.some.inj hb).symm, hagrees⟩,
    fun e he => (hfails .allocate trivial trivial e he).1⟩

end StrataDb.Filesystem
