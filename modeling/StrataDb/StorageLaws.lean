import StrataDb.Catalog
import StrataDb.TableContent

/-!
# Storage as the catalog sees it

Lookups, scans, puts and deletes of rows read and change a map of bytes (`ReadLaws`,
`StorageLaws`); a write may be refused, never with an error of the catalog. The engine is such
storage, and so is the engine of a process that stops after some number of writes.
-/

namespace StrataDb.Sql

open ByteCodec OrderedMap
open Commands
open Filesystem (Block Crc32c Verifies maxTuple)
open Store (DiskEngine)
open Lsm (FastBloom)

/-- What the storage reads from the map it holds.  `Holds room m s`: the state holds the map
    `m` and has room for `room` more puts. -/
structure ReadLaws (rt : Runtime) {σ : Type} (S : TableStorage σ)
    (Holds : Nat → (Bytes → Option Bytes) → σ → Prop) : Prop where
  get (h : TableReader) (key : Value) {room : Nat} {m : Bytes → Option Bytes} :
    Observes (Holds room m) (S.get h key) (h.lookup rt (h.content m) key)
  scan (h : TableReader) {options : ScanOptions} (hrange : reversed options.range.1 options.range.2
    = false)
    {room : Nat} {m : Bytes → Option Bytes} {s : σ} (hs : Holds room m s) :
    ∃ rows s', S.scan h options s = (.ok (rows.map fun row => decodeRow rt h.schema row.2), s')
      ∧ Holds room m s' ∧ Listed (h.content m) options.range rows

/-- An error of the storage, and none of the catalog. -/
def Fault.FromStorage : Fault → Prop
  | .error (.catalog _) => False
  | _ => True

/-- What the storage does to the map. -/
structure StorageLaws (rt : Runtime) {σ : Type} (S : TableStorage σ)
    (Holds : Nat → (Bytes → Option Bytes) → σ → Prop) : Prop extends ReadLaws rt S Holds where
  relaxes : Relaxes Holds
  put_error (h : TableWriter) {tuple : Tuple} {f : Fault} (henc : h.encodeRow rt tuple = .error f)
    {room : Nat}
    {m : Bytes → Option Bytes} {s : σ} (hs : Holds room m s) :
    ∃ f s', S.put h tuple s = (.error f, s') ∧ f.FromStorage ∧ Holds room m s'
  put (h : TableWriter) (tuple : Tuple) {room : Nat} {m : Bytes → Option Bytes} {s : σ}
    (hs : Holds (room + 1) m s) :
    ∃ r s', S.put h tuple s = (r, s')
      ∧ ((r = .ok () ∧ ∃ u bytes, h.encodeRow rt tuple = .ok (u, bytes) ∧ bytes.length ≤ maxTuple
          ∧ Holds room (Function.update m (h.rowKey u) (some bytes)) s')
        ∨ (∃ f, f.FromStorage ∧ r = .error f) ∧ Holds room m s')
  delete (h : TableWriter) (key : Value) {room : Nat} {m : Bytes → Option Bytes} {s : σ}
    (hs : Holds room m s) :
    ∃ r s', S.delete h key s = (r, s')
      ∧ ((r = .ok () ∧ ∃ u, userKey key = .ok u
        ∧ Holds room (Function.update m (h.rowKey u) none) s')
        ∨ (∃ f, f.FromStorage ∧ r = .error f) ∧ Holds room m s')

/-! ### Faults -/

/-- The computation gives no error of the catalog. -/
def FaultsFromStorage {α : Type} (x : Outcome α) : Prop :=
  ∀ f, x = .error f → f.FromStorage

section Faults

variable {α β : Type} {x : Outcome α} {g : α → Outcome β}

theorem faultsFromStorage_ok (a : α) : FaultsFromStorage (.ok a : Outcome α) :=
  fun _ h => nomatch h

theorem FaultsFromStorage.bind (hx : FaultsFromStorage x) (hg : ∀ a, FaultsFromStorage (g a)) :
    FaultsFromStorage (x >>= g) := by
  cases x with
  | ok a => exact hg a
  | error f =>
    intro f' h
    cases h
    exact hx f rfl

mutual

theorem faultsFromStorage_encode (rt : Runtime) : ∀ v : Value, FaultsFromStorage (v.encode rt)
  | .array items => (faultsFromStorage_encodeAll rt items).bind fun _ => faultsFromStorage_ok _
  | .null => by
    intro f h
    cases h
    trivial
  | .bool _ | .int16 _ | .int32 _ | .int64 _ | .text _ | .bytes _ | .json _ | .date _ | .timestamp
    _ | .float32 _
  | .float64 _ | .numeric _ | .time _ | .uuid _ | .interval _ => faultsFromStorage_ok _

theorem faultsFromStorage_encodeAll (rt : Runtime) :
    ∀ vs : List Value, FaultsFromStorage (encodeAll rt vs)
  | [] => faultsFromStorage_ok _
  | v :: vs => (faultsFromStorage_encode rt v).bind fun _ =>
      (faultsFromStorage_encodeAll rt vs).bind fun _ => faultsFromStorage_ok _

end

end Faults

end StrataDb.Sql
