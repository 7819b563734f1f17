import StrataDb.Page
import StrataDb.SsTable

/-!
# The storage engine's error type (`crates/strata-store/src/lib.rs`)
-/

namespace StrataDb.Filesystem

def FsError.text : FsError → String
  | .io e => "block i/o error: " ++ e.text
  | .checksum id =>
    "page BlockId(" ++ toString id ++ ") failed checksum verification (corrupt or torn)"
  | .badMagic => "not a strata-db page: bad magic"
  | .badHeaderVersion version => "unsupported page header version " ++ toString version.toNat
  | .badPageType expected got =>
    "expected page type " ++ toString expected ++ ", found " ++ toString got
  | .poolExhausted frames =>
    "page cache exhausted: all " ++ toString frames ++ " frames are pinned"
  | .busy id => "page BlockId(" ++ toString id ++ ") is locked by another handle"
  | .tupleTooLarge len max =>
    "tuple of " ++ toString len ++ " bytes exceeds the " ++ toString max ++ "-byte page capacity"
  | .journal e => "journal error: " ++ e.text
  | .freeListOverflow len max =>
    "free list of " ++ toString len ++ " ids overflows the superblock (max " ++ toString max ++ ")"
  | .workspaceFull requested used capacity =>
    "workspace full: need " ++ toString requested ++ " more bytes, " ++ toString used ++ "/"
      ++ toString capacity ++ " used"

def FsError.isExhausted : FsError → Bool
  | .poolExhausted _ | .workspaceFull .. => true
  | _ => false

end StrataDb.Filesystem

namespace StrataDb.Lsm

def LsmError.isExhausted : LsmError → Bool
  | .exhausted _ | .write .storeFull => true
  | _ => false

end StrataDb.Lsm

namespace StrataDb.Store

open Filesystem (FsError)
open Lsm (LsmError)

inductive StorageError where
  | lsm (e : LsmError)
  | block (e : FsError)
  | corruption (msg : String)
  | exhausted (msg : String)
deriving DecidableEq, Repr

def StorageError.ofLsm (e : LsmError) : StorageError :=
  if e.isExhausted then .exhausted e.text else .lsm e

def StorageError.ofBlock (e : FsError) : StorageError :=
  if e.isExhausted then .exhausted e.text else .block e

end StrataDb.Store
