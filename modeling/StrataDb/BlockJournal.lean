import StrataDb.Page
import StrataDb.Runs

/-!
# The page journal (`crates/filesystem/src/block/journal.rs`)

```text
Write:  | tag=1 | page_id (8B) | after-image (PAGE_SIZE bytes) |
Commit: | tag=2 |
```
-/

namespace StrataDb.Filesystem

open ByteCodec Slices
open Journal (Codec JournalError)

inductive JournalOp where
  | write (pageId : Nat) (image : Bytes)
  | commit
deriving DecidableEq, Repr

def TAG_WRITE : UInt8 := 1
def TAG_COMMIT : UInt8 := 2

def JournalOp.encode : JournalOp → Bytes
  | .write pageId image => TAG_WRITE :: (beBytes 8 pageId ++ image)
  | .commit => [TAG_COMMIT]

def JournalOp.decode (bytes : Bytes) : Except JournalError JournalOp :=
  match bytes.head? with
  | some tag =>
    if tag = TAG_WRITE then
      if bytes.length < 9 then
        .error (.decode ("write record too short: " ++ toString bytes.length ++ " bytes"))
      else .ok (.write (beNat (slice bytes 1 8)) (bytes.drop 9))
    else if tag = TAG_COMMIT then .ok .commit
    else .error (.decode ("unknown record tag: Some(" ++ toString tag ++ ")"))
  | none => .error (.decode "unknown record tag: None")

def pageOpCodec : Codec JournalOp := ⟨JournalOp.encode, JournalOp.decode⟩

def JournalOp.Fits : JournalOp → Prop
  | .write pageId _ => pageId < 2 ^ 64
  | .commit => True

theorem JournalOp.decode_encode {op : JournalOp} (h : op.Fits) : decode op.encode = .ok op := by
  cases op with
  | commit => rfl
  | write pageId image =>
    have hslice : slice (TAG_WRITE :: (beBytes 8 pageId ++ image)) 1 8 = beBytes 8 pageId := by
      rw [slice, List.drop_succ_cons, List.drop_zero, List.take_left' (length_beBytes 8 pageId)]
    have hdrop : (TAG_WRITE :: (beBytes 8 pageId ++ image)).drop 9 = image := by
      rw [List.drop_succ_cons, List.drop_left' (length_beBytes 8 pageId)]
    have hlength : ¬ (TAG_WRITE :: (beBytes 8 pageId ++ image)).length < 9 := by
      rw [List.length_cons, List.length_append, length_beBytes]
      omega
    simp only [encode, decode, List.head?_cons, if_true, if_neg hlength, hslice, hdrop]
    rw [beNat_beBytes_of_lt h]

theorem pageOpCodec_lawful {op : JournalOp} (h : op.Fits) : pageOpCodec.Lawful op :=
  JournalOp.decode_encode h

end StrataDb.Filesystem
