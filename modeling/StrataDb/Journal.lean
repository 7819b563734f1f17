import StrataDb.ByteCodec
import StrataDb.Slices

/-!
# The append-only journal (`crates/journal`), down to the bytes of the file

```text
file:  | magic (4B) | version (2B) | frame | frame | ... |
frame:                             | len (4B) | crc (4B) | payload |
```

A payload of 4 GiB or more loses its length; every round trip carries that bound, and nothing
else. A torn tail is recognised by its length alone, so the checksum is an arbitrary parameter.
-/

namespace StrataDb.Journal

open ByteCodec

/-! ### Errors, codecs, frames -/

inductive IoError where
  | unexpectedEof
  | notFound
  | invalidData (msg : String)
deriving DecidableEq, Repr

def IoError.text : IoError → String
  | .unexpectedEof => "failed to fill whole buffer"
  | .notFound => "No such file or directory (os error 2)"
  | .invalidData msg => msg

inductive JournalError where
  | io (e : IoError)
  | badHeader
  | decode (msg : String)
deriving DecidableEq, Repr

def JournalError.text : JournalError → String
  | .io e => "journal io: " ++ e.text
  | .badHeader => "journal: unrecognized file header"
  | .decode msg => "journal decode: " ++ msg

structure Codec (R : Type) where
  encode : R → Bytes
  decode : Bytes → Except JournalError R

def Codec.Lawful {R : Type} (c : Codec R) (r : R) : Prop := c.decode (c.encode r) = .ok r

def bytesCodec : Codec Bytes where
  encode := id
  decode := .ok

theorem bytesCodec_lawful (r : Bytes) : bytesCodec.Lawful r := rfl

def MAGIC : Nat := 0x4A524E4C
def VERSION : Nat := 1
def HEADER_LEN : Nat := 6
def FRAME_HEADER_LEN : Nat := 8

def header : Bytes := beBytes 4 MAGIC ++ beBytes 2 VERSION

@[simp] theorem length_header : header.length = HEADER_LEN := rfl

section Frames

variable (crc : Bytes → UInt32)

def writeFrame (payload : Bytes) : Bytes :=
  beBytes 4 payload.length ++ (beBytes 4 (crc payload).toNat ++ payload)

/-- `read_frame`: the payload of the frame at `buf[pos..]` and the position after
    it; `none` at a clean end and at a torn or corrupt tail alike. -/
def readFrame (buf : Bytes) (pos : Nat) : Option (Bytes × Nat) :=
  if buf.length < pos then none else
    let rest := buf.drop pos
    if rest.length < FRAME_HEADER_LEN then none else
      let len := beNat (rest.take 4)
      let sum := beNat ((rest.drop 4).take 4)
      if rest.length < FRAME_HEADER_LEN + len then none else
        let payload := (rest.drop FRAME_HEADER_LEN).take len
        if (crc payload).toNat ≠ sum then none
        else some (payload, pos + FRAME_HEADER_LEN + len)

/-- The `Replay` iterator drained: every payload from `pos` up to the first frame
    `read_frame` rejects.  A frame is at least eight bytes long, so the length of
    the buffer is enough fuel. -/
def framesFrom : Nat → Bytes → Nat → List Bytes
  | 0, _, _ => []
  | fuel + 1, buf, pos =>
    match readFrame crc buf pos with
    | none => []
    | some (payload, next) => payload :: framesFrom fuel buf next

def payloads (file : Bytes) : List Bytes := framesFrom crc file.length file HEADER_LEN

/-! ### Reading frames back -/

@[simp] theorem length_writeFrame (payload : Bytes) :
    (writeFrame crc payload).length = FRAME_HEADER_LEN + payload.length := by
  simp [writeFrame, FRAME_HEADER_LEN]; omega

theorem writeFrame_ne_nil (payload : Bytes) : writeFrame crc payload ≠ [] := by
  rw [← List.length_pos_iff, length_writeFrame, FRAME_HEADER_LEN]
  omega

theorem readFrame_writeFrame (pre rest payload : Bytes) (h : payload.length < 2 ^ 32) :
    readFrame crc (pre ++ (writeFrame crc payload ++ rest)) pre.length =
      some (payload, pre.length + FRAME_HEADER_LEN + payload.length) := by
  have hdrop : (pre ++ (writeFrame crc payload ++ rest)).drop pre.length =
      beBytes 4 payload.length ++ (beBytes 4 (crc payload).toNat ++ (payload ++ rest)) := by
    simp [writeFrame]
  have hlen : beNat (beBytes 4 payload.length) = payload.length :=
    beNat_beBytes_of_lt (by norm_num; omega)
  have hsum : beNat (beBytes 4 (crc payload).toNat) = (crc payload).toNat :=
    beNat_beBytes_of_lt (by have := (crc payload).toNat_lt; norm_num at this ⊢; omega)
  have htake : ∀ (a b : Bytes), a.length = 4 → (a ++ b).take 4 = a := by
    intro a b ha; rw [← ha]; exact List.take_left
  have hskip : ∀ (a b : Bytes), a.length = 4 → (a ++ b).drop 4 = b := by
    intro a b ha; rw [← ha]; exact List.drop_left
  have hskip8 : (beBytes 4 payload.length ++
      (beBytes 4 (crc payload).toNat ++ (payload ++ rest))).drop FRAME_HEADER_LEN =
        payload ++ rest := by
    rw [show FRAME_HEADER_LEN = 4 + 4 from rfl, ← List.drop_drop, hskip _ _ (by simp),
      hskip _ _ (by simp)]
  simp only [readFrame, hdrop, htake _ _ (length_beBytes 4 _), hskip _ _ (length_beBytes 4 _), hlen,
    hsum, hskip8, List.take_left, ne_eq, not_true_eq_false, if_false]
  rw [if_neg (by simp), if_neg (by simp [FRAME_HEADER_LEN]; omega),
    if_neg (by simp [FRAME_HEADER_LEN]; omega)]

/-- A proper prefix of a frame is not a frame: either its header is incomplete or
    its length field asks for more bytes than are left. -/
theorem readFrame_torn (pre payload : Bytes) (n : Nat) (h : payload.length < 2 ^ 32)
    (hn : n < (writeFrame crc payload).length) :
    readFrame crc (pre ++ (writeFrame crc payload).take n) pre.length = none := by
  have hdrop : (pre ++ (writeFrame crc payload).take n).drop pre.length =
      (writeFrame crc payload).take n := by simp
  have hlength : ((writeFrame crc payload).take n).length = n := by
    rw [List.length_take]; omega
  simp only [readFrame, hdrop, hlength]
  rw [if_neg (by simp)]
  by_cases hshort : n < FRAME_HEADER_LEN
  · rw [if_pos hshort]
  · rw [if_neg hshort]
    have h4 : (4 : Nat) ≤ n := by simp only [FRAME_HEADER_LEN] at hshort; omega
    have hfield : ((writeFrame crc payload).take n).take 4 = beBytes 4 payload.length := by
      rw [List.take_take, Nat.min_eq_left h4, writeFrame, List.take_append_of_le_length (by simp),
        List.take_of_length_le (by simp)]
    have hlen : beNat (((writeFrame crc payload).take n).take 4) = payload.length := by
      rw [hfield]; exact beNat_beBytes_of_lt (by norm_num; omega)
    rw [length_writeFrame] at hn
    rw [hlen, if_pos hn]

/-- **Replay of a frame sequence.**  If the bytes after the frames are rejected by
    `read_frame`, replay gives exactly the payloads, in order. -/
theorem framesFrom_frames (ps : List Bytes) (hps : ∀ p ∈ ps, p.length < 2 ^ 32) (pre tail : Bytes)
    (htail : readFrame crc (pre ++ (ps.flatMap (writeFrame crc) ++ tail))
      (pre.length + (ps.flatMap (writeFrame crc)).length) = none)
    (fuel : Nat) (hfuel : ps.length ≤ fuel) :
    framesFrom crc fuel (pre ++ (ps.flatMap (writeFrame crc) ++ tail)) pre.length = ps := by
  induction ps generalizing pre fuel with
  | nil =>
    cases fuel with
    | zero => rfl
    | succ fuel =>
      simp only [List.flatMap_nil, List.length_nil, Nat.add_zero] at htail
      simp only [List.flatMap_nil, framesFrom, htail]
  | cons p ps ih =>
    obtain ⟨fuel, rfl⟩ : ∃ m, fuel = m + 1 :=
      ⟨fuel - 1, by simp only [List.length_cons] at hfuel; omega⟩
    have hbuf : pre ++ ((p :: ps).flatMap (writeFrame crc) ++ tail) =
        (pre ++ writeFrame crc p) ++ (ps.flatMap (writeFrame crc) ++ tail) := by
      simp [List.append_assoc]
    -- the first frame is read, and its end is where the rest starts
    have hread : readFrame crc (pre ++ ((p :: ps).flatMap (writeFrame crc) ++ tail)) pre.length =
        some (p, (pre ++ writeFrame crc p).length) := by
      have h := readFrame_writeFrame crc pre (ps.flatMap (writeFrame crc) ++ tail) p
        (hps p List.mem_cons_self)
      rw [hbuf, List.append_assoc, h, List.length_append, length_writeFrame, Nat.add_assoc]
    simp only [framesFrom, hread]
    rw [hbuf] at htail ⊢
    congr 1
    apply ih (fun q hq => hps q (List.mem_cons_of_mem p hq))
    · rw [← htail]
      congr 1
      simp only [List.flatMap_cons, List.length_append]
      omega
    · simp only [List.length_cons] at hfuel
      omega

def TornTail (tail : Bytes) : Prop :=
  ∃ payload n, payload.length < 2 ^ 32 ∧ n < (writeFrame crc payload).length ∧
    tail = (writeFrame crc payload).take n

theorem tornTail_nil : TornTail crc [] :=
  ⟨[], 0, by norm_num, by simp [FRAME_HEADER_LEN], rfl⟩

/-- **Replay of a whole file.**  Complete frames are given back in order, a torn
    tail behind them adds nothing. -/
theorem payloads_frames (ps : List Bytes) (hps : ∀ p ∈ ps, p.length < 2 ^ 32) {tail : Bytes}
    (htail : TornTail crc tail) :
    payloads crc (header ++ (ps.flatMap (writeFrame crc) ++ tail)) = ps := by
  obtain ⟨payload, n, hpayload, hn, rfl⟩ := htail
  apply framesFrom_frames crc ps hps header
  · rw [← List.append_assoc, ← List.length_append]
    exact readFrame_torn crc _ payload n hpayload hn
  · have hcount : ps.length ≤ (ps.flatMap (writeFrame crc)).length :=
      count_le_length_flatMap (fun p _ => writeFrame_ne_nil crc p)
    simp only [List.length_append]
    omega

/-- Where replay stops reading. -/
def replayEnd (file : Bytes) : Nat :=
  HEADER_LEN + ((payloads crc file).flatMap (writeFrame crc)).length

end Frames

/-! ### The journal handle -/

/-- `verify_header`: `read_exact` fails on a file shorter than the header. -/
def verifyHeader (file : Bytes) : Except JournalError Unit :=
  if file.length < HEADER_LEN then .error (.io .unexpectedEof)
  else if beNat (file.take 4) ≠ MAGIC ∨ beNat ((file.drop 4).take 2) ≠ VERSION then
    .error .badHeader
  else .ok ()

theorem verifyHeader_header_append (rest : Bytes) : verifyHeader (header ++ rest) = .ok () := by
  simp [verifyHeader, header, HEADER_LEN, beBytes, beNat, MAGIC, VERSION]

variable {file : Bytes}

theorem length_of_verifyHeader (h : verifyHeader file = .ok ()) : HEADER_LEN ≤ file.length := by
  by_contra hshort
  simp [verifyHeader, Nat.not_le.mp hshort] at h

theorem verifyHeader_congr {file' : Bytes} (hlen : HEADER_LEN ≤ file.length)
    (hlen' : HEADER_LEN ≤ file'.length) (h : file.take HEADER_LEN = file'.take HEADER_LEN) :
    verifyHeader file = verifyHeader file' := by
  have hmagic : ∀ bs : Bytes, bs.take 4 = (bs.take HEADER_LEN).take 4 := by
    intro bs; rw [List.take_take]; rfl
  have hversion : ∀ bs : Bytes, (bs.drop 4).take 2 = (bs.take HEADER_LEN).drop 4 := by
    intro bs; rw [List.drop_take]; rfl
  simp only [verifyHeader, if_neg (Nat.not_lt.mpr hlen), if_neg (Nat.not_lt.mpr hlen')]
  rw [hmagic file, hmagic file', hversion file, hversion file', h]

theorem verifyHeader_append (h : verifyHeader file = .ok ()) (rest : Bytes) :
    verifyHeader (file ++ rest) = .ok () := by
  have hlen := length_of_verifyHeader h
  rw [← h]
  apply verifyHeader_congr _ hlen (List.take_append_of_le_length hlen)
  rw [List.length_append]; omega

theorem verifyHeader_take (h : verifyHeader file = .ok ()) :
    verifyHeader (file.take HEADER_LEN) = .ok () := by
  have hlen := length_of_verifyHeader h
  rw [← h]
  apply verifyHeader_congr _ hlen
  · rw [List.take_take, Nat.min_self]
  · rw [List.length_take, Nat.min_eq_left hlen]

end StrataDb.Journal

namespace StrataDb

/-- An open `Journal`: the contents of its file and the write cursor.  Opening has
    verified the header, and every operation leaves the cursor at the end. -/
structure Journal where
  file : ByteCodec.Bytes
  pos : Nat
  verified : Journal.verifyHeader file = .ok ()
  pos_eq : pos = file.length

end StrataDb

namespace StrataDb.Journal

open ByteCodec
open Slices (overwrite overwrite_end)

variable {j : Journal}

@[ext] theorem ext {k : Journal} (h : j.file = k.file) : j = k := by
  obtain ⟨file, pos, _, hpos⟩ := j
  obtain ⟨file', pos', _, hpos'⟩ := k
  subst hpos hpos'
  cases h
  rfl

/-- `with_codec`: open the file, creating it when it is absent.  An empty file gets
    its header, any other one has it verified; then seek to the end. -/
def withCodec (file : Option Bytes) : Except JournalError Journal :=
  let bytes := file.getD []
  if bytes.length = 0 then
    .ok { file := header, pos := header.length
          verified := by simpa using verifyHeader_header_append [], pos_eq := rfl }
  else
    match h : verifyHeader bytes with
    | .error e => .error e
    | .ok () => .ok { file := bytes, pos := bytes.length, verified := h, pos_eq := rfl }

theorem withCodec_of_empty {file : Option Bytes} (h : file.getD [] = []) :
    ∃ j, withCodec file = .ok j ∧ j.file = header := by
  simp [withCodec, h]

theorem withCodec_of_verified {file : Bytes} (h : verifyHeader file = .ok ()) :
    ∃ j, withCodec (some file) = .ok j ∧ j.file = file := by
  have hlen := length_of_verifyHeader h
  have hne : file.length ≠ 0 := by simp only [HEADER_LEN] at hlen; omega
  simp only [withCodec, Option.getD_some, if_neg hne]
  split
  · rename_i e he; rw [h] at he; cases he
  · exact ⟨_, rfl, rfl⟩

theorem withCodec_some {file : Bytes} (hne : file ≠ [])
    (h : withCodec (some file) = .ok j) : j.file = file := by
  have hlen : file.length ≠ 0 := fun h0 => hne (List.length_eq_zero_iff.mp h0)
  simp only [withCodec, Option.getD_some, if_neg hlen] at h
  split at h
  · cases h
  · rw [← Except.ok.inj h]

section Operations

variable {R : Type} (crc : Bytes → UInt32) (c : Codec R)

def append (j : Journal) (record : R) : Journal where
  file := overwrite j.file j.pos (writeFrame crc (c.encode record))
  pos := j.pos + (writeFrame crc (c.encode record)).length
  verified := by
    rw [j.pos_eq, overwrite_end]
    exact verifyHeader_append j.verified _
  pos_eq := by
    rw [j.pos_eq, overwrite_end, List.length_append]

@[simp] theorem append_file (j : Journal) (record : R) :
    (append crc c j record).file = j.file ++ writeFrame crc (c.encode record) := by
  simp only [append, j.pos_eq, overwrite_end]

def truncate (j : Journal) : Journal where
  file := j.file.take HEADER_LEN
  pos := HEADER_LEN
  verified := verifyHeader_take j.verified
  pos_eq := by
    rw [List.length_take, Nat.min_eq_left (length_of_verifyHeader j.verified)]

@[simp] theorem truncate_file (j : Journal) : (truncate j).file = j.file.take HEADER_LEN := rfl

def replay (file : Bytes) : List (Except JournalError R) :=
  (payloads crc file).map c.decode

/-! ### Files made of whole records -/

/-- The file a sequence of records leaves behind, with `tail` after the last frame. -/
def contents (rs : List R) (tail : Bytes) : Bytes :=
  header ++ ((rs.map c.encode).flatMap (writeFrame crc) ++ tail)

theorem verifyHeader_contents (rs : List R) (tail : Bytes) :
    verifyHeader (contents crc c rs tail) = .ok () := verifyHeader_header_append _

theorem contents_ne_nil (rs : List R) (tail : Bytes) : contents crc c rs tail ≠ [] := by
  simp [contents, header, beBytes]

theorem withCodec_contents (rs : List R) (tail : Bytes) :
    ∃ j, withCodec (some (contents crc c rs tail)) = .ok j ∧ j.file = contents crc c rs tail :=
  withCodec_of_verified (verifyHeader_contents crc c rs tail)

theorem contents_nil : contents crc c [] [] = header := by simp [contents]

variable {crc c}

variable {rs : List R}

theorem payloads_contents (hsmall : ∀ r ∈ rs, (c.encode r).length < 2 ^ 32) {tail : Bytes}
    (htail : TornTail crc tail) : payloads crc (contents crc c rs tail) = rs.map c.encode := by
  apply payloads_frames crc _ _ htail
  intro p hp
  obtain ⟨r, hr, rfl⟩ := List.mem_map.mp hp
  exact hsmall r hr

/-- **Replay** of a file gives its records back, in order. -/
theorem replay_contents {rs : List R}
    (hrs : ∀ r ∈ rs, (c.encode r).length < 2 ^ 32 ∧ c.Lawful r) {tail : Bytes}
    (htail : TornTail crc tail) : replay crc c (contents crc c rs tail) = rs.map .ok := by
  rw [replay, payloads_contents (fun r hr => (hrs r hr).1) htail, List.map_map]
  exact List.map_congr_left (fun r hr => (hrs r hr).2)

theorem contents_snoc (rs : List R) (r : R) (tail : Bytes) :
    contents crc c rs [] ++ (writeFrame crc (c.encode r) ++ tail) =
      contents crc c (rs ++ [r]) tail := by
  simp [contents, List.append_assoc]

theorem append_contents (h : j.file = contents crc c rs []) (r : R) :
    (append crc c j r).file = contents crc c (rs ++ [r]) [] := by
  rw [append_file, h, ← contents_snoc, List.append_nil]

theorem foldl_append_contents (h : j.file = contents crc c rs []) (more : List R) :
    (more.foldl (append crc c) j).file = contents crc c (rs ++ more) [] := by
  induction more using List.reverseRecOn with
  | nil => rw [List.foldl_nil, List.append_nil, h]
  | append_singleton more r ih =>
    rw [List.foldl_append, List.foldl_cons, List.foldl_nil, append_contents ih, List.append_assoc]

theorem truncate_contents {tail : Bytes}
    (h : j.file = contents crc c rs tail) : (truncate j).file = contents crc c [] [] := by
  rw [truncate_file, h, contents_nil, contents, ← length_header, List.take_left]

end Operations

end StrataDb.Journal
