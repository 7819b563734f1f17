import StrataDb.Crc
import StrataDb.Memtable

/-!
# Replaying a file that was cut or extended

A file cut behind its header gives the records of its complete frames (`replay_cut`). Eight zero
bytes are the frame of the empty payload, so a file extended by zeros gives a record for every
eight.
-/

namespace StrataDb.Journal

open ByteCodec
open Crc (crc32 crc32_nil)
open List (append_nil flatMap_cons replicate)

section Appends

variable {R : Type} {crc : Bytes → UInt32} {c : Codec R}

theorem file_foldl_append {j : Journal} (hopen : withCodec none = .ok j) (rs : List R) :
    (rs.foldl (append crc c) j).file = contents crc c rs [] := by
  obtain ⟨j', hopen', hfile⟩ := @withCodec_of_empty none rfl
  obtain rfl := Except.ok.inj (hopen.symm.trans hopen')
  exact foldl_append_contents (hfile.trans (contents_nil crc c).symm) rs

/-! ### Cuts -/

theorem take_frames (ps : List Bytes) (hps : ∀ p ∈ ps, p.length < 2 ^ 32) (n : Nat) :
    ∃ i tail, i ≤ ps.length ∧ TornTail crc tail
      ∧ (ps.flatMap (writeFrame crc)).take n = (ps.take i).flatMap (writeFrame crc) ++ tail
      ∧ ∀ k ≤ ps.length, k ≤ i ↔ ((ps.take k).flatMap (writeFrame crc)).length ≤ n := by
  induction ps generalizing n with
  | nil =>
    refine ⟨0, [], Nat.le_refl 0, tornTail_nil crc, by simp, fun k hk => ?_⟩
    simp [Nat.le_zero.mp hk]
  | cons p ps ih =>
    rcases Nat.lt_or_ge n (writeFrame crc p).length with hcut | hwhole
    · -- the cut is in the first frame
      refine ⟨0, (writeFrame crc p).take n, Nat.zero_le _,
        ⟨p, n, hps p List.mem_cons_self, hcut, rfl⟩, ?_, ?_⟩
      · rw [flatMap_cons, List.take_append_of_le_length hcut.le]
        rfl
      · intro k _
        cases k with
        | zero => simp
        | succ k =>
          rw [List.take_succ_cons, flatMap_cons, List.length_append]
          omega
    · obtain ⟨i, tail, hi, htail, htake, hk⟩ := ih (fun q hq => hps q (List.mem_cons_of_mem p hq))
        (n - (writeFrame crc p).length)
      refine ⟨i + 1, tail, Nat.succ_le_succ hi, htail, ?_, ?_⟩
      · rw [flatMap_cons, List.take_append, List.take_of_length_le hwhole, htake,
          List.take_succ_cons, flatMap_cons, List.append_assoc]
      · intro k hle
        cases k with
        | zero => simp
        | succ k =>
          rw [List.take_succ_cons, flatMap_cons, List.length_append, Nat.succ_le_succ_iff,
            hk k (Nat.le_of_succ_le_succ hle)]
          omega

/-- **Replaying a prefix of a journal gives its complete records.**  Of the file that some
    appends to a new journal produce, any prefix with the header replays to the records whose
    frames lie inside it, in order and unchanged. -/
theorem replay_cut {j : Journal} (hopen : withCodec none = .ok j) {rs : List R}
    (hrs : ∀ r ∈ rs, (c.encode r).length < 2 ^ 32 ∧ c.Lawful r) {n : Nat} (hn : HEADER_LEN ≤ n) :
    ∃ i ≤ rs.length, replay crc c ((rs.foldl (append crc c) j).file.take n) = (rs.take i).map .ok
      ∧ ∀ k ≤ rs.length, k ≤ i ↔ ((rs.take k).foldl (append crc c) j).file.length ≤ n := by
  have hsmall : ∀ p ∈ rs.map c.encode, p.length < 2 ^ 32 := by
    intro p hp
    obtain ⟨r, hr, rfl⟩ := List.mem_map.mp hp
    exact (hrs r hr).1
  obtain ⟨i, tail, hi, htail, htake, hcomplete⟩ :=
    take_frames (rs.map c.encode) hsmall (n - HEADER_LEN)
  rw [List.length_map] at hi hcomplete
  have hfile : (rs.foldl (append crc c) j).file.take n = contents crc c (rs.take i) tail := by
    rw [file_foldl_append hopen, contents, append_nil, List.take_append, List.take_of_length_le hn,
      length_header, htake, contents, List.map_take]
  refine ⟨i, hi, ?_, fun k hk => ?_⟩
  · rw [hfile]
    exact replay_contents (fun r hr => hrs r (List.mem_of_mem_take hr)) htail
  · rw [hcomplete k hk, file_foldl_append hopen, contents, append_nil, List.length_append,
      length_header, List.map_take]
    omega

/-- Two records of bytes, cut inside the second frame. -/
theorem replay_cut_in_second : ∃ j : Journal, withCodec none = .ok j
    ∧ ∃ i ≤ 2,
      replay crc32 bytesCodec (([[1], [2, 3]].foldl (append crc32 bytesCodec) j).file.take 20)
        = ([[1], [2, 3]].take i).map .ok
      ∧ ∀ k ≤ 2, k ≤ i ↔ (([[1], [2, 3]].take k).foldl (append crc32 bytesCodec) j).file.length
        ≤ 20 := by
  obtain ⟨j, hopen, -⟩ := @withCodec_of_empty none rfl
  have hrs : ∀ r ∈ [[1], [2, 3]], (bytesCodec.encode r).length < 2 ^ 32 ∧ bytesCodec.Lawful r :=
    fun r hr =>
    ⟨by fin_cases hr <;> decide, bytesCodec_lawful r⟩
  exact ⟨j, hopen, replay_cut hopen hrs (by decide)⟩

/-! ### Zero bytes -/

theorem replicate_zero_eq_frames (hnil : crc [] = 0) (n : Nat) :
    replicate n (0 : UInt8)
      = (replicate (n / 8) []).flatMap (writeFrame crc) ++ (writeFrame crc []).take (n % 8) := by
  have hframe : writeFrame crc [] = replicate 8 0 := by
    rw [writeFrame, hnil]
    rfl
  have hframes (k : Nat) : (replicate k []).flatMap (writeFrame crc) = replicate (8 * k) 0 := by
    induction k with
    | zero => rfl
    | succ k ih =>
      rw [List.replicate_succ, flatMap_cons, ih, hframe, List.replicate_append_replicate,
        Nat.mul_succ, Nat.add_comm]
  rw [hframes, hframe, List.take_replicate, List.replicate_append_replicate]
  congr 1
  omega

end Appends

/-- **A zero-filled tail adds a record for every eight bytes.**  Replay yields exactly the
    appended records if and only if fewer than eight zero bytes follow the last frame; each
    eight of them read as the frame of an empty payload, whose checksum is zero under CRC-32.
    Any checksum that is zero there does the same. -/
theorem replay_zero_tail {R : Type} {c : Codec R} {j : Journal} (hopen : withCodec none = .ok j)
    {rs : List R} (hrs : ∀ r ∈ rs, (c.encode r).length < 2 ^ 32 ∧ c.Lawful r) (n : Nat) :
    crc32 [] = 0 ∧ ∀ {crc : Bytes → UInt32}, crc [] = 0 →
      replay crc c ((rs.foldl (append crc c) j).file ++ replicate n 0)
        = rs.map .ok ++ replicate (n / 8) (c.decode [])
      ∧ (replay crc c ((rs.foldl (append crc c) j).file ++ replicate n 0) = rs.map .ok
        ↔ n < 8) := by
  refine ⟨crc32_nil, fun {crc} hnil => ?_⟩
  have hreplay : replay crc c ((rs.foldl (append crc c) j).file ++ replicate n 0)
      = rs.map .ok ++ replicate (n / 8) (c.decode []) := by
    have hsmall : ∀ p ∈ rs.map c.encode ++ replicate (n / 8) [], p.length < 2 ^ 32 := by
      intro p hp
      rcases List.mem_append.mp hp with hp | hp
      · obtain ⟨r, hr, rfl⟩ := List.mem_map.mp hp
        exact (hrs r hr).1
      · rw [List.eq_of_mem_replicate hp]
        norm_num
    have htail : TornTail crc ((writeFrame crc []).take (n % 8)) :=
      ⟨[], n % 8, by norm_num, Nat.mod_lt n (by norm_num), rfl⟩
    have hpayloads := payloads_frames crc _ hsmall htail
    rw [List.flatMap_append, List.append_assoc, ← replicate_zero_eq_frames hnil] at hpayloads
    rw [replay, file_foldl_append hopen, contents, append_nil, List.append_assoc, hpayloads,
      List.map_append, List.map_map, List.map_replicate]
    congr 1
    exact List.map_congr_left fun r hr => (hrs r hr).2
  refine ⟨hreplay, ?_⟩
  rw [hreplay, List.append_right_eq_self, List.replicate_eq_nil_iff, Nat.div_eq_zero_iff]
  omega

theorem replay_zero_tail_seven : ∃ j : Journal, withCodec none = .ok j
    ∧ (replay crc32 bytesCodec (([[1]].foldl (append crc32 bytesCodec) j).file ++ replicate 7 0)
      = [[1]].map .ok
      ↔ 7 < 8) := by
  obtain ⟨j, hopen, -⟩ := @withCodec_of_empty none rfl
  have hrs : ∀ r ∈ [[1]], (bytesCodec.encode r).length < 2 ^ 32 ∧ bytesCodec.Lawful r := fun r hr =>
    ⟨by fin_cases hr; decide, bytesCodec_lawful r⟩
  exact ⟨j, hopen, ((replay_zero_tail hopen hrs 7).2 crc32_nil).2⟩

/-- Eight zero bytes behind the header of an empty journal read as a record, and a memtable
    with such a journal cannot be opened. -/
theorem zero_tail_reads_as_record :
    replay crc32 bytesCodec (header ++ replicate 8 0) = [.ok []]
      ∧ ∀ inner, ∃ e, Lsm.Journaled.open crc32 (some (header ++ replicate 8 0)) inner
        = .error e := by
  have hpayloads : payloads crc32 (header ++ replicate 8 0) = [[]] := by decide +kernel
  constructor
  · rw [replay, hpayloads]
    rfl
  · intro inner
    obtain ⟨j, hopen, hfile⟩ := withCodec_of_verified (verifyHeader_header_append (replicate 8 0))
    have hreplay : replay crc32 Lsm.keyValueCodec j.file = [Lsm.keyValueCodec.decode []] := by
      rw [hfile, replay, hpayloads]
      rfl
    simp only [Lsm.Journaled.open, hopen, Except.mapError, bind, Except.bind, hreplay]
    exact ⟨_, rfl⟩

end StrataDb.Journal
