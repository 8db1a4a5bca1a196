import NodesDetector.Icmp.Program
import Mathlib.Data.Nat.Bitwise

/-! `CheckSum` is the complemented one's-complement sum, and the packer's two passes cancel. -/
namespace NodesDetector

open Bytes OnesComplement

variable {m : Memory} {p n : ℕ} {csum : UInt16}

theorem toNat_foldSum (sum : UInt32) : (foldSum sum).toNat = residue 65536 sum.toNat := by
  induction sum using foldSum.induct with
  | case1 sum h ih =>
    rw [foldSum, if_pos h, ih, toNat_carry]
    exact residue_carry (by decide) _
  | case2 sum h =>
    have hlt : sum.toNat < 65536 := by
      by_contra hle
      exact h (shift_ne_zero_iff.mpr (by omega))
    rw [foldSum, if_neg h, residue_of_lt hlt]

theorem toNat_add_word {sum : UInt32} (h : sum.toNat + load m p 2 < 2 ^ 32) :
    (sum + UInt32.ofNat (load m p 2)).toNat = sum.toNat + load m p 2 := by
  simp only [UInt32.toNat_add, UInt32.toNat_ofNat']
  omega

/-- The word loop adds without wrapping as long as the total fits the accumulator. -/
theorem toNat_sumWords (sum : UInt32) (h : sum.toNat + (words m p n).sum < 2 ^ 32) :
    (sumWords m p sum n).toNat = sum.toNat + (words m p n).sum := by
  induction n using Nat.twoStepInduction generalizing p sum with
  | zero => simp [sumWords, words]
  | one =>
    simp only [words, List.sum_singleton] at h
    simp only [sumWords, words, List.sum_singleton, UInt32.toNat_add, UInt8.toNat_toUInt32]
    omega
  | more n ih _ =>
    simp only [words, List.sum_cons] at h
    have hadd : (sum + UInt32.ofNat (load m p 2)).toNat = sum.toNat + load m p 2 :=
      toNat_add_word (by omega)
    rw [sumWords, ih _ (by omega), hadd, words, List.sum_cons, Nat.add_assoc]

/-- No string of at most 131072 bytes overflows the accumulator, whatever the seed. -/
theorem sum_lt_of_length_le (m : Memory) (p : ℕ) (csum : UInt16) (hn : n ≤ 131072) :
    csum.toNat + (words m p n).sum < 2 ^ 32 := by
  have hseed := csum.toNat_lt
  have hsum := words_sum_le m p n
  omega

theorem toNat_complement {sum : UInt32} (h : sum.toNat < 65536) :
    (~~~ sum).toUInt16.toNat = 65535 - sum.toNat := by
  simp only [UInt32.toNat_toUInt16, UInt32.toNat_not, UInt32.size]
  omega

/-- The value of `CheckSum`. -/
theorem toNat_checkSum (hn : n ≤ 131072) :
    (checkSum m p n csum).toNat = 65535 - residue 65536 (csum.toNat + (words m p n).sum) := by
  have hsum := toNat_sumWords csum.toUInt32 (by simpa using sum_lt_of_length_le m p csum hn)
  have hfold := toNat_foldSum (sumWords m p csum.toUInt32 n)
  rw [hsum, UInt16.toNat_toUInt32] at hfold
  rw [checkSum, toNat_complement (by rw [hfold]; exact residue_lt (by decide)), hfold]

/-- The seed is one more digit of the sum. -/
theorem checkSum_eq_checksum (hn : n ≤ 131072) :
    (checkSum m p n csum).toNat = checksum 65536 (csum.toNat :: words m p n) := by
  have hdigits : ∀ y ∈ csum.toNat :: words m p n, y < 65536 :=
    List.forall_mem_cons.mpr ⟨csum.toNat_lt, words_lt m p n⟩
  rw [toNat_checkSum hn, checksum, sum_eq_residue (by decide) hdigits, List.sum_cons]

/-! ### The packer's second pass -/

/-- The buffer just before the second pass, the checksum of the first still in its field. -/
def packBody (icmp : Icmp) (seqNum : UInt16) (taskId : UInt64) (buffer : Memory)
    (now : Timeval) : Memory :=
  let buffer := store buffer 0 1 icmpEcho
  let buffer := store buffer 1 1 0
  let buffer := store buffer 4 2 icmp.icmpId.toNat
  let buffer := store buffer 6 2 (htons seqNum).toNat
  let buffer := store buffer 2 2 0
  let buffer := store buffer 8 16 0
  let buffer := store buffer 2 2 (checkSum buffer 0 icmpTotalLen 0).toNat
  let buffer := storeTimeval buffer 8 now
  store buffer 24 8 taskId.toNat

/-- The second pass: sum everything again, seeded with the complement of the first result. -/
def secondPass (m : Memory) : UInt16 :=
  checkSum m 0 icmpTotalLen (~~~ (UInt32.ofNat (load m 2 2))).toUInt16

theorem packIcmpPacket_eq (icmp : Icmp) (dstIp : UInt32) (seqNum : UInt16) (taskId : UInt64)
    (buffer : Memory) {bufferLen : ℕ} (now : Timeval) (h : icmpTotalLen ≤ bufferLen) :
    packIcmpPacket icmp dstIp seqNum taskId buffer bufferLen now =
      (true, store (packBody icmp seqNum taskId buffer now) 2 2
        (secondPass (packBody icmp seqNum taskId buffer now)).toNat) := by
  unfold packIcmpPacket
  rw [if_neg (by omega)]
  rfl

/-- The first result and the seed made from it add up to all ones, so they drop out. -/
theorem toNat_secondPass (hpos : 0 < (words (store m 2 2 0) 0 icmpTotalLen).sum) :
    (secondPass m).toNat = 65535 - residue 65536 (words (store m 2 2 0) 0 icmpTotalLen).sum := by
  have hfield : load m 2 2 < 65536 := load_lt m 2 2
  have hseed : (~~~ (UInt32.ofNat (load m 2 2))).toUInt16.toNat = 65535 - load m 2 2 := by
    have hnat : (UInt32.ofNat (load m 2 2)).toNat = load m 2 2 := by
      rw [UInt32.toNat_ofNat']
      omega
    rw [toNat_complement (by omega), hnat]
  have hsum : (words (store m 2 2 0) 0 icmpTotalLen).sum + load m 2 2 =
      (words m 0 icmpTotalLen).sum + 0 :=
    words_sum_store (a := 0) (k := 1) (by decide) (by decide)
  have htotal : 65535 - load m 2 2 + (words m 0 icmpTotalLen).sum =
      (words (store m 2 2 0) 0 icmpTotalLen).sum + (65536 - 1) := by
    omega
  rw [secondPass, toNat_checkSum (by decide), hseed, htotal, residue_add_ones (by decide) hpos]

/-- A message sealed with its own checksum sums to all ones. -/
theorem sum_store_secondPass (hpos : 0 < (words (store m 2 2 0) 0 icmpTotalLen).sum) :
    sum 65536 (words (store m 2 2 (secondPass m).toNat) 0 icmpTotalLen) = 65535 := by
  have hfield : load (store m 2 2 0) 2 2 = 0 := load_store_self (by decide)
  have hsum := words_sum_store (m := store m 2 2 0) (a := 0) (k := 1) (n := icmpTotalLen)
    (by decide) (secondPass m).toNat_lt
  simp only [Nat.zero_add, Nat.mul_one, store_store, hfield, Nat.add_zero] at hsum
  rw [sum_eq_residue (by decide) (words_lt _ _ _), hsum, toNat_secondPass hpos]
  exact residue_add_complement (by decide) hpos

theorem packBody_type (icmp : Icmp) (seqNum : UInt16) (taskId : UInt64) (buffer : Memory)
    (now : Timeval) : packBody icmp seqNum taskId buffer now 0 = 8 := by
  simp [packBody, storeTimeval, store, icmpEcho]

theorem packBody_sum_pos (icmp : Icmp) (seqNum : UInt16) (taskId : UInt64) (buffer : Memory)
    (now : Timeval) :
    0 < (words (store (packBody icmp seqNum taskId buffer now) 2 2 0) 0 icmpTotalLen).sum := by
  apply words_sum_pos (by decide)
  rw [store_apply_of_not_mem (by omega), packBody_type]
  decide

/-- The two passes leave the one-pass checksum of the finished packet, and the whole message
sums to all ones. -/
theorem packIcmpPacket_checksum (icmp : Icmp) (dstIp : UInt32) (seqNum : UInt16)
    (taskId : UInt64) (buffer : Memory) (bufferLen : ℕ) (now : Timeval)
    (h : icmpTotalLen ≤ bufferLen) :
    let packed := packIcmpPacket icmp dstIp seqNum taskId buffer bufferLen now
    packed.1 = true ∧
      load packed.2 2 2 = checksum 65536 (words (store packed.2 2 2 0) 0 icmpTotalLen) ∧
      sum 65536 (words packed.2 0 icmpTotalLen) = 65535 := by
  have hpos := packBody_sum_pos icmp seqNum taskId buffer now
  simp only [packIcmpPacket_eq icmp dstIp seqNum taskId buffer now h, store_store]
  refine ⟨trivial, ?_, sum_store_secondPass hpos⟩
  rw [load_store_self (UInt16.toNat_lt _), toNat_secondPass hpos, checksum,
    sum_eq_residue (by decide) (words_lt _ _ _)]

theorem packIcmpPacket_checksum_stale :
    icmpTotalLen ≤ 128 ∧
      sum 65536 (words (packIcmpPacket ⟨0, 4660⟩ 0 7 99 (fun _ => 255) 128 ⟨5, 6⟩).2 0
        icmpTotalLen) = 65535 :=
  ⟨by decide, (packIcmpPacket_checksum ⟨0, 4660⟩ 0 7 99 (fun _ => 255) 128 ⟨5, 6⟩
    (by decide)).2.2⟩

end NodesDetector
