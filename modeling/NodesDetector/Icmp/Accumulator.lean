import NodesDetector.Icmp.CheckSum

/-! The 32-bit accumulator of `CheckSum` up to its bound, and the rounds of its folding loop. -/
namespace NodesDetector

open Bytes OnesComplement

variable {m : Memory} {p n : ℕ} {csum : UInt16} {sum : UInt32}

/-! ### The word loop -/

/-- No addition of the word loop, nor that of the left-over byte, leaves the 32 bits. -/
def NeverWraps (buffer : Memory) (p : ℕ) (sum : UInt32) : (count : ℕ) → Prop
  | 0 => True
  | 1 => sum.toNat + (buffer p).toNat < 2 ^ 32
  | count + 2 =>
    sum.toNat + load buffer p 2 < 2 ^ 32 ∧
      NeverWraps buffer (p + 2) (sum + UInt32.ofNat (load buffer p 2)) count

/-- The partial sums only grow, so the total decides. -/
theorem neverWraps_iff : NeverWraps m p sum n ↔ sum.toNat + (words m p n).sum < 2 ^ 32 := by
  induction n using Nat.twoStepInduction generalizing p sum with
  | zero =>
    have hlt := sum.toNat_lt
    simpa [NeverWraps, words] using hlt
  | one => simp [NeverWraps, words]
  | more n ih _ =>
    rw [NeverWraps, words, List.sum_cons, ← Nat.add_assoc]
    constructor
    · rintro ⟨hword, hrest⟩
      rwa [ih, toNat_add_word hword] at hrest
    · intro htotal
      have hword : sum.toNat + load m p 2 < 2 ^ 32 := by omega
      exact ⟨hword, by rwa [ih, toNat_add_word hword]⟩

/-! ### The folding loop -/

/-- The body of `while (sum >> 16)`. -/
def carryRound (sum : UInt32) : UInt32 := (sum &&& (0xffff : UInt32)) + (sum >>> 16)

/-- The folding loop leaves after exactly `k` rounds, with the given accumulator. -/
inductive Folds : ℕ → UInt32 → UInt32 → Prop
  | exit {sum : UInt32} (h : ¬ sum >>> 16 ≠ 0) : Folds 0 sum sum
  | round {k : ℕ} {sum folded : UInt32} (h : sum >>> 16 ≠ 0)
      (hr : Folds k (carryRound sum) folded) : Folds (k + 1) sum folded

theorem Folds.eq_foldSum {k : ℕ} {folded : UInt32} (h : Folds k sum folded) :
    folded = foldSum sum := by
  induction h with
  | exit h => rw [foldSum, if_neg h]
  | round h _ ih =>
    rw [foldSum, if_pos h]
    exact ih

theorem folds_of_lt (h : sum.toNat < 65536) : Folds 0 sum sum :=
  .exit fun hne => absurd (shift_ne_zero_iff.mp hne) (by omega)

/-- A sum with a single carry is folded after one round. -/
theorem folds_of_le (h : sum.toNat ≤ 131070) : ∃ k ≤ 1, ∃ folded, Folds k sum folded := by
  by_cases hlt : sum.toNat < 65536
  · exact ⟨0, by omega, sum, folds_of_lt hlt⟩
  · have hround := toNat_carry sum
    have hfit : (carryRound sum).toNat < 65536 := by
      rw [carryRound]
      omega
    exact ⟨1, le_rfl, _, .round (shift_ne_zero_iff.mpr (by omega)) (folds_of_lt hfit)⟩

/-- Two rounds fold any accumulator. -/
theorem foldSum_terminates (sum : UInt32) : ∃ k ≤ 2, Folds k sum (foldSum sum) := by
  have hexit : ∃ k ≤ 2, ∃ folded, Folds k sum folded := by
    by_cases hlt : sum.toNat < 65536
    · exact ⟨0, by omega, sum, folds_of_lt hlt⟩
    · have hsum := sum.toNat_lt
      have hround := toNat_carry sum
      have hone : (carryRound sum).toNat ≤ 131070 := by
        rw [carryRound]
        omega
      obtain ⟨k, hk, folded, hf⟩ := folds_of_le hone
      exact ⟨k + 1, by omega, folded, .round (shift_ne_zero_iff.mpr (by omega)) hf⟩
  obtain ⟨k, hk, folded, hf⟩ := hexit
  exact ⟨k, hk, hf.eq_foldSum ▸ hf⟩

/-! ### Exact value -/

/-- Up to 131072 bytes the sum is exact and at most the all-ones accumulator, which only 65536
words of ones under the seed of ones reach; two rounds fold it, and the result is the complement
of the residue, 0 apart from 0xffff. -/
theorem checkSum_exact (m : Memory) (p n : ℕ) (csum : UInt16) (hn : n ≤ 131072) :
    let total := csum.toNat + (words m p n).sum
    NeverWraps m p csum.toUInt32 n ∧
      (sumWords m p csum.toUInt32 n).toNat = total ∧
      total ≤ 0xffffffff ∧
      (total = 0xffffffff ↔ csum = 0xffff ∧ words m p n = List.replicate 65536 0xffff) ∧
      (∃ k ≤ 2, Folds k (sumWords m p csum.toUInt32 n)
        (foldSum (sumWords m p csum.toUInt32 n))) ∧
      (checkSum m p n csum).toNat =
        0xffff - if total = 0 then 0 else (total - 1) % 65535 + 1 := by
  intro total
  have hlt : csum.toUInt32.toNat + (words m p n).sum < 2 ^ 32 := by
    simpa using sum_lt_of_length_le m p csum hn
  have hmax : (words m p n).sum = 65535 * 65536 ↔ words m p n = List.replicate 65536 65535 :=
    words_sum_eq_iff (by omega)
  have hseed : csum = 0xffff ↔ csum.toNat = 65535 := UInt16.toNat_inj.symm
  have hcsum := csum.toNat_lt
  have hsum := words_sum_le m p n
  refine ⟨neverWraps_iff.mpr hlt, ?_, ?_, ?_, foldSum_terminates _, toNat_checkSum hn⟩
  · simpa using toNat_sumWords csum.toUInt32 hlt
  · omega
  · rw [hseed, ← hmax]
    omega

theorem words_ones (a : ℕ) {k : ℕ} (hn : n = 2 * k) :
    words (fun _ => 255) a n = List.replicate k 0xffff := by
  subst hn
  induction k generalizing a with
  | zero => rfl
  | succ k ih =>
    have hword : load (fun _ => 255) a 2 = 0xffff := by simp [load]
    rw [Nat.mul_succ, words, ih, hword, List.replicate_succ]

/-- The bound is reached, and folds to the result 0. -/
theorem checkSum_exact_ones :
    (sumWords (fun _ => 255) 0 (0xffff : UInt16).toUInt32 131072).toNat = 0xffffffff ∧
      (checkSum (fun _ => 255) 0 131072 0xffff).toNat = 0 := by
  obtain ⟨_, hsum, _, hmax, _, hvalue⟩ := checkSum_exact (fun _ => 255) 0 131072 0xffff le_rfl
  have htotal := hmax.mpr ⟨rfl, words_ones 0 rfl⟩
  refine ⟨hsum.trans htotal, ?_⟩
  rw [hvalue, htotal]
  decide

end NodesDetector
