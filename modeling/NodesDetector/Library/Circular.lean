import Mathlib.Data.Nat.ModEq

/-! Unsigned 64-bit counters that wrap: comparisons and differences that stay right while the
exact values are close. -/
namespace Circular

variable {m n d q : ℕ}

/-- The sign bit of the difference orders two counters less than 2^63 apart. -/
theorem two_pow_lt_sub_iff (hmn : m ≤ n + 2 ^ 63) (hnm : n < m + 2 ^ 63) :
    2 ^ 63 < (UInt64.ofNat m - UInt64.ofNat n).toNat ↔ m < n := by
  rw [UInt64.toNat_sub, UInt64.toNat_ofNat', UInt64.toNat_ofNat']
  omega

/-- Up to 2^64 behind, only the nearer half compares as behind. -/
theorem two_pow_lt_sub_iff_near (hmn : m ≤ n) (hnm : n ≤ m + 2 ^ 64) :
    2 ^ 63 < (UInt64.ofNat m - UInt64.ofNat n).toNat ↔ m < n ∧ n < m + 2 ^ 63 := by
  rw [UInt64.toNat_sub, UInt64.toNat_ofNat', UInt64.toNat_ofNat']
  omega

theorem toNat_sub (h : n ≤ m) (hm : m < n + 2 ^ 64) :
    (UInt64.ofNat m - UInt64.ofNat n).toNat = m - n := by
  rw [UInt64.toNat_sub, UInt64.toNat_ofNat', UInt64.toNat_ofNat']
  omega

theorem ofNat_sub (h : n ≤ m) : UInt64.ofNat m - UInt64.ofNat n = UInt64.ofNat (m - n) := by
  apply UInt64.toNat_inj.mp
  rw [UInt64.toNat_sub, UInt64.toNat_ofNat', UInt64.toNat_ofNat', UInt64.toNat_ofNat']
  omega

theorem ofNat_succ (n : ℕ) : UInt64.ofNat (n + 1) = 1 + UInt64.ofNat n := by
  apply UInt64.toNat_inj.mp
  rw [UInt64.toNat_add, UInt64.toNat_ofNat', UInt64.toNat_ofNat']
  simp
  omega

/-- An unsigned quotient of a negative difference is the exact quotient modulo `2^64 / d`. -/
theorem toNat_sub_div (hd : d * q = 2 ^ 64) (k : ℕ) :
    (UInt64.ofNat (d * n) - UInt64.ofNat (d * (n + k))).toNat / d = (q - k % q) % q := by
  have hd0 : 0 < d := Nat.pos_of_ne_zero (by rintro rfl; simp at hd)
  have hq0 : 0 < q := Nat.pos_of_ne_zero (by rintro rfl; simp at hd)
  have hk : k % q < q := Nat.mod_lt _ hq0
  have hdiff : (UInt64.ofNat (d * n) - UInt64.ofNat (d * (n + k))).toNat =
      (2 ^ 64 - d * k % 2 ^ 64) % 2 ^ 64 := by
    rw [UInt64.toNat_sub, UInt64.toNat_ofNat', UInt64.toNat_ofNat', Nat.mul_add]
    generalize d * n = a
    generalize d * k = b
    omega
  rw [hdiff, ← hd, Nat.mul_mod_mul_left, ← Nat.mul_sub, Nat.mul_mod_mul_left,
    Nat.mul_div_cancel_left _ hd0]

end Circular
