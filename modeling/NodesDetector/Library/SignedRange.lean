import Mathlib.Data.Int.DivMod
import Mathlib.Data.Int.ModEq
import Mathlib.Tactic.NormNum

/-! Signed 64-bit operations agree with the integers while the exact result fits. -/
namespace SignedRange

variable {a b : Int64} {x y z : ℤ}

/-- `z` is representable as a signed 64-bit integer. -/
def Fits (z : ℤ) : Prop := -2 ^ 63 ≤ z ∧ z < 2 ^ 63

instance : Decidable (Fits z) := inferInstanceAs (Decidable (_ ∧ _))

theorem fits_toInt (a : Int64) : Fits a.toInt := ⟨a.le_toInt, a.toInt_lt⟩

theorem bmod_of_fits (h : Fits z) : z.bmod (2 ^ 64) = z := by
  obtain ⟨hlo, hhi⟩ := h
  apply Int.bmod_eq_of_le <;> norm_num <;> omega

theorem toInt_add_eq (ha : a.toInt = x) (hb : b.toInt = y) (h : Fits (x + y)) :
    (a + b).toInt = x + y := by
  rw [Int64.toInt_add, ha, hb, bmod_of_fits h]

theorem toInt_sub_eq (ha : a.toInt = x) (hb : b.toInt = y) (h : Fits (x - y)) :
    (a - b).toInt = x - y := by
  rw [Int64.toInt_sub, ha, hb, bmod_of_fits h]

theorem toInt_mul_eq (ha : a.toInt = x) (hb : b.toInt = y) (h : Fits (x * y)) :
    (a * b).toInt = x * y := by
  rw [Int64.toInt_mul, ha, hb, bmod_of_fits h]

/-! ### Congruences, which survive every wrap -/

variable {d : ℤ}

theorem bmod_modEq (hd : d ∣ 2 ^ 64) (z : ℤ) : z.bmod (2 ^ 64) ≡ z [ZMOD d] :=
  Int.ModEq.of_dvd hd (Int.bmod_emod)

theorem toInt_add_modEq (hd : d ∣ 2 ^ 64) (ha : a.toInt ≡ x [ZMOD d]) (hb : b.toInt ≡ y [ZMOD d]) :
    (a + b).toInt ≡ x + y [ZMOD d] := by
  rw [Int64.toInt_add]
  exact (bmod_modEq hd _).trans (ha.add hb)

theorem toInt_sub_modEq (hd : d ∣ 2 ^ 64) (ha : a.toInt ≡ x [ZMOD d]) (hb : b.toInt ≡ y [ZMOD d]) :
    (a - b).toInt ≡ x - y [ZMOD d] := by
  rw [Int64.toInt_sub]
  exact (bmod_modEq hd _).trans (ha.sub hb)

theorem toInt_mul_modEq (hd : d ∣ 2 ^ 64) (ha : a.toInt ≡ x [ZMOD d]) (hb : b.toInt ≡ y [ZMOD d]) :
    (a * b).toInt ≡ x * y [ZMOD d] := by
  rw [Int64.toInt_mul]
  exact (bmod_modEq hd _).trans (ha.mul hb)

/-- The low 16 bits of a number known modulo 2^16. -/
theorem toInt_toInt16_of_modEq (h : a.toInt ≡ x [ZMOD 2 ^ 16]) :
    a.toInt16.toInt = x.bmod (2 ^ 16) := by
  rw [Int64.toInt_toInt16, ← Int.emod_bmod, ← Int.emod_bmod (x := x)]
  exact congrArg (Int.bmod · (2 ^ 16)) h

/-! ### Division and narrowing -/

/-- A quotient rounded towards zero, bracketed by linear bounds. -/
theorem tdiv_bounds (z : ℤ) {d : ℤ} (hd : 0 < d) :
    d * z.tdiv d ≤ z + (d - 1) ∧ z - (d - 1) ≤ d * z.tdiv d ∧
      (0 ≤ z → 0 ≤ z.tdiv d ∧ d * z.tdiv d ≤ z) ∧ (z ≤ 0 → z.tdiv d ≤ 0 ∧ z ≤ d * z.tdiv d) := by
  have hdecomp := Int.mul_tdiv_add_tmod z d
  have hlt := Int.tmod_lt_of_pos z hd
  have hgt := Int.lt_tmod_of_pos z hd
  refine ⟨by omega, by omega, fun hz => ?_, fun hz => ?_⟩
  · have hrem := Int.tmod_nonneg d hz
    exact ⟨Int.tdiv_nonneg hz hd.le, by omega⟩
  · have hrem : z.tmod d ≤ 0 := by
      have hneg := Int.tmod_nonneg d (show 0 ≤ -z by omega)
      rw [Int.neg_tmod] at hneg
      omega
    have hquo : z.tdiv d ≤ 0 := by
      have hneg := Int.tdiv_nonneg (show 0 ≤ -z by omega) hd.le
      rw [Int.neg_tdiv] at hneg
      omega
    exact ⟨hquo, by omega⟩

/-- Dividing by a positive number never overflows. -/
theorem toInt_div_eq (ha : a.toInt = x) (hb : b.toInt = y) (hy : 0 < y) :
    (a / b).toInt = x.tdiv y := by
  subst ha hb
  obtain ⟨hlo, hhi⟩ := fits_toInt a
  obtain ⟨_, _, hnonneg, hnonpos⟩ := tdiv_bounds a.toInt hy
  rw [Int64.toInt_div]
  apply bmod_of_fits
  rcases le_total 0 a.toInt with ha | ha
  · obtain ⟨hq, hle⟩ := hnonneg ha
    have hmul : a.toInt.tdiv b.toInt ≤ b.toInt * a.toInt.tdiv b.toInt :=
      le_mul_of_one_le_left hq (by omega)
    exact ⟨by omega, by omega⟩
  · obtain ⟨hq, hle⟩ := hnonpos ha
    have hmul : b.toInt * a.toInt.tdiv b.toInt ≤ a.toInt.tdiv b.toInt :=
      mul_le_of_one_le_left hq (by omega)
    exact ⟨by omega, by omega⟩

/-- Narrowing through the unsigned types keeps the low 16 bits. -/
theorem toInt16_narrow (a : Int64) : a.toUInt64.toUInt16.toInt16 = a.toInt16 := by
  apply Int16.toBitVec_inj.mp
  rw [UInt16.toBitVec_toInt16, UInt64.toBitVec_toUInt16, Int64.toBitVec_toUInt64,
    Int64.toBitVec_toInt16, BitVec.signExtend_eq_setWidth_of_le _ (by decide)]

end SignedRange
