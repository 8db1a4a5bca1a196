import Mathlib.Data.Nat.ModEq
import Mathlib.Tactic.Ring

/-! One's-complement sums of base-`b` digits, related to ordinary sums modulo `b - 1`. -/
namespace OnesComplement

variable {b s t x y : ℕ} {xs : List ℕ}

/-- Addition of two digits with the carry brought round to the low end. -/
def add (b x y : ℕ) : ℕ := if x + y < b then x + y else x + y - (b - 1)

/-- The one's-complement sum, one digit at a time. -/
def sum (b : ℕ) (xs : List ℕ) : ℕ := xs.foldl (add b) 0

/-- The complement of the one's-complement sum. -/
def checksum (b : ℕ) (xs : List ℕ) : ℕ := b - 1 - sum b xs

/-- The digit an ordinary sum folds to; of the two zeros only the sum 0 gives 0. -/
def residue (b t : ℕ) : ℕ := if t = 0 then 0 else (t - 1) % (b - 1) + 1

@[simp] theorem residue_zero : residue b 0 = 0 := rfl

theorem residue_eq_zero_iff : residue b t = 0 ↔ t = 0 := by
  by_cases ht : t = 0 <;> simp [residue, ht]

theorem residue_pos (ht : 0 < t) : 0 < residue b t := by
  have hne : residue b t ≠ 0 := by simp [residue_eq_zero_iff]; omega
  omega

theorem residue_lt (hb : 1 < b) : residue b t < b := by
  by_cases ht : t = 0
  · simp [residue, ht]; omega
  · have hm := Nat.mod_lt (t - 1) (show 0 < b - 1 by omega)
    simp only [residue, ht, if_false]
    omega

theorem residue_modEq (b t : ℕ) : residue b t ≡ t [MOD b - 1] := by
  by_cases ht : t = 0
  · simp [residue, ht, Nat.ModEq]
  · have hm : (t - 1) % (b - 1) + 1 ≡ t - 1 + 1 [MOD b - 1] :=
      (Nat.mod_modEq (t - 1) (b - 1)).add_right 1
    have hs : t - 1 + 1 = t := by omega
    simpa only [residue, ht, if_false, hs] using hm

/-- Congruence fixes the digit once the two zeros are told apart. -/
theorem residue_unique (hx : x < b) (hm : x ≡ t [MOD b - 1]) (hz : x = 0 ↔ t = 0) :
    x = residue b t := by
  by_cases ht : t = 0
  · simp [hz.mpr ht, ht]
  · have hx0 : x ≠ 0 := fun h => ht (hz.mp h)
    have hpred : x - 1 ≡ t - 1 [MOD b - 1] := by
      apply Nat.ModEq.add_right_cancel' 1
      rwa [show x - 1 + 1 = x by omega, show t - 1 + 1 = t by omega]
    have hmod : (x - 1) % (b - 1) = x - 1 := Nat.mod_eq_of_lt (by omega)
    rw [Nat.ModEq, hmod] at hpred
    simp only [residue, ht, if_false]
    omega

theorem residue_of_lt (ht : t < b) : residue b t = t :=
  (residue_unique ht rfl Iff.rfl).symm

theorem residue_congr (hb : 1 < b) (hm : s ≡ t [MOD b - 1]) (hz : s = 0 ↔ t = 0) :
    residue b s = residue b t :=
  residue_unique (residue_lt hb) ((residue_modEq b s).trans hm) (residue_eq_zero_iff.trans hz)

/-- Adding the all-ones digit changes nothing but the sum 0. -/
theorem residue_add_ones (hb : 1 < b) (ht : 0 < t) : residue b (t + (b - 1)) = residue b t :=
  residue_congr hb (by simp [Nat.ModEq]) (by omega)

theorem residue_residue_add (hb : 1 < b) (s t : ℕ) :
    residue b (residue b s + t) = residue b (s + t) := by
  have hz := residue_eq_zero_iff (b := b) (t := s)
  exact residue_congr hb ((residue_modEq b s).add_right t) (by omega)

/-- One round of the end-around carry keeps the digit. -/
theorem residue_carry (hb : 1 < b) (t : ℕ) : residue b (t % b + t / b) = residue b t := by
  have hdiv := Nat.mod_add_div t b
  have hsub : b * (t / b) = t / b + (b - 1) * (t / b) := by
    rw [Nat.add_comm, ← Nat.succ_mul, Nat.succ_eq_add_one, Nat.sub_add_cancel hb.le]
  have hsplit : t = t % b + t / b + (b - 1) * (t / b) := by
    rw [Nat.add_assoc, ← hsub, hdiv]
  apply residue_congr hb
  · conv_rhs => rw [hsplit]
    simp [Nat.ModEq]
  · constructor
    · intro h
      obtain ⟨hm, hd⟩ := Nat.add_eq_zero_iff.mp h
      simpa [hm, hd] using hdiv.symm
    · rintro rfl
      simp

/-- The carry round shrinks every sum that does not fit one digit. -/
theorem carry_lt (hb : 1 < b) (ht : b ≤ t) : t % b + t / b < t := by
  have hdiv := Nat.mod_add_div t b
  have hpos : 0 < t / b := Nat.div_pos ht (by omega)
  have hmul : 2 * (t / b) ≤ b * (t / b) := Nat.mul_le_mul_right _ hb
  omega

theorem add_eq_residue (hb : 1 < b) (hx : x < b) (hy : y < b) :
    add b x y = residue b (x + y) := by
  unfold add
  split
  · exact (residue_of_lt (by omega)).symm
  · have hsum : x + y = x + y - (b - 1) + (b - 1) := by omega
    calc x + y - (b - 1) = residue b (x + y - (b - 1)) := (residue_of_lt (by omega)).symm
      _ = residue b (x + y - (b - 1) + (b - 1)) := (residue_add_ones hb (by omega)).symm
      _ = residue b (x + y) := by rw [← hsum]

theorem foldl_add_eq_residue (hb : 1 < b) (hx : x < b) (hxs : ∀ y ∈ xs, y < b) :
    xs.foldl (add b) x = residue b (x + xs.sum) := by
  induction xs generalizing x with
  | nil => simp [residue_of_lt hx]
  | cons y ys ih =>
    have hy := hxs y (by simp)
    rw [List.foldl_cons, add_eq_residue hb hx hy, List.sum_cons, ← Nat.add_assoc,
      ← residue_residue_add hb (x + y)]
    exact ih (residue_lt hb) (fun z hz => hxs z (by simp [hz]))

/-- The digit-by-digit sum is the residue of the ordinary sum. -/
theorem sum_eq_residue (hb : 1 < b) (hxs : ∀ y ∈ xs, y < b) : sum b xs = residue b xs.sum := by
  simpa [sum] using foldl_add_eq_residue hb (x := 0) (by omega) hxs

/-- A nonzero sum and the complement of its digit fold to all ones. -/
theorem residue_add_complement (hb : 1 < b) (ht : 0 < t) :
    residue b (t + (b - 1 - residue b t)) = b - 1 := by
  have hlt := residue_lt (t := t) hb
  have hpos := residue_pos (b := b) ht
  symm
  apply residue_unique (by omega)
  · have hm := ((residue_modEq b t).symm.add_right (b - 1 - residue b t)).symm
    rwa [show residue b t + (b - 1 - residue b t) = b - 1 by omega] at hm
  · omega

end OnesComplement
