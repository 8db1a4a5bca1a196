import NodesDetector.Library.Bytes
import NodesDetector.Library.OnesComplement

/-! Exchanging the two halves of a digit commutes with one's-complement sums: byte order does not
matter to a checksum. -/
namespace ByteOrder

open Bytes OnesComplement

variable {h q r x a n : ℕ} {xs : List ℕ} {m : Memory}

/-- Exchange the two base-`h` halves of a number below `h * h`. -/
def swap (h x : ℕ) : ℕ := x % h * h + x / h

theorem halves_div (hr : r < h) : (q * h + r) / h = q := by
  rw [Nat.add_comm, Nat.add_mul_div_right _ _ (by omega), Nat.div_eq_of_lt hr, Nat.zero_add]

theorem swap_halves (hr : r < h) : swap h (q * h + r) = r * h + q := by
  rw [swap, Nat.mul_add_mod_of_lt hr, halves_div hr]

/-- Every digit below `h * h` is made of two halves. -/
theorem exists_halves (hx : x < h * h) : ∃ q r, q < h ∧ r < h ∧ x = q * h + r := by
  have hpos : 0 < h := by
    rw [Nat.pos_iff_ne_zero]
    rintro rfl
    omega
  exact ⟨x / h, x % h, Nat.div_lt_of_lt_mul hx, Nat.mod_lt x hpos, (Nat.div_add_mod' x h).symm⟩

theorem swap_lt (hx : x < h * h) : swap h x < h * h := by
  obtain ⟨q, r, hq, hr, rfl⟩ := exists_halves hx
  rw [swap_halves hr]
  calc r * h + q < r * h + h := by omega
    _ = (r + 1) * h := by ring
    _ ≤ h * h := Nat.mul_le_mul_right h hr

theorem swap_swap (hx : x < h * h) : swap h (swap h x) = x := by
  obtain ⟨q, r, hq, hr, rfl⟩ := exists_halves hx
  rw [swap_halves hr, swap_halves hq]

theorem swap_eq_zero_iff (hx : x < h * h) : swap h x = 0 ↔ x = 0 := by
  constructor
  · intro hz
    rw [← swap_swap hx, hz]
    simp [swap]
  · rintro rfl
    simp [swap]

/-- A swap is a multiplication by `h`, up to multiples of `h * h - 1`. -/
theorem swap_modEq (h x : ℕ) : swap h x ≡ h * x [MOD h * h - 1] := by
  rcases Nat.eq_zero_or_pos h with rfl | hpos
  · simp [swap, Nat.ModEq]
  · have hsq : 0 < h * h := Nat.mul_pos hpos hpos
    have hsub : h * h * (x / h) = x / h + (h * h - 1) * (x / h) := by
      rw [Nat.add_comm, ← Nat.succ_mul, Nat.succ_eq_add_one, Nat.sub_add_cancel hsq]
    have hmul : h * x = swap h x + (h * h - 1) * (x / h) := by
      calc h * x = h * (h * (x / h) + x % h) := by rw [Nat.div_add_mod]
        _ = x % h * h + h * h * (x / h) := by ring
        _ = swap h x + (h * h - 1) * (x / h) := by rw [hsub, swap, Nat.add_assoc]
    rw [hmul]
    simp [Nat.ModEq]

theorem swap_complement (hx : x < h * h) : swap h (h * h - 1 - x) = h * h - 1 - swap h x := by
  obtain ⟨q, r, hq, hr, rfl⟩ := exists_halves hx
  obtain ⟨q', hq'⟩ := Nat.exists_eq_add_of_lt hq
  obtain ⟨r', hr'⟩ := Nat.exists_eq_add_of_lt hr
  have hsq (u v : ℕ) (huv : h = u + v + 1) : h * h = u * h + v * h + h := by
    calc h * h = (u + v + 1) * h := by rw [← huv]
      _ = u * h + v * h + h := by ring
  have hcompl : h * h - 1 - (q * h + r) = q' * h + r' := by
    rw [hsq q q' hq']
    omega
  rw [hcompl, swap_halves (by omega), swap_halves hr, hsq r r' hr']
  omega

/-! ### Sums -/

theorem map_swap_lt (hxs : ∀ y ∈ xs, y < h * h) : ∀ y ∈ xs.map (swap h), y < h * h := by
  intro y hy
  obtain ⟨x, hx, rfl⟩ := List.mem_map.mp hy
  exact swap_lt (hxs x hx)

theorem map_swap_sum_modEq (h : ℕ) (xs : List ℕ) :
    (xs.map (swap h)).sum ≡ h * xs.sum [MOD h * h - 1] := by
  induction xs with
  | nil => simp [Nat.ModEq]
  | cons x xs ih =>
    rw [List.map_cons, List.sum_cons, List.sum_cons, Nat.mul_add]
    exact (swap_modEq h x).add ih

theorem map_swap_sum_eq_zero_iff (hxs : ∀ y ∈ xs, y < h * h) :
    (xs.map (swap h)).sum = 0 ↔ xs.sum = 0 := by
  induction xs with
  | nil => simp
  | cons x xs ih =>
    have hhead := swap_eq_zero_iff (hxs x (by simp))
    have htail := ih fun y hy => hxs y (by simp [hy])
    rw [List.map_cons, List.sum_cons, List.sum_cons]
    omega

/-- The sum of swapped digits is the swapped sum; the two zeros stay apart. -/
theorem sum_map_swap (hh : 1 < h) (hxs : ∀ y ∈ xs, y < h * h) :
    sum (h * h) (xs.map (swap h)) = swap h (sum (h * h) xs) := by
  have hb : 1 < h * h := Nat.lt_of_lt_of_le hh (Nat.le_mul_self h)
  have hlt : residue (h * h) xs.sum < h * h := residue_lt hb
  rw [sum_eq_residue hb (map_swap_lt hxs), sum_eq_residue hb hxs]
  symm
  apply residue_unique (swap_lt hlt)
  · calc swap h (residue (h * h) xs.sum) ≡ h * residue (h * h) xs.sum [MOD h * h - 1] :=
          swap_modEq h _
      _ ≡ h * xs.sum [MOD h * h - 1] := (residue_modEq (h * h) xs.sum).mul_left h
      _ ≡ (xs.map (swap h)).sum [MOD h * h - 1] := (map_swap_sum_modEq h xs).symm
  · rw [swap_eq_zero_iff hlt, residue_eq_zero_iff, map_swap_sum_eq_zero_iff hxs]

theorem checksum_map_swap (hh : 1 < h) (hxs : ∀ y ∈ xs, y < h * h) :
    checksum (h * h) (xs.map (swap h)) = swap h (checksum (h * h) xs) := by
  have hb : 1 < h * h := Nat.lt_of_lt_of_le hh (Nat.le_mul_self h)
  have hlt : sum (h * h) xs < h * h := by
    rw [sum_eq_residue hb hxs]
    exact residue_lt hb
  rw [checksum, checksum, sum_map_swap hh hxs, swap_complement hlt]

/-! ### Network order -/

/-- The big-endian 16-bit words of `n` bytes, a left-over byte padded with a zero on its right. -/
def netWords (m : Memory) (a : ℕ) : ℕ → List ℕ
  | 0 => []
  | 1 => [256 * (m a).toNat]
  | n + 2 => (256 * (m a).toNat + (m (a + 1)).toNat) :: netWords m (a + 2) n

/-- Read in the other byte order, every word is swapped, the padded left-over byte included. -/
theorem netWords_eq (m : Memory) (a n : ℕ) : netWords m a n = (words m a n).map (swap 256) := by
  induction n using Nat.twoStepInduction generalizing a with
  | zero => rfl
  | one =>
    have hbyte := (m a).toNat_lt
    simp only [netWords, words, List.map_cons, List.map_nil, swap]
    rw [Nat.mod_eq_of_lt (by omega), Nat.div_eq_of_lt (by omega), Nat.mul_comm, Nat.add_zero]
  | more n ih _ =>
    have hlow := (m a).toNat_lt
    have hword : load m a 2 = (m (a + 1)).toNat * 256 + (m a).toNat := by
      simp only [load, Nat.mul_zero]
      omega
    rw [netWords, words, List.map_cons, ih, hword, swap_halves hlow, Nat.mul_comm]

/-- The bytes of a word stored low byte first are those of the swapped word, high byte first. -/
theorem slice_store_eq (hx : x < 256 * 256) :
    slice (store m a 2 x) a 2 = [UInt8.ofNat (swap 256 x / 256), UInt8.ofNat (swap 256 x)] := by
  obtain ⟨q, r, hq, hr, rfl⟩ := exists_halves hx
  have hlow (u v : ℕ) (hv : v < 256) : UInt8.ofNat (u * 256 + v) = UInt8.ofNat v := by
    apply UInt8.toNat_inj.mp
    rw [UInt8.toNat_ofNat', UInt8.toNat_ofNat', Nat.mul_add_mod_of_lt hv, Nat.mod_eq_of_lt hv]
  rw [swap_halves hr, halves_div hq, hlow r q hq]
  simp [slice, List.range_succ, store, hlow q r hr, halves_div hr]

end ByteOrder
