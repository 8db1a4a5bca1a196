import Mathlib.Algebra.BigOperators.Group.List.Basic
import Mathlib.Data.Nat.ModEq
import Mathlib.Tactic.Ring

/-! Byte-addressed memory: little-endian loads and stores, block copies and 16-bit words. -/
namespace Bytes

/-- One byte at every address; a C object occupies a range of addresses. -/
abbrev Memory := ℕ → UInt8

variable {m p q : Memory} {a c i k n v : ℕ} {bs pre post : List UInt8}

/-- The `n`-byte little-endian number at address `a`. -/
def load (m : Memory) (a : ℕ) : ℕ → ℕ
  | 0 => 0
  | n + 1 => (m a).toNat + 256 * load m (a + 1) n

/-- Write the low `n` bytes of `v` at address `a`, low byte first. -/
def store (m : Memory) (a n v : ℕ) : Memory := fun i =>
  if a ≤ i ∧ i < a + n then UInt8.ofNat (v / 256 ^ (i - a)) else m i

/-- Copy a byte string to address `a`. -/
def blit (m : Memory) (a : ℕ) (bs : List UInt8) : Memory := fun i =>
  if a ≤ i ∧ i < a + bs.length then bs.getD (i - a) 0 else m i

/-- The `n` bytes from address `a` on. -/
def slice (m : Memory) (a n : ℕ) : List UInt8 := (List.range n).map fun i => m (a + i)

/-- The little-endian 16-bit words of `n` bytes, a left-over byte standing for itself. -/
def words (m : Memory) (a : ℕ) : ℕ → List ℕ
  | 0 => []
  | 1 => [(m a).toNat]
  | n + 2 => load m a 2 :: words m (a + 2) n

theorem load_one (m : Memory) (a : ℕ) : load m a 1 = (m a).toNat := by
  simp [load]

theorem load_lt (m : Memory) (a n : ℕ) : load m a n < 256 ^ n := by
  induction n generalizing a with
  | zero => simp [load]
  | succ n ih =>
    have hbyte := (m a).toNat_lt
    have hrest := ih (a + 1)
    rw [load, Nat.pow_succ]
    omega

/-- A load depends on its own bytes only, wherever they lie. -/
theorem load_shift (h : ∀ i < n, p (a + i) = q (c + i)) : load p a n = load q c n := by
  induction n generalizing a c with
  | zero => rfl
  | succ n ih =>
    have hhead : p a = q c := h 0 (by omega)
    have htail : load p (a + 1) n = load q (c + 1) n := by
      apply ih
      intro i hi
      simpa only [Nat.add_assoc, Nat.add_comm 1] using h (i + 1) (by omega)
    rw [load, load, hhead, htail]

theorem load_congr (h : ∀ i, a ≤ i → i < a + n → p i = q i) : load p a n = load q a n :=
  load_shift fun i hi => h (a + i) (by omega) (by omega)

/-- A load determines its bytes. -/
theorem load_eq_iff : load p a n = load q a n ↔ ∀ i < n, p (a + i) = q (a + i) := by
  constructor
  · intro heq
    induction n generalizing a with
    | zero => exact fun i hi => absurd hi (Nat.not_lt_zero i)
    | succ n ih =>
      have hp := (p a).toNat_lt
      have hq := (q a).toNat_lt
      rw [load, load] at heq
      intro i hi
      cases i with
      | zero =>
        have hhead : (p a).toNat = (q a).toNat := by omega
        exact UInt8.toNat_inj.mp hhead
      | succ i =>
        have htail := ih (show load p (a + 1) n = load q (a + 1) n by omega) i (by omega)
        rwa [Nat.add_assoc, Nat.add_comm 1] at htail
  · exact load_shift

/-- Bytes that spell out `v` load as `v` cut to their number. -/
theorem load_eq_mod (h : ∀ i < n, m (a + i) = UInt8.ofNat (v / 256 ^ i)) :
    load m a n = v % 256 ^ n := by
  induction n generalizing a v with
  | zero => simp [load, Nat.mod_one]
  | succ n ih =>
    have hhead : (m a).toNat = v % 256 := by
      have h0 := h 0 (by omega)
      simp only [Nat.add_zero, Nat.pow_zero, Nat.div_one] at h0
      simp [h0]
    have htail : load m (a + 1) n = v / 256 % 256 ^ n := by
      apply ih
      intro i hi
      have hi' := h (i + 1) (by omega)
      rwa [Nat.pow_succ, Nat.mul_comm, ← Nat.div_div_eq_div_mul,
        show a + (i + 1) = a + 1 + i by omega] at hi'
    rw [load, hhead, htail, Nat.pow_succ, Nat.mul_comm (256 ^ n), Nat.mod_mul]

theorem store_apply_of_mem (h : a ≤ i) (h' : i < a + n) :
    store m a n v i = UInt8.ofNat (v / 256 ^ (i - a)) := by
  simp [store, h, h']

theorem store_apply_of_not_mem (h : i < a ∨ a + n ≤ i) : store m a n v i = m i := by
  unfold store
  rw [if_neg (by omega)]

theorem load_store_self (hv : v < 256 ^ n) : load (store m a n v) a n = v := by
  have hload : load (store m a n v) a n = v % 256 ^ n := by
    apply load_eq_mod
    intro i hi
    rw [store_apply_of_mem (by omega) (by omega), Nat.add_sub_cancel_left]
  rw [hload, Nat.mod_eq_of_lt hv]

theorem load_store_of_disjoint (h : c + k ≤ a ∨ a + n ≤ c) :
    load (store m a n v) c k = load m c k :=
  load_congr fun i hi hi' => store_apply_of_not_mem (by omega)

/-- A second store of the same bytes hides the first. -/
theorem store_store (m : Memory) (a n v w : ℕ) : store (store m a n v) a n w = store m a n w := by
  funext i
  unfold store
  split <;> rfl

theorem blit_apply_of_mem (h : a ≤ i) (h' : i < a + bs.length) :
    blit m a bs i = bs.getD (i - a) 0 := by
  simp [blit, h, h']

@[simp] theorem slice_length (m : Memory) (a n : ℕ) : (slice m a n).length = n := by
  simp [slice]

@[simp] theorem slice_getElem (h : i < (slice m a n).length) : (slice m a n)[i] = m (a + i) := by
  simp [slice]

theorem blit_slice (hi : i < n) : blit m 0 (slice p 0 n) i = p i := by
  rw [blit_apply_of_mem (by omega) (by simp; omega)]
  simp [hi]

/-- A block of a copied string keeps its bytes, whatever surrounds it. -/
theorem blit_append_slice (hi : i < n) :
    blit m 0 (pre ++ slice p 0 n ++ post) (pre.length + i) = p i := by
  rw [blit_apply_of_mem (by omega) (by simp; omega)]
  simp [List.getElem?_append_left, List.getElem?_append_right, hi]

theorem words_lt (m : Memory) (a n : ℕ) : ∀ w ∈ words m a n, w < 65536 := by
  induction n using Nat.twoStepInduction generalizing a with
  | zero => simp [words]
  | one =>
    have hbyte := (m a).toNat_lt
    simp only [words, List.mem_singleton]
    omega
  | more n ih _ =>
    intro w hw
    rcases List.mem_cons.mp hw with rfl | hw
    · exact load_lt m a 2
    · exact ih (a + 2) w hw

theorem words_sum_pos (hn : 0 < n) (ha : m a ≠ 0) : 0 < (words m a n).sum := by
  have hbyte : 0 < (m a).toNat := by
    rw [Nat.pos_iff_ne_zero]
    intro h
    exact ha (UInt8.toNat_inj.mp h)
  match n, hn with
  | 1, _ => simpa [words] using hbyte
  | n + 2, _ =>
    rw [words, List.sum_cons, load]
    omega

theorem words_sum_le (m : Memory) (a n : ℕ) : (words m a n).sum ≤ 65535 * ((n + 1) / 2) := by
  induction n using Nat.twoStepInduction generalizing a with
  | zero => simp [words]
  | one =>
    have hbyte := (m a).toNat_lt
    simp only [words, List.sum_singleton]
    omega
  | more n ih _ =>
    have hword := load_lt m a 2
    have hrest := ih (a + 2)
    rw [words, List.sum_cons]
    omega

/-- The largest sum is reached by full words of ones only. -/
theorem words_sum_eq_iff (hn : n ≤ 2 * k) :
    (words m a n).sum = 65535 * k ↔ words m a n = List.replicate k 65535 := by
  induction n using Nat.twoStepInduction generalizing a k with
  | zero => cases k <;> simp [words, List.replicate_succ]
  | one =>
    have hbyte := (m a).toNat_lt
    obtain ⟨k, rfl⟩ := Nat.exists_eq_succ_of_ne_zero (show k ≠ 0 by omega)
    simp only [words, List.sum_singleton, List.replicate_succ, List.cons.injEq]
    omega
  | more n ih _ =>
    obtain ⟨k, rfl⟩ := Nat.exists_eq_succ_of_ne_zero (show k ≠ 0 by omega)
    have hword : load m a 2 < 65536 := load_lt m a 2
    have hrest := words_sum_le m (a + 2) n
    have ih' := ih (a := a + 2) (k := k) (by omega)
    rw [words, List.sum_cons, List.replicate_succ, List.cons.injEq, ← ih']
    omega

theorem words_congr (h : ∀ i, a ≤ i → i < a + n → p i = q i) : words p a n = words q a n := by
  induction n using Nat.twoStepInduction generalizing a with
  | zero => rfl
  | one => simp [words, h a (by omega) (by omega)]
  | more n ih _ =>
    rw [words, words, load_congr fun i hi hi' => h i hi (by omega),
      ih fun i hi hi' => h i (by omega) (by omega)]

/-- Storing an aligned word moves the sum of the words by exactly the change of that word. -/
theorem words_sum_store (hk : 2 * k + 2 ≤ n) (hv : v < 65536) :
    (words (store m (a + 2 * k) 2 v) a n).sum + load m (a + 2 * k) 2 = (words m a n).sum + v := by
  induction n using Nat.twoStepInduction generalizing a k with
  | zero => omega
  | one => omega
  | more n ih _ =>
    rw [words, words, List.sum_cons, List.sum_cons]
    cases k with
    | zero =>
      have hrest : words (store m a 2 v) (a + 2) n = words m (a + 2) n :=
        words_congr fun i hi _ => store_apply_of_not_mem (by omega)
      simp only [Nat.mul_zero, Nat.add_zero, hrest, load_store_self (show v < 256 ^ 2 from hv)]
      omega
    | succ k =>
      have haddr : a + 2 * (k + 1) = a + 2 + 2 * k := by omega
      have hhead : load (store m (a + 2 * (k + 1)) 2 v) a 2 = load m a 2 :=
        load_store_of_disjoint (by omega)
      have hrest := ih (a := a + 2) (k := k) (by omega)
      rw [hhead, haddr]
      omega

end Bytes
