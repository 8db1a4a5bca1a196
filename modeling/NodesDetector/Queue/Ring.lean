import Mathlib.Data.List.Nodup
import Mathlib.Data.Nat.ModEq
import NodesDetector.Queue.Program

/-! One header of the block index as a ring: block `n` has position `(n + offset) % 2 ^ k`. -/
namespace NodesDetector.Queue

variable {header : BlockIndexHeader} {count offset k m n : ℕ}

/-- The entry of block `n`. -/
def BlockIndexHeader.at (header : BlockIndexHeader) (offset n : ℕ) : ℕ :=
  header.index.getD ((n + offset) % header.capacity.toNat) 0

/-- A header whose tail is at the last of `count` blocks. -/
structure Ring (header : BlockIndexHeader) (count offset k : ℕ) : Prop where
  bounds : 5 ≤ k ∧ k ≤ 59
  capacity : header.capacity = .ofNat (2 ^ k)
  tail : header.tail = .ofNat ((count + offset + (2 ^ k - 1)) % 2 ^ k)
  length : header.index.length = 2 ^ k
  nodup : header.index.Nodup

namespace Ring

theorem size (h : Ring header count offset k) : header.capacity.toNat = 2 ^ k := by
  have hpow : 2 ^ k < 2 ^ 64 := Nat.pow_lt_pow_right (by omega) (by have := h.bounds; omega)
  rw [h.capacity, UInt64.toNat_ofNat', Nat.mod_eq_of_lt hpow]

theorem toNat_ofNat_mod (h : Ring header count offset k) (x : ℕ) :
    (UInt64.ofNat (x % 2 ^ k)).toNat = x % 2 ^ k := by
  have hpow : 2 ^ k < 2 ^ 64 := Nat.pow_lt_pow_right (by omega) (by have := h.bounds; omega)
  have hlt : x % 2 ^ k < 2 ^ k := Nat.mod_lt _ (Nat.two_pow_pos k)
  rw [UInt64.toNat_ofNat', Nat.mod_eq_of_lt (by omega)]

/-- Reading the index at the position of a block. -/
theorem entry_ofNat (h : Ring header count offset k) (n : ℕ) :
    header.entry (.ofNat ((n + offset) % 2 ^ k)) = header.at offset n := by
  rw [BlockIndexHeader.entry, BlockIndexHeader.at, h.size, h.toNat_ofNat_mod]

theorem tail_lt (h : Ring header count offset k) : header.tail.toNat < 2 ^ k := by
  rw [h.tail, h.toNat_ofNat_mod]
  exact Nat.mod_lt _ (Nat.two_pow_pos k)

/-- With at least one block, the tail is the position of the last. -/
theorem tail_eq (h : Ring header (m + 1) offset k) :
    header.tail = .ofNat ((m + offset) % 2 ^ k) := by
  have hpos := Nat.two_pow_pos k
  have hsum : m + 1 + offset + (2 ^ k - 1) = m + offset + 2 ^ k := by omega
  rw [h.tail, hsum, Nat.add_mod_right]

/-- `(tail + 1) & (capacity - 1)` is the position of the next block. -/
theorem newTail_eq (h : Ring header count offset k) :
    header.newTail = .ofNat ((count + offset) % 2 ^ k) := by
  have hb := h.bounds
  have hpos := Nat.two_pow_pos k
  have hpow : 2 ^ k ≤ 2 ^ 59 := Nat.pow_le_pow_right (by omega) hb.2
  have hlt := h.tail_lt
  have hone : (header.tail + 1).toNat = header.tail.toNat + 1 := by
    rw [UInt64.toNat_add, UInt64.toNat_one]
    omega
  apply UInt64.toNat_inj.mp
  rw [BlockIndexHeader.newTail, h.capacity, toNat_and_sub_one (by omega), hone, h.tail,
    h.toNat_ofNat_mod, h.toNat_ofNat_mod, Nat.mod_add_mod]
  have hsum : count + offset + (2 ^ k - 1) + 1 = count + offset + 2 ^ k := by omega
  rw [hsum, Nat.add_mod_right]

theorem entry_newTail (h : Ring header count offset k) :
    header.entry header.newTail = header.at offset count := by
  rw [h.newTail_eq, h.entry_ofNat]

/-- `(tail - 1) & (capacity - 1)` takes the last block back. -/
theorem prevTail_eq (h : Ring header (m + 1) offset k) :
    (header.tail - 1) &&& (header.capacity - 1) = .ofNat ((m + offset + (2 ^ k - 1)) % 2 ^ k) := by
  have hb := h.bounds
  have hpos := Nat.two_pow_pos k
  have hlt := h.tail_lt
  have hdvd : 2 ^ k ∣ 2 ^ 64 := Nat.pow_dvd_pow 2 (by omega)
  apply UInt64.toNat_inj.mp
  rw [h.capacity, toNat_and_sub_one (by omega), h.toNat_ofNat_mod, UInt64.toNat_sub,
    UInt64.toNat_one, Nat.mod_mod_of_dvd _ hdvd]
  obtain ⟨q, hq⟩ := hdvd
  have hq1 : 1 ≤ q := Nat.pos_of_ne_zero (by rintro rfl; simp at hq)
  have hmul : 2 ^ k * q = 2 ^ k * (q - 1) + 2 ^ k := by
    rw [← Nat.mul_succ]
    congr 1
    omega
  have hsum : 2 ^ 64 - 1 + header.tail.toNat =
      header.tail.toNat + (2 ^ k - 1) + 2 ^ k * (q - 1) := by omega
  rw [hsum, Nat.add_mul_mod_self_left, h.tail_eq, h.toNat_ofNat_mod, Nat.mod_add_mod]

theorem pos_lt (h : Ring header count offset k) (n : ℕ) :
    (n + offset) % 2 ^ k < header.index.length := by
  rw [h.length]
  exact Nat.mod_lt _ (Nat.two_pow_pos k)

/-- Within one turn of the ring, different blocks have different entries. -/
theorem at_inj (h : Ring header count offset k) (hmn : m ≤ n) (hn : n < m + 2 ^ k)
    (he : header.at offset m = header.at offset n) : m = n := by
  rw [BlockIndexHeader.at, BlockIndexHeader.at, h.size, List.getD_eq_getElem _ _ (h.pos_lt m),
    List.getD_eq_getElem _ _ (h.pos_lt n), h.nodup.getElem_inj_iff] at he
  have hmod : m ≡ n [MOD 2 ^ k] := Nat.ModEq.add_right_cancel' offset he
  have hdvd := (Nat.modEq_iff_dvd' hmn).mp hmod
  have hzero := Nat.eq_zero_of_dvd_of_lt hdvd (by omega)
  omega

theorem at_mem (h : Ring header count offset k) (n : ℕ) : header.at offset n ∈ header.index := by
  rw [BlockIndexHeader.at, h.size, List.getD_eq_getElem _ _ (h.pos_lt n)]
  exact List.getElem_mem _

/-- Moving the tail to the next block. -/
theorem push (h : Ring header count offset k) :
    Ring { header with tail := .ofNat ((count + offset) % 2 ^ k) } (count + 1) offset k := by
  refine { h with tail := ?_ }
  have hpos := Nat.two_pow_pos k
  rw [show count + 1 + offset + (2 ^ k - 1) = count + offset + 2 ^ k by omega, Nat.add_mod_right]

/-- Taking the tail back from the last block. -/
theorem pop (h : Ring header (m + 1) offset k) :
    Ring { header with tail := (header.tail - 1) &&& (header.capacity - 1) } m offset k :=
  { h with tail := h.prevTail_eq }

end Ring

section Grow

variable {β : Type} {b : BlockIndex β}

theorem newHeader_of_last (hlast : b.headers.getLast? = some header) :
    b.newHeader = {
      capacity := b.nextBlockIndexCapacity
      tail := (header.capacity - 1) &&& (b.nextBlockIndexCapacity - 1)
      index := copyIndex header ++ List.range' b.allocated header.capacity.toNat } := by
  simp [BlockIndex.newHeader, hlast]

/-- The position block `n` gets in an index of twice the capacity. -/
theorem grown_position (hn : n < count) (hc : count ≤ n + m) (hm : 0 < m) :
    (n + (m + (2 * m - 1) * count)) % (2 * m) = n + m - count := by
  have hmul : (2 * m - 1) * count + count = 2 * m * count := by
    rw [← Nat.succ_mul]
    congr 1
    omega
  have hsum : n + (m + (2 * m - 1) * count) = n + m - count + 2 * m * count := by omega
  rw [hsum, Nat.add_mul_mod_self_left, Nat.mod_eq_of_lt (by omega)]

/-- The loop copies the old index so that the last block comes last. -/
theorem copyIndex_getD (h : Ring header count offset k) (hn : n < count)
    (hc : count ≤ n + 2 ^ k) :
    (copyIndex header).getD (n + 2 ^ k - count) 0 = header.at offset n := by
  obtain ⟨last, rfl⟩ : ∃ last, count = last + 1 := ⟨count - 1, by omega⟩
  have hb := h.bounds
  have hlt : n + 2 ^ k - (last + 1) < 2 ^ k := by omega
  rw [copyIndex_eq (by omega) h.capacity h.tail_lt, BlockIndexHeader.at, h.size,
    List.getD_eq_getElem _ _ (by simpa using hlt), List.getElem_map, List.getElem_range',
    h.tail_eq, h.toNat_ofNat_mod, Nat.mod_add_mod]
  congr 1
  rw [show last + offset + (1 + 1 * (n + 2 ^ k - (last + 1))) = n + offset + 2 ^ k by omega,
    Nat.add_mod_right]

/-- Where `i == prevCapacity` is asserted. -/
theorem copyFrom_length (h : Ring header count offset k) {n : ℕ} (hn : header.capacity.toNat ≤ n) :
    (copyFrom header n header.tail).length = header.capacity.toNat := by
  have hb := h.bounds
  rw [h.size] at hn
  rw [copyFrom_eq (by omega) h.capacity h.tail_lt hn, List.length_map, List.length_range', h.size]

theorem copyIndex_length (h : Ring header count offset k) : (copyIndex header).length = 2 ^ k := by
  rw [copyIndex, copyFrom_length h le_rfl, h.size]

theorem copyIndex_sub (h : Ring header count offset k) {e : ℕ} (he : e ∈ copyIndex header) :
    e ∈ header.index := by
  have hb := h.bounds
  rw [copyIndex_eq (by omega) h.capacity h.tail_lt] at he
  obtain ⟨i, -, rfl⟩ := List.mem_map.mp he
  have hlt : (header.tail.toNat + i) % 2 ^ k < header.index.length := by
    rw [h.length]
    exact Nat.mod_lt _ (Nat.two_pow_pos k)
  rw [List.getD_eq_getElem _ _ hlt]
  exact List.getElem_mem _

theorem copyIndex_nodup (h : Ring header count offset k) : (copyIndex header).Nodup := by
  have hb := h.bounds
  rw [copyIndex_eq (by omega) h.capacity h.tail_lt]
  apply List.Nodup.map_on _ (List.nodup_range' _)
  intro i hi j hj hij
  have hpos (x : ℕ) : (header.tail.toNat + x) % 2 ^ k < header.index.length := by
    rw [h.length]
    exact Nat.mod_lt _ (Nat.two_pow_pos k)
  rw [List.getD_eq_getElem _ _ (hpos i), List.getD_eq_getElem _ _ (hpos j),
    h.nodup.getElem_inj_iff] at hij
  simp only [List.mem_range'_1] at hi hj
  have hmod : i ≡ j [MOD 2 ^ k] := Nat.ModEq.add_left_cancel' _ hij
  rcases Nat.le_total i j with hle | hle
  · have hzero := Nat.eq_zero_of_dvd_of_lt ((Nat.modEq_iff_dvd' hle).mp hmod) (by omega)
    omega
  · have hzero := Nat.eq_zero_of_dvd_of_lt ((Nat.modEq_iff_dvd' hle).mp hmod.symm) (by omega)
    omega

/-- `new_block_index` doubles the ring. -/
theorem Ring.grow (h : Ring header count offset k) (hk : k + 1 ≤ 59)
    (hlast : b.headers.getLast? = some header)
    (hnext : b.nextBlockIndexCapacity = .ofNat (2 ^ (k + 1)))
    (halloc : ∀ e ∈ header.index, e < b.allocated) :
    Ring b.newHeader count (2 ^ k + (2 * 2 ^ k - 1) * count) (k + 1) := by
  have hb := h.bounds
  have hpos := Nat.two_pow_pos k
  have htwo : 2 ^ (k + 1) = 2 * 2 ^ k := by rw [Nat.pow_succ, Nat.mul_comm]
  have hpow : 2 ^ (k + 1) ≤ 2 ^ 59 := Nat.pow_le_pow_right (by omega) hk
  rw [newHeader_of_last hlast]
  refine ⟨by omega, hnext, ?_, ?_, ?_⟩
  · have hone : (header.capacity - 1).toNat = 2 ^ k - 1 := by
      rw [UInt64.toNat_sub, UInt64.toNat_one, h.size]
      omega
    have hmul : (2 * 2 ^ k - 1) * count + count = 2 * 2 ^ k * count := by
      rw [← Nat.succ_mul]
      congr 1
      omega
    have hsum : count + (2 ^ k + (2 * 2 ^ k - 1) * count) + (2 * 2 ^ k - 1) =
        2 ^ k - 1 + 2 * 2 ^ k * (count + 1) := by
      rw [Nat.mul_succ]
      omega
    apply UInt64.toNat_inj.mp
    rw [hnext, toNat_and_sub_one (by omega), hone, htwo, hsum, Nat.add_mul_mod_self_left,
      Nat.mod_eq_of_lt (by omega), UInt64.toNat_ofNat', Nat.mod_eq_of_lt (by omega)]
  · rw [List.length_append, copyIndex_length h, List.length_range', h.size]
    omega
  · apply (copyIndex_nodup h).append (List.nodup_range' _)
    intro e he he'
    have hlt := halloc e (copyIndex_sub h he)
    simp only [List.mem_range'_1] at he'
    omega

/-- The grown index has the same entry for every block the old one holds. -/
theorem at_newHeader (h : Ring header count offset k) (hk : k + 1 ≤ 59)
    (hlast : b.headers.getLast? = some header)
    (hnext : b.nextBlockIndexCapacity = .ofNat (2 ^ (k + 1))) (hn : n < count)
    (hc : count ≤ n + 2 ^ k) :
    b.newHeader.at (2 ^ k + (2 * 2 ^ k - 1) * count) n = header.at offset n := by
  have hpow : 2 ^ (k + 1) < 2 ^ 64 := Nat.pow_lt_pow_right (by omega) (by omega)
  have htwo : 2 ^ (k + 1) = 2 * 2 ^ k := by rw [Nat.pow_succ, Nat.mul_comm]
  have hsize : b.nextBlockIndexCapacity.toNat = 2 * 2 ^ k := by
    rw [hnext, UInt64.toNat_ofNat', Nat.mod_eq_of_lt hpow, htwo]
  rw [← copyIndex_getD h hn hc, newHeader_of_last hlast, BlockIndexHeader.at]
  simp only [hsize]
  rw [grown_position hn hc (Nat.two_pow_pos k), List.getD_append]
  rw [copyIndex_length h]
  omega

/-- The next block of a grown index gets the first of the new entries. -/
theorem at_newHeader_count (h : Ring header count offset k) (hk : k + 1 ≤ 59)
    (hlast : b.headers.getLast? = some header)
    (hnext : b.nextBlockIndexCapacity = .ofNat (2 ^ (k + 1))) :
    b.newHeader.at (2 ^ k + (2 * 2 ^ k - 1) * count) count = b.allocated := by
  have hpow : 2 ^ (k + 1) < 2 ^ 64 := Nat.pow_lt_pow_right (by omega) (by omega)
  have htwo : 2 ^ (k + 1) = 2 * 2 ^ k := by rw [Nat.pow_succ, Nat.mul_comm]
  have hpos := Nat.two_pow_pos k
  have hsize : b.nextBlockIndexCapacity.toNat = 2 * 2 ^ k := by
    rw [hnext, UInt64.toNat_ofNat', Nat.mod_eq_of_lt hpow, htwo]
  have hmul : (2 * 2 ^ k - 1) * count + count = 2 * 2 ^ k * count := by
    rw [← Nat.succ_mul]
    congr 1
    omega
  have hsum : count + (2 ^ k + (2 * 2 ^ k - 1) * count) = 2 ^ k + 2 * 2 ^ k * count := by omega
  rw [newHeader_of_last hlast, BlockIndexHeader.at]
  simp only [hsize]
  rw [hsum, Nat.add_mul_mod_self_left, Nat.mod_eq_of_lt (by omega),
    List.getD_append_right _ _ _ _ (copyIndex_length h).le, copyIndex_length h, Nat.sub_self,
    h.size, List.getD_eq_getElem _ _ (by rwa [List.length_range']), List.getElem_range']
  simp

/-- What the constructor's `new_block_index` builds. -/
theorem ring_newHeader (hempty : b.headers = [])
    (hnext : b.nextBlockIndexCapacity = initialIndexSize) : Ring b.newHeader 0 0 5 := by
  have hheader : b.newHeader =
      ⟨initialIndexSize, (0 - 1) &&& (initialIndexSize - 1), List.range' b.allocated 32⟩ := by
    simp only [BlockIndex.newHeader, hempty, List.getLast?_nil, hnext]
    rfl
  rw [hheader]
  exact ⟨by omega, rfl, rfl, by simp, List.nodup_range' _⟩

end Grow

end NodesDetector.Queue
