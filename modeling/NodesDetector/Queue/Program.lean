import Mathlib.Data.List.GetD
import NodesDetector.Library.Circular

/-! The parts of `concurrentqueue.h` an implicit producer is made of: circular indices, `Block` and
the block index. -/
namespace NodesDetector.Queue

/-- `index_t` and `size_t`. -/
abbrev Index := UInt64

def blockSize : UInt64 := 32

def initialIndexSize : UInt64 := 32

def circularLessThan (a b : Index) : Bool := a - b > (1 : UInt64) <<< 63

/-! ### Blocks -/

/-- A slot is `none` where no object lives. -/
structure Block (α : Type) where
  elements : ℕ → Option α
  elementsCompletelyDequeued : UInt64

/-- `operator[]`: the slot of an index. -/
def slot (index : Index) : ℕ := (index &&& (blockSize - 1)).toNat

namespace Block

variable {α : Type}

def resetEmpty (block : Block α) : Block α := { block with elementsCompletelyDequeued := 0 }

/-- The counter after `set_empty<implicit_context>`, and whether the block is now empty. -/
def setEmpty (block : Block α) : Bool × Block α :=
  let prevVal := block.elementsCompletelyDequeued
  (prevVal = blockSize - 1, { block with elementsCompletelyDequeued := prevVal + 1 })

def construct (block : Block α) (index : Index) (element : α) : Block α :=
  { block with elements := Function.update block.elements (slot index) (some element) }

def destroy (block : Block α) (index : Index) : Block α :=
  { block with elements := Function.update block.elements (slot index) none }

end Block

/-! ### The block index -/

/-- `INVALID_BLOCK_BASE` -/
def invalidBlockBase : Index := 1

structure BlockIndexEntry (β : Type) where
  key : Index
  value : Option β

/-- `index` points into the entries. -/
structure BlockIndexHeader where
  capacity : UInt64
  tail : UInt64
  index : List ℕ

def BlockIndexHeader.entry (header : BlockIndexHeader) (pos : UInt64) : ℕ :=
  header.index.getD pos.toNat 0

/-- `(tail + 1) & (capacity - 1)` -/
def BlockIndexHeader.newTail (header : BlockIndexHeader) : UInt64 :=
  (header.tail + 1) &&& (header.capacity - 1)

/-- The last of `headers` is `blockIndex`, those before it are its chain of `prev`. -/
structure BlockIndex (β : Type) where
  headers : List BlockIndexHeader
  entries : ℕ → BlockIndexEntry β
  allocated : ℕ
  nextBlockIndexCapacity : UInt64

/-- The `do … while` loop that copies the old index, oldest entry first. -/
def copyFrom (prev : BlockIndexHeader) : ℕ → UInt64 → List ℕ
  | 0, _ => []
  | n + 1, prevPos =>
    let prevPos := (prevPos + 1) &&& (prev.capacity - 1)
    prev.entry prevPos :: if prevPos = prev.tail then [] else copyFrom prev n prevPos

def copyIndex (prev : BlockIndexHeader) : List ℕ := copyFrom prev prev.capacity.toNat prev.tail

namespace BlockIndex

variable {β : Type}

def setKey (b : BlockIndex β) (e : ℕ) (key : Index) : BlockIndex β :=
  { b with entries := Function.update b.entries e { b.entries e with key := key } }

def setValue (b : BlockIndex β) (e : ℕ) (value : Option β) : BlockIndex β :=
  { b with entries := Function.update b.entries e { b.entries e with value := value } }

/-- The position of `blockIndex` among the headers. -/
def current (b : BlockIndex β) : ℕ := b.headers.length - 1

/-- Store to the `tail` of the current header. -/
def setTail (b : BlockIndex β) (tail : UInt64) : BlockIndex β :=
  { b with headers := b.headers.modify b.current fun header => { header with tail := tail } }

/-- The header `new_block_index` builds: the old index, then as many new entries. -/
def newHeader (b : BlockIndex β) : BlockIndexHeader :=
  match b.headers.getLast? with
  | none => {
      capacity := b.nextBlockIndexCapacity
      tail := (0 - 1) &&& (b.nextBlockIndexCapacity - 1)
      index := List.range' b.allocated b.nextBlockIndexCapacity.toNat }
  | some prev => {
      capacity := b.nextBlockIndexCapacity
      tail := (prev.capacity - 1) &&& (b.nextBlockIndexCapacity - 1)
      index := copyIndex prev ++ List.range' b.allocated prev.capacity.toNat }

/-- `entryCount`: how many entries `new_block_index` allocates. -/
def entryCount (b : BlockIndex β) : ℕ :=
  match b.headers.getLast? with
  | none => b.nextBlockIndexCapacity.toNat
  | some prev => prev.capacity.toNat

/-- `new_block_index` where the allocation succeeds. The `value`s of the new entries are left
uninitialised, they hold `junk`. -/
def newBlockIndex (b : BlockIndex β) (junk : ℕ → Option β) : BlockIndex β where
  headers := b.headers ++ [b.newHeader]
  entries e :=
    if b.allocated ≤ e ∧ e < b.allocated + b.entryCount then ⟨invalidBlockBase, junk e⟩
    else b.entries e
  allocated := b.allocated + b.entryCount
  nextBlockIndexCapacity := b.nextBlockIndexCapacity <<< 1

end BlockIndex

/-- The position `get_block_index_index_for_index` computes from what it read. `BLOCK_SIZE` is
unsigned, so the division is one of unsigned numbers although its dividend was made signed. -/
def blockIndexIndex (capacity tail tailBase index : UInt64) : UInt64 :=
  let index := index &&& ~~~(blockSize - 1)
  let offset := (index - tailBase).toInt64.toUInt64 / blockSize
  (tail + offset) &&& (capacity - 1)

/-! ### The index arithmetic in natural numbers -/

theorem circularLessThan_iff {a b : Index} :
    circularLessThan a b = true ↔ 2 ^ 63 < (a - b).toNat := by
  simp [circularLessThan, UInt64.lt_iff_toNat_lt]

/-- Right for all counters less than 2^63 apart, wrapped or not. -/
theorem circularLessThan_ofNat {m n : ℕ} (hmn : m ≤ n + 2 ^ 63) (hnm : n < m + 2 ^ 63) :
    circularLessThan (UInt64.ofNat m) (UInt64.ofNat n) = true ↔ m < n := by
  rw [circularLessThan_iff, Circular.two_pow_lt_sub_iff hmn hnm]

theorem slot_ofNat (n : ℕ) : slot (UInt64.ofNat n) = n % 32 := by
  have h : (blockSize - 1).toNat = 2 ^ 5 - 1 := by decide
  rw [slot, UInt64.toNat_and, h, Nat.and_two_pow_sub_one_eq_mod, UInt64.toNat_ofNat']
  omega

/-- Masking with a power of two less one. -/
theorem toNat_and_sub_one {k : ℕ} (hk : k < 64) (x : UInt64) :
    (x &&& (UInt64.ofNat (2 ^ k) - 1)).toNat = x.toNat % 2 ^ k := by
  have hpow : 2 ^ k < 2 ^ 64 := Nat.pow_lt_pow_right (by omega) hk
  have hpos : 0 < 2 ^ k := Nat.two_pow_pos k
  have h : (UInt64.ofNat (2 ^ k) - 1).toNat = 2 ^ k - 1 := by
    rw [UInt64.toNat_sub, UInt64.toNat_ofNat', UInt64.toNat_one]
    omega
  rw [UInt64.toNat_and, h, Nat.and_two_pow_sub_one_eq_mod]

theorem and_not_blockSize (n : ℕ) :
    UInt64.ofNat n &&& ~~~(blockSize - 1) = UInt64.ofNat (32 * (n / 32)) := by
  apply UInt64.toNat_inj.mp
  have h : (~~~(blockSize - 1)).toBitVec = BitVec.allOnes 64 <<< 5 := by decide
  have hb : (UInt64.ofNat n).toBitVec &&& (BitVec.allOnes 64 <<< 5) =
    (UInt64.ofNat n).toBitVec >>> 5 <<< 5 := BitVec.shiftLeft_ushiftRight.symm
  rw [← UInt64.toNat_toBitVec, UInt64.toBitVec_and, h, hb, BitVec.toNat_shiftLeft,
    BitVec.toNat_ushiftRight, Nat.shiftLeft_eq, Nat.shiftRight_eq_div_pow, UInt64.toNat_toBitVec,
    UInt64.toNat_ofNat', UInt64.toNat_ofNat']
  omega

/-- With block `n` at position `(n + offset) % 2 ^ k`, the lookup ends at the block of its index,
although the negative offset is divided as an unsigned number: `2 ^ k` divides `2 ^ 59`. -/
theorem toNat_blockIndexIndex (offset : ℕ) {k m i : ℕ} (hk : k ≤ 59) (hm : i / 32 ≤ m)
    (hnear : m < i / 32 + 2 ^ 59) :
    (blockIndexIndex (UInt64.ofNat (2 ^ k)) (UInt64.ofNat ((m + offset) % 2 ^ k))
      (UInt64.ofNat (32 * m)) (UInt64.ofNat i)).toNat = (i / 32 + offset) % 2 ^ k := by
  obtain ⟨d, rfl⟩ := Nat.exists_eq_add_of_le hm
  have hd : d < 2 ^ 59 := by omega
  have hdvd : 2 ^ k ∣ 2 ^ 59 := Nat.pow_dvd_pow 2 hk
  have hpow : 2 ^ k ≤ 2 ^ 59 := Nat.le_of_dvd (by simp) hdvd
  have ht : (i / 32 + d + offset) % 2 ^ k < 2 ^ k := Nat.mod_lt _ (Nat.two_pow_pos k)
  have hdiv : (UInt64.ofNat (32 * (i / 32)) - UInt64.ofNat (32 * (i / 32 + d))).toNat / 32 =
      (2 ^ 59 - d % 2 ^ 59) % 2 ^ 59 := Circular.toNat_sub_div (d := 32) rfl d
  have hoff : (2 ^ 59 - d % 2 ^ 59) % 2 ^ 59 < 2 ^ 59 := Nat.mod_lt _ (by simp)
  have hsmall : (2 ^ 59 - d % 2 ^ 59) % 2 ^ 59 % 2 ^ k = (2 ^ 59 - d) % 2 ^ k := by
    rw [Nat.mod_mod_of_dvd _ hdvd, Nat.mod_eq_of_lt hd]
  rw [blockIndexIndex, toNat_and_sub_one (by omega), and_not_blockSize, UInt64.toUInt64_toInt64,
    UInt64.toNat_add, UInt64.toNat_div, show blockSize.toNat = 32 from rfl, hdiv,
    UInt64.toNat_ofNat']
  calc ((i / 32 + d + offset) % 2 ^ k % 2 ^ 64 + (2 ^ 59 - d % 2 ^ 59) % 2 ^ 59) % 2 ^ 64 % 2 ^ k
      = ((i / 32 + d + offset) % 2 ^ k + (2 ^ 59 - d % 2 ^ 59) % 2 ^ 59) % 2 ^ k := by
        generalize (i / 32 + d + offset) % 2 ^ k = t at ht
        generalize (2 ^ 59 - d % 2 ^ 59) % 2 ^ 59 = x at hoff
        rw [Nat.mod_eq_of_lt (a := t) (by omega), Nat.mod_eq_of_lt (a := t + x) (by omega)]
    _ = (i / 32 + d + offset + (2 ^ 59 - d)) % 2 ^ k := by
        rw [Nat.add_mod, Nat.mod_mod, hsmall, ← Nat.add_mod]
    _ = (i / 32 + offset + 2 ^ 59) % 2 ^ k := by
        rw [show i / 32 + d + offset + (2 ^ 59 - d) = i / 32 + offset + 2 ^ 59 by omega]
    _ = (i / 32 + offset) % 2 ^ k := by
        rw [Nat.add_mod, Nat.mod_eq_zero_of_dvd hdvd, Nat.add_zero, Nat.mod_mod]

/-- The loop visits every position once, beginning behind the tail, and ends there, however many
turns it may take: its assertion `i == prevCapacity`. -/
theorem copyFrom_eq {prev : BlockIndexHeader} {k m : ℕ} (hk : k < 64)
    (hcap : prev.capacity = UInt64.ofNat (2 ^ k)) (ht : prev.tail.toNat < 2 ^ k)
    (hm : 2 ^ k ≤ m) :
    copyFrom prev m prev.tail =
      (List.range' 1 (2 ^ k)).map fun i => prev.index.getD ((prev.tail.toNat + i) % 2 ^ k) 0 := by
  obtain ⟨r, rfl⟩ := Nat.exists_eq_add_of_le hm
  have hloop : ∀ n j p, 0 < n → n + j = 2 ^ k → p.toNat = (prev.tail.toNat + j) % 2 ^ k →
      copyFrom prev (n + r) p = (List.range' (j + 1) n).map fun i =>
        prev.index.getD ((prev.tail.toNat + i) % 2 ^ k) 0 := by
    intro n
    induction n with
    | zero =>
      intro j p hpos
      cases hpos
    | succ n ih =>
      intro j p _ hj hp
      have hnext : ((p + 1) &&& (prev.capacity - 1)).toNat =
          (prev.tail.toNat + (j + 1)) % 2 ^ k := by
        have hp' : p.toNat < 2 ^ k := hp ▸ Nat.mod_lt _ (Nat.two_pow_pos k)
        have hpow : 2 ^ k < 2 ^ 64 := Nat.pow_lt_pow_right (by omega) hk
        have hone : (p + 1).toNat = p.toNat + 1 := by
          rw [UInt64.toNat_add, UInt64.toNat_one]
          omega
        rw [hcap, toNat_and_sub_one hk, hone, hp, ← Nat.add_assoc, Nat.mod_add_mod]
      have hstop : (p + 1) &&& (prev.capacity - 1) = prev.tail ↔ n = 0 := by
        rw [← UInt64.toNat_inj, hnext]
        constructor
        · intro h
          by_contra hn
          have hdvd : 2 ^ k ∣ j + 1 := by
            apply (Nat.modEq_zero_iff_dvd).mp
            apply Nat.ModEq.add_left_cancel' prev.tail.toNat
            rw [Nat.ModEq, h, Nat.add_zero, Nat.mod_eq_of_lt ht]
          have := Nat.le_of_dvd (by omega) hdvd
          omega
        · rintro rfl
          rw [show j + 1 = 2 ^ k by omega, Nat.add_mod_right, Nat.mod_eq_of_lt ht]
      rw [Nat.add_right_comm]
      simp only [copyFrom, BlockIndexHeader.entry, hnext, List.range'_succ, List.map_cons]
      by_cases hn : n = 0
      · subst hn
        simp [hstop.mpr rfl]
      · rw [if_neg (mt hstop.mp hn), ih (j + 1) _ (Nat.pos_of_ne_zero hn) (by omega) hnext]
  exact hloop _ 0 _ (Nat.two_pow_pos k) rfl (by rw [Nat.add_zero, Nat.mod_eq_of_lt ht])

theorem copyIndex_eq {prev : BlockIndexHeader} {k : ℕ} (hk : k < 64)
    (hcap : prev.capacity = UInt64.ofNat (2 ^ k)) (ht : prev.tail.toNat < 2 ^ k) :
    copyIndex prev =
      (List.range' 1 (2 ^ k)).map fun i => prev.index.getD ((prev.tail.toNat + i) % 2 ^ k) 0 := by
  have hpow : 2 ^ k < 2 ^ 64 := Nat.pow_lt_pow_right (by omega) hk
  refine copyFrom_eq hk hcap ht ?_
  rw [hcap, UInt64.toNat_ofNat', Nat.mod_eq_of_lt hpow]

end NodesDetector.Queue
