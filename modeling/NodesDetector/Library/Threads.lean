import Mathlib.Data.Fintype.Card

/-! How many threads are at a place of their program. -/
namespace Threads

variable {ι γ : Type*} [Fintype ι] {pc : ι → γ} {P : γ → Prop} [DecidablePred P] {i j : ι} {x : γ}

def count (pc : ι → γ) (P : γ → Prop) [DecidablePred P] : ℕ :=
  (Finset.univ.filter fun i => P (pc i)).card

theorem count_le : count pc P ≤ Fintype.card ι := Finset.card_le_univ _

theorem count_eq_zero : count pc P = 0 ↔ ∀ i, ¬ P (pc i) := by
  simp [count, Finset.filter_eq_empty_iff]

theorem count_pos (h : P (pc i)) : 0 < count pc P :=
  Finset.card_pos.mpr ⟨i, by simpa using h⟩

/-- One step of one thread. -/
theorem count_update [DecidableEq ι] :
    count (Function.update pc i x) P + (if P (pc i) then 1 else 0) =
      count pc P + (if P x then 1 else 0) := by
  have hcount : ∀ q : ι → γ, count q P =
      ((Finset.univ.erase i).filter fun j => P (q j)).card + (if P (q i) then 1 else 0) := by
    intro q
    rw [count, ← Finset.insert_erase (Finset.mem_univ i), Finset.filter_insert,
      Finset.erase_insert (Finset.notMem_erase i _)]
    split
    · rw [Finset.card_insert_of_notMem (by simp)]
    · rfl
  have hrest : ((Finset.univ.erase i).filter fun j => P (Function.update pc i x j)) =
      (Finset.univ.erase i).filter fun j => P (pc j) := by
    apply Finset.filter_congr
    intro j hj
    rw [Function.update_of_ne (Finset.ne_of_mem_erase hj)]
  rw [hcount pc, hcount (Function.update pc i x), hrest, Function.update_self]
  omega

end Threads
