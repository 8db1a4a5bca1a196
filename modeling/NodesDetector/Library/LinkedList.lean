import Mathlib.Data.List.Nodup

/-! Linked lists that are held together by a `next` pointer in each node. -/
namespace LinkedList

variable {α : Type*} {next next' : α → Option α} {ptr : Option α} {v : α} {l : List α}

/-- The nodes from `ptr` on. -/
def Chain (next : α → Option α) : Option α → List α → Prop
  | ptr, [] => ptr = none
  | ptr, v :: l => ptr = some v ∧ Chain next (next v) l

theorem Chain.congr (h : Chain next ptr l) (hl : ∀ v ∈ l, next' v = next v) :
    Chain next' ptr l := by
  induction l generalizing ptr with
  | nil => exact h
  | cons v l ih =>
    obtain ⟨rfl, hc⟩ := h
    refine ⟨rfl, ?_⟩
    rw [hl v List.mem_cons_self]
    exact ih hc fun w hw => hl w (List.mem_cons_of_mem v hw)

/-- The node a chain begins with. -/
theorem Chain.exists_eq_cons (h : Chain next (some v) l) :
    ∃ l', l = v :: l' ∧ Chain next (next v) l' := by
  cases l with
  | nil => cases h
  | cons w l =>
    obtain ⟨hw, hc⟩ := h
    cases hw
    exact ⟨l, rfl, hc⟩

/-- The nodes a walk from `ptr` visits; `none` where it takes more than `n` steps. -/
def walk (next : α → Option α) : ℕ → Option α → Option (List α)
  | _, none => some []
  | 0, some _ => none
  | n + 1, some v => (walk next n (next v)).map (v :: ·)

theorem Chain.walk_eq (h : Chain next ptr l) {n : ℕ} (hn : l.length ≤ n) :
    walk next n ptr = some l := by
  induction l generalizing ptr n with
  | nil =>
    cases h
    cases n <;> rfl
  | cons v l ih =>
    obtain ⟨rfl, hc⟩ := h
    cases n with
    | zero => cases hn
    | succ n => simp [walk, ih hc (Nat.le_of_succ_le_succ hn)]

end LinkedList
