import Mathlib.Data.List.Count

/-! A queue of many producers: a dequeue may take any element that no other one of its own
producer precedes. -/
namespace ProducerQueue

variable {π α : Type*} {producer : α → π} {p : π} {q q' : List α} {x : α}

/-- A dequeue of `x` from `q` leaves `q'`. -/
inductive Take (producer : α → π) : List α → α → List α → Prop
  | mk (pre post : List α) (x : α) (first : ∀ y ∈ pre, producer y ≠ producer x) :
      Take producer (pre ++ x :: post) x (pre ++ post)

/-- The oldest element can always be taken. -/
theorem Take.head (x : α) (q : List α) : Take producer (x :: q) x q :=
  .mk [] q x fun _ hy => (List.not_mem_nil hy).elim

theorem Take.cons {y : α} (h : Take producer q x q') (hy : producer y ≠ producer x) :
    Take producer (y :: q) x (y :: q') := by
  obtain ⟨pre, post, x, first⟩ := h
  refine .mk (y :: pre) post x ?_
  intro z hz
  rcases List.mem_cons.mp hz with rfl | hz
  · exact hy
  · exact first z hz

/-- What is taken from an image was taken from the queue. -/
theorem Take.of_map {β : Type*} {f : α → β} {producer' : β → π} {y : β} {r : List β}
    (hf : ∀ x, producer' (f x) = producer x) (h : Take producer' (q.map f) y r) :
    ∃ x q', Take producer q x q' ∧ f x = y ∧ q'.map f = r := by
  generalize hq : q.map f = l at h
  cases h with
  | mk pre post _ first =>
    obtain ⟨pre₀, rest, rfl, rfl, hrest⟩ := List.map_eq_append_iff.mp hq
    obtain ⟨x, post₀, rfl, rfl, rfl⟩ := List.map_eq_cons_iff.mp hrest
    refine ⟨x, pre₀ ++ post₀, .mk pre₀ post₀ x ?_, rfl, List.map_append⟩
    intro z hz
    rw [← hf, ← hf]
    exact first (f z) (List.mem_map_of_mem hz)

variable [DecidableEq π]

/-- The elements of one producer, in order. -/
def ofProducer (producer : α → π) (p : π) (q : List α) : List α := q.filter (producer · = p)

theorem mem_ofProducer : x ∈ ofProducer producer p q ↔ x ∈ q ∧ producer x = p := by
  simp [ofProducer]

theorem ofProducer_append :
    ofProducer producer p (q ++ q') = ofProducer producer p q ++ ofProducer producer p q' :=
  List.filter_append _ _

theorem ofProducer_eq_nil (h : ∀ y ∈ q, producer y ≠ p) : ofProducer producer p q = [] := by
  apply List.filter_eq_nil_iff.mpr
  intro y hy
  simp [h y hy]

theorem ofProducer_cons_of_ne (h : producer x ≠ p) :
    ofProducer producer p (x :: q) = ofProducer producer p q := by
  simp [ofProducer, h]

theorem ofProducer_cons_of_eq (h : producer x = p) :
    ofProducer producer p (x :: q) = x :: ofProducer producer p q := by
  simp [ofProducer, h]

/-- Seen by any one producer, the taken element was the oldest. -/
theorem Take.ofProducer (h : Take producer q x q') (p : π) :
    ofProducer producer p q = ofProducer producer p (x :: q') := by
  obtain ⟨pre, post, x, first⟩ := h
  by_cases hp : producer x = p
  · have hpre : ProducerQueue.ofProducer producer p pre = [] := ofProducer_eq_nil (hp ▸ first)
    rw [ofProducer_append, ofProducer_cons_of_eq hp, ofProducer_cons_of_eq hp, ofProducer_append,
      hpre]
    rfl
  · rw [ofProducer_append, ofProducer_cons_of_ne hp, ofProducer_cons_of_ne hp, ofProducer_append]

/-- The oldest element of any producer can be taken. -/
theorem exists_take {rest : List α} (h : ofProducer producer p q = x :: rest) :
    ∃ q', Take producer q x q' := by
  induction q with
  | nil => cases h
  | cons y q ih =>
    by_cases hy : producer y = p
    · rw [ofProducer_cons_of_eq hy] at h
      obtain ⟨rfl, -⟩ := List.cons.inj h
      exact ⟨q, .head y q⟩
    · rw [ofProducer_cons_of_ne hy] at h
      obtain ⟨q', hq'⟩ := ih h
      have hx : x ∈ ofProducer producer p q := h ▸ List.mem_cons_self
      exact ⟨y :: q', hq'.cons ((mem_ofProducer.mp hx).2 ▸ hy)⟩

/-- Two queues with the same elements of each producer hold the same elements. -/
theorem perm_of_ofProducer [DecidableEq α]
    (h : ∀ p, ofProducer producer p q = ofProducer producer p q') : q.Perm q' := by
  apply List.perm_iff_count.mpr
  intro a
  have hcount : ∀ l : List α, (ofProducer producer (producer a) l).count a = l.count a := by
    intro l
    exact List.count_filter (by simp)
  rw [← hcount q, ← hcount q', h]

end ProducerQueue
