import Mathlib.Data.Fintype.Card
import NodesDetector.Queue.Progress

/-! How many steps of its own a call of `try_dequeue` takes: no more than the number of producers
allows, where a call of `add_block_to_free_list` is one step. -/
namespace NodesDetector.Queue

variable {α β C : Type}

/-- How many accesses are left at most before the consumer has its result. -/
def ConsumerPc.rank : ConsumerPc α β → ℕ
  | .idle | .done _ => 0
  | .recycle _ _ _ | .refused => 1
  | .emptied _ _ _ _ => 2
  | .destroyed _ _ _ _ => 3
  | .moved _ _ _ _ => 4
  | .block _ _ _ => 5
  | .entry _ _ => 6
  | .tail _ _ _ => 7
  | .header _ _ => 8
  | .index _ => 9
  | .granted => 10
  | .counted _ _ => 11
  | .optimistic _ => 12
  | .overcommitRead _ _ => 13
  | .tailRead _ => 14
  | .start => 15

variable [DecidableEq β] [DecidableEq C]

/-- An access that is part of `c`'s `dequeue`. -/
def Label.isConsumer (c : C) : Label α C → Bool
  | .consumer c' | .claim c' => c' = c
  | _ => false

variable {noexceptCtor : Bool} {s t : State α β C} {a : Label α C} {c : C}

omit [DecidableEq β] in
/-- `c'` makes an access of its own. -/
theorem rank_update {c' : C} {pc : ConsumerPc α β} (h : pc.rank < (s.consumer c').rank) :
    (Function.update s.consumer c' pc c).rank + (if c' = c then 1 else 0) ≤
      (s.consumer c).rank := by
  rcases eq_or_ne c' c with rfl | hne
  · rw [Function.update_self, if_pos rfl]
    exact h
  · rw [Function.update_of_ne hne.symm, if_neg hne]
    exact le_rfl

theorem consumer_rank_step (hs : Step noexceptCtor s a t) (hstart : a ≠ .start c) :
    (t.consumer c).rank + (if a.isConsumer c then 1 else 0) ≤ (s.consumer c).rank := by
  cases hs with
  | @start c' hp =>
    have hne : c ≠ c' := fun he => hstart (congrArg Label.start he.symm)
    simp [State.toConsumer, Label.isConsumer, Function.update_of_ne hne]
  | @ret c' result hp =>
    rcases eq_or_ne c c' with rfl | hne
    · simp [State.withTickets, State.toConsumer, Label.isConsumer, ConsumerPc.rank]
    · simp [State.withTickets, State.toConsumer, Label.isConsumer, Function.update_of_ne hne]
  | readTail hp | readOvercommit hp | optimistic hp | hopeless hp | count hp | grant hp | refuse hp
  | giveBack hp | claim hp | readHeader hp | readHeaderTail hp | readKey hp | readValue hp
  | move hp | destroy hp | setEmpty hp | setEmptyLast hp | unlink hp | recycle hp =>
    simp only [Label.isConsumer, decide_eq_true_eq]
    exact rank_update (by simp [hp, ConsumerPc.rank])
  | _ => exact le_rfl

end NodesDetector.Queue

namespace NodesDetector.ConcurrentQueue

open LinkedList (Chain)

variable {π α β C : Type}

/-- At most `m` producers are left from `ptr` on. -/
def Walk (s : State π α β C) (ptr : Option π) (m : ℕ) : Prop :=
  ∃ l, Chain s.next ptr l ∧ (∀ p ∈ l, s.listing p = .listed) ∧ l.length ≤ m

/-- How many accesses consumer `c` makes at most in the `dequeue` of `p`. -/
def innerRank (s : State π α β C) (c : C) (p : π) : ℕ := ((s.producers p).consumer c).rank

/-- With at most `n` producers in the list, `k` steps are enough for the rest of the call. -/
def Enough (n : ℕ) (s : State π α β C) (c : C) (k : ℕ) : Pc π α → Prop
  | .idle | .done _ => True
  | .load => 19 * n + 20 ≤ k
  | .scan ptr _ _ _ => ∃ m, Walk s ptr m ∧ 2 * m + 17 * n + 19 ≤ k
  | .size p _ _ _ _ =>
    s.listing p = .listed ∧ ∃ m, Walk s (s.next p) m ∧ 2 * m + 17 * n + 20 ≤ k
  | .best p => innerRank s c p + 17 * n + 3 ≤ k
  | .reload _ => 17 * n + 2 ≤ k
  | .loop ptr _ => ∃ m, Walk s ptr m ∧ 17 * m + 1 ≤ k
  | .other p _ =>
    s.listing p = .listed ∧ ∃ m, Walk s (s.next p) m ∧ innerRank s c p + 17 * m + 2 ≤ k

variable {s t : State π α β C} {c : C} {p : π} {n k m : ℕ}

theorem rank_le (pc : Queue.ConsumerPc α β) : pc.rank ≤ 15 := by
  cases pc <;> simp [Queue.ConsumerPc.rank]

theorem Enough.mono {pc : Pc π α} {k' : ℕ} (h : Enough n s c k pc) (hk : k ≤ k') :
    Enough n s c k' pc := by
  cases pc with
  | idle | done => trivial
  | load | best | reload => exact Nat.le_trans h hk
  | scan | loop =>
    obtain ⟨m, hm, hle⟩ := h
    exact ⟨m, hm, hle.trans hk⟩
  | size | other =>
    obtain ⟨hp, m, hm, hle⟩ := h
    exact ⟨hp, m, hm, hle.trans hk⟩

/-- The next producer, and one less behind it. -/
theorem Walk.cases (h : Walk s (some p) m) :
    s.listing p = .listed ∧ ∃ m', m = m' + 1 ∧ Walk s (s.next p) m' := by
  obtain ⟨l, hc, hl, hle⟩ := h
  cases l with
  | nil => cases hc
  | cons q l =>
    obtain ⟨he, hc⟩ := hc
    obtain rfl := Option.some.inj he
    obtain ⟨m', rfl⟩ := Nat.exists_eq_add_of_le' (Nat.succ_le_of_lt (Nat.zero_lt_of_lt hle))
    refine ⟨hl p List.mem_cons_self, m', rfl, l, hc, ?_, ?_⟩
    · exact fun q hq => hl q (List.mem_cons_of_mem p hq)
    · rw [List.length_cons] at hle
      omega

theorem Linked.walk [Fintype π] (h : Linked s) : Walk s s.producerListTail (Fintype.card π) := by
  obtain ⟨l, hc, hnodup, hl⟩ := h.chain
  exact ⟨l, hc, fun q hq => (hl q).mp hq, hnodup.length_le_card⟩

variable [DecidableEq π] [DecidableEq β] [DecidableEq C] {noexceptCtor : Bool} {a : Label π α C}

/-- A step that is part of `c`'s `try_dequeue`. -/
def Label.isConsumer (c : C) : Label π α C → Bool
  | .consumer c' | .claim c' | .miss c' => c' = c
  | .add _ | .producer _ _ | .start _ | .ret _ _ => false

theorem Walk.step {ptr : Option π} (h : Walk s ptr m) (hs : Step noexceptCtor s a t) :
    Walk t ptr m := by
  obtain ⟨l, hc, hl, hle⟩ := h
  exact ⟨l, hc.congr fun q hq => (listed_step hs (hl q hq)).2,
    fun q hq => (listed_step hs (hl q hq)).1, hle⟩

/-- What the others do does not lengthen the call. -/
theorem Enough.step {pc : Pc π α} (h : Enough n s c k pc) (hs : Step noexceptCtor s a t)
    (hinner : ∀ p, innerRank t c p ≤ innerRank s c p) : Enough n t c k pc := by
  cases pc with
  | idle | done => trivial
  | load | reload => exact h
  | best p =>
    have hle := hinner p
    simp only [Enough] at h ⊢
    omega
  | scan | loop =>
    obtain ⟨m, hm, hle⟩ := h
    exact ⟨m, hm.step hs, hle⟩
  | size p =>
    obtain ⟨hp, m, hm, hle⟩ := h
    obtain ⟨hp', hnext⟩ := listed_step hs hp
    refine ⟨hp', m, ?_, hle⟩
    rw [hnext]
    exact hm.step hs
  | other p =>
    obtain ⟨hp, m, hm, hle⟩ := h
    obtain ⟨hp', hnext⟩ := listed_step hs hp
    have hle' := hinner p
    refine ⟨hp', m, ?_, by omega⟩
    rw [hnext]
    exact hm.step hs

/-- A consumer is where the others left it. -/
theorem consumer_of_not_by (hs : Step noexceptCtor s a t) (ha : ¬ a.By c) :
    t.consumer c = s.consumer c ∧ ∀ p, (t.producers p).consumer c = (s.producers p).consumer c := by
  have hdequeue : ∀ {c' p b} {u : Queue.State α β C},
      Queue.Step noexceptCtor (s.producers p) b u → dequeuer b = some c' → c' ≠ c →
      ∀ q, (Function.update s.producers p u q).consumer c = (s.producers q).consumer c := by
    intro c' p b u hs hb hne q
    rcases eq_or_ne q p with rfl | hq
    · rw [Function.update_self, consumer_of_ne hs hb hne.symm]
    · rw [Function.update_of_ne hq]
  cases hs with
  | create | link | retry => exact ⟨rfl, fun _ => rfl⟩
  | @produce p b u hp hb hs =>
    refine ⟨rfl, fun q => ?_⟩
    rcases eq_or_ne q p with rfl | hq
    · simp [State.setProducer, consumer_of_enqueues hs hb]
    · simp [State.setProducer, Function.update_of_ne hq]
  | @start c' | @load c' | @sizeTail c' | @sizeHead c' | @allEmpty c' | @reload c' | @skip c'
  | @allTried c' | @ret c' =>
    have hne : c' ≠ c := ha
    exact ⟨Function.update_of_ne hne.symm _ _, fun _ => rfl⟩
  | @callBest c' ptr n p bestSize u hc hend hpos hs | @callOther c' p best u hc hno hs
  | @success c' p x u hc hs | @bestFailed c' p u hc hs | @otherFailed c' p best u hc hs =>
    have hne : c' ≠ c := ha
    exact ⟨Function.update_of_ne hne.symm _ _, hdequeue hs rfl hne⟩
  | @dequeue c' p u hc hs | @claim c' p u hc hs =>
    have hne : c' ≠ c := ha
    exact ⟨rfl, hdequeue hs rfl hne⟩

/-- A step of `c`'s `dequeue` is one access less. -/
theorem innerRank_step {b : Queue.Label α C} {u : Queue.State α β C}
    (hs : Queue.Step noexceptCtor (s.producers p) b u) (hb : b.isConsumer c = true)
    (hstart : b ≠ .start c) : innerRank (s.setProducer p u) c p + 1 ≤ innerRank s c p := by
  have hrank := Queue.consumer_rank_step hs hstart
  rw [if_pos hb] at hrank
  simpa [innerRank, State.setProducer] using hrank

/-- The steps of `c` use up what is left. -/
theorem enough_own_step [Fintype π] (hs : Step noexceptCtor s a t) (hl : Linked s)
    (hby : a.isConsumer c = true) (h : Enough (Fintype.card π) s c k (s.consumer c)) :
    ∃ k', Enough (Fintype.card π) t c k' (t.consumer c) ∧ k' + 1 ≤ k := by
  have hwalk : ∀ {ptr m}, Walk s ptr m → Walk t ptr m := fun hw => hw.step hs
  cases hs with
  | create | link | retry | produce | start | ret => cases hby
  | @load c' hc =>
    obtain rfl := of_decide_eq_true hby
    rw [hc] at h
    refine ⟨19 * Fintype.card π + 19, ?_, h⟩
    simp only [State.toConsumer, Function.update_self]
    exact ⟨Fintype.card π, hl.walk, by omega⟩
  | @sizeTail c' p n best bestSize hc hn =>
    obtain rfl := of_decide_eq_true hby
    rw [hc] at h
    obtain ⟨m, hm, hle⟩ := h
    obtain ⟨hp, m', rfl, hm'⟩ := hm.cases
    refine ⟨2 * m' + 17 * Fintype.card π + 20, ?_, by omega⟩
    simp only [State.toConsumer, Function.update_self]
    exact ⟨hp, m', hm', le_rfl⟩
  | @sizeHead c' p tail n best bestSize hc =>
    obtain rfl := of_decide_eq_true hby
    rw [hc] at h
    obtain ⟨hp, m, hm, hle⟩ := h
    refine ⟨2 * m + 17 * Fintype.card π + 19, ?_, hle⟩
    simp only [State.toConsumer, Function.update_self, score]
    split_ifs <;> exact ⟨m, hm, le_rfl⟩
  | @allEmpty c' best bestSize hc =>
    obtain rfl := of_decide_eq_true hby
    rw [hc] at h
    obtain ⟨m, hm, hle⟩ := h
    refine ⟨0, ?_, by omega⟩
    simp [State.toConsumer, Enough]
  | @callBest c' ptr n p bestSize u hc hend hpos hs =>
    obtain rfl := of_decide_eq_true hby
    rw [hc] at h
    obtain ⟨m, hm, hle⟩ := h
    refine ⟨17 * Fintype.card π + 18, ?_, by omega⟩
    have hrank := rank_le (u.consumer c')
    simp only [State.toConsumer, State.setProducer, Function.update_self, Enough, innerRank]
    omega
  | @dequeue c' p u hc hs | @claim c' p u hc hs =>
    obtain rfl := of_decide_eq_true hby
    have hrank := innerRank_step (c := c') hs (decide_eq_true rfl) (by simp)
    show ∃ k', Enough _ _ c' k' (s.consumer c') ∧ k' + 1 ≤ k
    cases hpc : s.consumer c' with
    | best q =>
      rw [hpc] at h hc
      obtain rfl := Option.some.inj hc
      refine ⟨k - 1, ?_, ?_⟩
      all_goals
        simp only [Enough] at h ⊢
        omega
    | other q =>
      rw [hpc] at h hc
      obtain rfl := Option.some.inj hc
      obtain ⟨hp, m, hm, hle⟩ := h
      exact ⟨k - 1, ⟨hp, m, hwalk hm, by omega⟩, by omega⟩
    | idle | load | scan | size | reload | loop | done => simp [hpc, Pc.inside] at hc
  | @success c' p x u hc hs =>
    obtain rfl := of_decide_eq_true hby
    refine ⟨0, by simp [State.toConsumer, State.setProducer, Enough], ?_⟩
    cases hpc : s.consumer c' with
    | best q =>
      rw [hpc] at h
      simp only [Enough] at h
      omega
    | other q =>
      rw [hpc] at h
      obtain ⟨hp, m, hm, hle⟩ := h
      omega
    | idle | load | scan | size | reload | loop | done => simp [hpc, Pc.inside] at hc
  | @bestFailed c' p u hc hs =>
    obtain rfl := of_decide_eq_true hby
    rw [hc] at h
    refine ⟨17 * Fintype.card π + 2, ?_, ?_⟩
    · simp [State.toConsumer, State.setProducer, Enough]
    · simp only [Enough] at h
      omega
  | @reload c' best hc =>
    obtain rfl := of_decide_eq_true hby
    rw [hc] at h
    refine ⟨17 * Fintype.card π + 1, ?_, h⟩
    simp only [State.toConsumer, Function.update_self]
    exact ⟨Fintype.card π, hl.walk, le_rfl⟩
  | @skip c' best hc =>
    obtain rfl := of_decide_eq_true hby
    rw [hc] at h
    obtain ⟨m, hm, hle⟩ := h
    obtain ⟨hp, m', rfl, hm'⟩ := hm.cases
    refine ⟨17 * m' + 1, ?_, by omega⟩
    simp only [State.toConsumer, Function.update_self]
    exact ⟨m', hm', le_rfl⟩
  | @callOther c' p best u hc hne hs =>
    obtain rfl := of_decide_eq_true hby
    rw [hc] at h
    obtain ⟨m, hm, hle⟩ := h
    obtain ⟨hp, m', rfl, hm'⟩ := hm.cases
    have hrank := rank_le (u.consumer c')
    refine ⟨17 * m' + 17, ?_, by omega⟩
    simp only [State.toConsumer, State.setProducer, Function.update_self]
    refine ⟨hp, m', hm', ?_⟩
    simp only [innerRank, Function.update_self]
    omega
  | @otherFailed c' p best u hc hs =>
    obtain rfl := of_decide_eq_true hby
    rw [hc] at h
    obtain ⟨hp, m, hm, hle⟩ := h
    refine ⟨17 * m + 1, ?_, by omega⟩
    simp only [State.toConsumer, State.setProducer, Function.update_self]
    exact ⟨m, hm, le_rfl⟩
  | @allTried c' best hc =>
    obtain rfl := of_decide_eq_true hby
    rw [hc] at h
    obtain ⟨m, hm, hle⟩ := h
    refine ⟨0, ?_, by omega⟩
    simp [State.toConsumer, Enough]

theorem enough_step [Fintype π] (hs : Step noexceptCtor s a t) (hl : Linked s)
    (ha : a ≠ .start c) (h : Enough (Fintype.card π) s c k (s.consumer c)) :
    ∃ k', Enough (Fintype.card π) t c k' (t.consumer c) ∧
      k' + (if a.isConsumer c then 1 else 0) ≤ k := by
  by_cases hown : a.isConsumer c = true
  · rw [if_pos hown]
    exact enough_own_step hs hl hown h
  · rw [if_neg hown]
    by_cases hby : a.By c
    · cases hs with
      | ret hc =>
        obtain rfl := hby
        exact ⟨k, by simp [State.toConsumer, Enough], le_rfl⟩
      | start => exact (ha (congrArg Label.start hby)).elim
      | create | link | retry | produce => exact hby.elim
      | _ => exact (hown (decide_eq_true hby)).elim
    · obtain ⟨hc, hinner⟩ := consumer_of_not_by hs hby
      rw [hc]
      exact ⟨k, h.step hs fun p => (congrArg Queue.ConsumerPc.rank (hinner p)).le, le_rfl⟩

/-- Enough for a whole call is enough at any time. -/
theorem reachable_enough [Fintype π] (h : Transition.Reachable (Step noexceptCtor) Initial s) :
    Linked s ∧ ∀ c, Enough (Fintype.card π) s c (19 * Fintype.card π + 20) (s.consumer c) := by
  refine h.invariant (I := fun s => Linked s ∧
    ∀ c, Enough (Fintype.card π) s c (19 * Fintype.card π + 20) (s.consumer c)) ?_ ?_
  · intro s hi
    refine ⟨linked_initial hi, fun c => ?_⟩
    rw [hi.2.2.2 c]
    trivial
  · rintro s a t hs ⟨hl, he⟩
    refine ⟨linked_step hs hl, fun c => ?_⟩
    by_cases ha : a = .start c
    · subst ha
      cases hs with
      | start hc => simp [State.toConsumer, Enough]
    · obtain ⟨k', hk', hle⟩ := enough_step hs hl ha (he c)
      exact hk'.mono (by omega)

/-- Of one call of `try_dequeue` there are never more than so many steps left, whatever the other
threads do, new producers among them; `add_block_to_free_list` is one step here, of however many
attempts. -/
theorem try_dequeue_bounded [Fintype π] (h : Transition.Reachable (Step noexceptCtor) Initial s)
    {as : List (Label π α C)} (hr : Transition.Run (Step noexceptCtor) s as t)
    (hstart : .start c ∉ as) :
    as.countP (Label.isConsumer c) ≤ 19 * Fintype.card π + 20 := by
  obtain ⟨hl, he⟩ := reachable_enough h
  refine hr.countP_le_of (fun s k => Linked s ∧ Enough (Fintype.card π) s c k (s.consumer c))
    (Label.isConsumer c) (· = .start c) ?_ (fun a ha hno => hstart (hno ▸ ha)) ⟨hl, he c⟩
  rintro s a t k hs ha ⟨hl, he⟩
  obtain ⟨k', hk', hle⟩ := enough_step hs hl ha he
  exact ⟨k', ⟨linked_step hs hl, hk'⟩, hle⟩

theorem try_dequeue_bounded_first : ∃ (t u : State Unit ℕ Unit Unit) (as : List _),
    Transition.Run (Step true) t as u ∧ as.length = 19 ∧
      as.countP (Label.isConsumer ()) ≤ 39 := by
  obtain ⟨t, ht, u, hu, -⟩ := first_run
  exact ⟨t, u, _, hu, rfl,
    try_dequeue_bounded ⟨_, _, fresh_initial, ht⟩ hu (by simp [firstDequeue])⟩

end NodesDetector.ConcurrentQueue
