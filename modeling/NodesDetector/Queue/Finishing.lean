import Mathlib.Data.Finset.Card
import Mathlib.Order.Interval.Finset.Nat
import NodesDetector.Queue.Lookup

/-! Which claimed indices are done with, and who is done with a whole block. -/
namespace NodesDetector.Queue

variable {α β C : Type}

/-- The consumer has claimed an index and not yet called `set_empty` for it. -/
def ConsumerPc.Reading : ConsumerPc α β → Prop
  | .index _ | .header _ _ | .tail _ _ _ | .entry _ _ | .block _ _ _ | .moved _ _ _ _
  | .destroyed _ _ _ _ => True
  | _ => False

/-- The consumer's `set_empty` returned true. -/
def ConsumerPc.Emptied : ConsumerPc α β → Prop
  | .emptied _ _ _ _ => True
  | _ => False

theorem ConsumerPc.inBlock_iff (pc : ConsumerPc α β) :
    pc.InBlock ↔ pc.Reading ∨ pc.Emptied := by
  cases pc <;> simp [InBlock, Reading, Emptied]

/-- The finished indices of block `n`. -/
def History.finishedIn (w : History α β C) (n : ℕ) : Finset ℕ := w.finished.filter (· / 32 = n)

structure Finishing (w : History α β C) (consumer : C → ConsumerPc α β) : Prop where
  lt : ∀ i ∈ w.finished, i < w.tickets.claims
  claimed : ∀ i, i < w.tickets.claims →
    i ∈ w.finished ∨ ∃ c, w.tickets.phase c = .claimed i ∧ (consumer c).Reading
  reading : ∀ c i, w.tickets.phase c = .claimed i → (consumer c).Reading → i ∉ w.finished
  emptied : ∀ c i, w.tickets.phase c = .claimed i → (consumer c).Emptied →
    ∀ j, j / 32 = i / 32 → j ∈ w.finished
  emptied_inj : ∀ c c' i i', w.tickets.phase c = .claimed i → w.tickets.phase c' = .claimed i' →
    (consumer c).Emptied → (consumer c').Emptied → i / 32 = i' / 32 → c = c'

variable {w w' : History α β C} {consumer consumer' : C → ConsumerPc α β} {c : C} {i n : ℕ}

theorem finishedIn_sub (w : History α β C) (n : ℕ) :
    w.finishedIn n ⊆ Finset.Ico (32 * n) (32 * n + 32) := by
  intro i hi
  have := (Finset.mem_filter.mp hi).2
  rw [Finset.mem_Ico]
  omega

theorem card_finishedIn_le (w : History α β C) (n : ℕ) : (w.finishedIn n).card ≤ 32 := by
  have := Finset.card_le_card (finishedIn_sub w n)
  rwa [Nat.card_Ico, Nat.add_sub_cancel_left] at this

/-- The counter reaches 32 only when every index of the block is finished. -/
theorem mem_finished_of_card (h : (w.finishedIn n).card = 32) (hi : i / 32 = n) :
    i ∈ w.finished := by
  have heq := Finset.eq_of_subset_of_card_le (finishedIn_sub w n) (by
    rw [h, Nat.card_Ico, Nat.add_sub_cancel_left])
  have hmem : i ∈ Finset.Ico (32 * n) (32 * n + 32) := by
    rw [Finset.mem_Ico]
    omega
  rw [← heq] at hmem
  exact (Finset.mem_filter.mp hmem).1

theorem card_finishedIn_lt (hi : i ∉ w.finished) : (w.finishedIn (i / 32)).card < 32 := by
  rcases (card_finishedIn_le w (i / 32)).lt_or_eq with hlt | heq
  · exact hlt
  · exact (hi (mem_finished_of_card heq rfl)).elim

/-- The counter of the block of a newly finished index goes up by one. -/
theorem card_finishedIn_insert (hi : i ∉ w.finished) :
    (History.finishedIn { w with finished := insert i w.finished } (i / 32)).card =
      (w.finishedIn (i / 32)).card + 1 := by
  have hnot : i ∉ w.finishedIn (i / 32) := fun hmem => hi (Finset.mem_filter.mp hmem).1
  simp only [History.finishedIn, Finset.filter_insert, if_true]
  exact Finset.card_insert_of_notMem hnot

theorem finishedIn_insert_of_ne (hn : i / 32 ≠ n) :
    History.finishedIn { w with finished := insert i w.finished } n = w.finishedIn n := by
  simp only [History.finishedIn, Finset.filter_insert, if_neg hn]

/-- The consumers that are in the middle of a dequeue stay the same. -/
theorem Finishing.of_consumer (h : Finishing w consumer) (hf : w'.finished = w.finished)
    (hc : w'.tickets.claims = w.tickets.claims)
    (hr : ∀ c i, w'.tickets.phase c = .claimed i ∧ (consumer' c).Reading ↔
      w.tickets.phase c = .claimed i ∧ (consumer c).Reading)
    (he : ∀ c i, w'.tickets.phase c = .claimed i → (consumer' c).Emptied →
      w.tickets.phase c = .claimed i ∧ (consumer c).Emptied) : Finishing w' consumer' := by
  refine ⟨?_, ?_, ?_, ?_, ?_⟩
  · rw [hf, hc]
    exact h.lt
  · intro i hi
    rw [hf]
    rcases h.claimed i (hc ▸ hi) with hfin | ⟨c, hcl⟩
    · exact .inl hfin
    · exact .inr ⟨c, (hr c i).mpr hcl⟩
  · intro c i hp hread
    rw [hf]
    obtain ⟨hp', hread'⟩ := (hr c i).mp ⟨hp, hread⟩
    exact h.reading c i hp' hread'
  · intro c i hp hem
    obtain ⟨hp', hem'⟩ := he c i hp hem
    rw [hf]
    exact h.emptied c i hp' hem'
  · intro c c' i i' hp hp' hem hem'
    obtain ⟨hp₁, hem₁⟩ := he c i hp hem
    obtain ⟨hp₂, hem₂⟩ := he c' i' hp' hem'
    exact h.emptied_inj c c' i i' hp₁ hp₂ hem₁ hem₂

theorem phase_of_done {s : State α β C} (hc : Counters s) {result : Option α}
    (hp : s.consumer c = .done result) :
    s.history.tickets.phase c = .idle ∨ ∃ i, s.history.tickets.phase c = .claimed i := by
  have hph := hc.of_pc hp
  cases result with
  | none => exact .inl hph
  | some x => exact .inr hph

variable [DecidableEq C]

/-- One consumer moves and is, as far as its index goes, where it was. -/
theorem Finishing.move {p : Tickets.Phase} {pc : ConsumerPc α β} (h : Finishing w consumer)
    (hf : w'.finished = w.finished) (hc : w'.tickets.claims = w.tickets.claims)
    (hphase : w'.tickets.phase = Function.update w.tickets.phase c p)
    (hr : ∀ i, p = .claimed i ∧ pc.Reading ↔
      w.tickets.phase c = .claimed i ∧ (consumer c).Reading) (he : ¬ pc.Emptied) :
    Finishing w' (Function.update consumer c pc) := by
  refine h.of_consumer hf hc ?_ ?_
  · intro c' i
    rw [hphase]
    rcases eq_or_ne c' c with rfl | hne
    · simpa using hr i
    · simp [Function.update_of_ne hne]
  · intro c' i
    rw [hphase]
    rcases eq_or_ne c' c with rfl | hne
    · intro _ hem
      exact (he (by simpa using hem)).elim
    · simp only [Function.update_of_ne hne]
      exact fun hp hem => ⟨hp, hem⟩

/-- One consumer moves without its ticket. -/
theorem Finishing.move_pc {pc : ConsumerPc α β} (h : Finishing w consumer)
    (hr : pc.Reading ↔ (consumer c).Reading) (he : ¬ pc.Emptied) :
    Finishing w (Function.update consumer c pc) :=
  h.move (p := w.tickets.phase c) rfl rfl (Function.update_eq_self _ _).symm
    (fun _ => and_congr_right fun _ => hr) he

/-- The index `c` claims is not finished. -/
theorem Finishing.claim {m : ℕ} (h : Finishing w consumer) (hp : w.tickets.phase c = .granted m)
    (j : Index) :
    Finishing { w with tickets := w.tickets.claim c } (Function.update consumer c (.index j)) := by
  rw [Tickets.State.claim_eq hp]
  have hne : ∀ c' i, w.tickets.phase c' = .claimed i → c' ≠ c := by
    rintro c' i hc' rfl
    rw [hp] at hc'
    cases hc'
  refine ⟨?_, ?_, ?_, ?_, ?_⟩
  · intro i hi
    exact Nat.lt_succ_of_lt (h.lt i hi)
  · intro i hi
    rcases Nat.lt_succ_iff_lt_or_eq.mp hi with hlt | rfl
    · rcases h.claimed i hlt with hf | ⟨c', hc', hr⟩
      · exact .inl hf
      · have hcc := hne c' i hc'
        exact .inr ⟨c', by simpa [Tickets.State.goto, Function.update_of_ne hcc] using hc',
          by simpa [Function.update_of_ne hcc] using hr⟩
    · exact .inr ⟨c, by simp [Tickets.State.goto], by simp [ConsumerPc.Reading]⟩
  · intro c' i hc' hr
    rcases eq_or_ne c' c with rfl | hcc
    · obtain rfl : w.tickets.claims = i := by simpa [Tickets.State.goto] using hc'
      exact fun hi => (h.lt _ hi).false
    · simp only [Tickets.State.goto, Function.update_of_ne hcc] at hc' hr
      exact h.reading c' i hc' hr
  · intro c' i hc' he
    rcases eq_or_ne c' c with rfl | hcc
    · simp [ConsumerPc.Emptied] at he
    · simp only [Tickets.State.goto, Function.update_of_ne hcc] at hc' he
      exact h.emptied c' i hc' he
  · intro c₁ c₂ i₁ i₂ h₁ h₂ he₁ he₂ hi
    rcases eq_or_ne c₁ c with rfl | hc₁
    · simp [ConsumerPc.Emptied] at he₁
    rcases eq_or_ne c₂ c with rfl | hc₂
    · simp [ConsumerPc.Emptied] at he₂
    simp only [Tickets.State.goto, Function.update_of_ne hc₁, Function.update_of_ne hc₂] at h₁ h₂
    rw [Function.update_of_ne hc₁] at he₁
    rw [Function.update_of_ne hc₂] at he₂
    exact h.emptied_inj c₁ c₂ i₁ i₂ h₁ h₂ he₁ he₂ hi

/-- `c` is done with its index; if that makes the block empty, it is the one to know. -/
theorem Finishing.finish {pc : ConsumerPc α β} (h : Finishing w consumer)
    (ht : Tickets.Inv w.tickets) (hp : w.tickets.phase c = .claimed i)
    (hread : (consumer c).Reading) (hpc : ¬ pc.Reading)
    (hem : pc.Emptied → (w.finishedIn (i / 32)).card = 31) :
    Finishing { w with finished := insert i w.finished } (Function.update consumer c pc) := by
  have hi : i ∉ w.finished := h.reading c i hp hread
  have hlt : i < w.tickets.claims := by
    have hok : Tickets.Ok w.tickets (.claimed i) := hp ▸ ht.ok c
    exact hok
  have hfull : (w.finishedIn (i / 32)).card = 31 →
      ∀ j, j / 32 = i / 32 → j ∈ insert i w.finished := by
    intro h31 j hj
    have hcard := card_finishedIn_insert hi
    rw [h31] at hcard
    exact mem_finished_of_card (w := { w with finished := insert i w.finished }) hcard hj
  -- nobody emptied the block before
  have hnone : (w.finishedIn (i / 32)).card = 31 → ∀ c' i', w.tickets.phase c' = .claimed i' →
      (consumer c').Emptied → i' / 32 ≠ i / 32 := by
    intro _ c' i' hc' he heq
    exact hi (h.emptied c' i' hc' he i heq.symm)
  refine ⟨?_, ?_, ?_, ?_, ?_⟩
  · intro j hj
    rcases Finset.mem_insert.mp hj with rfl | hj
    · exact hlt
    · exact h.lt j hj
  · intro j hj
    rcases h.claimed j hj with hf | ⟨c', hc', hr⟩
    · exact .inl (Finset.mem_insert_of_mem hf)
    · rcases eq_or_ne c' c with rfl | hcc
      · obtain rfl : i = j := by simpa [hp] using hc'
        exact .inl (Finset.mem_insert_self _ _)
      · exact .inr ⟨c', hc', by simpa [Function.update_of_ne hcc] using hr⟩
  · intro c' j hc' hr hj
    rcases eq_or_ne c' c with rfl | hcc
    · exact hpc (by simpa using hr)
    · rw [Function.update_of_ne hcc] at hr
      rcases Finset.mem_insert.mp hj with rfl | hj
      · exact hcc (ht.claimed_inj c' c j hc' hp)
      · exact h.reading c' j hc' hr hj
  · intro c' j hc' he
    rcases eq_or_ne c' c with rfl | hcc
    · rw [Function.update_self] at he
      obtain rfl : i = j := by simpa [hp] using hc'
      exact hfull (hem he)
    · rw [Function.update_of_ne hcc] at he
      intro j' hj'
      exact Finset.mem_insert_of_mem (h.emptied c' j hc' he j' hj')
  · intro c₁ c₂ i₁ i₂ h₁ h₂ he₁ he₂ heq
    rcases eq_or_ne c₁ c with hc₁ | hc₁ <;> rcases eq_or_ne c₂ c with hc₂ | hc₂
    · exact hc₁.trans hc₂.symm
    · subst hc₁
      rw [Function.update_self] at he₁
      rw [Function.update_of_ne hc₂] at he₂
      obtain rfl : i = i₁ := by simpa [hp] using h₁
      exact (hnone (hem he₁) c₂ i₂ h₂ he₂ heq.symm).elim
    · subst hc₂
      rw [Function.update_self] at he₂
      rw [Function.update_of_ne hc₁] at he₁
      obtain rfl : i = i₂ := by simpa [hp] using h₂
      exact (hnone (hem he₂) c₁ i₁ h₁ he₁ heq).elim
    · rw [Function.update_of_ne hc₁] at he₁
      rw [Function.update_of_ne hc₂] at he₂
      exact h.emptied_inj c₁ c₂ i₁ i₂ h₁ h₂ he₁ he₂ heq

/-- `set_empty` returns true at the last of the 32 indices. -/
theorem card_of_setEmpty {block : Block α} {n : ℕ}
    (hb : block.elementsCompletelyDequeued = .ofNat n) (hn : n ≤ 32)
    (h : block.setEmpty.1 = true) : n = 31 := by
  have heq : block.elementsCompletelyDequeued = blockSize - 1 := by
    simpa [Block.setEmpty] using h
  have hnat : (UInt64.ofNat n).toNat = 31 := by
    rw [← hb, heq]
    rfl
  rw [UInt64.toNat_ofNat'] at hnat
  omega

variable [DecidableEq β] {noexceptCtor : Bool} {s t : State α β C} {a : Label α C}

theorem finishing_step (hs : Step noexceptCtor s a t) (hc : Counters s)
    (hcount : ∀ c i x, s.history.tickets.phase c = .claimed i → (s.consumer c).found = some x →
      (s.consumer c).Reading →
      (s.blocks x).elementsCompletelyDequeued = .ofNat (s.history.finishedIn (i / 32)).card)
    (h : Finishing s.history s.consumer) : Finishing t.history t.consumer := by
  cases hs with
  | call | boundary | insert | insertNull | key | growFailed | grow | grown | tail | requisition
  | requisitionFailed | rewind | nullify | giveUp | link | fill | fillThrows | linkFilled
  | construct | constructThrows | publish => exact { h with }
  | start hp | readTail hp | optimistic hp =>
    exact h.move_pc (by simp [hp, ConsumerPc.Reading]) (by simp [ConsumerPc.Emptied])
  | readHeader hp | readHeaderTail hp | readKey hp | readValue hp | move hp | destroy hp =>
    exact h.move_pc (by simp [hp, ConsumerPc.Reading]) (by simp [ConsumerPc.Emptied])
  | readOvercommit hp =>
    have hph := hc.of_pc hp
    simp only [State.withTickets, State.toConsumer, Tickets.State.read_eq hph]
    exact h.move rfl rfl rfl (by simp [hp, ConsumerPc.Reading]) (by simp [ConsumerPc.Emptied])
  | hopeless hp hl =>
    obtain ⟨n, hph, -⟩ := hc.of_pc hp
    simp only [State.withTickets, State.toConsumer, Tickets.State.leave_eq hph]
    exact h.move rfl rfl rfl (by simp [hp, ConsumerPc.Reading]) (by simp [ConsumerPc.Emptied])
  | count hp =>
    obtain ⟨n, hph, -⟩ := hc.of_pc hp
    simp only [State.withTickets, State.toConsumer, Tickets.State.draw_eq hph]
    exact h.move rfl rfl rfl (by simp [hp, ConsumerPc.Reading]) (by simp [ConsumerPc.Emptied])
  | grant hp hl =>
    obtain ⟨n, k, hph, -, -⟩ := hc.of_pc hp
    simp only [State.withTickets, State.toConsumer, Tickets.State.grant_eq hph]
    exact h.move rfl rfl rfl (by simp [hp, ConsumerPc.Reading]) (by simp [ConsumerPc.Emptied])
  | refuse hp hl =>
    obtain ⟨n, k, hph, -, -⟩ := hc.of_pc hp
    simp only [State.withTickets, State.toConsumer, Tickets.State.refuse_eq hph]
    exact h.move rfl rfl rfl (by simp [hp, ConsumerPc.Reading]) (by simp [ConsumerPc.Emptied])
  | giveBack hp =>
    obtain ⟨k, hph⟩ := hc.of_pc hp
    simp only [State.withTickets, State.toConsumer, Tickets.State.giveBack_eq hph]
    exact h.move rfl rfl rfl (by simp [hp, ConsumerPc.Reading]) (by simp [ConsumerPc.Emptied])
  | claim hp =>
    obtain ⟨k, hph⟩ := hc.of_pc hp
    exact h.claim hph _
  | setEmpty hp hb =>
    obtain ⟨n, hph, -⟩ := hc.of_pc hp
    simp only [History.finish, hph]
    exact h.finish hc.tickets hph (by simp [hp, ConsumerPc.Reading]) (by simp [ConsumerPc.Reading])
      (by simp [ConsumerPc.Emptied])
  | setEmptyLast hp hb =>
    obtain ⟨n, hph, -⟩ := hc.of_pc hp
    simp only [History.finish, hph]
    have hcnt := hcount _ n _ hph (by rw [hp]; rfl) (by simp [hp, ConsumerPc.Reading])
    exact h.finish hc.tickets hph (by simp [hp, ConsumerPc.Reading]) (by simp [ConsumerPc.Reading])
      fun _ => card_of_setEmpty hcnt (card_finishedIn_le _ _) hb
  | @unlink c _ _ _ _ hp =>
    exact h.move (c := c) (p := s.history.tickets.phase c) (by simp) (by simp) (by simp)
      (by simp [hp, ConsumerPc.Reading]) (by simp [ConsumerPc.Emptied])
  | recycle hp =>
    exact h.move_pc (by simp [hp, ConsumerPc.Reading]) (by simp [ConsumerPc.Emptied])
  | ret hp =>
    have hph := phase_of_done hc hp
    exact h.move rfl (Tickets.State.claims_release _ _) (Tickets.State.phase_release hph)
      (by simp [hp, ConsumerPc.Reading]) (by simp [ConsumerPc.Emptied])

end NodesDetector.Queue
