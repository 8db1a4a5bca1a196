import NodesDetector.Queue.Linearize
import NodesDetector.Queue.ProducerList
import NodesDetector.Queue.Safety

/-! `try_dequeue` never follows a null pointer: whatever the other threads do, every thread has a
next step. -/
namespace NodesDetector.ConcurrentQueue

variable {π α β C : Type}

/-- A step of consumer `c`. -/
def Label.By (c : C) : Label π α C → Prop
  | .start c' | .consumer c' | .claim c' | .miss c' | .ret c' _ => c' = c
  | .add _ | .producer _ _ => False

/-- Where a producer was seen to have something, `best` is not null. -/
def Pc.Named : Pc π α → Prop
  | .scan _ n b bestSize | .size _ _ n b bestSize => (n = 0 → bestSize = 0) ∧ (0 < n → b ≠ none)
  | .idle | .load | .best _ | .reload _ | .loop _ _ | .other _ _ | .done _ => True

structure Sound (noexceptCtor : Bool) (s : State π α β C) : Prop where
  inv : Inv noexceptCtor s
  named : ∀ c, (s.consumer c).Named
  inner : ∀ c p, (s.consumer c).inside = some p → (s.producers p).consumer c ≠ .idle
  owner : ∀ p q b, b ∈ (s.producers p).owned → b ∈ (s.producers q).owned → q = p

/-! ### Steps of one producer -/

section

variable [DecidableEq β] [DecidableEq C] {noexceptCtor : Bool} {s t : Queue.State α β C}
  {a : Queue.Label α C} {c : C}

/-- In the middle of `dequeue` a consumer is not outside of it. -/
theorem not_idle (hs : Queue.Step noexceptCtor s a t) (ha : dequeuer a = some c)
    (hret : ∀ r, a ≠ .ret c r) : t.consumer c ≠ .idle := by
  cases hs with
  | call | boundary | insert | insertNull | key | growFailed | grow | grown | tail | requisition
  | requisitionFailed | rewind | nullify | giveUp | link | fill | fillThrows | linkFilled
  | construct | constructThrows | publish => cases ha
  | ret =>
    obtain rfl := Option.some.inj ha
    exact (hret _ rfl).elim
  | _ =>
    obtain rfl := Option.some.inj ha
    simp [Queue.State.toConsumer, Queue.State.withTickets, Queue.State.setBlock]

theorem owned_of_dequeuer (hs : Queue.Step noexceptCtor s a t) (ha : dequeuer a = some c) :
    t.owned ⊆ s.owned := by
  cases hs with
  | call | boundary | insert | insertNull | key | growFailed | grow | grown | tail | requisition
  | requisitionFailed | rewind | nullify | giveUp | link | fill | fillThrows | linkFilled
  | construct | constructThrows | publish => cases ha
  | recycle => exact Set.sdiff_subset
  | _ => exact Set.Subset.refl _

end

variable [DecidableEq π] [DecidableEq β] [DecidableEq C] {noexceptCtor : Bool}
  {s t : State π α β C} {a : Label π α C} {c : C} {p : π}

/-! ### Nothing is stuck -/

omit [DecidableEq π] [DecidableEq β] [DecidableEq C] in
theorem sound_initial (h : Initial s) : Sound noexceptCtor s := by
  have hc := h.2.2.2
  refine ⟨inv_initial h, ?_, ?_, ?_⟩
  · intro c
    rw [hc c]
    trivial
  · intro c p hin
    simp [hc, Pc.inside] at hin
  · intro p q b hb
    obtain ⟨blocks, entries, junk, he | he⟩ := h.2.2.1 p
    all_goals
      rw [he] at hb
      exact hb.elim

omit [DecidableEq π] [DecidableEq β] [DecidableEq C] in
theorem named_score (p : π) (next : Option π) (size : Queue.Index) {n : ℕ} {best : Option π}
    {bestSize : Queue.Index}
    (h : (n = 0 → bestSize = 0) ∧ (0 < n → best ≠ none)) :
    (score p next size n best bestSize : Pc π α).Named := by
  rw [score]
  split_ifs with hpos hbest
  · exact ⟨by simp, by simp⟩
  · refine ⟨by simp, fun _ => ?_⟩
    rcases Nat.eq_zero_or_pos n with hn | hn
    · exact (hbest (h.1 hn ▸ hpos)).elim
    · exact h.2 hn
  · exact h

theorem named_step (hs : Step noexceptCtor s a t) (h : ∀ c, (s.consumer c).Named) :
    ∀ c, (t.consumer c).Named := by
  have hset : ∀ {c pc}, pc.Named → ∀ c', (Function.update s.consumer c pc c').Named := by
    intro c pc hpc c'
    rcases eq_or_ne c' c with rfl | hne
    · rwa [Function.update_self]
    · rw [Function.update_of_ne hne]
      exact h c'
  cases hs with
  | create | link | retry | produce | dequeue | claim => exact h
  | start | load | allEmpty | callBest | success | bestFailed | reload | skip | callOther
  | otherFailed | allTried | ret => exact hset (by simp [Pc.Named])
  | @sizeTail c p n best bestSize hc =>
    have hnamed := h c
    rw [hc] at hnamed
    exact hset hnamed
  | @sizeHead c p tail n best bestSize hc =>
    have hnamed := h c
    rw [hc] at hnamed
    exact hset (named_score _ _ _ hnamed)

/-- Whoever is in the `dequeue` of a producer is so in that producer's view. -/
theorem inner_step (hs : Step noexceptCtor s a t)
    (h : ∀ c p, (s.consumer c).inside = some p → (s.producers p).consumer c ≠ .idle) :
    ∀ c p, (t.consumer c).inside = some p → (t.producers p).consumer c ≠ .idle := by
  have hmove : ∀ {c pc}, pc.inside = none → ∀ c' p,
      (Function.update s.consumer c pc c').inside = some p →
      (s.producers p).consumer c' ≠ .idle := by
    intro c pc hpc c' p hin
    rcases eq_or_ne c' c with rfl | hne
    · simp [hpc] at hin
    · rw [Function.update_of_ne hne] at hin
      exact h c' p hin
  have hdequeue : ∀ {c p b u} (pc : Pc π α), Queue.Step noexceptCtor (s.producers p) b u →
      dequeuer b = some c → (∀ q, pc.inside = some q → q = p ∧ ∀ r, b ≠ .ret c r) →
      ∀ c' q, (Function.update s.consumer c pc c').inside = some q →
        (Function.update s.producers p u q).consumer c' ≠ .idle := by
    intro c p b u pc hs hb hpc c' q hin
    rcases eq_or_ne c' c with rfl | hne
    · rw [Function.update_self] at hin
      obtain ⟨rfl, hret⟩ := hpc q hin
      rw [Function.update_self]
      exact not_idle hs hb hret
    · rw [Function.update_of_ne hne] at hin
      rcases eq_or_ne q p with rfl | hq
      · rw [Function.update_self, consumer_of_ne hs hb hne]
        exact h c' q hin
      · rw [Function.update_of_ne hq]
        exact h c' q hin
  cases hs with
  | create | link | retry => exact h
  | @produce p b u hp hb hs =>
    intro c q hin
    rcases eq_or_ne q p with rfl | hq
    · simpa [State.setProducer, consumer_of_enqueues hs hb] using h c q hin
    · simpa [State.setProducer, Function.update_of_ne hq] using h c q hin
  | start | load | sizeTail | allEmpty | reload | skip | allTried | ret =>
    exact hmove (by simp [Pc.inside])
  | sizeHead =>
    refine hmove ?_
    rw [score]
    split_ifs <;> rfl
  | callBest hc hend hpos hs | callOther hc hne hs =>
    exact hdequeue _ hs rfl (by simp [Pc.inside])
  | @dequeue c p u hc hs | @claim c p u hc hs =>
    have hstep := hdequeue (s.consumer c) hs rfl (by simp [hc, eq_comm])
    rwa [Function.update_eq_self] at hstep
  | success hc hs | bestFailed hc hs | otherFailed hc hs =>
    exact hdequeue _ hs rfl (by simp [Pc.inside])

/-- No block gets a second owner. -/
theorem owner_step (hs : Step noexceptCtor s a t)
    (h : ∀ p q b, b ∈ (s.producers p).owned → b ∈ (s.producers q).owned → q = p) :
    ∀ p q b, b ∈ (t.producers p).owned → b ∈ (t.producers q).owned → q = p := by
  have hset : ∀ {p : π} {u : Queue.State α β C},
      (∀ q b, b ∈ u.owned → b ∈ (s.producers q).owned → q = p) → ∀ q r b,
      b ∈ (Function.update s.producers p u q).owned →
      b ∈ (Function.update s.producers p u r).owned → r = q := by
    intro p u hu q r b hq hr
    rcases eq_or_ne q p with rfl | hqp
    · rw [Function.update_self] at hq
      rcases eq_or_ne r q with rfl | hrq
      · rfl
      · rw [Function.update_of_ne hrq] at hr
        exact hu r b hq hr
    · rw [Function.update_of_ne hqp] at hq
      rcases eq_or_ne r p with rfl | hrp
      · rw [Function.update_self] at hr
        exact (hu q b hr hq).symm
      · rw [Function.update_of_ne hrp] at hr
        exact h q r b hq hr
  have hdequeue : ∀ {c p b} {u : Queue.State α β C},
      Queue.Step noexceptCtor (s.producers p) b u → dequeuer b = some c →
      ∀ q x, x ∈ u.owned → x ∈ (s.producers q).owned → q = p :=
    fun hs hb q x hx hq => h _ q x (owned_of_dequeuer hs hb hx) hq
  cases hs with
  | create | link | retry | start | load | sizeTail | sizeHead | allEmpty | reload | skip
  | allTried | ret => exact h
  | produce hp hb hs hd => exact hset hd
  | callBest hc hend hpos hs | callOther hc hne hs | dequeue hc hs | claim hc hs | success hc hs
  | bestFailed hc hs | otherFailed hc hs => exact hset (hdequeue hs rfl)

theorem sound_step (hs : Step noexceptCtor s a t) (hn : Near s) (h : Sound noexceptCtor s) :
    Sound noexceptCtor t :=
  ⟨inv_step hs hn h.inv, named_step hs h.named, inner_step hs h.inner,
    owner_step hs h.owner⟩

/-- Inside of a `dequeue` the next step is one of it. -/
theorem Sound.inside_not_stuck (h : Sound noexceptCtor s) (hin : (s.consumer c).inside = some p) :
    ∃ a t, a.By c ∧ Step noexceptCtor s a t := by
  have hby : (Label.consumer c : Label π α C).By c := rfl
  have hclaim : (Label.claim c : Label π α C).By c := rfl
  obtain ⟨b, u, hb, hs⟩ := (h.inv.producers p).consumer_not_stuck c
  rcases hb with rfl | rfl | rfl | ⟨result, rfl⟩
  · cases hs with
    | start hidle => exact (h.inner c p hin hidle).elim
  · exact ⟨_, _, hby, .dequeue hin hs⟩
  · exact ⟨_, _, hclaim, .claim hin hs⟩
  · cases result with
    | some x => exact ⟨_, _, hby, .success hin hs⟩
    | none =>
      cases hc : s.consumer c with
      | best q =>
        rw [hc] at hin
        obtain rfl := Option.some.inj hin
        exact ⟨_, _, hby, .bestFailed hc hs⟩
      | other q =>
        rw [hc] at hin
        obtain rfl := Option.some.inj hin
        exact ⟨_, _, hby, .otherFailed hc hs⟩
      | idle | load | scan | size | reload | loop | done =>
        rw [hc] at hin
        cases hin

theorem Sound.consumer_not_stuck (h : Sound noexceptCtor s) (c : C) :
    ∃ a t, a.By c ∧ Step noexceptCtor s a t := by
  have hby : (Label.consumer c : Label π α C).By c := rfl
  have hmiss : (Label.miss c : Label π α C).By c := rfl
  have hstart : ∀ p, (s.consumer c).inside = none →
      ∃ u, Queue.Step noexceptCtor (s.producers p) (.start c) u :=
    fun p hin => ⟨_, .start (h.inv.outside p c (by simp [hin]))⟩
  cases hc : s.consumer c with
  | idle => exact ⟨.start c, _, rfl, .start hc⟩
  | load => exact ⟨_, _, hby, .load hc⟩
  | scan ptr n best bestSize =>
    have hnamed := h.named c
    rw [hc] at hnamed
    by_cases hgo : n < 3 ∧ ptr ≠ none
    · obtain ⟨p, rfl⟩ := Option.ne_none_iff_exists'.mp hgo.2
      exact ⟨_, _, hby, .sizeTail hc hgo.1⟩
    · rcases Nat.eq_zero_or_pos n with rfl | hn
      · obtain rfl : ptr = none := by
          by_contra hne
          exact hgo ⟨by simp, hne⟩
        exact ⟨_, _, hmiss, .allEmpty hc⟩
      · obtain ⟨p, rfl⟩ := Option.ne_none_iff_exists'.mp (hnamed.2 hn)
        obtain ⟨u, hu⟩ := hstart p (by rw [hc]; rfl)
        exact ⟨_, _, hby, .callBest hc hgo hn hu⟩
  | size => exact ⟨_, _, hby, .sizeHead hc⟩
  | best p | other p => exact h.inside_not_stuck (by rw [hc]; rfl)
  | reload => exact ⟨_, _, hby, .reload hc⟩
  | loop ptr best =>
    cases ptr with
    | none => exact ⟨_, _, hmiss, .allTried hc⟩
    | some p =>
      rcases eq_or_ne p best with rfl | hne
      · exact ⟨_, _, hby, .skip hc⟩
      · obtain ⟨u, hu⟩ := hstart p (by rw [hc]; rfl)
        exact ⟨_, _, hby, .callOther hc hne hu⟩
  | done result => exact ⟨.ret c result, _, rfl, .ret hc⟩

end NodesDetector.ConcurrentQueue
