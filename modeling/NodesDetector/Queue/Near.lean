import NodesDetector.Queue.Invariant

/-! When no consumer lags half of the index range behind: in runs of up to 2^63 steps, and always
with a single consumer. -/
namespace NodesDetector.Queue

variable {α β C : Type} [DecidableEq β] [DecidableEq C]

/-- A step while no consumer lags behind. -/
def NearStep (noexceptCtor : Bool) (s : State α β C) (a : Label α C) (t : State α β C) : Prop :=
  Near s ∧ Step noexceptCtor s a t

variable {noexceptCtor : Bool} {s t : State α β C} {a : Label α C} {as : List (Label α C)}

theorem reachable_inv (h : Transition.Reachable (NearStep noexceptCtor) Initial s) :
    Inv noexceptCtor s :=
  h.invariant (fun _ => inv_initial) fun _ _ _ hst => inv_step hst.2 hst.1

/-! ### Short runs -/

theorem tickets_step (hs : Step noexceptCtor s a t) :
    t.history.tickets.tickets ≤ s.history.tickets.tickets + 1 := by
  cases hs with
  | count => exact Tickets.State.tickets_draw_le _ _
  | readOvercommit | hopeless | grant | refuse | giveBack | claim | ret =>
    simp [State.withTickets, State.toConsumer]
  | setEmpty | setEmptyLast | unlink => simp
  | _ => exact Nat.le_succ _

theorem enqueued_step (hs : Step noexceptCtor s a t) :
    t.history.enqueued.length ≤ s.history.enqueued.length + 1 := by
  cases hs with
  | publish => exact (s.history.length_publish _).le
  | setEmpty | setEmptyLast | unlink => simp
  | _ => exact Nat.le_succ _

omit [DecidableEq β] [DecidableEq C] in
theorem near_of_le (h : Counters s) (ht : s.history.tickets.tickets ≤ 2 ^ 63)
    (he : s.history.enqueued.length ≤ 2 ^ 63) : Near s := by
  refine ⟨?_, ?_⟩
  · intro c n k hp
    obtain ⟨-, -, -, hlt⟩ : Tickets.Ok s.history.tickets (.ticket n k) := hp ▸ h.tickets.ok c
    omega
  · intro c i _
    omega

theorem run_near_of_length (h : Transition.Run (Step noexceptCtor) s as t)
    (hi : Inv noexceptCtor s) (ht : s.history.tickets.tickets + as.length ≤ 2 ^ 63)
    (he : s.history.enqueued.length + as.length ≤ 2 ^ 63) :
    Transition.Run (NearStep noexceptCtor) s as t := by
  induction h with
  | refl => exact .refl
  | @stepL s u t a as hs _ ih =>
    rw [List.length_cons] at ht he
    have hn : Near s := near_of_le hi.counters (by omega) (by omega)
    have htu := tickets_step hs
    have heu := enqueued_step hs
    exact .stepL ⟨hn, hs⟩ (ih (inv_step hs hn hi) (by omega) (by omega))

omit [DecidableEq β] [DecidableEq C] in
theorem initial_counts (h : Initial s) :
    s.history.tickets.tickets = 0 ∧ s.history.enqueued.length = 0 := by
  obtain ⟨blocks, entries, junk, rfl | rfl⟩ := h
  all_goals exact ⟨rfl, rfl⟩

/-- 2^63 steps are not enough to lag behind. -/
theorem run_near (hi : Initial s) (h : Transition.Run (Step noexceptCtor) s as t)
    (hlen : as.length ≤ 2 ^ 63) : Transition.Run (NearStep noexceptCtor) s as t := by
  obtain ⟨ht, he⟩ := initial_counts hi
  exact run_near_of_length h (inv_initial hi) (by omega) (by omega)

/-! ### A first element -/

/-- What the constructor leaves. -/
def fresh : State ℕ Unit Bool :=
  ⟨0, 0, 0, 0, none, .newBlockIndex ⟨[], fun _ => ⟨0, none⟩, 0, initialIndexSize⟩ fun _ => none,
    fun _ => ⟨fun _ => none, 0⟩, ∅, .idle, fun _ => .idle,
    ⟨[], .initial, ∅, fun _ => none, fun _ => 0, fun _ => 0⟩⟩

theorem fresh_initial : Initial fresh := ⟨_, _, _, .inr rfl⟩

/-- One element goes in, and comes out to one of two consumers. -/
theorem first_run : ∃ t,
    Transition.Run (Step true) fresh [.call 7, .producer, .producer, .producer, .producer,
      .producer, .producer, .producer, .publish 7] t ∧
    (t.producer = .idle ∧ ∀ c, t.consumer c = .idle) ∧
    ∃ u, Transition.Run (Step true) t [.start true, .consumer true, .consumer true,
      .consumer true, .consumer true, .consumer true, .claim true, .consumer true, .consumer true,
      .consumer true, .consumer true, .consumer true, .consumer true, .consumer true,
      .ret true (some 7)] u ∧ True := by
  apply Transition.Run.exists_stepL (.call 7 rfl)
  apply Transition.Run.exists_stepL (.boundary (x := 7) rfl)
  apply Transition.Run.exists_stepL (.insert (x := 7) rfl rfl rfl)
  apply Transition.Run.exists_stepL (.key (x := 7) rfl)
  apply Transition.Run.exists_stepL (.tail (x := 7) rfl)
  apply Transition.Run.exists_stepL
    (.requisition () ⟨fun _ => none, 0⟩ (x := 7) rfl (Set.notMem_empty ()))
  apply Transition.Run.exists_stepL (.link (x := 7) rfl rfl)
  apply Transition.Run.exists_stepL (.construct (x := 7) rfl rfl)
  apply Transition.Run.exists_stepL (.publish (x := 7) rfl)
  refine ⟨_, .refl, ⟨rfl, fun _ => rfl⟩, ?_⟩
  apply Transition.Run.exists_stepL (.start rfl)
  apply Transition.Run.exists_stepL (.readTail rfl)
  apply Transition.Run.exists_stepL (.readOvercommit rfl)
  apply Transition.Run.exists_stepL (.optimistic rfl rfl)
  apply Transition.Run.exists_stepL (.count rfl)
  apply Transition.Run.exists_stepL (.grant rfl rfl)
  apply Transition.Run.exists_stepL (.claim rfl)
  apply Transition.Run.exists_stepL (.readHeader rfl nofun)
  apply Transition.Run.exists_stepL (.readHeaderTail rfl rfl)
  apply Transition.Run.exists_stepL (.readKey rfl rfl)
  apply Transition.Run.exists_stepL (.readValue rfl rfl)
  apply Transition.Run.exists_stepL (.move (x := 7) rfl rfl)
  apply Transition.Run.exists_stepL (.destroy (x := 7) rfl)
  apply Transition.Run.exists_stepL (.setEmpty (x := 7) rfl rfl)
  refine Transition.Run.exists_stepL (.ret rfl) ?_
  exact ⟨_, .refl, trivial⟩

/-! ### A single consumer -/

section

variable [Subsingleton C]

theorem solo_step (hs : Step noexceptCtor s a t) (h : Tickets.Solo s.history.tickets) :
    Tickets.Solo t.history.tickets := by
  cases hs with
  | publish => exact h.produce
  | readOvercommit => exact h.read _
  | hopeless => exact h.leave _
  | count => exact h.draw _
  | grant => exact h.grant _
  | refuse => exact h.refuse _
  | giveBack => exact h.giveBack _
  | claim => exact h.claim _
  | ret => exact h.release _
  | setEmpty | setEmptyLast =>
    rw [History.finish_tickets]
    exact h
  | unlink =>
    rw [History.unlink_tickets]
    exact h
  | _ => exact h

omit [DecidableEq β] [DecidableEq C] [Subsingleton C] in
theorem near_of_solo (hi : Inv noexceptCtor s) (h : Tickets.Solo s.history.tickets) : Near s := by
  have hle := hi.counters.tickets.claims_le
  have hroom := hi.room.near
  rw [hi.counters.produced] at hle
  refine ⟨?_, ?_⟩
  · intro c n k hp
    obtain ⟨rfl, rfl, -⟩ : Tickets.Exact s.history.tickets (.ticket n k) := hp ▸ h c
    omega
  · intro c i hp
    obtain ⟨hi, -⟩ : Tickets.Exact s.history.tickets (.claimed i) := hp ▸ h c
    omega

end

end NodesDetector.Queue
