import NodesDetector.Library.Fifo
import NodesDetector.Queue.Near

/-! An implicit producer is a first-in-first-out queue: `enqueue` takes effect at the store to
`tailIndex`, a successful `dequeue` at the increment of `headIndex`. -/
namespace NodesDetector.Queue

variable {α β C : Type}

/-- The index a taker has claimed and not yet handed over. -/
def claimedIndex : Tickets.Phase → Option ℕ
  | .claimed i => some i
  | _ => none

def State.fifo (s : State α β C) : Fifo.State α C where
  queue := s.history.enqueued.drop s.history.tickets.claims
  taken c := (claimedIndex (s.history.tickets.phase c)).bind (s.history.enqueued[·]?)

def Label.visible : Label α C → Option (Fifo.Label α C)
  | .publish x => some (.push x)
  | .claim c => some (.take c)
  | .ret c result => some (.ret c result)
  | _ => none

variable [DecidableEq β] [DecidableEq C]

variable {noexceptCtor : Bool} {s t : State α β C} {a : Label α C} {as : List (Label α C)} {c : C}

omit [DecidableEq β] in
/-- A consumer that neither claims nor returns leaves everyone's hand as it is. -/
theorem fifo_eq {p : Tickets.Phase} (he : t.history.enqueued = s.history.enqueued)
    (hc : t.history.tickets.claims = s.history.tickets.claims)
    (hp : t.history.tickets.phase = Function.update s.history.tickets.phase c p)
    (hi : claimedIndex p = claimedIndex (s.history.tickets.phase c)) : t.fifo = s.fifo := by
  have htaken : ∀ c', claimedIndex (t.history.tickets.phase c') =
      claimedIndex (s.history.tickets.phase c') := by
    intro c'
    rw [hp]
    rcases eq_or_ne c' c with rfl | hne
    · rw [Function.update_self, hi]
    · rw [Function.update_of_ne hne]
  simp only [State.fifo, he, hc, htaken]

theorem fifo_step_silent (hs : Step noexceptCtor s a t) (h : Inv noexceptCtor s)
    (ha : a.visible = none) : t.fifo = s.fifo := by
  have hc := h.counters
  cases hs with
  | call | boundary | insert | insertNull | key | growFailed | grow | grown | tail | requisition
  | requisitionFailed | rewind | nullify | giveUp | link | fill | fillThrows | linkFilled
  | construct | constructThrows | start | readTail | optimistic | readHeader | readHeaderTail
  | readKey | readValue | move | destroy | recycle => rfl
  | publish | claim | ret => simp [Label.visible] at ha
  | setEmpty | setEmptyLast | unlink => simp [State.fifo]
  | readOvercommit hp =>
    have hph := hc.of_pc hp
    exact fifo_eq rfl (Tickets.State.claims_read _ _)
      (Tickets.State.phase_read hph) (by rw [hph]; rfl)
  | hopeless hp =>
    obtain ⟨n, hph, -⟩ := hc.of_pc hp
    exact fifo_eq rfl (Tickets.State.claims_leave _ _)
      (Tickets.State.phase_leave hph) (by rw [hph]; rfl)
  | count hp =>
    obtain ⟨n, hph, -⟩ := hc.of_pc hp
    exact fifo_eq rfl (Tickets.State.claims_draw _ _)
      (Tickets.State.phase_draw hph) (by rw [hph]; rfl)
  | grant hp =>
    obtain ⟨n, m, hph, -, -⟩ := hc.of_pc hp
    exact fifo_eq rfl (Tickets.State.claims_grant _ _)
      (Tickets.State.phase_grant hph) (by rw [hph]; rfl)
  | refuse hp =>
    obtain ⟨n, m, hph, -, -⟩ := hc.of_pc hp
    exact fifo_eq rfl (Tickets.State.claims_refuse _ _)
      (Tickets.State.phase_refuse hph) (by rw [hph]; rfl)
  | giveBack hp =>
    obtain ⟨m, hph⟩ := hc.of_pc hp
    exact fifo_eq rfl (Tickets.State.claims_giveBack _ _)
      (Tickets.State.phase_giveBack hph) (by rw [hph]; rfl)

omit [DecidableEq β] [DecidableEq C] in
/-- An index that was claimed was enqueued before. -/
theorem fifo_publish (hc : Counters s) (x : α) (tailIndex : Index) :
    State.fifo { s.toProducer .idle with
      tailIndex := tailIndex, history := s.history.publish x } =
      { s.fifo with queue := s.fifo.queue ++ [x] } := by
  have hle := hc.tickets.claims_le
  rw [hc.produced] at hle
  simp only [State.fifo, History.publish, Tickets.State.produce]
  rw [List.drop_append_of_le_length hle]
  congr 1
  funext c
  cases hp : s.history.tickets.phase c with
  | claimed i =>
    have hlt := hc.claimed_lt hp
    exact List.getElem?_append_left hlt
  | _ => rfl

omit [DecidableEq β] in
theorem fifo_claim (hc : Counters s) {k : ℕ} (hp : s.history.tickets.phase c = .granted k) :
    Fifo.Step s.fifo (.take c)
      (State.fifo { (s.toConsumer c (.index s.headIndex)).withTickets (·.claim c) with
        headIndex := s.headIndex + 1 }) := by
  have hlt := hc.tickets.claims_lt hp
  rw [hc.produced] at hlt
  have hnone : s.fifo.taken c = none := by simp [State.fifo, hp, claimedIndex]
  have hqueue : s.fifo.queue = s.history.enqueued[s.history.tickets.claims] ::
      s.history.enqueued.drop (s.history.tickets.claims + 1) := List.drop_eq_getElem_cons hlt
  have hstep := Fifo.Step.take hnone hqueue
  convert hstep using 1
  simp only [State.fifo, State.withTickets, State.toConsumer, Tickets.State.claim_eq hp,
    Tickets.State.goto]
  congr 1
  funext c'
  rcases eq_or_ne c' c with rfl | hne
  · simp [claimedIndex, hlt]
  · simp [Function.update_of_ne hne]

omit [DecidableEq β] in
theorem fifo_ret (h : Inv noexceptCtor s) {result : Option α} (hp : s.consumer c = .done result) :
    Fifo.Step s.fifo (.ret c result)
      (State.fifo ((s.toConsumer c .idle).withTickets (·.release c))) := by
  have hresult : s.fifo.taken c = result := by
    have hph := h.counters.of_pc hp
    cases result with
    | none =>
      have hidle : s.history.tickets.phase c = .idle := hph
      simp [State.fifo, hidle, claimedIndex]
    | some x =>
      obtain ⟨i, hi⟩ := hph
      simp only [State.fifo, hi, claimedIndex, Option.bind_some]
      exact h.contents.results c i x hi (by rw [hp]; rfl)
  have hstep := Fifo.Step.ret s.fifo c
  rw [hresult] at hstep
  convert hstep using 1
  simp only [State.fifo, State.withTickets, State.toConsumer, Tickets.State.claims_release,
    Tickets.State.phase_release (phase_of_done h.counters hp)]
  congr 1
  funext c'
  rcases eq_or_ne c' c with rfl | hne
  · simp [claimedIndex]
  · simp [Function.update_of_ne hne]

theorem fifo_step (hs : Step noexceptCtor s a t) (h : Inv noexceptCtor s) {b : Fifo.Label α C}
    (ha : a.visible = some b) : Fifo.Step s.fifo b t.fifo := by
  cases hs with
  | publish hp =>
    obtain rfl : _ = b := Option.some.inj ha
    rw [fifo_publish h.counters]
    exact .push _ _
  | claim hp =>
    obtain rfl : _ = b := Option.some.inj ha
    obtain ⟨k, hph⟩ := h.counters.of_pc hp
    exact fifo_claim h.counters hph
  | ret hp =>
    obtain rfl : _ = b := Option.some.inj ha
    exact fifo_ret h hp
  | _ => cases ha

omit [DecidableEq β] [DecidableEq C] in
theorem fifo_initial (h : Initial s) : s.fifo = .initial := by
  obtain ⟨blocks, entries, junk, rfl | rfl⟩ := h
  all_goals rfl

/-- What the callers see of a run. -/
def visible (as : List (Label α C)) : List (Fifo.Label α C) := as.filterMap Label.visible

theorem run_fifo (hi : Initial s) (h : Transition.Run (NearStep noexceptCtor) s as t) :
    Transition.Run Fifo.Step .initial (visible as) t.fifo := by
  rw [← fifo_initial hi]
  exact h.refines (fun _ _ _ hst => inv_step hst.2 hst.1)
    (fun _ _ _ _ hst hinv => fifo_step hst.2 hinv)
    (fun _ _ _ hst hinv => fifo_step_silent hst.2 hinv) (inv_initial hi)

/-- Every interleaving of one producer with any number of consumers is one of a queue: what was
enqueued has been returned once, is with one consumer or is still in line, and each consumer got
its elements in the order they were enqueued in. -/
theorem refines_fifo [Fintype C] (hi : Initial s)
    (h : Transition.Run (NearStep noexceptCtor) s as t) :
    Transition.Run Fifo.Step .initial (visible as) t.fifo ∧
      (Fifo.results (visible as) : Multiset α) + (t.fifo.inHand + t.fifo.queue) =
        Fifo.pushed (visible as) ∧
      ∀ c, (Fifo.resultsOf c (visible as)).Sublist (Fifo.pushed (visible as)) := by
  have hrun := run_fifo hi h
  exact ⟨hrun, Fifo.results_conservation hrun, Fifo.results_sublist hrun⟩

/-- The first element in is the first result. -/
theorem refines_fifo_first : ∃ u : State ℕ Unit Bool,
    Transition.Run Fifo.Step .initial [.push 7, .take true, .ret true (some 7)] u.fifo := by
  obtain ⟨t, ht, -, u, hu, -⟩ := first_run
  have hrun := run_near fresh_initial (ht.append hu) (by simp)
  exact ⟨u, (refines_fifo fresh_initial hrun).1⟩

end NodesDetector.Queue
