import NodesDetector.Library.AtomicQueue
import NodesDetector.Queue.Refinement
import NodesDetector.Queue.TryDequeue

/-! The whole queue is an atomic one: `try_dequeue` takes effect at the increment of a `headIndex`,
or where it gives up. -/
namespace NodesDetector.ConcurrentQueue

open Queue (Index circularLessThan)
open AtomicQueue (Call)

variable {π α β C : Type}

/-- No consumer of any producer lags behind. -/
def Near (s : State π α β C) : Prop := ∀ p, Queue.Near (s.producers p)

structure Inv (noexceptCtor : Bool) (s : State π α β C) : Prop where
  producers : ∀ p, Queue.Inv noexceptCtor (s.producers p)
  /-- a consumer is in one `dequeue` at most -/
  outside : ∀ p c, (s.consumer c).inside ≠ some p → (s.producers p).consumer c = .idle

/-- What a call amounts to, with what its consumer has in hand at each producer. -/
def Pc.status (taken : π → Option α) : Pc π α → Call α
  | .idle => .idle
  | .best p | .other p _ => (taken p).elim .called fun x => .holds (some x)
  | .done result => .holds result
  | .load | .scan _ _ _ _ | .size _ _ _ _ _ | .reload _ | .loop _ _ => .called

def State.status (s : State π α β C) (c : C) : Call α :=
  (s.consumer c).status fun p => (s.producers p).fifo.taken c

/-- The steps of a call that neither begin nor decide nor end it, and all steps of producers. -/
def Label.Quiet : Label π α C → Prop
  | .add _ | .producer _ _ | .consumer _ => True
  | .start _ | .claim _ | .miss _ | .ret _ _ => False

def Label.visible : Label π α C → Option (AtomicQueue.Label π α C)
  | .producer p (.publish x) => some (.push p x)
  | .start c => some (.start c)
  | .ret c result => some (.ret c result)
  | .add _ | .producer _ _ | .consumer _ | .claim _ | .miss _ => none

/-- What the callers see of a run. -/
def visible (as : List (Label π α C)) : List (AtomicQueue.Label π α C) :=
  as.filterMap Label.visible

/-- What is pushed in a step. -/
def Label.pushed : Label π α C → List (π × α)
  | .producer p a => (a.visible.bind Fifo.Label.pushed).toList.map (p, ·)
  | .add _ | .start _ | .consumer _ | .claim _ | .miss _ | .ret _ _ => []

/-! ### What a step leaves alone -/

section

variable [DecidableEq β] [DecidableEq C] {noexceptCtor : Bool} {s t : Queue.State α β C}
  {a : Queue.Label α C} {c : C}

theorem consumer_of_enqueues (hs : Queue.Step noexceptCtor s a t) (ha : Enqueues a) :
    t.consumer = s.consumer := by
  cases hs with
  | start | readTail | readOvercommit | optimistic | hopeless | count | grant | refuse | giveBack
  | claim | readHeader | readHeaderTail | readKey | readValue | move | destroy | setEmpty
  | setEmptyLast | unlink | recycle | ret => exact ha.elim
  | _ => rfl

/-- The consumer that takes a step of `dequeue`. -/
def dequeuer : Queue.Label α C → Option C
  | .start c | .consumer c | .claim c | .ret c _ => some c
  | .call _ | .publish _ | .producer => none

theorem consumer_of_ne (hs : Queue.Step noexceptCtor s a t) (ha : dequeuer a = some c) {c' : C}
    (hne : c' ≠ c) : t.consumer c' = s.consumer c' := by
  cases hs with
  | call | boundary | insert | insertNull | key | growFailed | grow | grown | tail | requisition
  | requisitionFailed | rewind | nullify | giveUp | link | fill | fillThrows | linkFilled
  | construct | constructThrows | publish => cases ha
  | _ =>
    obtain rfl := Option.some.inj ha
    exact Function.update_of_ne hne _ _

theorem idle_of_ret {result : Option α} (hs : Queue.Step noexceptCtor s (.ret c result) t) :
    t.consumer c = .idle := by
  cases hs with
  | ret hc => exact Function.update_self _ _ _

/-- The result is what the consumer had in hand. -/
theorem taken_of_ret {result : Option α} (hs : Queue.Step noexceptCtor s (.ret c result) t)
    (h : Queue.Inv noexceptCtor s) : s.fifo.taken c = result := by
  have hf := Queue.fifo_step hs h rfl
  generalize s.fifo = f, t.fifo = g, hl : Fifo.Label.ret c result = l at hf ⊢
  cases hf with
  | push | take => cases hl
  | ret c' =>
    obtain ⟨rfl, hr⟩ := Fifo.Label.ret.inj hl
    exact hr.symm

/-- The producer's steps leave what the consumers have in hand. -/
theorem fifo_of_enqueues (hs : Queue.Step noexceptCtor s a t) (h : Queue.Inv noexceptCtor s)
    (ha : Enqueues a) :
    t.fifo.taken = s.fifo.taken ∧
      t.fifo.queue = s.fifo.queue ++ (a.visible.bind Fifo.Label.pushed).toList := by
  cases ha' : a with
  | publish x =>
    have hf := Queue.fifo_step hs h (b := .push x) (by rw [ha']; rfl)
    generalize t.fifo = f at hf ⊢
    cases hf with
    | push => exact ⟨rfl, rfl⟩
  | call | producer =>
    have hf := Queue.fifo_step_silent hs h (by rw [ha']; rfl)
    simp [hf, Queue.Label.visible]
  | start | claim | consumer | ret =>
    rw [ha'] at ha
    exact ha.elim

/-- What the steps of one consumer do to everybody's hand and to the queue. -/
theorem fifo_of_dequeuer (hs : Queue.Step noexceptCtor s a t) (h : Queue.Inv noexceptCtor s)
    (ha : dequeuer a = some c) :
    (∀ c', c' ≠ c → t.fifo.taken c' = s.fifo.taken c') ∧
      (a ≠ .claim c → t.fifo.queue = s.fifo.queue) := by
  have hsilent : a.visible = none →
      (∀ c', c' ≠ c → t.fifo.taken c' = s.fifo.taken c') ∧
        (a ≠ .claim c → t.fifo.queue = s.fifo.queue) := by
    intro hv
    rw [Queue.fifo_step_silent hs h hv]
    exact ⟨fun _ _ => rfl, fun _ => rfl⟩
  cases ha' : a with
  | start c' | consumer c' =>
    rw [← ha']
    exact hsilent (by rw [ha']; rfl)
  | claim c' =>
    subst ha'
    obtain rfl := Option.some.inj ha
    have hf := Queue.fifo_step hs h rfl
    generalize s.fifo = f, t.fifo = g at hf ⊢
    cases hf with
    | take => exact ⟨fun c hne => Function.update_of_ne hne _ _, fun hno => (hno rfl).elim⟩
  | ret c' result =>
    subst ha'
    obtain rfl := Option.some.inj ha
    have hf := Queue.fifo_step hs h rfl
    generalize s.fifo = f, t.fifo = g at hf ⊢
    cases hf with
    | ret => exact ⟨fun c hne => Function.update_of_ne hne _ _, fun _ => rfl⟩
  | call | publish | producer =>
    rw [ha'] at ha
    cases ha

end

section

variable {s : Queue.State α β C} {c : C}

/-- Outside of `dequeue` nobody has anything in hand. -/
theorem taken_of_idle (h : Queue.Counters s) (hc : s.consumer c = .idle) :
    s.fifo.taken c = none := by
  have hp : s.history.tickets.phase c = .idle := h.of_pc hc
  simp [Queue.State.fifo, hp, Queue.claimedIndex]

end

variable [DecidableEq π] [DecidableEq β] [DecidableEq C]

/-! ### The invariant -/

variable {noexceptCtor : Bool} {s t : State π α β C} {a : Label π α C} {c : C} {p : π}

omit [DecidableEq π] [DecidableEq β] [DecidableEq C] in
theorem inv_initial (h : Initial s) : Inv noexceptCtor s := by
  obtain ⟨-, -, hp, -⟩ := h
  refine ⟨fun p => Queue.inv_initial (hp p), ?_⟩
  intro p c _
  obtain ⟨blocks, entries, junk, he | he⟩ := hp p
  all_goals rw [he]

/-- Consumer `c` goes to `pc` and takes a step in the `dequeue` of `p`. -/
theorem Inv.dequeue (pc : Pc π α) {b : Queue.Label α C} {u : Queue.State α β C}
    (h : Inv noexceptCtor s) (hn : Queue.Near (s.producers p))
    (hs : Queue.Step noexceptCtor (s.producers p) b u) (hb : dequeuer b = some c)
    (hin : ∀ q, q ≠ p → (s.consumer c).inside ≠ some q)
    (hu : pc.inside ≠ some p → u.consumer c = .idle) :
    Inv noexceptCtor ((s.toConsumer c pc).setProducer p u) := by
  refine ⟨?_, ?_⟩
  · intro q
    rcases eq_or_ne q p with rfl | hne
    · simpa [State.setProducer, State.toConsumer] using Queue.inv_step hs hn (h.producers q)
    · simpa [State.setProducer, State.toConsumer, Function.update_of_ne hne] using h.producers q
  · intro q c' hc'
    rcases eq_or_ne q p with rfl | hne
    · simp only [State.setProducer, State.toConsumer, Function.update_self] at hc' ⊢
      rcases eq_or_ne c' c with rfl | hcc
      · exact hu (by simpa using hc')
      · rw [consumer_of_ne hs hb hcc]
        exact h.outside q c' (by simpa [Function.update_of_ne hcc] using hc')
    · simp only [State.setProducer, State.toConsumer, Function.update_of_ne hne] at hc' ⊢
      rcases eq_or_ne c' c with rfl | hcc
      · exact h.outside q c' (hin q hne)
      · exact h.outside q c' (by simpa [Function.update_of_ne hcc] using hc')

omit [DecidableEq π] [DecidableEq β] in
/-- Consumer `c` moves outside of any `dequeue`. -/
theorem Inv.move {pc : Pc π α} (h : Inv noexceptCtor s) (hc : (s.consumer c).inside = none) :
    Inv noexceptCtor (s.toConsumer c pc) := by
  refine ⟨h.producers, ?_⟩
  intro q c' hc'
  rcases eq_or_ne c' c with rfl | hcc
  · exact h.outside q c' (by simp [hc])
  · exact h.outside q c' (by simpa [State.toConsumer, Function.update_of_ne hcc] using hc')

/-- Every step keeps the invariant. -/
theorem inv_step (hs : Step noexceptCtor s a t) (hn : Near s) (h : Inv noexceptCtor s) :
    Inv noexceptCtor t := by
  cases hs with
  | create | link | retry => exact ⟨h.producers, h.outside⟩
  | @produce p b u hp hb hs =>
    refine ⟨?_, ?_⟩
    · intro q
      rcases eq_or_ne q p with rfl | hne
      · simpa [State.setProducer] using Queue.inv_step hs (hn q) (h.producers q)
      · simpa [State.setProducer, Function.update_of_ne hne] using h.producers q
    · intro q c hc
      rcases eq_or_ne q p with rfl | hne
      · simpa [State.setProducer, consumer_of_enqueues hs hb] using h.outside q c hc
      · simpa [State.setProducer, Function.update_of_ne hne] using h.outside q c hc
  | start hc | load hc | sizeTail hc | sizeHead hc | allEmpty hc | reload hc | skip hc
  | allTried hc | ret hc => exact h.move (by rw [hc]; rfl)
  | callBest hc hend hpos hs | callOther hc hne hs =>
    exact h.dequeue _ (hn _) hs rfl (by simp [hc, Pc.inside]) (by simp [Pc.inside])
  | @dequeue c p u hc hs | @claim c p u hc hs =>
    have hstep := h.dequeue (s.consumer c) (hn p) hs rfl (by simp [hc, eq_comm])
      fun hno => (hno hc).elim
    rwa [State.toConsumer, Function.update_eq_self] at hstep
  | success hc hs =>
    exact h.dequeue _ (hn _) hs rfl (by simp [hc, eq_comm]) fun _ => idle_of_ret hs
  | bestFailed hc hs | otherFailed hc hs =>
    exact h.dequeue _ (hn _) hs rfl (by simp [hc, Pc.inside, eq_comm]) fun _ => idle_of_ret hs

/-- Seen by one producer, a step is one of its own or none. -/
theorem producer_step (hs : Step noexceptCtor s a t) (p : π) :
    t.producers p = s.producers p ∨ ∃ b, Queue.Step noexceptCtor (s.producers p) b (t.producers p) ∧
      ((∀ c, a ≠ .claim c) → ∀ c, b ≠ .claim c) := by
  have hset : ∀ {r : State π α β C} {q b u}, r.producers = s.producers →
      Queue.Step noexceptCtor (s.producers q) b u → ((∀ c, a ≠ .claim c) → ∀ c, b ≠ .claim c) →
      (r.setProducer q u).producers p = s.producers p ∨ ∃ b,
        Queue.Step noexceptCtor (s.producers p) b ((r.setProducer q u).producers p) ∧
          ((∀ c, a ≠ .claim c) → ∀ c, b ≠ .claim c) := by
    intro r q b u hr hs hb
    rcases eq_or_ne p q with rfl | hne
    · exact .inr ⟨b, by simpa [State.setProducer] using hs, hb⟩
    · exact .inl (by simp [State.setProducer, Function.update_of_ne hne, hr])
  cases hs with
  | create | link | retry | start | load | sizeTail | sizeHead | allEmpty | reload | skip
  | allTried | ret => exact .inl rfl
  | @produce p' b u hp hb hs =>
    refine hset rfl hs fun _ c hno => ?_
    rw [hno] at hb
    exact hb
  | callBest hc hend hpos hs | callOther hc hne hs | dequeue hc hs | success hc hs
  | bestFailed hc hs | otherFailed hc hs => exact hset rfl hs (by simp)
  | claim hc hs => exact hset rfl hs fun hno => (hno _ rfl).elim

/-! ### The line -/

omit [DecidableEq β] [DecidableEq C] in
/-- Seen by any one producer, the line is what that producer's queue holds. -/
def Matches (line : List (π × α)) (s : State π α β C) : Prop :=
  ∀ p, (ProducerQueue.ofProducer Prod.fst p line).map Prod.snd = (s.producers p).fifo.queue

variable {line : List (π × α)} {x : α} {u : Queue.State α β C}

omit [DecidableEq β] [DecidableEq C] in
theorem Matches.congr (h : Matches line s) (ht : ∀ p, (t.producers p).fifo.queue =
    (s.producers p).fifo.queue) : Matches line t :=
  fun p => (h p).trans (ht p).symm

omit [DecidableEq β] [DecidableEq C] in
theorem Matches.setProducer (h : Matches line s)
    (hu : u.fifo.queue = (s.producers p).fifo.queue) : Matches line (s.setProducer p u) := by
  apply h.congr
  intro q
  rcases eq_or_ne q p with rfl | hne
  · simpa [State.setProducer] using hu
  · simp [State.setProducer, Function.update_of_ne hne]

omit [DecidableEq β] [DecidableEq C] in
theorem Matches.push (h : Matches line s)
    (hu : u.fifo.queue = (s.producers p).fifo.queue ++ [x]) :
    Matches (line ++ [(p, x)]) (s.setProducer p u) := by
  intro q
  rw [ProducerQueue.ofProducer_append, List.map_append, h q]
  rcases eq_or_ne q p with rfl | hne
  · simp [State.setProducer, hu, ProducerQueue.ofProducer]
  · simp [State.setProducer, Function.update_of_ne hne, ProducerQueue.ofProducer, hne.symm]

omit [DecidableEq β] [DecidableEq C] in
/-- The oldest element of one producer leaves the line. -/
theorem Matches.take (h : Matches line s)
    (hu : (s.producers p).fifo.queue = x :: u.fifo.queue) :
    ∃ line', ProducerQueue.Take Prod.fst line (p, x) line' ∧ Matches line' (s.setProducer p u) := by
  have hp := (h p).trans hu
  obtain ⟨⟨p', x'⟩, rest, hrest, rfl, -⟩ := List.map_eq_cons_iff.mp hp
  have hmem : (p', x') ∈ ProducerQueue.ofProducer Prod.fst p line := hrest ▸ List.mem_cons_self
  obtain rfl : p' = p := (ProducerQueue.mem_ofProducer.mp hmem).2
  obtain ⟨line', hline'⟩ := ProducerQueue.exists_take hrest
  refine ⟨line', hline', ?_⟩
  intro q
  have hq := hline'.ofProducer q
  rcases eq_or_ne q p' with rfl | hne
  · have hcons : ProducerQueue.ofProducer Prod.fst q ((q, x') :: line') =
        (q, x') :: ProducerQueue.ofProducer Prod.fst q line' :=
      ProducerQueue.ofProducer_cons_of_eq rfl
    rw [hcons] at hq
    have := h q
    rw [hq, hu, List.map_cons] at this
    simpa [State.setProducer] using (List.cons.inj this).2
  · rw [ProducerQueue.ofProducer_cons_of_ne (Ne.symm hne)] at hq
    rw [← hq, h q]
    simp [State.setProducer, Function.update_of_ne hne]

/-- Only a claim takes something out of the line. -/
theorem matches_step (hs : Step noexceptCtor s a t) (h : Inv noexceptCtor s)
    (ha : ∀ c, a ≠ .claim c) (hm : Matches line s) : Matches (line ++ a.pushed) t := by
  have hdequeue : ∀ {p c b u}, Queue.Step noexceptCtor (s.producers p) b u →
      dequeuer b = some c → b ≠ .claim c → Matches line (s.setProducer p u) := by
    intro p c b u hs hb hne
    exact hm.setProducer ((fifo_of_dequeuer hs (h.producers p) hb).2 hne)
  have hnil : line ++ [] = line := List.append_nil line
  cases hs with
  | create | link | retry | start | load | sizeTail | sizeHead | allEmpty | reload | skip
  | allTried | ret =>
    exact hnil.symm ▸ hm
  | @produce p b u hp hb hs =>
    obtain ⟨-, hqueue⟩ := fifo_of_enqueues hs (h.producers p) hb
    cases b with
    | publish x => exact hm.push hqueue
    | call | producer => exact hnil.symm ▸ hm.setProducer (hqueue.trans (List.append_nil _))
    | start | claim | consumer | ret => exact hb.elim
  | claim => exact (ha _ rfl).elim
  | callBest hc hend hpos hs | callOther hc hne hs | dequeue hc hs | success hc hs
  | bestFailed hc hs | otherFailed hc hs =>
    exact hnil.symm ▸ hdequeue hs rfl (by simp)

/-- A claim takes the oldest element of some producer. -/
theorem claim_step (hs : Step noexceptCtor s (.claim c) t) (h : Inv noexceptCtor s)
    (hm : Matches line s) :
    ∃ p x line', ProducerQueue.Take Prod.fst line (p, x) line' ∧ Matches line' t ∧
      (s.consumer c).inside = some p ∧ t.consumer = s.consumer ∧
      (s.producers p).fifo.taken c = none ∧ (t.producers p).fifo.taken c = some x ∧
      ∀ q c', q ≠ p ∨ c' ≠ c → (t.producers q).fifo.taken c' = (s.producers q).fifo.taken c' := by
  cases hs with
  | @claim c p u hc hs =>
    have hf := Queue.fifo_step hs (h.producers p) rfl
    have hothers := (fifo_of_dequeuer hs (h.producers p) rfl).1
    generalize hfs : (s.producers p).fifo = f, hfu : u.fifo = g at hf
    cases hf with
    | @take _ x q hnone hq =>
      have hqueue : (s.producers p).fifo.queue = x :: u.fifo.queue := by rw [hfs, hfu, hq]
      obtain ⟨line', hline', hm'⟩ := hm.take hqueue
      refine ⟨p, x, line', hline', hm', hc, rfl, by rw [hfs, hnone], ?_, ?_⟩
      · simp [State.setProducer, hfu]
      · intro q' c' hor
        rcases eq_or_ne q' p with rfl | hne
        · simpa [State.setProducer] using hothers c' (hor.resolve_left fun hno => hno rfl)
        · simp [State.setProducer, Function.update_of_ne hne]

/-! ### The calls -/

omit [DecidableEq π] in
theorem Pc.status_of_inside {pc : Pc π α} (taken : π → Option α) (h : pc.inside = some p) :
    pc.status taken = (taken p).elim .called fun x => .holds (some x) := by
  cases pc with
  | best | other =>
    obtain rfl := Option.some.inj h
    rfl
  | _ => cases h

omit [DecidableEq π] [DecidableEq β] in
theorem status_toConsumer (s : State π α β C) (c : C) (pc : Pc π α) :
    (s.toConsumer c pc).status =
      Function.update s.status c (pc.status fun p => (s.producers p).fifo.taken c) := by
  funext c'
  rcases eq_or_ne c' c with rfl | hne
  · simp [State.status, State.toConsumer]
  · simp [State.status, State.toConsumer, Function.update_of_ne hne]

omit [DecidableEq β] in
theorem status_setProducer {pc : Pc π α}
    (hu : ∀ c', c' ≠ c → u.fifo.taken c' = (s.producers p).fifo.taken c') :
    ((s.toConsumer c pc).setProducer p u).status = Function.update s.status c
      (pc.status fun q => ((s.setProducer p u).producers q).fifo.taken c) := by
  funext c'
  rcases eq_or_ne c' c with rfl | hne
  · simp [State.status, State.toConsumer, State.setProducer]
  · have htaken : ∀ q, ((s.setProducer p u).producers q).fifo.taken c' =
        (s.producers q).fifo.taken c' := by
      intro q
      rcases eq_or_ne q p with rfl | hq
      · simpa [State.setProducer] using hu c' hne
      · simp [State.setProducer, Function.update_of_ne hq]
    simp only [Function.update_of_ne hne, State.status, ← htaken]
    simp [State.toConsumer, State.setProducer, Function.update_of_ne hne]

/-- A quiet step changes nobody's call. -/
theorem status_step (hs : Step noexceptCtor s a t) (h : Inv noexceptCtor s) (ha : a.Quiet) :
    t.status = s.status := by
  have hmove : ∀ {c : C} {pc : Pc π α},
      pc.status (fun p => (s.producers p).fifo.taken c) = s.status c →
      (s.toConsumer c pc).status = s.status := by
    intro c pc hpc
    rw [status_toConsumer, hpc, Function.update_eq_self]
  have hdequeue : ∀ {p c b u} (pc : Pc π α), Queue.Step noexceptCtor (s.producers p) b u →
      dequeuer b = some c →
      pc.status (fun q => ((s.setProducer p u).producers q).fifo.taken c) = s.status c →
      ((s.toConsumer c pc).setProducer p u).status = s.status := by
    intro p c b u pc hs hb hpc
    rw [status_setProducer (fifo_of_dequeuer hs (h.producers p) hb).1, hpc,
      Function.update_eq_self]
  cases hs with
  | create | link | retry => rfl
  | @produce p b u hp hb hs =>
    obtain ⟨htaken, -⟩ := fifo_of_enqueues hs (h.producers p) hb
    have hall : ∀ q, ((s.setProducer p u).producers q).fifo.taken =
        (s.producers q).fifo.taken := by
      intro q
      rcases eq_or_ne q p with rfl | hq
      · simpa [State.setProducer] using htaken
      · simp [State.setProducer, Function.update_of_ne hq]
    funext c
    simp only [State.status, hall]
    rfl
  | load hc | sizeTail hc hn | reload hc | skip hc =>
    exact hmove (by simp [State.status, hc, Pc.status])
  | sizeHead hc =>
    apply hmove
    rw [State.status, hc, score]
    split_ifs <;> rfl
  | @callBest c ptr n p bestSize u hc hend hpos hs =>
    have hidle := h.outside p c (by simp [hc, Pc.inside])
    have hf := Queue.fifo_step_silent hs (h.producers p) rfl
    have hnone := taken_of_idle (h.producers p).counters hidle
    refine hdequeue _ hs rfl ?_
    simp [State.status, hc, Pc.status, State.setProducer, hf, hnone]
  | @callOther c p best u hc hne hs =>
    have hidle := h.outside p c (by simp [hc, Pc.inside])
    have hf := Queue.fifo_step_silent hs (h.producers p) rfl
    have hnone := taken_of_idle (h.producers p).counters hidle
    refine hdequeue _ hs rfl ?_
    simp [State.status, hc, Pc.status, State.setProducer, hf, hnone]
  | @dequeue c p u hc hs =>
    have hf := Queue.fifo_step_silent hs (h.producers p) rfl
    have hstep := hdequeue (s.consumer c) hs rfl ?_
    · rwa [State.toConsumer, Function.update_eq_self] at hstep
    · have hall : ∀ q, ((s.setProducer p u).producers q).fifo = (s.producers q).fifo := by
        intro q
        rcases eq_or_ne q p with rfl | hq
        · simpa [State.setProducer] using hf
        · simp [State.setProducer, Function.update_of_ne hq]
      simp only [hall]
      rfl
  | success hc hs =>
    refine hdequeue _ hs rfl ?_
    rw [State.status, Pc.status_of_inside _ hc, taken_of_ret hs (h.producers _)]
    rfl
  | bestFailed hc hs | otherFailed hc hs =>
    refine hdequeue _ hs rfl ?_
    have hin := congrArg Pc.inside hc
    rw [State.status, Pc.status_of_inside _ hin, taken_of_ret hs (h.producers _)]
    rfl
  | start | claim | allEmpty | allTried | ret => exact ha.elim

/-! ### The simulation -/

omit [DecidableEq β] [DecidableEq C] in
/-- The atomic queue has the same line, and its calls have come as far as `call` says. -/
structure Sim (s : State π α β C) (call : C → Call α) (r : AtomicQueue.State π α C) : Prop where
  line : Matches r.line s
  call : r.call = call

variable (strict : Bool) {call : C → Call α} {r : AtomicQueue.State π α C}

theorem sim_quiet (hs : Step noexceptCtor s a t) (h : Inv noexceptCtor s) (ha : a.Quiet)
    (hr : Sim s call r) :
    ∃ r', Transition.WeakRun (AtomicQueue.Step strict) r a.visible.toList r' ∧ Sim t call r' := by
  cases a with
  | add p | consumer c =>
    have hm := matches_step hs h (by simp) hr.line
    exact ⟨r, .refl, (List.append_nil r.line) ▸ hm, hr.call⟩
  | producer p b =>
    have hm := matches_step hs h (by simp) hr.line
    cases b with
    | publish x => exact ⟨_, .visible (.push r p x), hm, hr.call⟩
    | call | producer | start | claim | consumer | ret =>
      exact ⟨r, .refl, (List.append_nil r.line) ▸ hm, hr.call⟩
  | start | claim | miss | ret => exact ha.elim

/-- Every step is one of the atomic queue, a quiet one of a consumer is none. -/
theorem sim_step (hs : Step noexceptCtor s a t) (h : Inv noexceptCtor s)
    (hmiss : ∀ c, a = .miss c → strict = true → r.line = []) (hr : Sim s s.status r) :
    ∃ r', Transition.WeakRun (AtomicQueue.Step strict) r a.visible.toList r' ∧
      Sim t t.status r' := by
  have hset : ∀ {c : C} {pc : Pc π α} {call : Call α}, (∀ taken, pc.status taken = call) →
      (r.setCall c call).call = (s.toConsumer c pc).status := by
    intro c pc call hpc
    rw [status_toConsumer, hpc, ← hr.call]
    rfl
  cases a with
  | add | producer | consumer =>
    rw [status_step hs h trivial]
    exact sim_quiet strict hs h trivial hr
  | start c =>
    have hm := matches_step hs h (by simp) hr.line
    cases hs with
    | start hc =>
      have hcall : r.call c = .idle := by rw [hr.call, State.status, hc, Pc.status]
      exact ⟨_, .visible (.start hcall), (List.append_nil r.line) ▸ hm, hset fun _ => rfl⟩
  | claim c =>
    obtain ⟨p, x, line', htake, hm, hin, hcons, hnone, hsome, hothers⟩ := claim_step hs h hr.line
    have hcall : r.call c = .called := by
      rw [hr.call, State.status, Pc.status_of_inside _ hin, hnone]
      rfl
    refine ⟨_, .silent (.take hcall htake), hm, ?_⟩
    funext c'
    simp only [AtomicQueue.State.setCall, hr.call]
    rcases eq_or_ne c' c with rfl | hne
    · rw [Function.update_self, State.status, hcons, Pc.status_of_inside _ hin, hsome]
      rfl
    · simp only [Function.update_of_ne hne, State.status, hcons]
      congr 1
      funext q
      exact (hothers q c' (.inr hne)).symm
  | miss c =>
    have hm := matches_step hs h (by simp) hr.line
    cases hs with
    | allEmpty hc | allTried hc =>
      have hcall : r.call c = .called := by rw [hr.call, State.status, hc, Pc.status]
      exact ⟨_, .silent (.miss hcall (hmiss c rfl)), (List.append_nil r.line) ▸ hm,
        hset fun _ => rfl⟩
  | ret c result =>
    have hm := matches_step hs h (by simp) hr.line
    cases hs with
    | ret hc =>
      have hcall : r.call c = .holds result := by rw [hr.call, State.status, hc, Pc.status]
      exact ⟨_, .visible (.ret hcall), (List.append_nil r.line) ▸ hm, hset fun _ => rfl⟩

omit [DecidableEq β] [DecidableEq C] in
theorem sim_initial (h : Initial s) : Sim s s.status (AtomicQueue.State.initial) := by
  obtain ⟨-, -, hp, hc⟩ := h
  refine ⟨?_, ?_⟩
  · intro p
    rw [Queue.fifo_initial (hp p)]
    rfl
  · funext c
    rw [State.status, hc c]
    rfl

/-- A step while no consumer lags behind. -/
def NearStep (noexceptCtor : Bool) (s : State π α β C) (a : Label π α C) (t : State π α β C) :
    Prop := Near s ∧ Step noexceptCtor s a t

variable {as : List (Label π α C)}

theorem run_sim (h : Transition.Run (NearStep noexceptCtor) s as t) (hi : Inv noexceptCtor s)
    (hr : Sim s s.status r) : ∃ r',
      Transition.WeakRun (AtomicQueue.Step false) r (visible as) r' ∧ Sim t t.status r' := by
  induction h generalizing r with
  | refl => exact ⟨r, .refl, hr⟩
  | @stepL s u t a as hst _ ih =>
    obtain ⟨hn, hs⟩ := hst
    obtain ⟨v, hv, hsim⟩ := sim_step false hs hi (by simp) hr
    obtain ⟨w, hw, hsim'⟩ := ih (inv_step hs hn hi) hsim
    refine ⟨w, ?_, hsim'⟩
    have := hv.append hw
    rw [visible, Fifo.filterMap_cons_toList]
    exact this

/-! ### Short runs -/

omit [DecidableEq π] [DecidableEq β] [DecidableEq C] in
theorem near_of_le (h : Inv noexceptCtor s)
    (ht : ∀ p, (s.producers p).history.tickets.tickets ≤ 2 ^ 63)
    (he : ∀ p, (s.producers p).history.enqueued.length ≤ 2 ^ 63) : Near s :=
  fun p => Queue.near_of_le (h.producers p).counters (ht p) (he p)

theorem run_near_of_length (h : Transition.Run (Step noexceptCtor) s as t)
    (hi : Inv noexceptCtor s)
    (ht : ∀ p, (s.producers p).history.tickets.tickets + as.length ≤ 2 ^ 63)
    (he : ∀ p, (s.producers p).history.enqueued.length + as.length ≤ 2 ^ 63) :
    Transition.Run (NearStep noexceptCtor) s as t := by
  induction h with
  | refl => exact .refl
  | @stepL s u t a as hs _ ih =>
    simp only [List.length_cons] at ht he
    have hn : Near s := near_of_le hi (fun p => by have := ht p; omega) fun p => by
      have := he p
      omega
    refine .stepL ⟨hn, hs⟩ (ih (inv_step hs hn hi) ?_ ?_)
    all_goals
      intro p
      have := ht p
      have := he p
      rcases producer_step hs p with heq | ⟨b, hb, -⟩
      · rw [heq]
        omega
      · have := Queue.tickets_step hb
        have := Queue.enqueued_step hb
        omega

/-- 2^63 steps are not enough to lag behind. -/
theorem run_near (hi : Initial s) (h : Transition.Run (Step noexceptCtor) s as t)
    (hlen : as.length ≤ 2 ^ 63) : Transition.Run (NearStep noexceptCtor) s as t := by
  refine run_near_of_length h (inv_initial hi) ?_ ?_
  all_goals
    intro p
    obtain ⟨ht, he⟩ := Queue.initial_counts (hi.2.2.1 p)
    omega

/-- Every interleaving of the producers with any number of consumers looks as if each `try_dequeue`
had taken effect at one moment: what was enqueued has been returned once, is with one consumer or
is still in line. -/
theorem try_dequeue_atomic [Fintype C] (hi : Initial s)
    (h : Transition.Run (NearStep noexceptCtor) s as t) :
    ∃ r, Transition.WeakRun (AtomicQueue.Step false) .initial (visible as) r ∧
      Sim t t.status r ∧
      (AtomicQueue.results (visible as) : Multiset α) + (r.inHand + r.inLine) =
        (AtomicQueue.pushed (visible as) : List α) := by
  obtain ⟨r, hr, hsim⟩ := run_sim h (inv_initial hi) (sim_initial hi)
  exact ⟨r, hr, hsim, AtomicQueue.conservation hr⟩

/-! ### A first element -/

/-- No producer is listed yet. -/
def fresh : State π α β C where
  producerListTail := none
  next _ := none
  listing _ := .absent
  producers _ := ⟨0, 0, 0, 0, none,
    .newBlockIndex ⟨[], fun _ => ⟨0, none⟩, 0, Queue.initialIndexSize⟩ fun _ => none,
    fun _ => ⟨fun _ => none, 0⟩, ∅, .idle, fun _ => .idle,
    ⟨[], .initial, ∅, fun _ => none, fun _ => 0, fun _ => 0⟩⟩
  consumer _ := .idle

omit [DecidableEq π] [DecidableEq β] [DecidableEq C] in
theorem fresh_initial : Initial (fresh : State π α β C) :=
  ⟨rfl, fun _ => rfl, fun _ => ⟨_, _, _, .inr rfl⟩, fun _ => rfl⟩

/-- The producer is listed and enqueues an element. -/
def firstEnqueue : List (Label Unit ℕ Unit) :=
  [.add (), .add (), .producer () (.call 7)] ++
    List.replicate 7 (.producer () .producer) ++ [.producer () (.publish 7), .start ()]

/-- `try_dequeue` finds it. -/
def firstDequeue : List (Label Unit ℕ Unit) :=
  List.replicate 9 (.consumer ()) ++ [.claim ()] ++ List.replicate 8 (.consumer ()) ++
    [.ret () (some 7)]

theorem first_run : ∃ t : State Unit ℕ Unit Unit, Transition.Run (Step true) fresh firstEnqueue t ∧
    ∃ u, Transition.Run (Step true) t firstDequeue u ∧ True := by
  have hd : ∀ {t : Queue.State ℕ Unit Unit} {s : State Unit ℕ Unit Unit} (q b : Unit),
      b ∈ t.owned → b ∈ (s.producers q).owned → q = () := fun _ _ _ _ => rfl
  apply Transition.Run.exists_stepL (.create (p := ()) rfl)
  apply Transition.Run.exists_stepL (.link (p := ()) rfl rfl)
  apply Transition.Run.exists_stepL (.produce rfl trivial (.call 7 rfl) hd)
  apply Transition.Run.exists_stepL (.produce rfl trivial (.boundary (x := 7) rfl) hd)
  apply Transition.Run.exists_stepL (.produce rfl trivial (.insert (x := 7) rfl rfl rfl) hd)
  apply Transition.Run.exists_stepL (.produce rfl trivial (.key (x := 7) rfl) hd)
  apply Transition.Run.exists_stepL (.produce rfl trivial (.tail (x := 7) rfl) hd)
  apply Transition.Run.exists_stepL (.produce rfl trivial
    (.requisition () ⟨fun _ => none, 0⟩ (x := 7) rfl (Set.notMem_empty ())) hd)
  apply Transition.Run.exists_stepL (.produce rfl trivial (.link (x := 7) rfl rfl) hd)
  apply Transition.Run.exists_stepL (.produce rfl trivial (.construct (x := 7) rfl rfl) hd)
  apply Transition.Run.exists_stepL (.produce rfl trivial (.publish (x := 7) rfl) hd)
  apply Transition.Run.exists_stepL (.start rfl)
  refine ⟨_, .refl, ?_⟩
  apply Transition.Run.exists_stepL (.load rfl)
  apply Transition.Run.exists_stepL (.sizeTail (p := ()) rfl (by simp))
  apply Transition.Run.exists_stepL (.sizeHead rfl)
  apply Transition.Run.exists_stepL
    (.callBest (p := ()) rfl (fun h => h.2 rfl) Nat.one_pos (.start rfl))
  apply Transition.Run.exists_stepL (.dequeue rfl (.readTail rfl))
  apply Transition.Run.exists_stepL (.dequeue rfl (.readOvercommit rfl))
  apply Transition.Run.exists_stepL (.dequeue rfl (.optimistic rfl rfl))
  apply Transition.Run.exists_stepL (.dequeue rfl (.count rfl))
  apply Transition.Run.exists_stepL (.dequeue rfl (.grant rfl rfl))
  apply Transition.Run.exists_stepL (.claim rfl (.claim rfl))
  apply Transition.Run.exists_stepL (.dequeue rfl (.readHeader rfl nofun))
  apply Transition.Run.exists_stepL (.dequeue rfl (.readHeaderTail rfl rfl))
  apply Transition.Run.exists_stepL (.dequeue rfl (.readKey rfl rfl))
  apply Transition.Run.exists_stepL (.dequeue rfl (.readValue rfl rfl))
  apply Transition.Run.exists_stepL (.dequeue rfl (.move (x := 7) rfl rfl))
  apply Transition.Run.exists_stepL (.dequeue rfl (.destroy (x := 7) rfl))
  apply Transition.Run.exists_stepL (.dequeue rfl (.setEmpty (x := 7) rfl rfl))
  apply Transition.Run.exists_stepL (.success (x := 7) rfl (.ret rfl))
  apply Transition.Run.exists_stepL (.ret rfl)
  exact ⟨_, .refl, trivial⟩

theorem try_dequeue_atomic_first : ∃ r : AtomicQueue.State Unit ℕ Unit,
    Transition.WeakRun (AtomicQueue.Step false) .initial
      [.push () 7, .start (), .ret () (some 7)] r := by
  obtain ⟨t, ht, u, hu, -⟩ := first_run
  have hrun := run_near fresh_initial (ht.append hu) (by simp [firstEnqueue, firstDequeue])
  obtain ⟨r, hr, -⟩ := try_dequeue_atomic fresh_initial hrun
  exact ⟨r, hr⟩

end NodesDetector.ConcurrentQueue
