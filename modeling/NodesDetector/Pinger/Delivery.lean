import NodesDetector.Library.Client
import NodesDetector.Pinger.Conservation
import NodesDetector.Queue.SingleConsumer

/-! `HandleSend` and `PostTask` over the real queue do what they do over a plain one. -/
namespace NodesDetector.Delivery

open Transition

/-- Where the loop thread is in `HandleSend`. -/
inductive Loop
  | idle
  | test (batchNum : ℤ) (request : PingRequest)
  /-- in `try_dequeue` -/
  | trying (batchNum : ℤ)
  | send (batchNum : ℤ) (request : PingRequest)
  | done

/-- The loop thread and the `sendto` calls it has made. -/
structure Thread where
  loop : Loop
  sent : List SendTo

def Thread.initial : Thread := ⟨.idle, []⟩

variable {π β : Type}

section Model

variable (icmp : Icmp) (inetPton : String → Option UInt32)

/-- The thread, with what it calls of the queue and what is seen of it. A push is a `PostTask` of
some other thread. -/
inductive Step : Thread → Option (AtomicQueue.Label π PingRequest Unit) →
    Option (Sending.Label π) → Thread → Prop
  | post (k : Thread) (p : π) (request : PingRequest) :
      Step k (some (.push p request)) (some (.post p request true)) k
  | start {k : Thread} (hl : k.loop = .idle) :
      Step k none (some .start) { k with loop := .test 300 {} }
  | call {k : Thread} {batchNum : ℤ} {request : PingRequest} (hl : k.loop = .test batchNum request)
      (hn : batchNum > 0) :
      Step k (some (.start ())) none { k with loop := .trying (batchNum - 1) }
  | got {k : Thread} {batchNum : ℤ} {request : PingRequest} (hl : k.loop = .trying batchNum) :
      Step k (some (.ret () (some request))) none { k with loop := .send batchNum request }
  | empty {k : Thread} {batchNum : ℤ} (hl : k.loop = .trying batchNum) :
      Step k (some (.ret () none)) none { k with loop := .done }
  | full {k : Thread} {batchNum : ℤ} {request : PingRequest} (hl : k.loop = .test batchNum request)
      (hn : ¬ batchNum > 0) : Step k none (some .full) { k with loop := .done }
  | send {k : Thread} {batchNum : ℤ} {request after : PingRequest} {call : Option SendTo}
      (sockaddr : Bytes.Memory) (now : Timeval) (ok : Bool) (hl : k.loop = .send batchNum request)
      (hs : sendIcmp icmp inetPton sockaddr now request = (after, call)) :
      Step k none (some (.send ok)) ⟨.test batchNum after, k.sent ++ call.toList⟩
  | ret {k : Thread} (hl : k.loop = .done) : Step k none (some .ret) { k with loop := .idle }

/-- The queue of `concurrentqueue.h`, seen by its callers. -/
def QueueStep [DecidableEq π] [DecidableEq β] (noexceptCtor : Bool)
    (q : ConcurrentQueue.State π PingRequest β Unit)
    (a : Option (AtomicQueue.Label π PingRequest Unit))
    (q' : ConcurrentQueue.State π PingRequest β Unit) : Prop :=
  ∃ b, ConcurrentQueue.Step noexceptCtor q b q' ∧ b.visible = a

end Model

/-! ### Over an atomic queue -/

/-- The labels of `Sending` that are seen outside. -/
def observed : Sending.Label π → Bool
  | .dequeue | .empty => false
  | .post _ _ _ | .start | .full | .send _ | .ret => true

/-- Where the two models of the loop thread are. -/
def LoopOk (loop : Sending.Loop π) : Loop → AtomicQueue.Call PingRequest → Prop
  | .idle, .idle => loop = .idle
  | .test batchNum request, .idle => loop = .test batchNum request
  | .trying batchNum, .called => ∃ request, loop = .test (batchNum + 1) request ∧ batchNum + 1 > 0
  | .trying batchNum, .holds (some request) => ∃ held, loop = .send batchNum held request
  | .trying _, .holds none => loop = .done
  | .send batchNum request, .idle => ∃ held, loop = .send batchNum held request
  | .done, .idle => loop = .done
  | _, _ => False

structure Follows (k : Thread) (r : AtomicQueue.State π PingRequest Unit) (s : Sending.State π) :
    Prop where
  line : s.queue.map (fun e => (e.producer, e.request)) = r.line
  sent : s.sent.map Prod.snd = k.sent
  loop : LoopOk s.loop k.loop (r.call ())

variable {icmp : Icmp} {inetPton : String → Option UInt32} {k k' : Thread}
  {r r' : AtomicQueue.State π PingRequest Unit} {s : Sending.State π}
  {b : Option (Sending.Label π)}

/-- Outside of `try_dequeue` no call is open. -/
theorem LoopOk.call_eq {loop : Sending.Loop π} {l : Loop} {c : AtomicQueue.Call PingRequest}
    (h : LoopOk loop l c) (hl : ∀ batchNum, l ≠ .trying batchNum) : c = .idle := by
  cases l with
  | trying batchNum => exact (hl batchNum rfl).elim
  | idle | test | send | done =>
    cases c with
    | idle => rfl
    | called | holds => exact h.elim

/-- The thread goes on by itself. -/
theorem follows_own (hk : Step icmp inetPton k none b k') (h : Follows k r s) :
    ∃ as s', Run (Sending.Step icmp inetPton) s as s' ∧ as.filter observed = b.toList ∧
      Follows k' r s' := by
  have hloop := h.loop
  have hcall := hloop.call_eq (by cases hk <;> simp [*])
  rw [hcall] at hloop
  cases hk with
  | start hl =>
    rw [hl] at hloop
    exact ⟨_, _, .stepL (.start hloop) .refl, rfl, h.line, h.sent, by rw [hcall]; rfl⟩
  | full hl hn =>
    rw [hl] at hloop
    exact ⟨_, _, .stepL (.full hloop hn) .refl, rfl, h.line, h.sent, by rw [hcall]; rfl⟩
  | @send batchNum request after call sockaddr now ok hl hs =>
    rw [hl] at hloop
    obtain ⟨held, hloop⟩ := hloop
    refine ⟨_, _, .stepL (.send sockaddr now ok hloop) .refl, rfl, ?_⟩
    simp only [Sending.State.sendIcmp, hs]
    refine ⟨h.line, ?_, by rw [hcall]; rfl⟩
    simp [h.sent]
  | ret hl =>
    rw [hl] at hloop
    exact ⟨_, _, .stepL (.ret hloop) .refl, rfl, h.line, h.sent, by rw [hcall]; rfl⟩

/-- The thread and the queue take a step together. -/
theorem follows_sync {a : AtomicQueue.Label π PingRequest Unit}
    (hk : Step icmp inetPton k (some a) b k') (hr : AtomicQueue.Step true r (some a) r')
    (h : Follows k r s) :
    ∃ as s', Run (Sending.Step icmp inetPton) s as s' ∧ as.filter observed = b.toList ∧
      Follows k' r' s' := by
  have hloop := h.loop
  cases hk with
  | post p request =>
    cases hr with
    | push =>
      refine ⟨_, _, .stepL (.post s p request) .refl, rfl, ?_, h.sent, hloop⟩
      simp [Sending.State.post, h.line]
  | @call batchNum request hl hn =>
    cases hr with
    | start hc =>
      rw [hl, hc] at hloop
      refine ⟨[], s, .refl, rfl, h.line, h.sent, ?_⟩
      simp only [AtomicQueue.State.setCall, Function.update_self]
      exact ⟨request, by rw [hloop, Int.sub_add_cancel], by omega⟩
  | got hl | empty hl =>
    cases hr with
    | ret hc =>
      rw [hl, hc] at hloop
      refine ⟨[], s, .refl, rfl, h.line, h.sent, ?_⟩
      simp only [AtomicQueue.State.setCall, Function.update_self]
      exact hloop

/-- The call takes effect. -/
theorem follows_object (hr : AtomicQueue.Step true r none r') (h : Follows k r s) :
    ∃ as s', Run (Sending.Step icmp inetPton) s as s' ∧ as.filter observed = [] ∧
      Follows k r' s' := by
  have hloop := h.loop
  have htrying : ∀ {c}, r.call c = .called → ∃ batchNum request,
      k.loop = .trying batchNum ∧ s.loop = .test (batchNum + 1) request ∧ batchNum + 1 > 0 := by
    intro c hc
    rw [hc] at hloop
    cases hl : k.loop with
    | trying batchNum =>
      rw [hl] at hloop
      obtain ⟨request, hs, hn⟩ := hloop
      exact ⟨batchNum, request, rfl, hs, hn⟩
    | idle | test | send | done =>
      rw [hl] at hloop
      exact hloop.elim
  cases hr with
  | @take c p x line hc hq =>
    obtain ⟨batchNum, request, hl, hs, hn⟩ := htrying hc
    rw [← h.line] at hq
    have hposted : ∃ e queue, ProducerQueue.Take Sending.Posted.producer s.queue e queue ∧
        (e.producer, e.request) = (p, x) ∧
        queue.map (fun e => (e.producer, e.request)) = line := hq.of_map fun _ => rfl
    obtain ⟨e, queue, htake, he, hline⟩ := hposted
    refine ⟨_, _, .stepL (.dequeue hs hn htake) .refl, rfl, hline, h.sent, ?_⟩
    obtain rfl : e.request = x := congrArg Prod.snd he
    simp only [AtomicQueue.State.setCall, Function.update_self, hl]
    exact ⟨e, by rw [Int.add_sub_cancel]⟩
  | @miss c hc hq =>
    obtain ⟨batchNum, request, hl, hs, hn⟩ := htrying hc
    have hempty : s.queue = [] := List.map_eq_nil_iff.mp (h.line.trans (hq rfl))
    refine ⟨_, _, .stepL (.empty hs hn hempty) .refl, rfl, h.line, h.sent, ?_⟩
    simp only [AtomicQueue.State.setCall, Function.update_self, hl]
    rfl

/-- Over an atomic queue the thread does what `Sending` says. -/
theorem sending_of_atomic {bs : List (Sending.Label π)}
    (h : WeakRun (Client.Step (Step icmp inetPton) (AtomicQueue.Step true)) (k, r) bs (k', r'))
    (hf : Follows k r s) :
    ∃ as s', Run (Sending.Step icmp inetPton) s as s' ∧ as.filter observed = bs ∧
      Follows k' r' s' := by
  refine h.invariant (I := fun bs x => ∃ as s', Run (Sending.Step icmp inetPton) s as s' ∧
    as.filter observed = bs ∧ Follows x.1 x.2 s') ?_ ⟨[], s, .refl, rfl, hf⟩
  rintro bs x b y hs ⟨as, u, hrun, rfl, hu⟩
  have hstep : ∃ as' v, Run (Sending.Step icmp inetPton) u as' v ∧
      as'.filter observed = b.toList ∧ Follows y.1 y.2 v := by
    cases hs with
    | own hk => exact follows_own hk hu
    | sync hk hr => exact follows_sync hk hr hu
    | object hr => exact follows_object hr hu
  obtain ⟨as', v, hrun', hobs, hv⟩ := hstep
  exact ⟨as ++ as', v, hrun.append hrun', by rw [List.filter_append, hobs], hv⟩

/-! ### Over the real queue -/

variable [DecidableEq π] [DecidableEq β] {noexceptCtor : Bool}
  {q q' : ConcurrentQueue.State π PingRequest β Unit}

/-- The calls of the real queue are calls of an atomic one. -/
theorem atomic_of_queue (hq : ConcurrentQueue.Initial q)
    {as : List (AtomicQueue.Label π PingRequest Unit)}
    (h : WeakRun (QueueStep noexceptCtor) q as q') :
    ∃ r, WeakRun (AtomicQueue.Step true) .initial as r := by
  have hlin := h.invariant
    (I := fun as q => ConcurrentQueue.Linearized noexceptCtor .initial as q) ?_
    (ConcurrentQueue.linearized_initial hq)
  · obtain ⟨r, hr, -⟩ := hlin.sim
    exact ⟨r, hr⟩
  · rintro as s b t ⟨a, hs, rfl⟩ hlin
    exact ConcurrentQueue.linearized_step hs hlin

/-- `PostTask` and `HandleSend` over the lock-free queue, one access to shared memory at a time, are
seen to do what they do over a plain queue. -/
theorem handleSend_over_queue (hq : ConcurrentQueue.Initial q) {bs : List (Sending.Label π)}
    (h : WeakRun (Client.Step (Step icmp inetPton) (QueueStep noexceptCtor)) (.initial, q) bs
      (k, q')) :
    ∃ as s, Run (Sending.Step icmp inetPton) .initial as s ∧ as.filter observed = bs ∧
      s.sent.map Prod.snd = k.sent := by
  obtain ⟨r, hr⟩ := Client.replace (fun _ _ => atomic_of_queue hq) h
  have hinit : Follows (π := π) .initial .initial .initial := ⟨rfl, rfl, rfl⟩
  obtain ⟨as, s, hrun, hobs, hf⟩ := sending_of_atomic hr hinit
  exact ⟨as, s, hrun, hobs, hf.sent⟩

/-- What `SendRequest` posts first. -/
def firstRequest : PingRequest := { ip := "220.181.57.216", count := 5 }

/-- A request is posted; the callback takes it, sends it and finds the queue empty. -/
theorem first_callback : ∃ x, Run (Client.Step (Step (π := Unit) ⟨0, 4660⟩ Sending.firstAddr)
    (QueueStep (β := Unit) true)) (.initial, ConcurrentQueue.fresh)
      (List.replicate 10 none ++ [some (.post () firstRequest true), some .start] ++
        List.replicate 20 none ++ [some (.send true)] ++ List.replicate 6 none ++ [some .ret]) x ∧
      ∃ call, x.1.sent = [call] := by
  obtain ⟨call, dstIp, hcall, -⟩ :=
    sendIcmp_eq ⟨0, 4660⟩ Sending.firstAddr (fun _ => 0) ⟨5, 6⟩ firstRequest
  have hqueue : ∀ {k : Thread} {q q' : ConcurrentQueue.State Unit PingRequest Unit Unit} {b},
      ConcurrentQueue.Step true q b q' → b.visible = none →
      Client.Step (Step (π := Unit) ⟨0, 4660⟩ Sending.firstAddr) (QueueStep true) (k, q) none
        (k, q') := fun hs hb => .object ⟨_, hs, hb⟩
  have hproduce : ∀ {q : ConcurrentQueue.State Unit PingRequest Unit Unit} {u},
      q.listing () = .listed → Queue.Step true (q.producers ()) .producer u →
      ConcurrentQueue.Step true q (.producer () .producer) (q.setProducer () u) :=
    fun hl hs => .produce hl trivial hs fun _ _ _ _ => rfl
  apply Run.exists_stepL (hqueue (.create (p := ()) rfl) rfl)
  apply Run.exists_stepL (hqueue (.link (p := ()) rfl rfl) rfl)
  apply Run.exists_stepL (hqueue (.produce (p := ()) (a := .call firstRequest) rfl trivial
    (.call firstRequest rfl) fun _ _ _ _ => rfl) rfl)
  apply Run.exists_stepL (hqueue (hproduce rfl (.boundary (x := firstRequest) rfl)) rfl)
  apply Run.exists_stepL (hqueue (hproduce rfl (.insert (x := firstRequest) rfl rfl rfl)) rfl)
  apply Run.exists_stepL (hqueue (hproduce rfl (.key (x := firstRequest) rfl)) rfl)
  apply Run.exists_stepL (hqueue (hproduce rfl (.tail (x := firstRequest) rfl)) rfl)
  apply Run.exists_stepL (hqueue (hproduce rfl (.requisition () ⟨fun _ => none, 0⟩
    (x := firstRequest) rfl (Set.notMem_empty ()))) rfl)
  apply Run.exists_stepL (hqueue (hproduce rfl (.link (x := firstRequest) rfl rfl)) rfl)
  apply Run.exists_stepL (hqueue (hproduce rfl (.construct (x := firstRequest) rfl rfl)) rfl)
  apply Run.exists_stepL (.sync (.post _ () firstRequest) ⟨.producer () (.publish firstRequest),
    .produce rfl trivial (.publish rfl) fun _ _ _ _ => rfl, rfl⟩)
  apply Run.exists_stepL (.own (.start rfl))
  apply Run.exists_stepL (.sync (.call rfl (by simp)) ⟨_, .start (c := ()) rfl, rfl⟩)
  apply Run.exists_stepL (hqueue (.load (c := ()) rfl) rfl)
  apply Run.exists_stepL (hqueue (.sizeTail (c := ()) (p := ()) rfl (by simp)) rfl)
  apply Run.exists_stepL (hqueue (.sizeHead (c := ()) rfl) rfl)
  apply Run.exists_stepL (hqueue (.callBest (p := ()) rfl (fun h => h.2 rfl) Nat.one_pos
    (.start (c := ()) rfl)) rfl)
  apply Run.exists_stepL (hqueue (.dequeue rfl (.readTail (c := ()) rfl)) rfl)
  apply Run.exists_stepL (hqueue (.dequeue rfl (.readOvercommit (c := ()) rfl)) rfl)
  apply Run.exists_stepL (hqueue (.dequeue rfl (.optimistic (c := ()) rfl rfl)) rfl)
  apply Run.exists_stepL (hqueue (.dequeue rfl (.count (c := ()) rfl)) rfl)
  apply Run.exists_stepL (hqueue (.dequeue rfl (.grant (c := ()) rfl rfl)) rfl)
  apply Run.exists_stepL (hqueue (.claim rfl (.claim (c := ()) rfl)) rfl)
  apply Run.exists_stepL (hqueue (.dequeue rfl (.readHeader (c := ()) rfl (by rintro ⟨⟩))) rfl)
  apply Run.exists_stepL (hqueue (.dequeue rfl (.readHeaderTail (c := ()) rfl rfl)) rfl)
  apply Run.exists_stepL (hqueue (.dequeue rfl (.readKey (c := ()) rfl rfl)) rfl)
  apply Run.exists_stepL (hqueue (.dequeue rfl (.readValue (c := ()) rfl rfl)) rfl)
  apply Run.exists_stepL (hqueue (.dequeue rfl (.move (c := ()) (x := firstRequest) rfl rfl)) rfl)
  apply Run.exists_stepL (hqueue (.dequeue rfl (.destroy (c := ()) (x := firstRequest) rfl)) rfl)
  apply Run.exists_stepL
    (hqueue (.dequeue rfl (.setEmpty (c := ()) (x := firstRequest) rfl rfl)) rfl)
  apply Run.exists_stepL (hqueue (.success (x := firstRequest) rfl (.ret (c := ()) rfl)) rfl)
  apply Run.exists_stepL (.sync (.got rfl) ⟨_, .ret (c := ()) rfl, rfl⟩)
  apply Run.exists_stepL (.own (.send (fun _ => 0) ⟨5, 6⟩ true rfl hcall))
  apply Run.exists_stepL (.sync (.call rfl (by simp)) ⟨_, .start (c := ()) rfl, rfl⟩)
  apply Run.exists_stepL (hqueue (.load (c := ()) rfl) rfl)
  apply Run.exists_stepL (hqueue (.sizeTail (c := ()) (p := ()) rfl (by simp)) rfl)
  apply Run.exists_stepL (hqueue (.sizeHead (c := ()) rfl) rfl)
  apply Run.exists_stepL (hqueue (.allEmpty (c := ()) rfl) rfl)
  apply Run.exists_stepL (.sync (.empty rfl) ⟨_, .ret (c := ()) rfl, rfl⟩)
  apply Run.exists_stepL (.own (.ret rfl))
  exact ⟨_, .refl, call, rfl⟩

theorem handleSend_over_queue_first :
    ∃ (as : List (Sending.Label Unit)) (s : Sending.State Unit) (call : SendTo),
      Run (Sending.Step ⟨0, 4660⟩ Sending.firstAddr) .initial as s ∧
        as.filter observed = [.post () firstRequest true, .start, .send true, .ret] ∧
        s.sent.map Prod.snd = [call] := by
  obtain ⟨⟨k, q⟩, hrun, call, hcall⟩ := first_callback
  obtain ⟨as, s, hs, hobs, hsent⟩ :=
    handleSend_over_queue ConcurrentQueue.fresh_initial ⟨_, hrun, rfl⟩
  exact ⟨as, s, call, hs, hobs, hsent.trans hcall⟩

end NodesDetector.Delivery
