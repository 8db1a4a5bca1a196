import Mathlib.Data.Multiset.AddSub
import NodesDetector.Pinger.Sending

/-! No accepted request is lost or sent twice, whatever `PostTask` and `HandleSend` do beside each
other. -/
namespace NodesDetector.Sending

open ProducerQueue

variable {π : Type} {icmp : Icmp} {inetPton : String → Option UInt32} {s t : State π} {a : Label π}
  {e : Posted π} {call : SendTo}

/-! ### Invariants -/

/-- The position in the batch. -/
def InBatch (sends : ℕ) : Loop π → Prop
  | .idle | .done => sends ≤ 300
  | .test batchNum _ => 0 ≤ batchNum ∧ sends + batchNum = 300
  | .send batchNum _ _ => 0 ≤ batchNum ∧ sends + batchNum + 1 = 300

theorem sends_le (h : InBatch s.sends s.loop) : s.sends ≤ 300 := by
  cases hl : s.loop with
  | idle =>
    rw [hl] at h
    exact h
  | test batchNum request =>
    rw [hl] at h
    obtain ⟨hn, hsum⟩ := h
    omega
  | send batchNum held request =>
    rw [hl] at h
    obtain ⟨hn, hsum⟩ := h
    omega
  | done =>
    rw [hl] at h
    exact h

theorem inBatch_step (hs : Step icmp inetPton s a t) (hi : InBatch s.sends s.loop) :
    InBatch t.sends t.loop := by
  have hle : s.sends ≤ 300 := sends_le hi
  cases hs with
  | post p request => exact hi
  | postFailed p request => exact hi
  | start hl => exact ⟨by decide, rfl⟩
  | dequeue hl hn hq =>
    rw [hl] at hi
    obtain ⟨_, hsum⟩ := hi
    constructor
    · omega
    · simp only
      omega
  | empty hl hn hq => exact hle
  | full hl hn => exact hle
  | @send batchNum held request sockaddr now ok hl =>
    obtain ⟨after, call, _, heq⟩ := s.sendIcmp_eq icmp inetPton batchNum held sockaddr now request
    rw [hl] at hi
    obtain ⟨hn, hsum⟩ := hi
    rw [heq]
    refine ⟨hn, ?_⟩
    push_cast
    omega
  | ret hl => exact hle

/-- After the failed dequeue nothing but late posts is in the queue. -/
def LateOnly (s : State π) : Prop :=
  s.loop = .done → s.sends = 300 ∨ s.late = some s.queue.length

theorem lateOnly_step (hs : Step icmp inetPton s a t) (hb : InBatch s.sends s.loop)
    (hi : LateOnly s) : LateOnly t := by
  cases hs with
  | post p request =>
    intro hl
    rcases hi hl with hfull | hlate
    · exact .inl hfull
    · right
      simp [State.post, hlate]
  | postFailed p request => exact hi
  | start hl => exact nofun
  | dequeue hl hn hq => exact nofun
  | empty hl hn hq =>
    intro _
    right
    simp [hq]
  | full hl hn =>
    rw [hl] at hb
    obtain ⟨hge, hsum⟩ := hb
    intro _
    left
    simp only
    omega
  | send sockaddr now ok hl => exact nofun
  | ret hl => exact nofun

/-- `try_dequeue` has overwritten `request`, whatever an earlier iteration made of it. -/
def Overwritten (s : State π) : Prop :=
  ∀ batchNum held request, s.loop = .send batchNum held request → request = held.request

theorem overwritten_step (hs : Step icmp inetPton s a t) (hi : Overwritten s) :
    Overwritten t := by
  intro batchNum held request hl'
  cases hs with
  | post p request => exact hi _ _ _ hl'
  | postFailed p request => exact hi _ _ _ hl'
  | start hl => cases hl'
  | dequeue hl hn hq =>
    cases hl'
    rfl
  | empty hl hn hq => cases hl'
  | full hl hn => cases hl'
  | send sockaddr now ok hl => cases hl'
  | ret hl => cases hl'

/-- Every `sendto` is the one of its request. -/
def SentByRequest (icmp : Icmp) (inetPton : String → Option UInt32) (s : State π) : Prop :=
  ∀ e call, (e, call) ∈ s.sent → Produces icmp inetPton e.request call

theorem sentByRequest_step (hs : Step icmp inetPton s a t) (ho : Overwritten s)
    (hi : SentByRequest icmp inetPton s) : SentByRequest icmp inetPton t := by
  cases hs with
  | post p request => exact hi
  | postFailed p request => exact hi
  | start hl => exact hi
  | dequeue hl hn hq => exact hi
  | empty hl hn hq => exact hi
  | full hl hn => exact hi
  | @send batchNum held request sockaddr now ok hl =>
    obtain ⟨after, call, hcall, heq⟩ :=
      s.sendIcmp_eq icmp inetPton batchNum held sockaddr now request
    rw [heq]
    intro e call' hmem
    rcases List.mem_append.mp hmem with hold | hnew
    · exact hi e call' hold
    · cases List.mem_singleton.mp hnew
      refine ⟨sockaddr, now, ?_⟩
      rw [← ho _ _ _ hl, hcall]
  | ret hl => exact hi

/-- The requests that left the queue, in order, then the queue. -/
def State.taken (s : State π) : List (Posted π) :=
  s.sent.map Prod.fst ++ s.held.toList ++ s.queue

/-- No request of a producer is lost, doubled or overtaken by a later one of the same producer. -/
def InOrder [DecidableEq π] (s : State π) : Prop :=
  ∀ p, ofProducer Posted.producer p s.posted = ofProducer Posted.producer p s.taken

theorem inOrder_step [DecidableEq π] (hs : Step icmp inetPton s a t) (hi : InOrder s) :
    InOrder t := by
  intro p
  have hp := hi p
  cases hs with
  | post q request =>
    have htaken : (s.post q request).taken = s.taken ++ [⟨q, s.posted.length, request⟩] := by
      simp [State.taken, State.post, State.held]
    rw [htaken, ofProducer_append, ← hp]
    exact ofProducer_append
  | postFailed q request => exact hp
  | start hl =>
    simp only [State.taken, State.held, hl] at hp ⊢
    exact hp
  | @dequeue batchNum request e queue hl hn hq =>
    have htaken : s.taken = s.sent.map Prod.fst ++ s.queue := by
      simp [State.taken, State.held, hl]
    calc ofProducer Posted.producer p s.posted
        = ofProducer Posted.producer p (s.sent.map Prod.fst ++ s.queue) := by rw [hp, htaken]
      _ = ofProducer Posted.producer p (s.sent.map Prod.fst ++ e :: queue) := by
          rw [ofProducer_append, hq.ofProducer p, ofProducer_append]
      _ = _ := by simp [State.taken, State.held]
  | empty hl hn hq =>
    simp only [State.taken, State.held, hl] at hp ⊢
    exact hp
  | full hl hn =>
    simp only [State.taken, State.held, hl] at hp ⊢
    exact hp
  | @send batchNum held request sockaddr now ok hl =>
    obtain ⟨after, call, _, heq⟩ :=
      s.sendIcmp_eq icmp inetPton batchNum held sockaddr now request
    rw [heq]
    simp only [State.taken, State.held, hl] at hp ⊢
    simpa using hp
  | ret hl =>
    simp only [State.taken, State.held, hl] at hp ⊢
    exact hp

/-- Tickets number the accepted requests. -/
def Numbered (s : State π) : Prop := s.posted.map Posted.ticket = List.range s.posted.length

theorem numbered_step (hs : Step icmp inetPton s a t) (hi : Numbered s) : Numbered t := by
  cases hs with
  | post p request =>
    simp only [Numbered, State.post, List.map_append, List.length_append, List.range_add]
    rw [hi]
    simp
  | postFailed p request => exact hi
  | start hl => exact hi
  | dequeue hl hn hq => exact hi
  | empty hl hn hq => exact hi
  | full hl hn => exact hi
  | send sockaddr now ok hl => exact hi
  | ret hl => exact hi

structure Invariant [DecidableEq π] (icmp : Icmp) (inetPton : String → Option UInt32)
    (s : State π) : Prop where
  inBatch : InBatch s.sends s.loop
  lateOnly : LateOnly s
  overwritten : Overwritten s
  sentByRequest : SentByRequest icmp inetPton s
  inOrder : InOrder s
  numbered : Numbered s

theorem tickets_nodup (h : Numbered s) : (s.posted.map Posted.ticket).Nodup := by
  rw [h]
  exact List.nodup_range

section Reachable

variable [DecidableEq π]

theorem invariant_initial : Invariant icmp inetPton (State.initial : State π) where
  inBatch := Nat.zero_le 300
  lateOnly := nofun
  overwritten := nofun
  sentByRequest := nofun
  inOrder := fun _ => rfl
  numbered := rfl

theorem invariant_step (hs : Step icmp inetPton s a t) (hi : Invariant icmp inetPton s) :
    Invariant icmp inetPton t where
  inBatch := inBatch_step hs hi.inBatch
  lateOnly := lateOnly_step hs hi.inBatch hi.lateOnly
  overwritten := overwritten_step hs hi.overwritten
  sentByRequest := sentByRequest_step hs hi.overwritten hi.sentByRequest
  inOrder := inOrder_step hs hi.inOrder
  numbered := numbered_step hs hi.numbered

theorem invariant_reachable (h : Reachable icmp inetPton s) : Invariant icmp inetPton s := by
  refine h.invariant ?_ fun _ _ _ hs hi => invariant_step hs hi
  rintro _ rfl
  exact invariant_initial

theorem posted_perm (h : Reachable icmp inetPton s) : s.posted.Perm s.taken :=
  perm_of_ofProducer (invariant_reachable h).inOrder

theorem mem_posted_of_sent (h : Reachable icmp inetPton s) (hsent : (e, call) ∈ s.sent) :
    e ∈ s.posted := by
  have hmem : e ∈ s.sent.map Prod.fst := List.mem_map_of_mem hsent
  apply (posted_perm h).mem_iff.mpr
  exact List.mem_append_left _ (List.mem_append_left _ hmem)

/-- The wire sees the requests of one thread in the order it posted them. -/
theorem sent_prefix_posted (h : Reachable icmp inetPton s) (p : π) :
    ofProducer Posted.producer p (s.sent.map Prod.fst) <+:
      ofProducer Posted.producer p s.posted := by
  rw [(invariant_reachable h).inOrder p, State.taken, List.append_assoc, ofProducer_append]
  exact List.prefix_append _ _

/-- Every accepted request was given to `sendto` once, is in the hands of the callback or is in the
queue; a callback sends at most 300 and leaves something behind only when it sent them all or posts
came after its failed dequeue. -/
theorem requests_conserved (h : Reachable icmp inetPton s) :
    (s.posted : Multiset (Posted π)) =
        ↑(s.sent.map Prod.fst) + ↑s.held.toList + ↑s.queue ∧
      (s.posted.map Posted.ticket).Nodup ∧
      (∀ e call, (e, call) ∈ s.sent → Produces icmp inetPton e.request call) ∧
      s.sends ≤ 300 ∧
      ∀ t, Step icmp inetPton s .ret t → t.queue ≠ [] →
        t.sends = 300 ∨ ∃ k, t.late = some (k + 1) := by
  have hi := invariant_reachable h
  refine ⟨?_, tickets_nodup hi.numbered, hi.sentByRequest, sends_le hi.inBatch, ?_⟩
  · rw [Multiset.coe_eq_coe.mpr (posted_perm h), State.taken, ← Multiset.coe_add,
      ← Multiset.coe_add]
  · intro t hs hne
    cases hs with
    | ret hl =>
      rcases hi.lateOnly hl with hfull | hlate
      · exact .inl hfull
      · right
        obtain ⟨k, hk⟩ := Nat.exists_eq_succ_of_ne_zero (List.length_pos_of_ne_nil hne).ne'
        exact ⟨k, hlate.trans (congrArg some hk)⟩

/-- `inet_pton` on the first of `ips`. -/
def firstAddr (ip : String) : Option UInt32 :=
  if ip = "220.181.57.216" then some 3627660764 else none

/-- One request is sent, the callback holds the next, and a third is posted meanwhile. -/
theorem requests_conserved_post_while_held :
    ∃ s : State ℕ, Reachable ⟨0, 4660⟩ firstAddr s ∧
      s.sent.length = 1 ∧ s.held.isSome ∧ s.queue.length = 1 ∧
      (s.posted : Multiset (Posted ℕ)) =
        ↑(s.sent.map Prod.fst) + ↑s.held.toList + ↑s.queue ∧
      ∀ e call, (e, call) ∈ s.sent → Produces ⟨0, 4660⟩ firstAddr e.request call := by
  have hposted : Reachable ⟨0, 4660⟩ firstAddr
      (State.initial.post 0 { ip := "220.181.57.216", taskId := 7 }) :=
    (initial_reachable _ _).tail (Step.post _ 0 _)
  have hheld := (hposted.tail (Step.start rfl)).tail (Step.dequeue rfl (by decide) (.head _ []))
  have hsecond := hheld.tail (Step.post _ 1 { ip := "220.181.57.216", taskId := 8 })
  obtain ⟨after, call, -, hsent⟩ := send_reachable hsecond rfl (fun _ => 0) ⟨5, 6⟩
  have hheld' := hsent.tail (Step.dequeue rfl (by decide) (.head _ []))
  have h := hheld'.tail (Step.post _ 0 { ip := "220.181.57.216", taskId := 9 })
  exact ⟨_, h, rfl, rfl, rfl, (requests_conserved h).1, (requests_conserved h).2.2.1⟩

end Reachable

end NodesDetector.Sending
