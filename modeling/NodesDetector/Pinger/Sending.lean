import NodesDetector.Library.ProducerQueue
import NodesDetector.Library.Transition
import NodesDetector.Pinger.Requests

/-! `PostTask` from any number of threads beside the `HandleSend` callbacks of the loop thread. -/
namespace NodesDetector.Sending

open Bytes ProducerQueue

/-- A request `PostTask` returned true for, with the number of those before it. -/
structure Posted (π : Type) where
  producer : π
  ticket : ℕ
  request : PingRequest
deriving DecidableEq

/-- Where the loop thread is in `HandleSend`, with the locals `batch_num` and `request`. -/
inductive Loop (π : Type)
  | idle
  | test (batchNum : ℤ) (request : PingRequest)
  /-- `try_dequeue` returned true and `sendto` has not been called yet -/
  | send (batchNum : ℤ) (held : Posted π) (request : PingRequest)
  /-- the condition of the loop was false -/
  | done

/-- The task queue and the loop thread; the other fields only record what happened. `sends`
counts the `sendto` calls of the last callback, `late` the posts after its failed dequeue. -/
structure State (π : Type) where
  queue : List (Posted π)
  loop : Loop π
  posted : List (Posted π)
  sent : List (Posted π × SendTo)
  sends : ℕ
  late : Option ℕ

variable {π : Type}

def State.initial : State π := ⟨[], .idle, [], [], 0, none⟩

/-- `enqueue` returned true. -/
def State.post (s : State π) (p : π) (request : PingRequest) : State π where
  queue := s.queue ++ [⟨p, s.posted.length, request⟩]
  loop := s.loop
  posted := s.posted ++ [⟨p, s.posted.length, request⟩]
  sent := s.sent
  sends := s.sends
  late := s.late.map (· + 1)

/-- What a callback holds between its dequeue and its `sendto`. -/
def State.held (s : State π) : Option (Posted π) :=
  match s.loop with
  | .send _ held _ => some held
  | .idle | .test _ _ | .done => none

inductive Label (π : Type)
  | post (p : π) (request : PingRequest) (ok : Bool)
  | start
  | dequeue
  | empty
  | full
  | send (ok : Bool)
  | ret
deriving DecidableEq

section Model

variable (icmp : Icmp) (inetPton : String → Option UInt32)

/-- `SendIcmp` on the local `request`, whatever `sendto` returns. -/
def State.sendIcmp (s : State π) (batchNum : ℤ) (held : Posted π) (sockaddr : Memory)
    (now : Timeval) (request : PingRequest) : State π :=
  let (request, call) := NodesDetector.sendIcmp icmp inetPton sockaddr now request
  { s with
    loop := .test batchNum request
    sent := s.sent ++ call.toList.map (held, ·)
    sends := s.sends + call.toList.length }

/-- The condition `batch_num-- > 0 && try_dequeue(request)` is one step: false by its first
operand, false by its second, or true. -/
inductive Step : State π → Label π → State π → Prop
  | post (s : State π) (p : π) (request : PingRequest) :
      Step s (.post p request true) (s.post p request)
  | postFailed (s : State π) (p : π) (request : PingRequest) :
      Step s (.post p request false) s
  | start {s : State π} (hl : s.loop = .idle) :
      Step s .start { s with loop := .test 300 {}, sends := 0, late := none }
  | dequeue {s : State π} {batchNum : ℤ} {request : PingRequest} {e : Posted π}
      {queue : List (Posted π)} (hl : s.loop = .test batchNum request) (hn : batchNum > 0)
      (hq : Take Posted.producer s.queue e queue) :
      Step s .dequeue { s with queue := queue, loop := .send (batchNum - 1) e e.request }
  | empty {s : State π} {batchNum : ℤ} {request : PingRequest}
      (hl : s.loop = .test batchNum request) (hn : batchNum > 0) (hq : s.queue = []) :
      Step s .empty { s with loop := .done, late := some 0 }
  | full {s : State π} {batchNum : ℤ} {request : PingRequest}
      (hl : s.loop = .test batchNum request) (hn : ¬ batchNum > 0) :
      Step s .full { s with loop := .done }
  | send {s : State π} {batchNum : ℤ} {held : Posted π} {request : PingRequest}
      (sockaddr : Memory) (now : Timeval) (ok : Bool)
      (hl : s.loop = .send batchNum held request) :
      Step s (.send ok) (s.sendIcmp icmp inetPton batchNum held sockaddr now request)
  | ret {s : State π} (hl : s.loop = .done) : Step s .ret { s with loop := .idle }

def Initial (s : State π) : Prop := s = .initial

abbrev Reachable (s : State π) : Prop := Transition.Reachable (Step icmp inetPton) Initial s

theorem initial_reachable : Reachable icmp inetPton (State.initial : State π) := .initial rfl

end Model

/-! ### Steps -/

variable {icmp : Icmp} {inetPton : String → Option UInt32} {s t : State π} {a : Label π}

/-- One `sendto` more, for the held request. -/
theorem State.sendIcmp_eq (s : State π) (icmp : Icmp) (inetPton : String → Option UInt32)
    (batchNum : ℤ) (held : Posted π) (sockaddr : Memory) (now : Timeval) (request : PingRequest) :
    ∃ after call, NodesDetector.sendIcmp icmp inetPton sockaddr now request = (after, some call) ∧
      s.sendIcmp icmp inetPton batchNum held sockaddr now request =
        { s with
          loop := .test batchNum after
          sent := s.sent ++ [(held, call)]
          sends := s.sends + 1 } := by
  obtain ⟨call, _, hcall, _⟩ := NodesDetector.sendIcmp_eq icmp inetPton sockaddr now request
  refine ⟨_, call, hcall, ?_⟩
  simp only [State.sendIcmp, hcall]
  rfl

/-- A held request is sent, wherever that goes. -/
theorem send_reachable (h : Reachable icmp inetPton s) {batchNum : ℤ} {e : Posted π}
    {request : PingRequest} (hl : s.loop = .send batchNum e request) (sockaddr : Memory)
    (now : Timeval) :
    ∃ after call, (NodesDetector.sendIcmp icmp inetPton sockaddr now request).2 = some call ∧
      Reachable icmp inetPton
        { s with
          loop := .test batchNum after
          sent := s.sent ++ [(e, call)]
          sends := s.sends + 1 } := by
  obtain ⟨after, call, hcall, heq⟩ :=
    s.sendIcmp_eq icmp inetPton batchNum e sockaddr now request
  have hnext := h.tail (Step.send sockaddr now true hl)
  rw [heq] at hnext
  exact ⟨after, call, congrArg Prod.snd hcall, hnext⟩

theorem posted_step (hs : Step icmp inetPton s a t) : s.posted <+: t.posted := by
  cases hs with
  | post p request => exact List.prefix_append _ _
  | send sockaddr now ok hl => exact List.prefix_refl _
  | postFailed | start | dequeue | empty | full | ret => exact List.prefix_refl _

/-- Only `PostTask` adds to the accepted requests. -/
theorem posted_step_of_not_post (hs : Step icmp inetPton s a t)
    (ha : ∀ p request, a ≠ .post p request true) : t.posted = s.posted := by
  cases hs with
  | post p request => exact (ha p request rfl).elim
  | send sockaddr now ok hl => rfl
  | postFailed | start | dequeue | empty | full | ret => rfl

end NodesDetector.Sending
