import NodesDetector.Queue.Implicit

/-! The whole queue: the list of implicit producers, which only grows, and any number of threads in
`try_dequeue`. -/
namespace NodesDetector.ConcurrentQueue

open Queue (Index circularLessThan)

/-- How far a producer is on its way into the list. -/
inductive Listing (π : Type)
  | absent
  /-- in `add_producer`, about to compare `producerListTail` with `prevTail` -/
  | adding (prevTail : Option π)
  | listed

/-- Where a consumer is in `try_dequeue`, with its locals. -/
inductive Pc (π α : Type)
  | idle
  /-- about to load `producerListTail` -/
  | load
  /-- at the test of the first loop -/
  | scan (ptr : Option π) (nonEmptyCount : ℕ) (best : Option π) (bestSize : Index)
  /-- in `size_approx`, about to load `headIndex` -/
  | size (ptr : π) (tail : Index) (nonEmptyCount : ℕ) (best : Option π) (bestSize : Index)
  /-- in `best->dequeue` -/
  | best (best : π)
  /-- about to load `producerListTail` for the second loop -/
  | reload (best : π)
  /-- at the test of the second loop -/
  | loop (ptr : Option π) (best : π)
  /-- in `ptr->dequeue` -/
  | other (ptr best : π)
  /-- has the result -/
  | done (result : Option α)

/-- A producer that is not listed is in the state its constructor left. -/
structure State (π α β C : Type) where
  producerListTail : Option π
  next : π → Option π
  listing : π → Listing π
  producers : π → Queue.State α β C
  consumer : C → Pc π α

inductive Label (π α C : Type)
  | add (p : π)
  | producer (p : π) (a : Queue.Label α C)
  | start (c : C)
  | consumer (c : C)
  | claim (c : C)
  | miss (c : C)
  | ret (c : C) (result : Option α)

variable {π α β C : Type}

/-- A step of the thread that calls `enqueue`. -/
def Enqueues : Queue.Label α C → Prop
  | .call _ | .publish _ | .producer => True
  | .start _ | .claim _ | .consumer _ | .ret _ _ => False

/-- What `size_approx` returns. -/
def sizeApprox (tail head : Index) : Index :=
  if circularLessThan head tail then tail - head else 0

/-- The body of the first loop, with the size of `ptr`. -/
def score (ptr : π) (next : Option π) (size : Index) (nonEmptyCount : ℕ) (best : Option π)
    (bestSize : Index) : Pc π α :=
  if size > 0 then
    if size > bestSize then .scan next (nonEmptyCount + 1) (some ptr) size
    else .scan next (nonEmptyCount + 1) best bestSize
  else .scan next nonEmptyCount best bestSize

/-- The producer whose `dequeue` a consumer is in. -/
def Pc.inside : Pc π α → Option π
  | .best p | .other p _ => some p
  | .idle | .load | .scan _ _ _ _ | .size _ _ _ _ _ | .reload _ | .loop _ _ | .done _ => none

variable [DecidableEq π] [DecidableEq C]

namespace State

def toConsumer (s : State π α β C) (c : C) (pc : Pc π α) : State π α β C :=
  { s with consumer := Function.update s.consumer c pc }

def setProducer (s : State π α β C) (p : π) (producer : Queue.State α β C) : State π α β C :=
  { s with producers := Function.update s.producers p producer }

def list (s : State π α β C) (p : π) (listing : Listing π) (next : Option π) : State π α β C :=
  { s with
    listing := Function.update s.listing p listing
    next := Function.update s.next p next }

end State

def Initial (s : State π α β C) : Prop :=
  s.producerListTail = none ∧ (∀ p, s.listing p = .absent) ∧
    (∀ p, Queue.Initial (s.producers p)) ∧ ∀ c, s.consumer c = .idle

variable [DecidableEq β]

/-- `produce` leaves no block to two producers: the free list does not hand out a block that is in
use. -/
inductive Step (noexceptCtor : Bool) : State π α β C → Label π α C → State π α β C → Prop
  | create {s : State π α β C} {p : π} (hp : s.listing p = .absent) :
      Step noexceptCtor s (.add p) (s.list p (.adding s.producerListTail) (s.next p))
  | link {s : State π α β C} {p : π} {prevTail : Option π} (hp : s.listing p = .adding prevTail)
      (ht : s.producerListTail = prevTail) :
      Step noexceptCtor s (.add p)
        { s.list p .listed prevTail with producerListTail := some p }
  | retry {s : State π α β C} {p : π} {prevTail : Option π} (hp : s.listing p = .adding prevTail) :
      Step noexceptCtor s (.add p) (s.list p (.adding s.producerListTail) prevTail)
  | produce {s : State π α β C} {p : π} {a : Queue.Label α C} {t : Queue.State α β C}
      (hp : s.listing p = .listed) (ha : Enqueues a)
      (hs : Queue.Step noexceptCtor (s.producers p) a t)
      (hd : ∀ q b, b ∈ t.owned → b ∈ (s.producers q).owned → q = p) :
      Step noexceptCtor s (.producer p a) (s.setProducer p t)
  | start {s : State π α β C} {c : C} (hc : s.consumer c = .idle) :
      Step noexceptCtor s (.start c) (s.toConsumer c .load)
  | load {s : State π α β C} {c : C} (hc : s.consumer c = .load) :
      Step noexceptCtor s (.consumer c) (s.toConsumer c (.scan s.producerListTail 0 none 0))
  | sizeTail {s : State π α β C} {c : C} {p : π} {n : ℕ} {best : Option π} {bestSize : Index}
      (hc : s.consumer c = .scan (some p) n best bestSize) (hn : n < 3) :
      Step noexceptCtor s (.consumer c)
        (s.toConsumer c (.size p (s.producers p).tailIndex n best bestSize))
  | sizeHead {s : State π α β C} {c : C} {p : π} {tail : Index} {n : ℕ} {best : Option π}
      {bestSize : Index} (hc : s.consumer c = .size p tail n best bestSize) :
      Step noexceptCtor s (.consumer c)
        (s.toConsumer c
          (score p (s.next p) (sizeApprox tail (s.producers p).headIndex) n best bestSize))
  | allEmpty {s : State π α β C} {c : C} {best : Option π} {bestSize : Index}
      (hc : s.consumer c = .scan none 0 best bestSize) :
      Step noexceptCtor s (.miss c) (s.toConsumer c (.done none))
  | callBest {s : State π α β C} {c : C} {ptr : Option π} {n : ℕ} {p : π} {bestSize : Index}
      {t : Queue.State α β C} (hc : s.consumer c = .scan ptr n (some p) bestSize)
      (hend : ¬ (n < 3 ∧ ptr ≠ none)) (hn : n > 0)
      (hs : Queue.Step noexceptCtor (s.producers p) (.start c) t) :
      Step noexceptCtor s (.consumer c) ((s.toConsumer c (.best p)).setProducer p t)
  | dequeue {s : State π α β C} {c : C} {p : π} {t : Queue.State α β C}
      (hc : (s.consumer c).inside = some p)
      (hs : Queue.Step noexceptCtor (s.producers p) (.consumer c) t) :
      Step noexceptCtor s (.consumer c) (s.setProducer p t)
  | claim {s : State π α β C} {c : C} {p : π} {t : Queue.State α β C}
      (hc : (s.consumer c).inside = some p)
      (hs : Queue.Step noexceptCtor (s.producers p) (.claim c) t) :
      Step noexceptCtor s (.claim c) (s.setProducer p t)
  | success {s : State π α β C} {c : C} {p : π} {x : α} {t : Queue.State α β C}
      (hc : (s.consumer c).inside = some p)
      (hs : Queue.Step noexceptCtor (s.producers p) (.ret c (some x)) t) :
      Step noexceptCtor s (.consumer c) ((s.toConsumer c (.done (some x))).setProducer p t)
  | bestFailed {s : State π α β C} {c : C} {p : π} {t : Queue.State α β C}
      (hc : s.consumer c = .best p)
      (hs : Queue.Step noexceptCtor (s.producers p) (.ret c none) t) :
      Step noexceptCtor s (.consumer c) ((s.toConsumer c (.reload p)).setProducer p t)
  | reload {s : State π α β C} {c : C} {best : π} (hc : s.consumer c = .reload best) :
      Step noexceptCtor s (.consumer c) (s.toConsumer c (.loop s.producerListTail best))
  | skip {s : State π α β C} {c : C} {best : π} (hc : s.consumer c = .loop (some best) best) :
      Step noexceptCtor s (.consumer c) (s.toConsumer c (.loop (s.next best) best))
  | callOther {s : State π α β C} {c : C} {p best : π} {t : Queue.State α β C}
      (hc : s.consumer c = .loop (some p) best) (hne : p ≠ best)
      (hs : Queue.Step noexceptCtor (s.producers p) (.start c) t) :
      Step noexceptCtor s (.consumer c) ((s.toConsumer c (.other p best)).setProducer p t)
  | otherFailed {s : State π α β C} {c : C} {p best : π} {t : Queue.State α β C}
      (hc : s.consumer c = .other p best)
      (hs : Queue.Step noexceptCtor (s.producers p) (.ret c none) t) :
      Step noexceptCtor s (.consumer c)
        ((s.toConsumer c (.loop (s.next p) best)).setProducer p t)
  | allTried {s : State π α β C} {c : C} {best : π} (hc : s.consumer c = .loop none best) :
      Step noexceptCtor s (.miss c) (s.toConsumer c (.done none))
  | ret {s : State π α β C} {c : C} {result : Option α} (hc : s.consumer c = .done result) :
      Step noexceptCtor s (.ret c result) (s.toConsumer c .idle)

end NodesDetector.ConcurrentQueue
