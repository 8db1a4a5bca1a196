import Mathlib.Algebra.Group.Nat.Defs
import NodesDetector.Library.Exclusive
import NodesDetector.Library.LinkedList
import NodesDetector.Library.Threads

/-! Where blocks come from and go back to: the initial pool, the lock-free free list and the
allocator, one access to shared memory at a time. -/
namespace NodesDetector.BlockPool

def refsMask : UInt32 := 0x7FFFFFFF

def shouldBeOnFreeList : UInt32 := 0x80000000

/-- Where a thread is, with its locals. In `add_knowing_refcount_is_zero`, `back` is the head
`try_get` goes on with; it is `none` in a call from `add`. -/
inductive Pc (β : Type)
  | idle
  /-- in `add`, about to set the should-be-on-freelist bit -/
  | add (node : β)
  /-- about to load `freeListHead` -/
  | loadHead (node : β) (back : Option (Option β))
  /-- about to store `freeListNext` -/
  | storeNext (node : β) (head : Option β) (back : Option (Option β))
  /-- about to store `freeListRefs` -/
  | storeRefs (node : β) (head : Option β) (back : Option (Option β))
  /-- about to compare `freeListHead` with `head` -/
  | push (node : β) (head : Option β) (back : Option (Option β))
  /-- about to add to `freeListRefs`, since `freeListHead` was `head` instead -/
  | pushFailed (node : β) (head : Option β) (back : Option (Option β))
  /-- in `requisition_block`, about to load `initialBlockPoolIndex` -/
  | pool
  /-- about to increment `initialBlockPoolIndex` -/
  | poolIndex
  /-- in `try_get`, about to load `freeListHead` -/
  | tryGet
  /-- about to load `freeListRefs` -/
  | loadRefs (head : β)
  /-- about to compare `freeListRefs` with `refs` -/
  | acquire (head : β) (refs : UInt32)
  /-- about to load `freeListNext` -/
  | loadNext (head : β)
  /-- about to compare `freeListHead` with `head` -/
  | pop (head : β) (next : Option β)
  /-- about to take both references away -/
  | popped (head : β)
  /-- about to take its reference away, since `freeListHead` was `head` instead -/
  | release (prevHead : β) (head : Option β)
  /-- about to create a block -/
  | create
  /-- has the result -/
  | done (result : Option β)

/-- Where a block is. -/
inductive Place (T : Type)
  /-- there is no block at this address -/
  | absent
  /-- in the initial pool -/
  | pooled
  /-- in use -/
  | out
  /-- the thread is about to hand it out, or to add it to the free list -/
  | held (t : T)
  /-- given back; who takes the last reference away has to add it to the free list -/
  | pending
  | listed

/-- `place` is of no use to the code. -/
structure State (β T : Type) where
  initialBlockPool : UInt64 → β
  initialBlockPoolSize : UInt64
  initialBlockPoolIndex : UInt64
  freeListHead : Option β
  freeListRefs : β → UInt32
  freeListNext : β → Option β
  dynamicallyAllocated : β → Bool
  pc : T → Pc β
  place : β → Place T

/-- A caller sees which blocks it gets and gives back. -/
abbrev Label (β T : Type) := Option (Exclusive.Label T β)

variable {β T : Type}

/-- The test of the loop in `try_get`. -/
def loop : Option β → Pc β
  | none => .create
  | some head => .loadRefs head

/-- Where `add_knowing_refcount_is_zero` returns to. -/
def resume : Option (Option β) → Pc β
  | none => .idle
  | some head => loop head

namespace State

def goto [DecidableEq T] (s : State β T) (t : T) (pc : Pc β) : State β T :=
  { s with pc := Function.update s.pc t pc }

variable [DecidableEq β]

def setRefs (s : State β T) (v : β) (refs : UInt32) : State β T :=
  { s with freeListRefs := Function.update s.freeListRefs v refs }

def setNext (s : State β T) (v : β) (next : Option β) : State β T :=
  { s with freeListNext := Function.update s.freeListNext v next }

def put (s : State β T) (v : β) (place : Place T) : State β T :=
  { s with place := Function.update s.place v place }

end State

/-- All blocks there are form the initial pool. -/
structure Initial (s : State β T) : Prop where
  injective : ∀ i j, i < s.initialBlockPoolSize → j < s.initialBlockPoolSize →
    s.initialBlockPool i = s.initialBlockPool j → i = j
  index : s.initialBlockPoolIndex = 0
  head : s.freeListHead = none
  pc : ∀ t, s.pc t = .idle
  pooled : ∀ i, i < s.initialBlockPoolSize →
    s.place (s.initialBlockPool i) = .pooled ∧ s.freeListRefs (s.initialBlockPool i) = 0 ∧
      s.freeListNext (s.initialBlockPool i) = none ∧
      s.dynamicallyAllocated (s.initialBlockPool i) = false
  absent : ∀ v, s.place v ≠ .absent → ∃ i, i < s.initialBlockPoolSize ∧ s.initialBlockPool i = v

variable [DecidableEq β] [DecidableEq T]

/-- Callers give back what they were given. -/
inductive Step : State β T → Label β T → State β T → Prop
  | give {s : State β T} {t : T} {v : β} (ht : s.pc t = .idle) (hv : s.place v = .out) :
      Step s (some (.give t v)) ((s.goto t (.add v)).put v (.held t))
  | add {s : State β T} {t : T} {v : β} (ht : s.pc t = .add v) (h : s.freeListRefs v = 0) :
      Step s none
        ((s.goto t (.loadHead v none)).setRefs v (s.freeListRefs v + shouldBeOnFreeList))
  | addLater {s : State β T} {t : T} {v : β} (ht : s.pc t = .add v)
      (h : s.freeListRefs v ≠ 0) :
      Step s none
        (((s.goto t .idle).setRefs v (s.freeListRefs v + shouldBeOnFreeList)).put v .pending)
  | loadHead {s : State β T} {t : T} {v : β} {back : Option (Option β)}
      (ht : s.pc t = .loadHead v back) :
      Step s none (s.goto t (.storeNext v s.freeListHead back))
  | storeNext {s : State β T} {t : T} {v : β} {head : Option β} {back : Option (Option β)}
      (ht : s.pc t = .storeNext v head back) :
      Step s none ((s.goto t (.storeRefs v head back)).setNext v head)
  | storeRefs {s : State β T} {t : T} {v : β} {head : Option β} {back : Option (Option β)}
      (ht : s.pc t = .storeRefs v head back) :
      Step s none ((s.goto t (.push v head back)).setRefs v 1)
  | push {s : State β T} {t : T} {v : β} {head : Option β} {back : Option (Option β)}
      (ht : s.pc t = .push v head back) (hh : s.freeListHead = head) :
      Step s none { (s.goto t (resume back)).put v .listed with freeListHead := some v }
  | pushFailed {s : State β T} {t : T} {v : β} {head : Option β} {back : Option (Option β)}
      (ht : s.pc t = .push v head back) (hh : s.freeListHead ≠ head) :
      Step s none (s.goto t (.pushFailed v s.freeListHead back))
  | pushAgain {s : State β T} {t : T} {v : β} {head : Option β} {back : Option (Option β)}
      (ht : s.pc t = .pushFailed v head back) (h : s.freeListRefs v = 1) :
      Step s none
        ((s.goto t (.storeNext v head back)).setRefs v
          (s.freeListRefs v + (shouldBeOnFreeList - 1)))
  | pushLater {s : State β T} {t : T} {v : β} {head : Option β} {back : Option (Option β)}
      (ht : s.pc t = .pushFailed v head back) (h : s.freeListRefs v ≠ 1) :
      Step s none
        (((s.goto t (resume back)).setRefs v
          (s.freeListRefs v + (shouldBeOnFreeList - 1))).put v .pending)
  | requisition {s : State β T} {t : T} (ht : s.pc t = .idle) : Step s none (s.goto t .pool)
  | pool {s : State β T} {t : T} (ht : s.pc t = .pool) :
      Step s none
        (s.goto t (if s.initialBlockPoolIndex < s.initialBlockPoolSize then .poolIndex
          else .tryGet))
  | poolTaken {s : State β T} {t : T} (ht : s.pc t = .poolIndex)
      (h : s.initialBlockPoolIndex < s.initialBlockPoolSize) :
      Step s none
        { (s.goto t (.done (some (s.initialBlockPool s.initialBlockPoolIndex)))).put
            (s.initialBlockPool s.initialBlockPoolIndex) (.held t) with
          initialBlockPoolIndex := s.initialBlockPoolIndex + 1 }
  | poolEmpty {s : State β T} {t : T} (ht : s.pc t = .poolIndex)
      (h : ¬ s.initialBlockPoolIndex < s.initialBlockPoolSize) :
      Step s none
        { s.goto t .tryGet with initialBlockPoolIndex := s.initialBlockPoolIndex + 1 }
  | tryGet {s : State β T} {t : T} (ht : s.pc t = .tryGet) :
      Step s none (s.goto t (loop s.freeListHead))
  | loadRefs {s : State β T} {t : T} {v : β} (ht : s.pc t = .loadRefs v) :
      Step s none
        (s.goto t (if s.freeListRefs v &&& refsMask = 0 then .tryGet
          else .acquire v (s.freeListRefs v)))
  | acquire {s : State β T} {t : T} {v : β} {refs : UInt32} (ht : s.pc t = .acquire v refs)
      (h : s.freeListRefs v = refs) :
      Step s none ((s.goto t (.loadNext v)).setRefs v (refs + 1))
  | acquireFailed {s : State β T} {t : T} {v : β} {refs : UInt32}
      (ht : s.pc t = .acquire v refs) (h : s.freeListRefs v ≠ refs) :
      Step s none (s.goto t .tryGet)
  | loadNext {s : State β T} {t : T} {v : β} (ht : s.pc t = .loadNext v) :
      Step s none (s.goto t (.pop v (s.freeListNext v)))
  | pop {s : State β T} {t : T} {v : β} {next : Option β} (ht : s.pc t = .pop v next)
      (hh : s.freeListHead = some v) :
      Step s none { (s.goto t (.popped v)).put v (.held t) with freeListHead := next }
  | popFailed {s : State β T} {t : T} {v : β} {next : Option β} (ht : s.pc t = .pop v next)
      (hh : s.freeListHead ≠ some v) :
      Step s none (s.goto t (.release v s.freeListHead))
  | popped {s : State β T} {t : T} {v : β} (ht : s.pc t = .popped v) :
      Step s none ((s.goto t (.done (some v))).setRefs v (s.freeListRefs v - 2))
  | release {s : State β T} {t : T} {v : β} {head : Option β} (ht : s.pc t = .release v head)
      (h : s.freeListRefs v = shouldBeOnFreeList + 1) :
      Step s none
        (((s.goto t (.loadHead v (some head))).setRefs v (s.freeListRefs v - 1)).put v (.held t))
  | releaseOnly {s : State β T} {t : T} {v : β} {head : Option β} (ht : s.pc t = .release v head)
      (h : s.freeListRefs v ≠ shouldBeOnFreeList + 1) :
      Step s none ((s.goto t (loop head)).setRefs v (s.freeListRefs v - 1))
  | create {s : State β T} {t : T} {v : β} (ht : s.pc t = .create) (hv : s.place v = .absent) :
      Step s none
        { (((s.goto t (.done (some v))).setRefs v 0).setNext v none).put v (.held t) with
          dynamicallyAllocated := Function.update s.dynamicallyAllocated v true }
  | createFailed {s : State β T} {t : T} (ht : s.pc t = .create) :
      Step s none (s.goto t (.done none))
  | take {s : State β T} {t : T} {v : β} (ht : s.pc t = .done (some v)) :
      Step s (some (.take t v)) ((s.goto t .idle).put v .out)
  | refuse {s : State β T} {t : T} (ht : s.pc t = .done none) :
      Step s (some (.refuse t)) (s.goto t .idle)

/-! ### What a thread has in hand -/

/-- The node it counts in the references of. -/
def Pc.holds : Pc β → Option β
  | .loadNext v | .pop v _ | .popped v | .release v _ => some v
  | .idle | .add _ | .loadHead _ _ | .storeNext _ _ _ | .storeRefs _ _ _ | .push _ _ _
  | .pushFailed _ _ _ | .pool | .poolIndex | .tryGet | .loadRefs _ | .acquire _ _ | .create
  | .done _ => none

/-- The block that is in its hands alone. -/
def Pc.charge : Pc β → Option β
  | .add v | .loadHead v _ | .storeNext v _ _ | .storeRefs v _ _ | .push v _ _
  | .pushFailed v _ _ | .popped v => some v
  | .done result => result
  | .idle | .pool | .poolIndex | .tryGet | .loadRefs _ | .acquire _ _ | .loadNext _ | .pop _ _
  | .release _ _ | .create => none

/-- What the references to its charge are beside those of the threads that hold it. -/
def Pc.base : Pc β → ℕ
  | .loadHead _ _ | .storeNext _ _ _ | .storeRefs _ _ _ => 2 ^ 31
  | .push _ _ _ | .pushFailed _ _ _ | .popped _ => 1
  | .idle | .add _ | .pool | .poolIndex | .tryGet | .loadRefs _ | .acquire _ _ | .loadNext _
  | .pop _ _ | .release _ _ | .create | .done _ => 0

/-- A node and what it has read from, or written to, its `freeListNext`. -/
def Pc.next : Pc β → Option (β × Option β)
  | .storeRefs v head _ | .push v head _ => some (v, head)
  | .pop v next => some (v, next)
  | .idle | .add _ | .loadHead _ _ | .storeNext _ _ _ | .pushFailed _ _ _ | .pool | .poolIndex
  | .tryGet | .loadRefs _ | .acquire _ _ | .loadNext _ | .popped _ | .release _ _ | .create
  | .done _ => none

def Pc.isPoolIndex : Pc β → Bool
  | .poolIndex => true
  | _ => false

/-- The nodes it may yet follow a pointer to. -/
def Pc.follows : Pc β → List β
  | .add v | .loadRefs v | .acquire v _ | .loadNext v | .pop v _ | .popped v => [v]
  | .loadHead v back | .storeNext v _ back | .storeRefs v _ back | .push v _ back
  | .pushFailed v _ back => v :: (back.getD none).toList
  | .release v head => v :: head.toList
  | .done result => result.toList
  | .idle | .pool | .poolIndex | .tryGet | .create => []

end NodesDetector.BlockPool
