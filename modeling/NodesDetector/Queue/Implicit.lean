import NodesDetector.Library.Tickets
import NodesDetector.Library.Transition
import NodesDetector.Queue.Program

/-! An implicit producer: the one thread that calls `enqueue` beside any number of threads that
call `dequeue`, one access to shared memory at a time. -/
namespace NodesDetector.Queue

/-- Where the producer is in `enqueue`. -/
inductive ProducerPc (α β : Type)
  | idle
  /-- about to load `headIndex`, at the first index of a block -/
  | boundary (element : α)
  /-- about to look at the next entry of the index -/
  | insert (element : α)
  /-- about to call `new_block_index` -/
  | grow (element : α)
  /-- about to store the key of the first new entry -/
  | grown (element : α)
  /-- about to store the key of `idxEntry` -/
  | key (element : α) (idxEntry : ℕ) (newTail : UInt64)
  /-- about to store the tail of the index -/
  | tail (element : α) (idxEntry : ℕ) (newTail : UInt64)
  /-- about to call `requisition_block` -/
  | requisition (element : α) (idxEntry : ℕ)
  /-- about to call `rewind_block_index_tail`; a block that was requisitioned has to go back -/
  | rewind (idxEntry : ℕ) (newBlock : Option β)
  /-- about to store `nullptr` in the entry -/
  | nullify (idxEntry : ℕ) (newBlock : Option β)
  /-- about to call `add_block_to_free_list` -/
  | giveUp (newBlock : β)
  /-- has reset its new block -/
  | ready (element : α) (idxEntry : ℕ) (newBlock : β)
  /-- has constructed the element in a block that is not in the index yet -/
  | filled (element : α) (idxEntry : ℕ) (newBlock : β)
  /-- about to construct the element in `tailBlock` -/
  | construct (element : α)
  /-- about to store `tailIndex` -/
  | publish (element : α)

/-- Where a consumer is in `dequeue`. -/
inductive ConsumerPc (α β : Type)
  | idle
  /-- about to load `tailIndex` -/
  | start
  /-- about to load `dequeueOvercommit` -/
  | tailRead (tail : Index)
  /-- about to load `dequeueOptimisticCount` -/
  | overcommitRead (tail overcommit : Index)
  /-- about to increment `dequeueOptimisticCount` -/
  | optimistic (overcommit : Index)
  /-- about to load `tailIndex` again -/
  | counted (overcommit myDequeueCount : Index)
  /-- about to increment `headIndex` -/
  | granted
  /-- about to increment `dequeueOvercommit` -/
  | refused
  /-- about to load `blockIndex` -/
  | index (index : Index)
  /-- about to load the `tail` of the header -/
  | header (index : Index) (localBlockIndex : ℕ)
  /-- about to load the key of the tail entry -/
  | tail (index : Index) (localBlockIndex : ℕ) (tail : UInt64)
  /-- about to load the `value` of the entry -/
  | entry (index : Index) (entry : ℕ)
  /-- about to move the element out -/
  | block (index : Index) (entry : ℕ) (block : β)
  /-- about to destroy the element -/
  | moved (index : Index) (entry : ℕ) (block : β) (element : α)
  /-- about to call `set_empty` -/
  | destroyed (index : Index) (entry : ℕ) (block : β) (element : α)
  /-- about to store `nullptr` in the entry -/
  | emptied (index : Index) (entry : ℕ) (block : β) (element : α)
  /-- about to call `add_block_to_free_list` -/
  | recycle (index : Index) (block : β) (element : α)
  /-- has the result -/
  | done (result : Option α)

/-- What happened so far, in numbers that do not wrap; nothing reads it. `count` and `offset` are
of each header: how many blocks were inserted up to its tail, and the position of block 0. -/
structure History (α β C : Type) where
  enqueued : List α
  tickets : Tickets.State C
  finished : Finset ℕ
  blockOf : ℕ → Option β
  count : ℕ → ℕ
  offset : ℕ → ℕ

/-- `owned` are the blocks that came from `requisition_block` and have not gone back. -/
structure State (α β C : Type) where
  tailIndex : Index
  headIndex : Index
  dequeueOptimisticCount : Index
  dequeueOvercommit : Index
  tailBlock : Option β
  index : BlockIndex β
  blocks : β → Block α
  owned : Set β
  producer : ProducerPc α β
  consumer : C → ConsumerPc α β
  history : History α β C

/-- `publish`, `claim` and `ret` are what a caller can see. -/
inductive Label (α C : Type)
  | call (element : α)
  | publish (element : α)
  | producer
  | start (c : C)
  | claim (c : C)
  | consumer (c : C)
  | ret (c : C) (result : Option α)

variable {α β C : Type}

namespace History

/-- `blockIndex` becomes a copy of header `h` with twice its capacity. -/
def grow (w : History α β C) (h capacity : ℕ) : History α β C :=
  { w with
    count := Function.update w.count (h + 1) (w.count h)
    offset := Function.update w.offset (h + 1) (capacity + (2 * capacity - 1) * w.count h) }

def setCount (w : History α β C) (h n : ℕ) : History α β C :=
  { w with count := Function.update w.count h n }

def link (w : History α β C) (b : β) : History α β C :=
  { w with blockOf := Function.update w.blockOf (w.enqueued.length / 32) (some b) }

def publish (w : History α β C) (element : α) : History α β C :=
  { w with enqueued := w.enqueued ++ [element], tickets := w.tickets.produce }

/-- The element of `c`'s index is gone. -/
def finish (w : History α β C) (c : C) : History α β C :=
  match w.tickets.phase c with
  | .claimed i => { w with finished := insert i w.finished }
  | _ => w

/-- The block of `c`'s index is no longer in the index. -/
def unlink (w : History α β C) (c : C) : History α β C :=
  match w.tickets.phase c with
  | .claimed i => { w with blockOf := Function.update w.blockOf (i / 32) none }
  | _ => w

theorem length_publish (w : History α β C) (x : α) :
    (w.publish x).enqueued.length = w.enqueued.length + 1 := by
  simp [publish]

@[simp] theorem finish_enqueued (w : History α β C) (c : C) :
    (w.finish c).enqueued = w.enqueued := by
  unfold finish
  split <;> rfl

@[simp] theorem finish_tickets (w : History α β C) (c : C) : (w.finish c).tickets = w.tickets := by
  unfold finish
  split <;> rfl

@[simp] theorem finish_blockOf (w : History α β C) (c : C) : (w.finish c).blockOf = w.blockOf := by
  unfold finish
  split <;> rfl

@[simp] theorem finish_count (w : History α β C) (c : C) : (w.finish c).count = w.count := by
  unfold finish
  split <;> rfl

@[simp] theorem finish_offset (w : History α β C) (c : C) : (w.finish c).offset = w.offset := by
  unfold finish
  split <;> rfl

@[simp] theorem unlink_enqueued (w : History α β C) (c : C) :
    (w.unlink c).enqueued = w.enqueued := by
  unfold unlink
  split <;> rfl

@[simp] theorem unlink_tickets (w : History α β C) (c : C) : (w.unlink c).tickets = w.tickets := by
  unfold unlink
  split <;> rfl

@[simp] theorem unlink_finished (w : History α β C) (c : C) :
    (w.unlink c).finished = w.finished := by
  unfold unlink
  split <;> rfl

@[simp] theorem unlink_count (w : History α β C) (c : C) : (w.unlink c).count = w.count := by
  unfold unlink
  split <;> rfl

@[simp] theorem unlink_offset (w : History α β C) (c : C) : (w.unlink c).offset = w.offset := by
  unfold unlink
  split <;> rfl

end History

namespace State

def toProducer (s : State α β C) (pc : ProducerPc α β) : State α β C := { s with producer := pc }

def current (s : State α β C) : ℕ := s.index.current

def withTickets (s : State α β C) (f : Tickets.State C → Tickets.State C) : State α β C :=
  { s with history := { s.history with tickets := f s.history.tickets } }

def setBlock [DecidableEq β] (s : State α β C) (b : β) (block : Block α) : State α β C :=
  { s with blocks := Function.update s.blocks b block }

def toConsumer [DecidableEq C] (s : State α β C) (c : C) (pc : ConsumerPc α β) : State α β C :=
  { s with consumer := Function.update s.consumer c pc }

end State

/-- The only blocks the producer has are those of its index. Its constructor calls
`new_block_index`, which may fail. -/
def Initial (s : State α β C) : Prop :=
  ∃ blocks entries junk,
    let index : BlockIndex β := ⟨[], entries, 0, initialIndexSize⟩
    (s = ⟨0, 0, 0, 0, none, index, blocks, ∅, .idle, fun _ => .idle,
        ⟨[], .initial, ∅, fun _ => none, fun _ => 0, fun _ => 0⟩⟩ ∨
      s = ⟨0, 0, 0, 0, none, index.newBlockIndex junk, blocks, ∅, .idle, fun _ => .idle,
        ⟨[], .initial, ∅, fun _ => none, fun _ => 0, fun _ => 0⟩⟩)

variable [DecidableEq β] [DecidableEq C]

/-- `noexceptCtor`: whether the move constructor of the element cannot throw. -/
inductive Step (noexceptCtor : Bool) : State α β C → Label α C → State α β C → Prop
  | call {s : State α β C} (x : α) (hp : s.producer = .idle) :
      Step noexceptCtor s (.call x)
        (s.toProducer
          (if s.tailIndex &&& (blockSize - 1) = 0 then .boundary x else .construct x))
  | boundary {s : State α β C} {x : α} (hp : s.producer = .boundary x) :
      Step noexceptCtor s .producer
        (s.toProducer
          (if circularLessThan s.headIndex (s.tailIndex + blockSize) then .insert x else .idle))
  | insert {s : State α β C} {x : α} {header : BlockIndexHeader} {e : ℕ}
      (hp : s.producer = .insert x) (hh : s.index.headers.getLast? = some header)
      (he : header.entry header.newTail = e) :
      Step noexceptCtor s .producer
        (s.toProducer
          (if (s.index.entries e).key = invalidBlockBase ∨ (s.index.entries e).value = none then
            .key x e header.newTail
          else .grow x))
  | insertNull {s : State α β C} {x : α} (hp : s.producer = .insert x)
      (hh : s.index.headers = []) :
      Step noexceptCtor s .producer (s.toProducer .idle)
  | key {s : State α β C} {x : α} {e : ℕ} {newTail : UInt64}
      (hp : s.producer = .key x e newTail) :
      Step noexceptCtor s .producer
        { s.toProducer (.tail x e newTail) with index := s.index.setKey e s.tailIndex }
  | growFailed {s : State α β C} {x : α} (hp : s.producer = .grow x) :
      Step noexceptCtor s .producer (s.toProducer .idle)
  | grow {s : State α β C} {x : α} {header : BlockIndexHeader} (junk : ℕ → Option β)
      (hp : s.producer = .grow x) (hh : s.index.headers.getLast? = some header) :
      Step noexceptCtor s .producer
        { s.toProducer (.grown x) with
          index := s.index.newBlockIndex junk
          history := s.history.grow s.current header.capacity.toNat }
  | grown {s : State α β C} {x : α} {header : BlockIndexHeader} (hp : s.producer = .grown x)
      (hh : s.index.headers.getLast? = some header) :
      Step noexceptCtor s .producer
        { s.toProducer (.tail x (header.entry header.newTail) header.newTail) with
          index := s.index.setKey (header.entry header.newTail) s.tailIndex }
  | tail {s : State α β C} {x : α} {e : ℕ} {newTail : UInt64}
      (hp : s.producer = .tail x e newTail) :
      Step noexceptCtor s .producer
        { s.toProducer (.requisition x e) with
          index := s.index.setTail newTail
          history := s.history.setCount s.current (s.history.count s.current + 1) }
  | requisition {s : State α β C} {x : α} {e : ℕ} (b : β) (block : Block α)
      (hp : s.producer = .requisition x e) (hb : b ∉ s.owned) :
      Step noexceptCtor s .producer
        { (s.toProducer (.ready x e b)).setBlock b block.resetEmpty with
          owned := insert b s.owned }
  | requisitionFailed {s : State α β C} {x : α} {e : ℕ} (hp : s.producer = .requisition x e) :
      Step noexceptCtor s .producer (s.toProducer (.rewind e none))
  | rewind {s : State α β C} {e : ℕ} {newBlock : Option β} {header : BlockIndexHeader}
      (hp : s.producer = .rewind e newBlock) (hh : s.index.headers.getLast? = some header) :
      Step noexceptCtor s .producer
        { s.toProducer (.nullify e newBlock) with
          index := s.index.setTail ((header.tail - 1) &&& (header.capacity - 1))
          history := s.history.setCount s.current (s.history.count s.current - 1) }
  | nullify {s : State α β C} {e : ℕ} {newBlock : Option β}
      (hp : s.producer = .nullify e newBlock) :
      Step noexceptCtor s .producer
        { s.toProducer (newBlock.elim .idle .giveUp) with index := s.index.setValue e none }
  | giveUp {s : State α β C} {b : β} (hp : s.producer = .giveUp b) :
      Step noexceptCtor s .producer { s.toProducer .idle with owned := s.owned \ {b} }
  | link {s : State α β C} {x : α} {e : ℕ} {b : β} (hn : noexceptCtor = true)
      (hp : s.producer = .ready x e b) :
      Step noexceptCtor s .producer
        { s.toProducer (.construct x) with
          index := s.index.setValue e (some b)
          tailBlock := some b
          history := s.history.link b }
  | fill {s : State α β C} {x : α} {e : ℕ} {b : β} (hn : noexceptCtor = false)
      (hp : s.producer = .ready x e b) :
      Step noexceptCtor s .producer
        ((s.toProducer (.filled x e b)).setBlock b ((s.blocks b).construct s.tailIndex x))
  | fillThrows {s : State α β C} {x : α} {e : ℕ} {b : β} (hn : noexceptCtor = false)
      (hp : s.producer = .ready x e b) :
      Step noexceptCtor s .producer (s.toProducer (.rewind e (some b)))
  | linkFilled {s : State α β C} {x : α} {e : ℕ} {b : β} (hp : s.producer = .filled x e b) :
      Step noexceptCtor s .producer
        { s.toProducer (.publish x) with
          index := s.index.setValue e (some b)
          tailBlock := some b
          history := s.history.link b }
  | construct {s : State α β C} {x : α} {b : β} (hp : s.producer = .construct x)
      (hb : s.tailBlock = some b) :
      Step noexceptCtor s .producer
        ((s.toProducer (.publish x)).setBlock b ((s.blocks b).construct s.tailIndex x))
  | constructThrows {s : State α β C} {x : α} (hn : noexceptCtor = false)
      (hp : s.producer = .construct x) :
      Step noexceptCtor s .producer (s.toProducer .idle)
  | publish {s : State α β C} {x : α} (hp : s.producer = .publish x) :
      Step noexceptCtor s (.publish x)
        { s.toProducer .idle with
          tailIndex := 1 + s.tailIndex
          history := s.history.publish x }
  | start {s : State α β C} {c : C} (hc : s.consumer c = .idle) :
      Step noexceptCtor s (.start c) (s.toConsumer c .start)
  | readTail {s : State α β C} {c : C} (hc : s.consumer c = .start) :
      Step noexceptCtor s (.consumer c) (s.toConsumer c (.tailRead s.tailIndex))
  | readOvercommit {s : State α β C} {c : C} {t : Index} (hc : s.consumer c = .tailRead t) :
      Step noexceptCtor s (.consumer c)
        ((s.toConsumer c (.overcommitRead t s.dequeueOvercommit)).withTickets (·.read c))
  | optimistic {s : State α β C} {c : C} {t o : Index}
      (hc : s.consumer c = .overcommitRead t o)
      (hl : circularLessThan (s.dequeueOptimisticCount - o) t) :
      Step noexceptCtor s (.consumer c) (s.toConsumer c (.optimistic o))
  | hopeless {s : State α β C} {c : C} {t o : Index}
      (hc : s.consumer c = .overcommitRead t o)
      (hl : ¬ circularLessThan (s.dequeueOptimisticCount - o) t) :
      Step noexceptCtor s (.consumer c)
        ((s.toConsumer c (.done none)).withTickets (·.leave c))
  | count {s : State α β C} {c : C} {o : Index} (hc : s.consumer c = .optimistic o) :
      Step noexceptCtor s (.consumer c)
        { (s.toConsumer c (.counted o s.dequeueOptimisticCount)).withTickets (·.draw c) with
          dequeueOptimisticCount := s.dequeueOptimisticCount + 1 }
  | grant {s : State α β C} {c : C} {o m : Index} (hc : s.consumer c = .counted o m)
      (hl : circularLessThan (m - o) s.tailIndex) :
      Step noexceptCtor s (.consumer c)
        ((s.toConsumer c .granted).withTickets (·.grant c))
  | refuse {s : State α β C} {c : C} {o m : Index} (hc : s.consumer c = .counted o m)
      (hl : ¬ circularLessThan (m - o) s.tailIndex) :
      Step noexceptCtor s (.consumer c)
        ((s.toConsumer c .refused).withTickets (·.refuse c))
  | giveBack {s : State α β C} {c : C} (hc : s.consumer c = .refused) :
      Step noexceptCtor s (.consumer c)
        { (s.toConsumer c (.done none)).withTickets (·.giveBack c) with
          dequeueOvercommit := s.dequeueOvercommit + 1 }
  | claim {s : State α β C} {c : C} (hc : s.consumer c = .granted) :
      Step noexceptCtor s (.claim c)
        { (s.toConsumer c (.index s.headIndex)).withTickets (·.claim c) with
          headIndex := s.headIndex + 1 }
  | readHeader {s : State α β C} {c : C} {i : Index} (hc : s.consumer c = .index i)
      (hh : s.index.headers ≠ []) :
      Step noexceptCtor s (.consumer c) (s.toConsumer c (.header i s.current))
  | readHeaderTail {s : State α β C} {c : C} {i : Index} {h : ℕ} {header : BlockIndexHeader}
      (hc : s.consumer c = .header i h) (hh : s.index.headers[h]? = some header) :
      Step noexceptCtor s (.consumer c) (s.toConsumer c (.tail i h header.tail))
  | readKey {s : State α β C} {c : C} {i : Index} {h : ℕ} {t : UInt64}
      {header : BlockIndexHeader} (hc : s.consumer c = .tail i h t)
      (hh : s.index.headers[h]? = some header) :
      Step noexceptCtor s (.consumer c)
        (s.toConsumer c (.entry i (header.entry (blockIndexIndex header.capacity t
          (s.index.entries (header.entry t)).key i))))
  | readValue {s : State α β C} {c : C} {i : Index} {e : ℕ} {b : β}
      (hc : s.consumer c = .entry i e) (hv : (s.index.entries e).value = some b) :
      Step noexceptCtor s (.consumer c) (s.toConsumer c (.block i e b))
  | move {s : State α β C} {c : C} {i : Index} {e : ℕ} {b : β} {x : α}
      (hc : s.consumer c = .block i e b) (hx : (s.blocks b).elements (slot i) = some x) :
      Step noexceptCtor s (.consumer c) (s.toConsumer c (.moved i e b x))
  | destroy {s : State α β C} {c : C} {i : Index} {e : ℕ} {b : β} {x : α}
      (hc : s.consumer c = .moved i e b x) :
      Step noexceptCtor s (.consumer c)
        ((s.toConsumer c (.destroyed i e b x)).setBlock b ((s.blocks b).destroy i))
  | setEmpty {s : State α β C} {c : C} {i : Index} {e : ℕ} {b : β} {x : α}
      (hc : s.consumer c = .destroyed i e b x) (hb : (s.blocks b).setEmpty.1 = false) :
      Step noexceptCtor s (.consumer c)
        { (s.toConsumer c (.done (some x))).setBlock b (s.blocks b).setEmpty.2 with
          history := s.history.finish c }
  | setEmptyLast {s : State α β C} {c : C} {i : Index} {e : ℕ} {b : β} {x : α}
      (hc : s.consumer c = .destroyed i e b x) (hb : (s.blocks b).setEmpty.1 = true) :
      Step noexceptCtor s (.consumer c)
        { (s.toConsumer c (.emptied i e b x)).setBlock b (s.blocks b).setEmpty.2 with
          history := s.history.finish c }
  | unlink {s : State α β C} {c : C} {i : Index} {e : ℕ} {b : β} {x : α}
      (hc : s.consumer c = .emptied i e b x) :
      Step noexceptCtor s (.consumer c)
        { s.toConsumer c (.recycle i b x) with
          index := s.index.setValue e none
          history := s.history.unlink c }
  | recycle {s : State α β C} {c : C} {i : Index} {b : β} {x : α}
      (hc : s.consumer c = .recycle i b x) :
      Step noexceptCtor s (.consumer c)
        { s.toConsumer c (.done (some x)) with owned := s.owned \ {b} }
  | ret {s : State α β C} {c : C} {result : Option α} (hc : s.consumer c = .done result) :
      Step noexceptCtor s (.ret c result) ((s.toConsumer c .idle).withTickets (·.release c))

end NodesDetector.Queue
