import NodesDetector.Library.Fifo
import NodesDetector.Library.ProducerQueue

/-! A queue of many producers as its callers see it: between its start and its return every call
takes effect at one moment. -/
namespace AtomicQueue

open ProducerQueue Transition

/-- Where a taker is: outside, in a call that has not taken effect, or in one that has. -/
inductive Call (α : Type*)
  | idle
  | called
  | holds (result : Option α)

/-- Elements with their producers, oldest first. -/
structure State (π α ι : Type*) where
  line : List (π × α)
  call : ι → Call α

inductive Label (π α ι : Type*)
  | push (p : π) (x : α)
  | start (c : ι)
  | ret (c : ι) (result : Option α)

variable {π α ι : Type*}

def State.initial : State π α ι := ⟨[], fun _ => .idle⟩

variable [DecidableEq ι]

def State.setCall (s : State π α ι) (c : ι) (call : Call α) : State π α ι :=
  { s with call := Function.update s.call c call }

/-- `strict`: a call takes nothing only from an empty queue. -/
inductive Step (strict : Bool) : State π α ι → Option (Label π α ι) → State π α ι → Prop
  | push (s : State π α ι) (p : π) (x : α) :
      Step strict s (some (.push p x)) { s with line := s.line ++ [(p, x)] }
  | start {s : State π α ι} {c : ι} (hc : s.call c = .idle) :
      Step strict s (some (.start c)) (s.setCall c .called)
  | take {s : State π α ι} {c : ι} {p : π} {x : α} {line : List (π × α)}
      (hc : s.call c = .called) (hq : Take Prod.fst s.line (p, x) line) :
      Step strict s none { s.setCall c (.holds (some x)) with line := line }
  | miss {s : State π α ι} {c : ι} (hc : s.call c = .called)
      (hq : strict = true → s.line = []) : Step strict s none (s.setCall c (.holds none))
  | ret {s : State π α ι} {c : ι} {result : Option α} (hc : s.call c = .holds result) :
      Step strict s (some (.ret c result)) (s.setCall c .idle)

variable {strict : Bool} {s t : State π α ι} {c : ι} {as : List (Label π α ι)}

/-! ### What goes in and what comes out -/

def Label.pushed : Label π α ι → Option α
  | .push _ x => some x
  | _ => none

def Label.result : Label π α ι → Option α
  | .ret _ result => result
  | _ => none

def pushed (as : List (Label π α ι)) : List α := as.filterMap Label.pushed

def results (as : List (Label π α ι)) : List α := as.filterMap Label.result

/-- What a call has taken. -/
def Call.taken : Call α → Option α
  | .holds result => result
  | .idle | .called => none

variable [Fintype ι]

/-- The elements taken and not returned. -/
def State.inHand (s : State π α ι) : Multiset α := ∑ c, Fifo.ofOption (s.call c).taken

theorem inHand_setCall (s : State π α ι) (c : ι) (call : Call α) :
    (s.setCall c call).inHand + Fifo.ofOption (s.call c).taken =
      s.inHand + Fifo.ofOption call.taken := by
  have hmap : ∀ c', (Function.update s.call c call c').taken =
      Function.update (fun c' => (s.call c').taken) c call.taken c' := by
    intro c'
    rcases eq_or_ne c' c with rfl | hne
    · simp
    · simp [Function.update_of_ne hne]
  have hsum := Fifo.sum_update (fun c' => (s.call c').taken) c call.taken
  simp only [State.inHand, State.setCall, hmap]
  exact hsum

/-- The elements in line. -/
def State.inLine (s : State π α ι) : Multiset α := s.line.map Prod.snd

omit [DecidableEq ι] [Fintype ι] in
theorem inLine_take {line : List (π × α)} {p : π} {x : α} (h : Take Prod.fst s.line (p, x) line) :
    s.inLine = Fifo.ofOption (some x) + (line.map Prod.snd : List α) := by
  generalize hl : s.line = l at h
  cases h with
  | mk pre post _ first =>
    simp only [State.inLine, hl, List.map_append, List.map_cons, ← Multiset.coe_add,
      ← Multiset.cons_coe, ← Multiset.singleton_add, Fifo.ofOption, Option.elim_some]
    ac_rfl

theorem step_conservation {b : Option (Label π α ι)} (hs : Step strict s b t) :
    Fifo.ofOption (b.bind Label.result) + (t.inHand + t.inLine) =
      s.inHand + s.inLine + Fifo.ofOption (b.bind Label.pushed) := by
  have hzero : Fifo.ofOption (none : Option α) = 0 := rfl
  cases hs with
  | push p x =>
    have hline : State.inLine ⟨s.line ++ [(p, x)], s.call⟩ = s.inLine + Fifo.ofOption (some x) := by
      simp [State.inLine, Fifo.ofOption, ← Multiset.coe_add]
    show 0 + (s.inHand + State.inLine ⟨s.line ++ [(p, x)], s.call⟩) = _
    rw [hline, zero_add, ← add_assoc]
    rfl
  | @start c hc =>
    have hhand := inHand_setCall s c .called
    simp only [hc, Call.taken, hzero, add_zero] at hhand
    show 0 + ((s.setCall c .called).inHand + s.inLine) = _ + 0
    rw [hhand, zero_add, add_zero]
  | @take c p x line hc hq =>
    have hhand := inHand_setCall s c (.holds (some x))
    simp only [hc, Call.taken, hzero, add_zero] at hhand
    show 0 + ((s.setCall c (.holds (some x))).inHand + (line.map Prod.snd : List α)) = _ + 0
    rw [hhand, inLine_take hq, zero_add, add_zero, add_assoc]
  | @miss c hc =>
    have hhand := inHand_setCall s c (.holds none)
    simp only [hc, Call.taken, hzero, add_zero] at hhand
    show 0 + ((s.setCall c (.holds none)).inHand + s.inLine) = _ + 0
    rw [hhand, zero_add, add_zero]
  | @ret c result hc =>
    have hhand := inHand_setCall s c .idle
    simp only [hc, Call.taken, hzero, add_zero] at hhand
    show Fifo.ofOption result + ((s.setCall c .idle).inHand + s.inLine) = _ + 0
    rw [← hhand, add_zero]
    ac_rfl

omit [DecidableEq ι] [Fintype ι] in
theorem filterMap_append_toList (f : Label π α ι → Option α) (as : List (Label π α ι))
    (b : Option (Label π α ι)) :
    (((as ++ b.toList).filterMap f : List α) : Multiset α) =
      (as.filterMap f : List α) + Fifo.ofOption (b.bind f) := by
  rw [List.filterMap_append, ← Multiset.coe_add]
  cases b with
  | none => rfl
  | some a => cases hf : f a <;> simp [hf, Fifo.ofOption]

/-- Whatever was pushed has been returned once, is in one call's hand or is in line. -/
theorem conservation (h : WeakRun (Step strict) .initial as t) :
    (results as : Multiset α) + (t.inHand + t.inLine) = (pushed as : List α) := by
  have hinit : (State.initial : State π α ι).inHand + (State.initial : State π α ι).inLine = 0 := by
    simp [State.initial, State.inHand, State.inLine, Call.taken, Fifo.ofOption]
  refine h.invariant (I := fun (as : List (Label π α ι)) (t : State π α ι) =>
    (results as : Multiset α) + (t.inHand + t.inLine) = (pushed as : List α)) ?_ ?_
  · intro as s b t hs hi
    rw [results, pushed] at hi ⊢
    rw [filterMap_append_toList, filterMap_append_toList, ← hi, add_assoc, step_conservation hs]
    ac_rfl
  · rw [hinit]
    rfl

end AtomicQueue
