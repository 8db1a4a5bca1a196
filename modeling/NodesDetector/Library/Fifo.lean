import Mathlib.Algebra.BigOperators.Group.Finset.Basic
import Mathlib.Data.List.Sublists
import NodesDetector.Library.Transition

/-! A first-in-first-out queue with any number of takers, who take an element in one step and hand
it over in another. -/
namespace Fifo

/-- The elements in line, oldest first, and what each taker has in hand. -/
structure State (α ι : Type*) where
  queue : List α
  taken : ι → Option α

inductive Label (α ι : Type*)
  | push (x : α)
  | take (c : ι)
  | ret (c : ι) (result : Option α)

variable {α ι : Type*}

def State.initial : State α ι := ⟨[], fun _ => none⟩

/-- A taker that took nothing returns `none`. -/
inductive Step [DecidableEq ι] : State α ι → Label α ι → State α ι → Prop
  | push (s : State α ι) (x : α) : Step s (.push x) { s with queue := s.queue ++ [x] }
  | take {s : State α ι} {c : ι} {x : α} {q : List α} (hc : s.taken c = none)
      (hq : s.queue = x :: q) : Step s (.take c) ⟨q, Function.update s.taken c (some x)⟩
  | ret (s : State α ι) (c : ι) :
      Step s (.ret c (s.taken c)) { s with taken := Function.update s.taken c none }

/-! ### What goes in and what comes out -/

def Label.pushed : Label α ι → Option α
  | .push x => some x
  | _ => none

def Label.result : Label α ι → Option α
  | .ret _ r => r
  | _ => none

/-- The result handed to taker `c`. -/
def Label.resultOf [DecidableEq ι] (c : ι) : Label α ι → Option α
  | .ret c' r => if c' = c then r else none
  | _ => none

def pushed (as : List (Label α ι)) : List α := as.filterMap Label.pushed

def results (as : List (Label α ι)) : List α := as.filterMap Label.result

def resultsOf [DecidableEq ι] (c : ι) (as : List (Label α ι)) : List α :=
  as.filterMap (Label.resultOf c)

/-- What taker `c` has in hand, then what is left. -/
def State.inLine (s : State α ι) (c : ι) : List α := (s.taken c).toList ++ s.queue

theorem filterMap_cons_toList {β γ : Type*} (f : β → Option γ) (b : β) (l : List β) :
    (b :: l).filterMap f = (f b).toList ++ l.filterMap f := by
  cases hb : f b with
  | none => simp [hb]
  | some c => simp [hb]

variable [DecidableEq ι] {s t : State α ι} {a : Label α ι} {as : List (Label α ι)}

theorem step_sublist (hs : Step s a t) (c : ι) :
    ((a.resultOf c).toList ++ t.inLine c).Sublist (s.inLine c ++ a.pushed.toList) := by
  cases hs with
  | push x => simp [State.inLine, Label.resultOf, Label.pushed]
  | @take c' x q hc hq =>
    rcases eq_or_ne c c' with rfl | hne
    · simp [State.inLine, Label.resultOf, Label.pushed, hc, hq]
    · simp [State.inLine, Label.resultOf, Label.pushed, Function.update_of_ne hne, hq]
  | ret c' =>
    rcases eq_or_ne c' c with rfl | hne
    · simp [State.inLine, Label.resultOf, Label.pushed]
    · simp [State.inLine, Label.resultOf, Label.pushed, Function.update_of_ne hne.symm, if_neg hne]

/-- Every taker gets elements in the order in which they were pushed. -/
theorem run_sublist (h : Transition.Run Step s as t) (c : ι) :
    (resultsOf c as ++ t.inLine c).Sublist (s.inLine c ++ pushed as) := by
  induction h with
  | refl => simp [resultsOf, pushed]
  | @stepL s u t a as hs _ ih =>
    rw [resultsOf, pushed, filterMap_cons_toList, filterMap_cons_toList, List.append_assoc,
      ← List.append_assoc (s.inLine c)]
    calc ((a.resultOf c).toList ++ (resultsOf c as ++ t.inLine c)).Sublist
          ((a.resultOf c).toList ++ (u.inLine c ++ pushed as)) := ih.append_left _
      _ = (a.resultOf c).toList ++ u.inLine c ++ pushed as := (List.append_assoc _ _ _).symm
      List.Sublist _ (s.inLine c ++ a.pushed.toList ++ pushed as) :=
        (step_sublist hs c).append_right _

/-- From an empty queue a taker gets some of what was pushed, in order. -/
theorem results_sublist (h : Transition.Run Step .initial as t) (c : ι) :
    (resultsOf c as).Sublist (pushed as) :=
  (List.sublist_append_left _ _).trans (run_sublist h c)

/-! ### Nothing is lost, made up or handed over twice -/

/-- The multiset of at most one element. -/
def ofOption (x : Option α) : Multiset α := x.elim 0 ({·})

variable [Fintype ι]

/-- The elements taken and not handed over. -/
def State.inHand (s : State α ι) : Multiset α := ∑ c, ofOption (s.taken c)

theorem sum_update (f : ι → Option α) (c : ι) (x : Option α) :
    ∑ c', ofOption (Function.update f c x c') + ofOption (f c) =
      ∑ c', ofOption (f c') + ofOption x := by
  have hrest : ∑ c' ∈ Finset.univ.erase c, ofOption (Function.update f c x c') =
      ∑ c' ∈ Finset.univ.erase c, ofOption (f c') := by
    apply Finset.sum_congr rfl
    intro c' hc'
    rw [Function.update_of_ne (Finset.ne_of_mem_erase hc')]
  rw [← Finset.add_sum_erase _ _ (Finset.mem_univ c), hrest, Function.update_self,
    ← Finset.add_sum_erase Finset.univ (fun c' => ofOption (f c')) (Finset.mem_univ c)]
  ac_rfl

theorem step_conservation (hs : Step s a t) :
    ofOption a.result + (t.inHand + t.queue) = s.inHand + s.queue + ofOption a.pushed := by
  cases hs with
  | push x =>
    show 0 + (s.inHand + ↑(s.queue ++ [x])) = s.inHand + s.queue + {x}
    rw [zero_add, ← Multiset.coe_add, ← add_assoc, Multiset.coe_singleton]
  | @take c x q hc hq =>
    have hhand := sum_update s.taken c (some x)
    rw [hc, show ofOption (none : Option α) = 0 from rfl, add_zero] at hhand
    show 0 + (∑ c', ofOption (Function.update s.taken c (some x) c') + ↑q) = s.inHand + s.queue + 0
    rw [hhand, hq, ← Multiset.cons_coe, ← Multiset.singleton_add, zero_add, add_zero, add_assoc]
    rfl
  | ret c =>
    have hhand := sum_update s.taken c none
    show ofOption (s.taken c) + (∑ c', ofOption (Function.update s.taken c none c') + s.queue) =
      s.inHand + s.queue + 0
    rw [← add_assoc, add_comm (ofOption _), hhand, show ofOption (none : Option α) = 0 from rfl,
      add_zero, add_zero]
    rfl

/-- Whatever went in is handed over once, is in one taker's hand, or is in line. -/
theorem run_conservation (h : Transition.Run Step s as t) :
    (results as : Multiset α) + (t.inHand + t.queue) = s.inHand + s.queue + pushed as := by
  have hcons : ∀ (f : Label α ι → Option α) (a : Label α ι) (as : List (Label α ι)),
      (((a :: as).filterMap f : List α) : Multiset α) = ofOption (f a) + as.filterMap f := by
    intro f a as
    rw [filterMap_cons_toList]
    cases f a with
    | none => exact (zero_add _).symm
    | some x => rfl
  induction h with
  | refl => exact (zero_add _).trans (add_zero _).symm
  | @stepL s u t a as hs _ ih =>
    rw [results, pushed] at ih ⊢
    rw [hcons, hcons, add_assoc, ih, ← add_assoc, step_conservation hs, add_assoc]

/-- The same from an empty queue. -/
theorem results_conservation (h : Transition.Run Step .initial as t) :
    (results as : Multiset α) + (t.inHand + t.queue) = pushed as := by
  have hzero : (State.initial : State α ι).inHand = 0 := by
    simp [State.initial, State.inHand, ofOption]
  rw [run_conservation h, hzero]
  exact (congrArg (· + (pushed as : Multiset α)) (zero_add 0)).trans (zero_add _)

end Fifo
