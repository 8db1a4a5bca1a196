import Mathlib.Data.Set.Insert
import NodesDetector.Library.Transition

/-! Things that are handed out to one user at a time. -/
namespace Exclusive

open Transition

/-- `i` is given `v`, is given nothing, or gives `v` back. -/
inductive Label (ι β : Type*)
  | take (i : ι) (v : β)
  | refuse (i : ι)
  | give (i : ι) (v : β)

variable {ι β : Type*} {out out' : Set β} {as : List (Label ι β)}

/-- What is out is not handed out again, and only what is out comes back. -/
inductive Step : Set β → Label ι β → Set β → Prop
  | take {out : Set β} {i : ι} {v : β} (hv : v ∉ out) : Step out (.take i v) (insert v out)
  | refuse {out : Set β} {i : ι} : Step out (.refuse i) out
  | give {out : Set β} {i : ι} {v : β} (hv : v ∈ out) : Step out (.give i v) (out \ {v})

/-- The same as an object whose every step is seen. -/
def Object (out : Set β) (a : Option (Label ι β)) (out' : Set β) : Prop :=
  ∃ l, a = some l ∧ Step out l out'

theorem weakRun_of_run (h : Run Step out as out') : WeakRun Object out as out' := by
  induction h with
  | refl => exact .refl
  | stepL hs _ ih => exact (WeakRun.visible ⟨_, rfl, hs⟩).append ih

end Exclusive
