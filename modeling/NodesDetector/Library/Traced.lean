import Mathlib.Control.Monad.Writer

/-! Computations that log what they touch, and predicates on every event of the log. -/

/-- A computation with the events it emits, oldest first. -/
abbrev Traced (ε : Type) := Writer (List ε)

namespace Traced

variable {ε α β : Type} {P Q : ε → Prop}

def val (x : Traced ε α) : α := x.run.1

def log (x : Traced ε α) : List ε := x.run.2

/-- Log one event. -/
def emit (e : ε) : Traced ε Unit := tell [e]

/-- Log several events. -/
def emitAll (es : List ε) : Traced ε Unit := tell es

/-- Every event of the computation satisfies `P`. -/
def Always (P : ε → Prop) (x : Traced ε α) : Prop := ∀ e ∈ x.log, P e

@[simp] theorem val_pure (a : α) : val (pure a : Traced ε α) = a := rfl

@[simp] theorem log_pure (a : α) : log (pure a : Traced ε α) = [] := rfl

@[simp] theorem val_bind (x : Traced ε α) (f : α → Traced ε β) :
    val (x >>= f) = val (f (val x)) := rfl

@[simp] theorem log_bind (x : Traced ε α) (f : α → Traced ε β) :
    log (x >>= f) = log x ++ log (f (val x)) := rfl

@[simp] theorem val_emit (e : ε) : val (emit e) = () := rfl

@[simp] theorem log_emit (e : ε) : log (emit e) = [e] := rfl

@[simp] theorem val_emitAll (es : List ε) : val (emitAll es) = () := rfl

@[simp] theorem log_emitAll (es : List ε) : log (emitAll es) = es := rfl

@[simp] theorem val_ite (c : Prop) [Decidable c] (x y : Traced ε α) :
    val (if c then x else y) = if c then val x else val y := apply_ite val c x y

@[simp] theorem log_ite (c : Prop) [Decidable c] (x y : Traced ε α) :
    log (if c then x else y) = if c then log x else log y := apply_ite log c x y

/-- Computations are equal when their results and logs are. -/
theorem ext_iff {x y : Traced ε α} : x = y ↔ val x = val y ∧ log x = log y :=
  Prod.ext_iff

/-- The rest of a sequence runs on one value only, so it may be compared there. -/
theorem bind_congr {x y : Traced ε α} {f g : α → Traced ε β} (hx : x = y)
    (hf : f (val y) = g (val y)) : x >>= f = y >>= g := by
  rw [ext_iff, hx]
  simp [hf]

@[simp] theorem always_pure (a : α) : Always P (pure a : Traced ε α) := by
  simp [Always]

@[simp] theorem always_emit {e : ε} : Always P (emit e) ↔ P e := by
  simp [Always]

@[simp] theorem always_emitAll {es : List ε} : Always P (emitAll es) ↔ ∀ e ∈ es, P e := by
  simp [Always]

/-- A sequence satisfies `P` throughout when both of its parts do. -/
@[simp] theorem always_bind {x : Traced ε α} {f : α → Traced ε β} :
    Always P (x >>= f) ↔ Always P x ∧ Always P (f (val x)) := by
  simp [Always, or_imp, forall_and]

@[simp] theorem always_ite {c : Prop} [Decidable c] {x y : Traced ε α} :
    Always P (if c then x else y) ↔ (c → Always P x) ∧ (¬ c → Always P y) := by
  by_cases hc : c <;> simp [hc]

end Traced
