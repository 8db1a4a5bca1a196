import Mathlib.Data.List.Induction
import Mathlib.Data.List.ReduceOption

/-! Labelled transition systems: finite runs, reachable states and inductive invariants. -/
namespace Transition

variable {σ τ α β : Type*} {step : σ → α → σ → Prop} {init : σ → Prop} {s t u : σ}
  {a : α} {as bs : List α}

/-- `Run step s as t`: the labels `as`, in order, lead from `s` to `t`. -/
inductive Run (step : σ → α → σ → Prop) : σ → List α → σ → Prop
  | refl {s : σ} : Run step s [] s
  | stepL {s t u : σ} {a : α} {as : List α} :
      step s a t → Run step t as u → Run step s (a :: as) u

/-- `s` is the end of some run from an initial state. -/
def Reachable (step : σ → α → σ → Prop) (init : σ → Prop) (s : σ) : Prop :=
  ∃ s₀ as, init s₀ ∧ Run step s₀ as s

theorem Run.append (h : Run step s as t) (h' : Run step t bs u) : Run step s (as ++ bs) u := by
  induction h with
  | refl => exact h'
  | stepL hs _ ih => exact .stepL hs (ih h')

theorem Run.snoc (h : Run step s as t) (hs : step t a u) : Run step s (as ++ [a]) u :=
  h.append (.stepL hs .refl)

/-- One more step in front of a run whose end is left open. -/
theorem Run.exists_stepL {P : σ → Prop} (hs : step s a t) (h : ∃ u, Run step t as u ∧ P u) :
    ∃ u, Run step s (a :: as) u ∧ P u := by
  obtain ⟨u, hr, hp⟩ := h
  exact ⟨u, .stepL hs hr, hp⟩

theorem Reachable.initial (h : init s) : Reachable step init s := ⟨s, [], h, .refl⟩

theorem Reachable.tail (h : Reachable step init s) (hs : step s a t) : Reachable step init t := by
  obtain ⟨s₀, as, hi, hr⟩ := h
  exact ⟨s₀, as ++ [a], hi, hr.snoc hs⟩

/-- What every step preserves, every run preserves. -/
theorem Run.invariant {I : σ → Prop} (hstep : ∀ s a t, step s a t → I s → I t)
    (h : Run step s as t) (hs : I s) : I t := by
  induction h with
  | refl => exact hs
  | stepL hst _ ih => exact ih (hstep _ _ _ hst hs)

/-- An invariant holds in every reachable state. -/
theorem Reachable.invariant {I : σ → Prop} (hinit : ∀ s, init s → I s)
    (hstep : ∀ s a t, step s a t → I s → I t) (h : Reachable step init s) : I s := by
  obtain ⟨s₀, as, hi, hr⟩ := h
  exact hr.invariant hstep (hinit s₀ hi)

/-- `left s k` says that `k` counted steps are enough from `s` on. Where every counted step uses one
up and only the steps in `more` allow for others, a run without these has at most as many counted
steps as were enough at its beginning. -/
theorem Run.countP_le_of (left : σ → ℕ → Prop) (counted : α → Bool) (more : α → Prop)
    (hstep : ∀ s a t k, step s a t → ¬ more a → left s k →
      ∃ k', left t k' ∧ k' + (if counted a then 1 else 0) ≤ k)
    (h : Run step s as t) (hmore : ∀ a ∈ as, ¬ more a) {k : ℕ} (hk : left s k) :
    as.countP counted ≤ k := by
  induction h generalizing k with
  | refl => exact Nat.zero_le k
  | @stepL s u t a as hst _ ih =>
    obtain ⟨k', hk', hle⟩ := hstep s a u k hst (hmore a List.mem_cons_self) hk
    have hle' := ih (fun b hb => hmore b (List.mem_cons_of_mem _ hb)) hk'
    rw [List.countP_cons]
    omega

/-- Where every visible step is one of an abstract system and no other step changes the abstract
state, every run is one of the abstract system. -/
theorem Run.refines {I : σ → Prop} {step' : τ → β → τ → Prop} {abs : σ → τ}
    {visible : α → Option β} (hstep : ∀ s a t, step s a t → I s → I t)
    (hvis : ∀ s a b t, step s a t → I s → visible a = some b → step' (abs s) b (abs t))
    (hsilent : ∀ s a t, step s a t → I s → visible a = none → abs t = abs s)
    (h : Run step s as t) (hs : I s) : Run step' (abs s) (as.filterMap visible) (abs t) := by
  induction h with
  | refl => exact .refl
  | @stepL s u t a as hst _ ih =>
    have hrun := ih (hstep _ _ _ hst hs)
    cases ha : visible a with
    | none =>
      rw [List.filterMap_cons_none ha, ← hsilent _ _ _ hst hs ha]
      exact hrun
    | some b =>
      rw [List.filterMap_cons_some ha]
      exact .stepL (hvis _ _ _ _ hst hs ha) hrun

/-! ### Silent steps -/

/-- A run whose labels other than `none` are `as`. -/
def WeakRun (step : σ → Option α → σ → Prop) (s : σ) (as : List α) (t : σ) : Prop :=
  ∃ bs, Run step s bs t ∧ bs.reduceOption = as

section

variable {step : σ → Option α → σ → Prop}

theorem WeakRun.refl : WeakRun step s [] s := ⟨[], .refl, rfl⟩

theorem WeakRun.append (h : WeakRun step s as t) (h' : WeakRun step t bs u) :
    WeakRun step s (as ++ bs) u := by
  obtain ⟨xs, hxs, rfl⟩ := h
  obtain ⟨ys, hys, rfl⟩ := h'
  exact ⟨xs ++ ys, hxs.append hys, List.reduceOption_append xs ys⟩

theorem WeakRun.visible (hs : step s (some a) t) : WeakRun step s [a] t :=
  ⟨[some a], .stepL hs .refl, rfl⟩

theorem WeakRun.silent (hs : step s none t) : WeakRun step s [] t := ⟨[none], .stepL hs .refl, rfl⟩

/-- What every step, seen or unseen, preserves together with what was seen. -/
theorem Run.seen_invariant {I : List α → σ → Prop} {bs : List (Option α)}
    (hstep : ∀ as s b t, step s b t → I as s → I (as ++ b.toList) t) (h : Run step s bs t)
    (hs : I as s) : I (as ++ bs.reduceOption) t := by
  induction h generalizing as with
  | refl => simpa using hs
  | @stepL s u t b bs hst _ ih =>
    have hi := ih (hstep _ _ _ _ hst hs)
    cases b with
    | none => simpa using hi
    | some a => simpa using hi

theorem WeakRun.invariant {I : List α → σ → Prop}
    (hstep : ∀ as s b t, step s b t → I as s → I (as ++ b.toList) t) (h : WeakRun step s as t)
    (hs : I [] s) : I as t := by
  obtain ⟨bs, hbs, rfl⟩ := h
  exact hbs.seen_invariant hstep hs

end

/-! ### Deterministic systems -/

variable {next : σ → α → σ} {I : σ → Prop} {C : σ → α → Prop}

/-- The state after a schedule. -/
def exec (next : σ → α → σ) (s : σ) (as : List α) : σ := as.foldl next s

theorem exec_snoc : exec next s (as ++ [a]) = next (exec next s as) a := by
  simp [exec]

/-- Where a step keeps `I` exactly under `C`, `I` holds throughout a schedule exactly when every
step of it meets `C`. -/
theorem exec_invariant_iff (hinit : I s) (hnext : ∀ s a, I s → (I (next s a) ↔ C s a)) :
    (∀ bs, bs <+: as → I (exec next s bs)) ↔
      ∀ bs a, bs ++ [a] <+: as → C (exec next s bs) a := by
  constructor
  · intro h bs a hp
    have hbs : bs <+: as := (List.prefix_append bs [a]).trans hp
    have ha := h (bs ++ [a]) hp
    rw [exec_snoc] at ha
    exact (hnext _ a (h bs hbs)).mp ha
  · intro h bs hp
    induction bs using List.reverseRecOn with
    | nil => exact hinit
    | append_singleton bs a ih =>
      rw [exec_snoc]
      exact (hnext _ a (ih ((List.prefix_append bs [a]).trans hp))).mpr (h bs a hp)

end Transition
