import NodesDetector.Library.Transition

/-! A client and the object it calls, side by side: a client cannot tell two objects apart that have
the same visible runs. -/
namespace Client

open Transition

variable {κ σ τ α β : Type*}

/-- The client takes a step of its own, takes one together with the object, or the object takes one
that nobody sees. -/
inductive Step (client : κ → Option α → Option β → κ → Prop) (object : σ → Option α → σ → Prop) :
    κ × σ → Option β → κ × σ → Prop
  | own {k k' : κ} {s : σ} {b : Option β} (hk : client k none b k') :
      Step client object (k, s) b (k', s)
  | sync {k k' : κ} {s s' : σ} {a : α} {b : Option β} (hk : client k (some a) b k')
      (hs : object s (some a) s') : Step client object (k, s) b (k', s')
  | object {k : κ} {s s' : σ} (hs : object s none s') : Step client object (k, s) none (k, s')

/-- What the client does when the object does `as`, with `bs` to be seen outside. -/
inductive Calls (client : κ → Option α → Option β → κ → Prop) :
    κ → List α → List β → κ → Prop
  | refl {k : κ} : Calls client k [] [] k
  | own {k k' k'' : κ} {as : List α} {b : Option β} {bs : List β} (hk : client k none b k')
      (h : Calls client k' as bs k'') : Calls client k as (b.toList ++ bs) k''
  | sync {k k' k'' : κ} {a : α} {as : List α} {b : Option β} {bs : List β}
      (hk : client k (some a) b k') (h : Calls client k' as bs k'') :
      Calls client k (a :: as) (b.toList ++ bs) k''

variable {client : κ → Option α → Option β → κ → Prop} {object : σ → Option α → σ → Prop}
  {object' : τ → Option α → τ → Prop} {k k' : κ} {s s' : σ} {r r' : τ} {as : List α} {bs : List β}

theorem weakRun_cons {b : Option β} {x y z : κ × σ} (hs : Step client object x b y)
    (h : WeakRun (Step client object) y bs z) :
    WeakRun (Step client object) x (b.toList ++ bs) z := by
  cases b with
  | none => exact (WeakRun.silent hs).append h
  | some b => exact (WeakRun.visible hs).append h

/-- Every run together is one of the client with one of the object. -/
theorem calls_of_weakRun (h : WeakRun (Step client object) (k, s) bs (k', s')) :
    ∃ as, Calls client k as bs k' ∧ WeakRun object s as s' := by
  obtain ⟨cs, hr, rfl⟩ := h
  have hrun : ∀ {x y : κ × σ} {cs}, Run (Step client object) x cs y →
      ∃ as, Calls client x.1 as cs.reduceOption y.1 ∧ WeakRun object x.2 as y.2 := by
    intro x y cs hr
    induction hr with
    | refl => exact ⟨[], .refl, .refl⟩
    | @stepL x y z c cs hs _ ih =>
      obtain ⟨as, hcalls, hobject⟩ := ih
      have happend : (c :: cs).reduceOption = c.toList ++ cs.reduceOption := by
        cases c <;> rfl
      rw [happend]
      cases hs with
      | own hk => exact ⟨as, .own hk hcalls, hobject⟩
      | sync hk hs => exact ⟨_ :: as, .sync hk hcalls, (WeakRun.visible hs).append hobject⟩
      | object hs => exact ⟨as, hcalls, (WeakRun.silent hs).append hobject⟩
  exact hrun hr

/-- The silent steps of the object before its first visible one. -/
theorem exists_visible {a : α} (h : WeakRun object s (a :: as) s') :
    ∃ t u, WeakRun object s [] t ∧ object t (some a) u ∧ WeakRun object u as s' := by
  obtain ⟨cs, hr, hcs⟩ := h
  induction hr with
  | refl => cases hcs
  | @stepL s t u c cs hs hr ih =>
    cases c with
    | none =>
      obtain ⟨v, w, hv, hw, hrest⟩ := ih hcs
      exact ⟨v, w, (WeakRun.silent hs).append hv, hw, hrest⟩
    | some c =>
      obtain ⟨rfl, rfl⟩ := List.cons.inj hcs
      exact ⟨s, t, .refl, hs, cs, hr, rfl⟩

/-- A client waits while the object goes on by itself. -/
theorem weakRun_object (k : κ) (h : WeakRun object s [] s') :
    WeakRun (Step client object) (k, s) [] (k, s') := by
  obtain ⟨cs, hr, hcs⟩ := h
  induction hr with
  | refl => exact .refl
  | @stepL s t u c cs hs hr ih =>
    cases c with
    | none => exact (WeakRun.silent (Step.object hs)).append (ih hcs)
    | some c => cases hcs

/-- A run of the client and one of the object fit together. -/
theorem weakRun_of_calls (hk : Calls client k as bs k') (hs : WeakRun object s as s') :
    WeakRun (Step client object) (k, s) bs (k', s') := by
  induction hk generalizing s with
  | refl => exact weakRun_object _ hs
  | own hk _ ih => exact weakRun_cons (.own hk) (ih hs)
  | sync hk _ ih =>
    obtain ⟨t, u, ht, hu, hrest⟩ := exists_visible hs
    exact (weakRun_object _ ht).append (weakRun_cons (.sync hk hu) (ih hrest))

/-- One object in place of another. -/
theorem replace (hobject : ∀ as s', WeakRun object s as s' → ∃ r', WeakRun object' r as r')
    (h : WeakRun (Step client object) (k, s) bs (k', s')) :
    ∃ r', WeakRun (Step client object') (k, r) bs (k', r') := by
  obtain ⟨as, hcalls, hs⟩ := calls_of_weakRun h
  obtain ⟨r', hr⟩ := hobject as s' hs
  exact ⟨r', weakRun_of_calls hcalls hr⟩

end Client
