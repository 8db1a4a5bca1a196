import NodesDetector.Library.LinkedList
import NodesDetector.Queue.Near
import NodesDetector.Queue.TryDequeue

/-! The list of producers: whoever is on it stays where it is, and only who is on it enqueues. -/
namespace NodesDetector.ConcurrentQueue

open LinkedList (Chain)

variable {π α β C : Type} {s t : State π α β C} {a : Label π α C} {noexceptCtor : Bool}

/-- The list holds the listed producers, each once; who is not on it has never enqueued anything. -/
structure Linked (s : State π α β C) : Prop where
  chain : ∃ l, Chain s.next s.producerListTail l ∧ l.Nodup ∧ ∀ p, p ∈ l ↔ s.listing p = .listed
  unused : ∀ p, s.listing p ≠ .listed → (s.producers p).history.enqueued = []

theorem linked_initial (h : Initial s) : Linked s := by
  obtain ⟨ht, hl, hp, -⟩ := h
  refine ⟨⟨[], ht, List.nodup_nil, ?_⟩, ?_⟩
  · simp [hl]
  · intro p _
    exact List.length_eq_zero_iff.mp (Queue.initial_counts (hp p)).2

variable [DecidableEq π] [DecidableEq β] [DecidableEq C]

theorem enqueued_eq {q q' : Queue.State α β C} {a : Queue.Label α C}
    (hs : Queue.Step noexceptCtor q a q') (ha : ∀ x, a ≠ .publish x) :
    q'.history.enqueued = q.history.enqueued := by
  cases hs with
  | publish => exact (ha _ rfl).elim
  | setEmpty | setEmptyLast | unlink => simp
  | _ => rfl

/-- A listed producer stays where it is in the list. -/
theorem listed_step (hs : Step noexceptCtor s a t) {p : π} (hp : s.listing p = .listed) :
    t.listing p = .listed ∧ t.next p = s.next p := by
  have hlist : ∀ {q listing next}, s.listing q ≠ .listed →
      (s.list q listing next).listing p = .listed ∧ (s.list q listing next).next p = s.next p := by
    intro q listing next hq
    have hne : p ≠ q := by
      rintro rfl
      exact hq hp
    simp [State.list, Function.update_of_ne hne, hp]
  cases hs with
  | create hq | link hq | retry hq => exact hlist (by simp [hq])
  | _ => exact ⟨hp, rfl⟩

theorem enqueued_of_not_listed (hs : Step noexceptCtor s a t) {p : π}
    (hp : s.listing p ≠ .listed) :
    (t.producers p).history.enqueued = (s.producers p).history.enqueued := by
  have hset : ∀ {r : State π α β C} {q b u}, r.producers = s.producers →
      Queue.Step noexceptCtor (s.producers q) b u → (∀ x, b ≠ .publish x) →
      ((r.setProducer q u).producers p).history.enqueued =
        (s.producers p).history.enqueued := by
    intro r q b u hr hs hb
    rcases eq_or_ne p q with rfl | hne
    · simpa [State.setProducer] using enqueued_eq hs hb
    · simp [State.setProducer, Function.update_of_ne hne, hr]
  cases hs with
  | create | link | retry | start | load | sizeTail | sizeHead | allEmpty | reload | skip
  | allTried | ret => rfl
  | @produce q b u hq =>
    have hne : p ≠ q := by
      rintro rfl
      exact hp hq
    simp [State.setProducer, Function.update_of_ne hne]
  | callBest hc hend hpos hs | callOther hc hne hs | dequeue hc hs | claim hc hs | success hc hs
  | bestFailed hc hs | otherFailed hc hs => exact hset rfl hs (by simp)

theorem linked_step (hs : Step noexceptCtor s a t) (h : Linked s) : Linked t := by
  obtain ⟨l, hc, hnodup, hl⟩ := h.chain
  have hchain : Chain t.next s.producerListTail l :=
    hc.congr fun q hq => (listed_step hs ((hl q).mp hq)).2
  have hmem : ∀ {p q listing next}, s.listing p ≠ .listed → listing ≠ .listed →
      (q ∈ l ↔ (s.list p listing next).listing q = .listed) := by
    intro p q listing next hp hno
    rw [hl q]
    rcases eq_or_ne q p with rfl | hne
    · simp [State.list, hp, hno]
    · simp [State.list, Function.update_of_ne hne]
  refine ⟨?_, ?_⟩
  · cases hs with
    | create hp | retry hp =>
      exact ⟨l, hchain, hnodup, fun q => hmem (by simp [hp]) (by simp)⟩
    | @link p prevTail hp ht =>
      subst ht
      have hnot : p ∉ l := by simp [hl, hp]
      refine ⟨p :: l, ⟨rfl, ?_⟩, List.nodup_cons.mpr ⟨hnot, hnodup⟩, ?_⟩
      · show Chain _ (Function.update s.next p s.producerListTail p) l
        rw [Function.update_self]
        exact hchain
      · intro q
        rcases eq_or_ne q p with rfl | hne
        · simp [State.list]
        · simp [State.list, hne, hl]
    | _ => exact ⟨l, hchain, hnodup, hl⟩
  · intro p hp
    have hp' : s.listing p ≠ .listed := fun hno => hp (listed_step hs hno).1
    rw [enqueued_of_not_listed hs hp']
    exact h.unused p hp'

end NodesDetector.ConcurrentQueue
