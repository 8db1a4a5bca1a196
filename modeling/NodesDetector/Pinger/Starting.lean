import Mathlib.Data.Finset.Lattice.Fold
import Mathlib.Order.Lattice.Nat

/-! `Pinger::Start` and its retries: the open descriptors and the watchers active in the loop. -/
namespace NodesDetector.Starting

inductive Watcher
  | stop
  | send
  | recv
deriving DecidableEq

inductive Callback
  | shutdown
  | handleSend
  | handleRecv
deriving DecidableEq

inductive Events
  | read
  | write
deriving DecidableEq

/-- What `ev_io_init` writes into a watcher. -/
structure Io where
  callback : Callback
  fd : ℤ
  events : Events
deriving DecidableEq

/-- The descriptor table, the loop and the fields that `Start` writes. `misused` records that
`ev_io_init` met a watcher that was still active. -/
structure State where
  fds : Finset ℕ
  active : List (Watcher × Io)
  evFd : ℤ
  rawSockFd : ℤ
  misused : Bool

/-- After `Pinger::Pinger`, which leaves the two descriptor fields uninitialised. -/
def State.initial (fds : Finset ℕ) (evFd rawSockFd : ℤ) : State := ⟨fds, [], evFd, rawSockFd, false⟩

/-- A call that opens a descriptor picks one that is not open. -/
structure Alloc where
  pick : Finset ℕ → ℕ
  pick_notMem : ∀ fds, pick fds ∉ fds

/-- The results of the system calls of one `Start`. -/
structure Outcome where
  eventfd : Option Alloc
  socket : Option Alloc
  setsockopt : Bool

def State.openFd (s : State) (fd : ℕ) : State := { s with fds := insert fd s.fds }

/-- `ev_io_init` and `ev_io_start`. -/
def State.watch (s : State) (w : Watcher) (io : Io) : State :=
  { s with
    active := s.active ++ [(w, io)]
    misused := s.misused || s.active.any (·.1 = w) }

/-- `Pinger::Start`. -/
def start (s : State) (o : Outcome) : Bool × State :=
  match o.eventfd with
  | none => (false, { s with evFd := -1 })
  | some alloc =>
    let fd := alloc.pick s.fds
    let s := { s.openFd fd with evFd := fd }
    let s := s.watch .stop ⟨.shutdown, s.evFd, .read⟩
    match o.socket with
    | none => (false, { s with rawSockFd := -1 })
    | some alloc =>
      let fd := alloc.pick s.fds
      let s := { s.openFd fd with rawSockFd := fd }
      -- `setuid(getuid())` is not checked
      if o.setsockopt then
        let s := s.watch .send ⟨.handleSend, s.rawSockFd, .write⟩
        let s := s.watch .recv ⟨.handleRecv, s.rawSockFd, .read⟩
        (true, s)
      else (false, s)

/-- The calls made, each with the state before it: the first that returns true is the last. -/
def attempts (s : State) : List Outcome → List (State × Outcome)
  | [] => []
  | o :: os => (s, o) :: if (start s o).1 then [] else attempts (start s o).2 os

variable {s s₀ t : State} {o : Outcome} {os : List Outcome} {c : State × Outcome}

/-! ### One call -/

/-- No system call fails. -/
def Outcome.ok (o : Outcome) : Prop :=
  o.eventfd.isSome ∧ o.socket.isSome ∧ o.setsockopt = true

instance : DecidablePred Outcome.ok := fun _ => inferInstanceAs (Decidable (_ ∧ _))

/-- Two new descriptors and the three watchers were added. -/
def Added (s t : State) : Prop :=
  ∃ evFd rawSockFd : ℕ, evFd ∉ s.fds ∧ rawSockFd ∉ s.fds ∧ evFd ≠ rawSockFd ∧
    t.fds = insert rawSockFd (insert evFd s.fds) ∧
    t.active = s.active ++ [(.stop, ⟨.shutdown, evFd, .read⟩),
      (.send, ⟨.handleSend, rawSockFd, .write⟩), (.recv, ⟨.handleRecv, rawSockFd, .read⟩)]

/-- A call fails in `eventfd` and changes one field, fails later with a descriptor left open, or
succeeds. -/
theorem start_cases (s : State) (o : Outcome) :
    (o.eventfd = none ∧ start s o = (false, { s with evFd := -1 })) ∨
      (o.eventfd.isSome ∧ ¬ o.ok ∧ (start s o).1 = false ∧
        ∃ fd ∉ s.fds, fd ∈ (start s o).2.fds) ∨
      (o.ok ∧ (start s o).1 = true ∧ Added s (start s o).2 ∧
        (s.active = [] → (start s o).2.misused = s.misused)) := by
  obtain ⟨eventfd, socket, setsockopt⟩ := o
  cases eventfd with
  | none => exact .inl ⟨rfl, rfl⟩
  | some ev =>
    have hev := ev.pick_notMem s.fds
    cases socket with
    | none =>
      exact .inr (.inl ⟨rfl, by simp [Outcome.ok], rfl, _, hev, Finset.mem_insert_self _ _⟩)
    | some sock =>
      have hsock := sock.pick_notMem (insert (ev.pick s.fds) s.fds)
      cases setsockopt with
      | false =>
        exact .inr (.inl ⟨rfl, by simp [Outcome.ok], rfl, _, hev,
          Finset.mem_insert_of_mem (Finset.mem_insert_self _ _)⟩)
      | true =>
        rw [Finset.mem_insert, not_or] at hsock
        refine .inr (.inr ⟨⟨rfl, rfl, rfl⟩, rfl, ?_, ?_⟩)
        · refine ⟨_, _, hev, hsock.2, Ne.symm hsock.1, rfl, ?_⟩
          simp [start, State.watch, State.openFd]
        · intro hnone
          simp [start, State.watch, State.openFd, hnone]

theorem start_ret_iff (s : State) (o : Outcome) : (start s o).1 = true ↔ o.ok := by
  rcases start_cases s o with ⟨hnone, heq⟩ | ⟨_, hok, hret, _⟩ | ⟨hok, hret, _⟩
  · rw [heq, Outcome.ok, hnone]
    exact iff_of_false nofun fun h => nomatch h.1
  · rw [hret]
    exact iff_of_false nofun hok
  · exact iff_of_true hret hok

/-! ### Retries -/

/-- The outcomes up to the first without a failure. -/
def made : List Outcome → List Outcome
  | [] => []
  | o :: os => o :: if o.ok then [] else made os

theorem attempts_map_snd (s : State) (os : List Outcome) :
    (attempts s os).map Prod.snd = made os := by
  induction os generalizing s with
  | nil => rfl
  | cons o os ih =>
    rw [attempts, made, List.map_cons]
    by_cases hok : o.ok
    · rw [if_pos hok, if_pos ((start_ret_iff s o).mpr hok), List.map_nil]
    · rw [if_neg hok, if_neg fun hret => hok ((start_ret_iff s o).mp hret), ih]

/-- What the calls may do when they start from `s₀`: nothing when they fail, everything when they
succeed, and no `ev_io_init` on an active watcher. -/
structure Atomic (s₀ s : State) (o : Outcome) : Prop where
  failed : (start s o).1 = false → (start s o).2.fds = s.fds ∧ (start s o).2.active = s.active
  succeeded : (start s o).1 = true → Added s₀ (start s o).2
  proper : (start s o).2.misused = false

/-- Nothing has happened to the descriptors and the loop. -/
structure Untouched (s₀ s : State) : Prop where
  fds : s.fds = s₀.fds
  active : s.active = s₀.active
  proper : s.misused = false

theorem untouched_initial (fds : Finset ℕ) (evFd rawSockFd : ℤ) :
    Untouched (State.initial fds evFd rawSockFd) (State.initial fds evFd rawSockFd) :=
  ⟨rfl, rfl, rfl⟩

/-- A call that stops at `eventfd` or goes through is atomic. -/
theorem atomic_of_untouched (h₀ : s₀.active = []) (hu : Untouched s₀ s)
    (hc : o.eventfd.isSome → o.ok) : Atomic s₀ s o := by
  rcases start_cases s o with ⟨_, heq⟩ | ⟨hev, hok, _, _⟩ | ⟨_, hret, hadd, hproper⟩
  · refine ⟨?_, ?_, ?_⟩
    · intro _
      rw [heq]
      exact ⟨rfl, rfl⟩
    · intro hret
      rw [heq] at hret
      cases hret
    · rw [heq]
      exact hu.proper
  · exact absurd (hc hev) hok
  · refine ⟨?_, ?_, ?_⟩
    · intro hfail
      rw [hret] at hfail
      cases hfail
    · intro _
      rw [Added, hu.fds, hu.active] at hadd
      exact hadd
    · exact (hproper (hu.active.trans h₀)).trans hu.proper

/-- A call that fails after `eventfd` leaks a descriptor. -/
theorem not_atomic_of_late (hev : o.eventfd.isSome) (hok : ¬ o.ok) : ¬ Atomic s₀ s o := by
  intro hatomic
  rcases start_cases s o with ⟨hnone, _⟩ | ⟨_, _, hret, fd, hnew, hopen⟩ | ⟨hok', _⟩
  · rw [hnone] at hev
    cases hev
  · rw [(hatomic.failed hret).1] at hopen
    exact hnew hopen
  · exact hok hok'

theorem attempts_atomic (h₀ : s₀.active = []) (hu : Untouched s₀ s)
    (hc : ∀ c ∈ attempts s os, c.2.eventfd.isSome → c.2.ok) :
    ∀ c ∈ attempts s os, Atomic s₀ c.1 c.2 := by
  induction os generalizing s with
  | nil => exact fun c hmem => (List.not_mem_nil hmem).elim
  | cons o os ih =>
    intro c hmem
    have hhead := hc (s, o) List.mem_cons_self
    rcases List.mem_cons.mp hmem with rfl | hrest
    · exact atomic_of_untouched h₀ hu hhead
    · rw [attempts] at hc
      rcases start_cases s o with ⟨_, heq⟩ | ⟨hev, hok, _, _⟩ | ⟨_, hret, _, _⟩
      · rw [heq] at hrest hc
        have hu' : Untouched s₀ { s with evFd := -1 } := ⟨hu.fds, hu.active, hu.proper⟩
        exact ih hu' (fun c hmem => hc c (List.mem_cons_of_mem _ hmem)) c hrest
      · exact absurd (hhead hev) hok
      · rw [if_pos hret] at hrest
        cases hrest

/-- Every call is atomic exactly when none gets past `eventfd` and fails after it. -/
theorem attempts_atomic_iff (fds : Finset ℕ) (evFd rawSockFd : ℤ) (os : List Outcome) :
    let s₀ := State.initial fds evFd rawSockFd
    (∀ c ∈ attempts s₀ os, Atomic s₀ c.1 c.2) ↔ ∀ o ∈ made os, o.eventfd.isSome → o.ok := by
  intro s₀
  rw [← attempts_map_snd s₀ os]
  constructor
  · intro hatomic o hmem hev
    obtain ⟨c, hc, rfl⟩ := List.mem_map.mp hmem
    by_contra hok
    exact not_atomic_of_late hev hok (hatomic c hc)
  · intro hc
    exact attempts_atomic rfl (untouched_initial fds evFd rawSockFd) fun c hmem =>
      hc c.2 (List.mem_map_of_mem hmem)

/-- The lowest descriptor above all that are open. -/
def next : Alloc where
  pick fds := fds.sup id + 1
  pick_notMem fds hmem := by
    have hle := Finset.le_sup (f := id) hmem
    simp only [id_eq] at hle
    omega

/-- `socket` fails once: the eventfd and its watcher stay behind, and the retry initialises the
active watcher again. -/
theorem start_leaks :
    let s₀ := State.initial {0, 1, 2} 0 0
    let first := start s₀ ⟨some next, none, true⟩
    let second := start first.2 ⟨some next, some next, true⟩
    first.1 = false ∧ first.2.fds = {0, 1, 2, 3} ∧
      first.2.active = [(.stop, ⟨.shutdown, 3, .read⟩)] ∧
      second.1 = true ∧ second.2.misused = true := by
  decide

end NodesDetector.Starting
