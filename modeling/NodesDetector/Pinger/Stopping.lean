import NodesDetector.Library.EventFd
import NodesDetector.Library.Transition

/-! `Stop` from any threads beside the `Shutdown` callbacks of the loop thread. -/
namespace NodesDetector.Stopping

open EventFd Transition

/-- `Pinger::Stop`; `value` is the content of the uninitialised local it writes. -/
def stop (fd : Counter) (value : UInt64) : Bool × Counter :=
  let result := fd.write value
  let fd := result.toOption.getD fd
  if ret result ≠ 8 then (false, fd) else (true, fd)

/-- `Pinger::Shutdown`: whether it reached `ev_break`. -/
def shutdown (fd : Counter) : Bool × Counter :=
  let result := fd.read
  let fd := (result.toOption.map Prod.snd).getD fd
  if ret result ≠ 8 then (false, fd) else (true, fd)

/-- The descriptor, whether a `Stop` has returned true with no successful read since its write,
and whether the loop was broken. -/
structure State where
  fd : Counter
  stopped : Bool
  broken : Bool
deriving DecidableEq

/-- After a successful `Start`. -/
def initial : State := ⟨.new, false, false⟩

inductive Label
  | stop (value : UInt64)
  | shutdown
deriving DecidableEq

def next (s : State) : Label → State
  | .stop value =>
    let (ok, fd) := stop s.fd value
    { s with fd := fd, stopped := s.stopped || ok }
  | .shutdown =>
    let (ok, fd) := shutdown s.fd
    ⟨fd, s.stopped && !ok, s.broken || ok⟩

/-- A reported stop has a `Shutdown` pending that breaks the loop. -/
def Wakes (s : State) : Prop :=
  s.stopped = true → s.fd.Readable ∧ (next s .shutdown).broken = true

/-- A `Stop` that adds something, or finds an earlier one unread. -/
def Raises (s : State) : Label → Prop
  | .stop value => value ≠ 0 ∨ s.fd.Readable
  | .shutdown => True

variable {s : State} {fd fd' : Counter} {value : UInt64} {e : Errno}

theorem stop_of_ok (h : fd.write value = .ok fd') : stop fd value = (true, fd') := by
  simp [stop, h, ret, Except.toOption]

theorem stop_of_error (h : fd.write value = .error e) : stop fd value = (false, fd) := by
  simp [stop, h, ret, Except.toOption]

theorem shutdown_of_readable (h : fd.Readable) : shutdown fd = (true, .new) := by
  simp [shutdown, read_of_readable h, ret, Except.toOption]

theorem shutdown_of_not_readable (h : ¬ fd.Readable) : shutdown fd = (false, fd) := by
  simp [shutdown, read_of_not_readable h, ret, Except.toOption]

theorem wakes_iff : Wakes s ↔ (s.stopped = true → s.fd.Readable) := by
  constructor
  · intro h hs
    exact (h hs).1
  · intro h hs
    refine ⟨h hs, ?_⟩
    simp [next, shutdown_of_readable (h hs)]

theorem wakes_initial : Wakes initial := nofun

/-- One step keeps the wake-up pending exactly when it raises the counter. -/
theorem wakes_next_iff (s : State) (a : Label) (hs : Wakes s) :
    Wakes (next s a) ↔ Raises s a := by
  rw [wakes_iff] at hs ⊢
  cases a with
  | stop value =>
    cases hw : s.fd.write value with
    | ok fd =>
      simp only [next, stop_of_ok hw, Bool.or_true, forall_const]
      exact readable_write_iff hw
    | error e =>
      simp only [next, stop_of_error hw, Bool.or_false]
      exact iff_of_true hs (.inl (ne_zero_of_write_error hw))
  | shutdown =>
    refine iff_of_true ?_ trivial
    by_cases hr : s.fd.Readable
    · simp [next, shutdown_of_readable hr]
    · simpa [next, shutdown_of_not_readable hr] using hs

/-- Through any schedule of stoppers and callbacks: a reported stop is never lost exactly when no
`Stop` writes zero to an unread counter of zero. -/
theorem stop_never_lost_iff (as : List Label) :
    (∀ bs, bs <+: as → Wakes (exec next initial bs)) ↔
      ∀ bs a, bs ++ [a] <+: as → Raises (exec next initial bs) a :=
  exec_invariant_iff wakes_initial wakes_next_iff

/-- A zero in the uninitialised local: `Stop` returns true and the loop is not woken. -/
theorem stop_lost :
    stop initial.fd 0 = (true, initial.fd) ∧
      (exec next initial [.stop 0]).stopped = true ∧
      ¬ (exec next initial [.stop 0]).fd.Readable := by
  decide

end NodesDetector.Stopping
