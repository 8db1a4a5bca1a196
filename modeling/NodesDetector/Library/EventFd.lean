import Mathlib.Algebra.Order.Ring.Int

/-! The eventfd of Linux: a 64-bit counter behind a non-blocking descriptor. -/
namespace EventFd

inductive Errno
  | eagain
  | einval
deriving DecidableEq, Repr

/-- 2^64 - 2 -/
def maxCount : ℕ := 18446744073709551614

/-- The counter never exceeds its limit. -/
structure Counter where
  count : ℕ
  count_le : count ≤ maxCount
deriving DecidableEq

/-- `eventfd(0, O_NONBLOCK)`. -/
def Counter.new : Counter := ⟨0, Nat.zero_le _⟩

def Counter.Readable (fd : Counter) : Prop := 0 < fd.count

instance : DecidablePred Counter.Readable := fun fd => inferInstanceAs (Decidable (0 < fd.count))

def Counter.write (fd : Counter) (value : UInt64) : Except Errno Counter :=
  if value = 18446744073709551615 then .error .einval
  else if h : fd.count + value.toNat ≤ maxCount then .ok ⟨fd.count + value.toNat, h⟩
  else .error .eagain

/-- The value read, and the counter reset. -/
def Counter.read (fd : Counter) : Except Errno (ℕ × Counter) :=
  if fd.count = 0 then .error .eagain else .ok (fd.count, .new)

/-- What `write` and `read` of 8 bytes return. -/
def ret {α : Type} : Except Errno α → ℤ
  | .ok _ => 8
  | .error _ => -1

variable {fd fd' : Counter} {value : UInt64} {e : Errno}

/-- A successful write leaves the descriptor readable when it was, or when it added something. -/
theorem readable_write_iff (h : fd.write value = .ok fd') :
    fd'.Readable ↔ value ≠ 0 ∨ fd.Readable := by
  have hzero : value = 0 ↔ value.toNat = 0 := UInt64.toNat_inj.symm
  unfold Counter.write at h
  split at h
  · cases h
  · split at h
    · cases h
      rw [ne_eq, hzero]
      simp only [Counter.Readable]
      omega
    · cases h

/-- Zero is always accepted, so a failed write tried to add something. -/
theorem ne_zero_of_write_error (h : fd.write value = .error e) : value ≠ 0 := by
  rintro rfl
  have hle := fd.count_le
  have hok : fd.write 0 = .ok fd := by
    unfold Counter.write
    rw [if_neg (by decide)]
    exact dif_pos hle
  rw [hok] at h
  cases h

theorem read_of_readable (h : fd.Readable) : fd.read = .ok (fd.count, .new) :=
  if_neg h.ne'

theorem read_of_not_readable (h : ¬ fd.Readable) : fd.read = .error .eagain :=
  if_pos (Nat.eq_zero_of_not_pos h)

end EventFd
