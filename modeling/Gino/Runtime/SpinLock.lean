import Mathlib.Logic.Function.Basic
import Mathlib.Tactic.SplitIfs

/-!
# Spinlocks

The `pthread` spinlocks of the runtime, as atomic operations on the locks at each address. A thread
that spins is one whose `spinLock` gives no result yet.
-/

namespace Gino.Runtime

/-- The state of an initialised `pthread_spinlock_t`. -/
inductive Lock where
  | unlocked
  | locked
  deriving DecidableEq

/-- The spinlocks at each address; `none` where no lock has been initialised. -/
abbrev Memory := Nat → Option Lock

/-- `pthread_spin_init`. -/
def spinInit (memory : Memory) (lock : Nat) : Memory :=
  Function.update memory lock (some .unlocked)

/-- `pthread_spin_lock`, which gives no result while the lock is taken. -/
def spinLock (memory : Memory) (lock : Nat) : Option Memory :=
  if memory lock = some .unlocked then some (Function.update memory lock (some .locked)) else none

/-- `pthread_spin_unlock`. -/
def spinUnlock (memory : Memory) (lock : Nat) : Memory :=
  Function.update memory lock (some .unlocked)

/-- A lock is obtained exactly when it is free, and is taken afterwards. -/
theorem spin_lock_eq_some {memory next : Memory} {lock : Nat} :
    spinLock memory lock = some next ↔
      memory lock = some .unlocked ∧ next = Function.update memory lock (some .locked) := by
  unfold spinLock
  split_ifs with hfree <;> simp [hfree, eq_comm]

end Gino.Runtime
