import Gino.Runtime.SpinLock
import Mathlib.Data.List.Basic
import Mathlib.Tactic.Ring
import Mathlib.Tactic.Linarith

/-!
# The sequential segment arrays of the HELIX dispatcher

`NOELLE_HELIX_dispatcher` lays out one array of spinlocks per core, one cache line for each
sequential segment, and leaves every array but the first locked. The task reaches the lock of a
segment by its own arithmetic, `getPointerOfSequentialSegment`. `initial_memory_slot` gives the
state each lock starts in, `slot_injective` says that no two locks share a slot, and
`pointer_eq_slot` that the task and the dispatcher mean the same one.
-/

namespace Gino.Helix

open Gino.Runtime

/-- The arguments of `NOELLE_HELIX_dispatcher` that shape the lock arrays, with the number of cores
granted and the address `posix_memalign` returned. `LIO` is false for the critical sections
dispatcher. -/
structure Dispatch where
  numCores : Nat
  numOfsequentialSegments : Nat
  LIO : Bool
  ssArrays : Nat

/-- `CACHE_LINE_SIZE`. -/
def cacheLineSize : Nat := 64

namespace Dispatch

variable (dispatch : Dispatch)

/-- The number of lock arrays. -/
def numOfSSArrays : Nat := if dispatch.LIO then dispatch.numCores else 1

/-- The bytes of one lock array. -/
def ssArraySize : Nat := cacheLineSize * dispatch.numOfsequentialSegments

/-- The address of a lock array. -/
def ssArray (i : Nat) : Nat := dispatch.ssArrays + i * dispatch.ssArraySize

/-- The address the dispatcher initialises for a segment of an array. -/
def slot (i lockID : Nat) : Nat := dispatch.ssArray i + lockID * cacheLineSize

/-- The body of the initialisation loop: a lock outside array 0 is taken at once. -/
def initialiseLock (i : Nat) (memory : Memory) (lockID : Nat) : Memory :=
  let memory := spinInit memory (dispatch.slot i lockID)
  if i > 0 then (spinLock memory (dispatch.slot i lockID)).getD memory else memory

/-- The inner loop over the segments of one array. -/
def initialiseArray (memory : Memory) (i : Nat) : Memory :=
  (List.range dispatch.numOfsequentialSegments).foldl (dispatch.initialiseLock i) memory

/-- The locks after the initialisation loops of the dispatcher. -/
def initialMemory : Memory :=
  (List.range dispatch.numOfSSArrays).foldl dispatch.initialiseArray fun _ => none

/-- The index of the array a core waits on. -/
def pastID (core : Nat) : Nat := core % dispatch.numOfSSArrays

/-- The index of the array a core signals on. The dispatcher's own core is the last one, and gets
array 0. -/
def futureID (core : Nat) : Nat :=
  if core + 1 < dispatch.numCores then (core + 1) % dispatch.numOfSSArrays else 0

/-- The argument `ssArrayPast` of a core's task. -/
def ssArrayPast (core : Nat) : Nat := dispatch.ssArray (dispatch.pastID core)

/-- The argument `ssArrayFuture` of a core's task. -/
def ssArrayFuture (core : Nat) : Nat := dispatch.ssArray (dispatch.futureID core)

end Dispatch

/-- `HELIX::getPointerOfSequentialSegment`, the address computed in the entry block of the task.
`cacheLineBytes` is `Architecture::getCacheLineBytes`. -/
def getPointerOfSequentialSegment (cacheLineBytes ssArray ssID : Nat) : Nat :=
  ssID * cacheLineBytes + ssArray

namespace Dispatch

variable {dispatch : Dispatch}

/-- With the runtime's cache line size the task reaches the slots of the dispatcher. -/
theorem pointer_eq_slot (i ssID : Nat) :
    getPointerOfSequentialSegment cacheLineSize (dispatch.ssArray i) ssID =
      dispatch.slot i ssID := by
  simp [getPointerOfSequentialSegment, slot, Nat.add_comm]

/-- A slot is the cache line its array and segment number. -/
theorem slot_eq (i lockID : Nat) :
    dispatch.slot i lockID =
      dispatch.ssArrays + cacheLineSize * (i * dispatch.numOfsequentialSegments + lockID) := by
  simp only [slot, ssArray, ssArraySize]
  ring

/-- Slots of different arrays or different segments are different cache lines. -/
theorem slot_injective {i j lockID other : Nat}
    (hlock : lockID < dispatch.numOfsequentialSegments)
    (hother : other < dispatch.numOfsequentialSegments)
    (h : dispatch.slot i lockID = dispatch.slot j other) : i = j ∧ lockID = other := by
  simp only [slot_eq, cacheLineSize] at h
  have hline : i * dispatch.numOfsequentialSegments + lockID =
      j * dispatch.numOfsequentialSegments + other := by omega
  have hi : i = j := by
    have hquot := congrArg (· / dispatch.numOfsequentialSegments) hline
    simpa [Nat.mul_comm _ dispatch.numOfsequentialSegments,
      Nat.mul_add_div (Nat.zero_lt_of_lt hlock), Nat.div_eq_of_lt hlock,
      Nat.div_eq_of_lt hother] using hquot
  subst hi
  exact ⟨rfl, by omega⟩

/-- Writing one slot changes the lock of that array and segment alone. -/
theorem update_slot {i j lockID other : Nat} (memory : Memory) (value : Option Lock)
    (hlock : lockID < dispatch.numOfsequentialSegments)
    (hother : other < dispatch.numOfsequentialSegments) :
    Function.update memory (dispatch.slot i lockID) value (dispatch.slot j other) =
      if j = i ∧ other = lockID then value else memory (dispatch.slot j other) := by
  split_ifs with hsame
  · obtain ⟨rfl, rfl⟩ := hsame
    simp
  · exact Function.update_of_ne (fun heq => hsame (slot_injective hother hlock heq)) _ _

/-- Initialising one lock sets its slot alone. -/
theorem initialise_lock_eq (i lockID : Nat) (memory : Memory) :
    dispatch.initialiseLock i memory lockID =
      Function.update memory (dispatch.slot i lockID)
        (some (if i > 0 then .locked else .unlocked)) := by
  unfold initialiseLock
  split_ifs <;> simp [spinInit, spinLock]

/-- The inner loop leaves the slots of other arrays alone. -/
theorem initialise_array_other {i j lockID : Nat} (memory : Memory) (hne : i ≠ j)
    (hlock : lockID < dispatch.numOfsequentialSegments) :
    dispatch.initialiseArray memory j (dispatch.slot i lockID) =
      memory (dispatch.slot i lockID) := by
  unfold initialiseArray
  have hall : ∀ other ∈ List.range dispatch.numOfsequentialSegments,
      dispatch.slot i lockID ≠ dispatch.slot j other := by
    intro other hother heq
    exact hne (slot_injective hlock (List.mem_range.mp hother) heq).1
  generalize List.range dispatch.numOfsequentialSegments = segments at hall
  induction segments generalizing memory with
  | nil => rfl
  | cons segment rest ih =>
      rw [List.foldl_cons, ih _ fun other hother => hall other (by simp [hother]),
        initialise_lock_eq, Function.update_of_ne (hall segment (by simp))]

/-- After the first `segments` passes of the inner loop their slots hold the array's state. -/
theorem initialise_array_slot {i lockID segments : Nat} (memory : Memory)
    (hlock : lockID < segments) (hsegments : segments ≤ dispatch.numOfsequentialSegments) :
    (List.range segments).foldl (dispatch.initialiseLock i) memory (dispatch.slot i lockID) =
      some (if i > 0 then .locked else .unlocked) := by
  induction segments with
  | zero => omega
  | succ segments ih =>
      rw [List.range_succ, List.foldl_append, List.foldl_cons, List.foldl_nil,
        initialise_lock_eq]
      rcases Nat.lt_or_ge lockID segments with hbefore | hlast
      · rw [Function.update_of_ne, ih hbefore (by omega)]
        intro heq
        have := (slot_injective (by omega) (by omega) heq).2
        omega
      · obtain rfl : lockID = segments := by omega
        simp

/-- After the dispatcher's loops the locks of array 0 are free and all others are taken. -/
theorem initial_memory_slot {i lockID : Nat} (hi : i < dispatch.numOfSSArrays)
    (hlock : lockID < dispatch.numOfsequentialSegments) :
    dispatch.initialMemory (dispatch.slot i lockID) =
      some (if i > 0 then .locked else .unlocked) := by
  unfold initialMemory
  generalize dispatch.numOfSSArrays = arrays at hi
  induction arrays with
  | zero => omega
  | succ arrays ih =>
      rw [List.range_succ, List.foldl_append, List.foldl_cons, List.foldl_nil]
      by_cases hlast : i = arrays
      · subst hlast
        exact initialise_array_slot _ hlock le_rfl
      · rw [initialise_array_other _ hlast hlock, ih (by omega)]

/-- Every slot of an array lies inside the region the dispatcher allocated. -/
theorem slot_in_region {i lockID : Nat} (hi : i < dispatch.numOfSSArrays)
    (hlock : lockID < dispatch.numOfsequentialSegments) :
    dispatch.ssArrays ≤ dispatch.slot i lockID ∧
      dispatch.slot i lockID + cacheLineSize ≤
        dispatch.ssArrays + dispatch.ssArraySize * dispatch.numOfSSArrays := by
  rw [slot_eq]
  refine ⟨Nat.le_add_right _ _, ?_⟩
  have hline : i * dispatch.numOfsequentialSegments + lockID + 1 ≤
      dispatch.numOfSSArrays * dispatch.numOfsequentialSegments := by
    have := Nat.mul_le_mul_right dispatch.numOfsequentialSegments (Nat.succ_le_of_lt hi)
    rw [Nat.succ_mul] at this
    omega
  have hbytes := Nat.mul_le_mul_left cacheLineSize hline
  calc dispatch.ssArrays + cacheLineSize * (i * dispatch.numOfsequentialSegments + lockID) +
        cacheLineSize
      = dispatch.ssArrays +
          cacheLineSize * (i * dispatch.numOfsequentialSegments + lockID + 1) := by ring
    _ ≤ dispatch.ssArrays +
          cacheLineSize * (dispatch.numOfSSArrays * dispatch.numOfsequentialSegments) := by
        omega
    _ = dispatch.ssArrays + dispatch.ssArraySize * dispatch.numOfSSArrays := by
        unfold ssArraySize
        ring

/-- A pointer is the lock of a segment: a slot of one of the arrays, initialised, and inside the
memory the dispatcher allocated. -/
def IsLockOf (dispatch : Dispatch) (pointer ssID : Nat) : Prop :=
  ∃ i < dispatch.numOfSSArrays, pointer = dispatch.slot i ssID ∧
    dispatch.initialMemory pointer ≠ none ∧ dispatch.ssArrays ≤ pointer ∧
      pointer + cacheLineSize ≤
        dispatch.ssArrays + dispatch.ssArraySize * dispatch.numOfSSArrays

/-- The slots of the arrays are locks of their segments. -/
theorem is_lock_of_slot {i lockID : Nat} (hi : i < dispatch.numOfSSArrays)
    (hlock : lockID < dispatch.numOfsequentialSegments) :
    dispatch.IsLockOf (dispatch.slot i lockID) lockID := by
  obtain ⟨hfirst, hlast⟩ := slot_in_region hi hlock
  exact ⟨i, hi, rfl, by simp [initial_memory_slot hi hlock], hfirst, hlast⟩

/-- A pointer is the lock of one segment at most. -/
theorem is_lock_of_unique {pointer lockID other : Nat}
    (hlock : lockID < dispatch.numOfsequentialSegments)
    (hother : other < dispatch.numOfsequentialSegments)
    (h : dispatch.IsLockOf pointer lockID) (h' : dispatch.IsLockOf pointer other) :
    lockID = other := by
  obtain ⟨i, _, rfl, _⟩ := h
  obtain ⟨j, _, heq, _⟩ := h'
  exact (slot_injective hlock hother heq).2

/-- With at least one core there is an array for every core to wait on. -/
theorem past_id_lt (hcores : 1 ≤ dispatch.numCores) (core : Nat) :
    dispatch.pastID core < dispatch.numOfSSArrays := by
  refine Nat.mod_lt _ ?_
  unfold numOfSSArrays
  split_ifs <;> omega

/-- With at least one core there is an array for every core to signal on. -/
theorem future_id_lt (hcores : 1 ≤ dispatch.numCores) (core : Nat) :
    dispatch.futureID core < dispatch.numOfSSArrays := by
  have harrays : 0 < dispatch.numOfSSArrays := by
    unfold numOfSSArrays
    split_ifs <;> omega
  unfold futureID
  split_ifs
  · exact Nat.mod_lt _ harrays
  · exact harrays

end Dispatch

end Gino.Helix
