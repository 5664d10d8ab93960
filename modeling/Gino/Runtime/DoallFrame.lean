import Gino.Runtime.Doall

/-!
# What a step of the DOALL dispatcher leaves alone

A step belongs to one dispatch. It leaves the other dispatches and their tasks alone, and once a
dispatch is reserved its loop, environment, grant and chunk size stay what they are.
-/

namespace Gino.Runtime

variable {Loop Env : Type*} {state next : DoallState Loop Env} {id : Nat}

/-- What a dispatch was invoked with and granted. -/
structure SameDispatch (dispatch other : DoallDispatch Loop Env) : Prop where
  parallelizedLoop : other.parallelizedLoop = dispatch.parallelizedLoop
  env : other.env = dispatch.env
  numCores : other.numCores = dispatch.numCores
  chunkSize : other.chunkSize = dispatch.chunkSize

/-- A step leaves the other dispatches alone. -/
theorem dispatches_other (hstep : DoallStep state id next) {other : Nat} (hne : other ≠ id) :
    next.dispatches other = state.dispatches other := by
  cases hstep <;>
    simp [DoallState.setDispatch, DoallState.setBlock, DoallState.setArgs, DoallState.setTask,
      DoallState.logCall, hne]

/-- A step leaves the tasks of the other dispatches alone. -/
theorem tasks_other (hstep : DoallStep state id next) {other : Nat} (hne : other ≠ id) :
    next.tasks other = state.tasks other := by
  cases hstep <;>
    simp [DoallState.setDispatch, DoallState.setBlock, DoallState.setArgs, DoallState.setTask,
      DoallState.logCall, hne]

/-- A dispatch keeps what it was invoked with and granted. -/
theorem dispatch_kept {dispatch : DoallDispatch Loop Env}
    (hid : state.dispatches id = some dispatch) (hstep : DoallStep state id next) :
    ∃ kept, next.dispatches id = some kept ∧ SameDispatch dispatch kept := by
  cases hstep with
  | reserve parallelizedLoop env maxNumberOfCores chunkSize hnew => simp [hnew] at hid
  | reuseBlock _ moved hsome | allocateBlock moved hsome | initArgs _ moved hsome
  | gotArgs moved hsome | prepare _ moved hsome | submit _ moved hsome | submitted moved hsome
  | ownCall moved hsome | join _ moved hsome | joined moved hsome | releaseCores moved hsome
  | releaseArgs moved hsome =>
      obtain rfl : moved = dispatch := Option.some.inj (hsome.symm.trans hid)
      exact ⟨_, Function.update_self .., rfl, rfl, rfl, rfl⟩
  | start | call | unlock => exact ⟨dispatch, hid, rfl, rfl, rfl, rfl⟩

end Gino.Runtime
