import Gino.Machine.System
import Gino.Runtime.Cores
import Gino.Runtime.SpinLock

/-!
# The DOALL dispatcher

`NOELLE_DOALLDispatcher`, its trampoline and the argument blocks it recycles, as steps of any
number of concurrent dispatches. Blocks are handed out and taken back under `doallMemoryLock`, so
those are single steps; a new block is initialised after the lock is dropped, entry by entry. A
submitted task reads its entry when it starts, at any later time. Calls nested in a loop body are
further dispatches.
-/

namespace Gino.Runtime

open Machine

variable {Loop Env : Type*}

/-- A call of a parallelized loop. -/
structure LoopCall (Loop Env : Type*) where
  parallelizedLoop : Loop
  env : Env
  coreID : Nat
  numCores : Nat
  chunkSize : Int

/-- `DOALL_args_t`. The lock is `none` until it is initialised. -/
structure DoallArgs (Loop Env : Type*) extends LoopCall Loop Env where
  endLock : Option Lock

/-- One element of `doallMemory`, `doallMemorySizes` and `doallMemoryAvailability`. -/
structure Block (Loop Env : Type*) where
  args : Nat → DoallArgs Loop Env
  size : Nat
  available : Bool

/-- Where a dispatch is. The index is that of the entry it works on next. -/
inductive DispatchPoint where
  | getArgs
  | initArgs (i : Nat)
  | prepare (i : Nat)
  | submit (i : Nat)
  | ownCall
  | join (i : Nat)
  | releaseCores
  | releaseArgs
  | returned
  deriving DecidableEq

/-- A call of `NOELLE_DOALLDispatcher` that has reserved its cores. `block` is
`doallMemoryIndex`. -/
structure DoallDispatch (Loop Env : Type*) where
  parallelizedLoop : Loop
  env : Env
  numCores : BitVec 32
  chunkSize : Int
  block : Nat
  point : DispatchPoint

/-- The submitted task of one entry. A running task has read its arguments. -/
inductive TaskPoint (Loop Env : Type*) where
  | notSubmitted
  | queued
  | running (call : LoopCall Loop Env)
  | called
  | finished

/-- The runtime and the dispatches. `calls` lists the completed calls of the loop body that each
dispatch and its tasks made. -/
structure DoallState (Loop Env : Type*) where
  runtime : NoelleRuntime
  numberOfChunks : Nat
  blocks : Nat → Block Loop Env
  dispatches : Nat → Option (DoallDispatch Loop Env)
  tasks : Nat → Nat → TaskPoint Loop Env
  calls : Nat → List (LoopCall Loop Env)

/-- The entries a dispatch uses: `numCores - 1`. -/
def DoallDispatch.cores (dispatch : DoallDispatch Loop Env) : Nat := helperTasks dispatch.numCores

/-- The call a dispatch makes for a core. -/
def DoallDispatch.call (dispatch : DoallDispatch Loop Env) (coreID : Nat) : LoopCall Loop Env :=
  ⟨dispatch.parallelizedLoop, dispatch.env, coreID, dispatch.numCores.toNat, dispatch.chunkSize⟩

/-- An entry after `getDOALLArgs` has initialised it: the lock is initialised and taken. -/
def DoallArgs.init (args : DoallArgs Loop Env) (i : Nat) : DoallArgs Loop Env :=
  { args with coreID := i, endLock := some .locked }

/-- An entry after the dispatcher has prepared its arguments. -/
def DoallArgs.prepare (args : DoallArgs Loop Env) (dispatch : DoallDispatch Loop Env) :
    DoallArgs Loop Env :=
  { args with
    parallelizedLoop := dispatch.parallelizedLoop
    env := dispatch.env
    numCores := dispatch.numCores.toNat
    chunkSize := dispatch.chunkSize }

namespace DoallState

variable (state : DoallState Loop Env)

/-- The search loop of `getDOALLArgs`: the first available block with enough entries. -/
def findBlock (cores : Nat) : Option Nat :=
  (List.range state.numberOfChunks).find? fun i =>
    (state.blocks i).available && decide (cores ≤ (state.blocks i).size)

/-- Update a dispatch. -/
def setDispatch (id : Nat) (dispatch : DoallDispatch Loop Env) : DoallState Loop Env :=
  { state with dispatches := Function.update state.dispatches id (some dispatch) }

/-- Update a block. -/
def setBlock (block : Nat) (value : Block Loop Env) : DoallState Loop Env :=
  { state with blocks := Function.update state.blocks block value }

/-- Update one entry of a block. -/
def setArgs (block i : Nat) (args : DoallArgs Loop Env) : DoallState Loop Env :=
  state.setBlock block
    { state.blocks block with args := Function.update (state.blocks block).args i args }

/-- Update the task of one entry of a dispatch. -/
def setTask (id i : Nat) (task : TaskPoint Loop Env) : DoallState Loop Env :=
  { state with tasks := Function.update state.tasks id (Function.update (state.tasks id) i task) }

/-- Note a completed call of the loop body. -/
def logCall (id : Nat) (call : LoopCall Loop Env) : DoallState Loop Env :=
  { state with calls := Function.update state.calls id (state.calls id ++ [call]) }

end DoallState

/-- A dispatch at another point. -/
def DoallDispatch.goto (dispatch : DoallDispatch Loop Env) (point : DispatchPoint) :
    DoallDispatch Loop Env :=
  { dispatch with point := point }

/-- The steps of the dispatches and of their tasks. -/
inductive DoallStep : DoallState Loop Env → Nat → DoallState Loop Env → Prop where
  | reserve (state : DoallState Loop Env) (id : Nat) (parallelizedLoop : Loop) (env : Env)
      (maxNumberOfCores : BitVec 32) (chunkSize : Int) (hnew : state.dispatches id = none) :
      DoallStep state id
        { state.setDispatch id ⟨parallelizedLoop, env,
            (state.runtime.reserveCores maxNumberOfCores).1, chunkSize, 0, .getArgs⟩ with
          runtime := (state.runtime.reserveCores maxNumberOfCores).2 }
  | reuseBlock (state : DoallState Loop Env) (id block : Nat) (dispatch : DoallDispatch Loop Env)
      (hid : state.dispatches id = some dispatch) (hpoint : dispatch.point = .getArgs)
      (hfind : state.findBlock dispatch.cores = some block) :
      DoallStep state id
        ((state.setBlock block { state.blocks block with available := false }).setDispatch id
          { dispatch with block := block, point := .prepare 0 })
  | allocateBlock (state : DoallState Loop Env) (id : Nat) (dispatch : DoallDispatch Loop Env)
      (hid : state.dispatches id = some dispatch) (hpoint : dispatch.point = .getArgs)
      (hfind : state.findBlock dispatch.cores = none) :
      DoallStep state id
        { (state.setBlock state.numberOfChunks
            { state.blocks state.numberOfChunks with
              size := dispatch.cores, available := false }).setDispatch id
            { dispatch with block := state.numberOfChunks, point := .initArgs 0 } with
          numberOfChunks := state.numberOfChunks + 1 }
  | initArgs (state : DoallState Loop Env) (id i : Nat) (dispatch : DoallDispatch Loop Env)
      (hid : state.dispatches id = some dispatch) (hpoint : dispatch.point = .initArgs i)
      (hi : i < dispatch.cores) :
      DoallStep state id
        ((state.setArgs dispatch.block i
          (((state.blocks dispatch.block).args i).init i)).setDispatch id
            (dispatch.goto (.initArgs (i + 1))))
  | gotArgs (state : DoallState Loop Env) (id : Nat) (dispatch : DoallDispatch Loop Env)
      (hid : state.dispatches id = some dispatch)
      (hpoint : dispatch.point = .initArgs dispatch.cores) :
      DoallStep state id (state.setDispatch id (dispatch.goto (.prepare 0)))
  | prepare (state : DoallState Loop Env) (id i : Nat) (dispatch : DoallDispatch Loop Env)
      (hid : state.dispatches id = some dispatch) (hpoint : dispatch.point = .prepare i)
      (hi : i < dispatch.cores) :
      DoallStep state id
        ((state.setArgs dispatch.block i
          (((state.blocks dispatch.block).args i).prepare dispatch)).setDispatch id
            (dispatch.goto (.submit i)))
  | submit (state : DoallState Loop Env) (id i : Nat) (dispatch : DoallDispatch Loop Env)
      (hid : state.dispatches id = some dispatch) (hpoint : dispatch.point = .submit i) :
      DoallStep state id
        ((state.setTask id i .queued).setDispatch id (dispatch.goto (.prepare (i + 1))))
  | submitted (state : DoallState Loop Env) (id : Nat) (dispatch : DoallDispatch Loop Env)
      (hid : state.dispatches id = some dispatch)
      (hpoint : dispatch.point = .prepare dispatch.cores) :
      DoallStep state id (state.setDispatch id (dispatch.goto .ownCall))
  | ownCall (state : DoallState Loop Env) (id : Nat) (dispatch : DoallDispatch Loop Env)
      (hid : state.dispatches id = some dispatch) (hpoint : dispatch.point = .ownCall) :
      DoallStep state id
        ((state.logCall id (dispatch.call dispatch.cores)).setDispatch id
          (dispatch.goto (.join 0)))
  | join (state : DoallState Loop Env) (id i : Nat) (dispatch : DoallDispatch Loop Env)
      (hid : state.dispatches id = some dispatch) (hpoint : dispatch.point = .join i)
      (hi : i < dispatch.cores)
      (hlock : ((state.blocks dispatch.block).args i).endLock = some .unlocked) :
      DoallStep state id
        ((state.setArgs dispatch.block i
          { (state.blocks dispatch.block).args i with endLock := some .locked }).setDispatch id
            (dispatch.goto (.join (i + 1))))
  | joined (state : DoallState Loop Env) (id : Nat) (dispatch : DoallDispatch Loop Env)
      (hid : state.dispatches id = some dispatch)
      (hpoint : dispatch.point = .join dispatch.cores) :
      DoallStep state id (state.setDispatch id (dispatch.goto .releaseCores))
  | releaseCores (state : DoallState Loop Env) (id : Nat) (dispatch : DoallDispatch Loop Env)
      (hid : state.dispatches id = some dispatch) (hpoint : dispatch.point = .releaseCores) :
      DoallStep state id
        { state.setDispatch id (dispatch.goto .releaseArgs) with
          runtime := state.runtime.releaseCores dispatch.numCores }
  | releaseArgs (state : DoallState Loop Env) (id : Nat) (dispatch : DoallDispatch Loop Env)
      (hid : state.dispatches id = some dispatch) (hpoint : dispatch.point = .releaseArgs) :
      DoallStep state id
        ((state.setBlock dispatch.block
          { state.blocks dispatch.block with available := true }).setDispatch id
            (dispatch.goto .returned))
  | start (state : DoallState Loop Env) (id i : Nat) (dispatch : DoallDispatch Loop Env)
      (hid : state.dispatches id = some dispatch) (htask : state.tasks id i = .queued) :
      DoallStep state id
        (state.setTask id i (.running ((state.blocks dispatch.block).args i).toLoopCall))
  | call (state : DoallState Loop Env) (id i : Nat) (call : LoopCall Loop Env)
      (htask : state.tasks id i = .running call) :
      DoallStep state id ((state.setTask id i .called).logCall id call)
  | unlock (state : DoallState Loop Env) (id i : Nat) (dispatch : DoallDispatch Loop Env)
      (hid : state.dispatches id = some dispatch) (htask : state.tasks id i = .called) :
      DoallStep state id
        ((state.setArgs dispatch.block i
          { (state.blocks dispatch.block).args i with endLock := some .unlocked }).setTask id i
            .finished)

/-- Any number of dispatches, nested or concurrent, on a runtime without argument blocks. The
memory of a block holds anything until it is initialised. -/
def doallSystem (maxCores : BitVec 32) : System (DoallState Loop Env) Nat where
  Initial state := state.runtime = .init maxCores ∧ state.numberOfChunks = 0 ∧
    state.dispatches = (fun _ => none) ∧ state.tasks = (fun _ _ => .notSubmitted) ∧
    state.calls = fun _ => []
  Step := DoallStep

end Gino.Runtime
