import Gino.Helix.LockRing
import Gino.Machine.Tickets

/-!
# The cores of a HELIX loop

The task that `HELIX::addSynchronizations` leaves runs on every core. Core `i` of `n` runs the
iterations `i`, `i + n`, and so on, as long as the governing induction variable is in the loop, and
one more in which its header finds the loop over and its exit block completes every segment. The
instructions that touch data another iteration may touch are in a sequential segment; a wait is
guarded by the `ssState` of its segment and takes the lock of the past array, and a signal frees the
lock of the future array. The module is the machine: the cores, each somewhere in the code of its
iteration, on the locks of the dispatcher.
-/

namespace Gino.Helix

open Machine Gino.Runtime

/-- A loop whose governing induction variable decides its exits, on the lock arrays of `dispatch`.
In `task`, `enter` is the wait of a segment with its guard, `leave` its signal, `access` an
instruction of the segment, and `halt` the end of the iteration. -/
structure TaskCode (Locals Content : Type*) where
  dispatch : Dispatch
  tripCount : Nat
  task : Processes (Fin dispatch.numOfsequentialSegments) Locals Content

/-- The iterations that some core runs: those of the loop, and one for each core to find it over. -/
def TaskCode.bound {Locals Content : Type*} (code : TaskCode Locals Content) : Nat :=
  code.tripCount + code.dispatch.numCores

/-- The locks, the data of each segment, and for each core its iteration, its locals, and the
`ssState` of each segment, which is set once the iteration has waited. -/
structure TaskState (segments : Nat) (Locals Content : Type*) where
  memory : Memory
  shared : Fin segments → Content
  iteration : Nat → Nat
  locals : Nat → Locals
  ssState : Nat → Fin segments → Bool

section Machine

variable {Locals Content : Type*} (code : TaskCode Locals Content) (cacheLineBytes : Nat)

/-- The steps of the cores. A wait spins until it obtains the lock of its segment. The header of the
next iteration clears every `ssState`. -/
inductive TaskStep : TaskState code.dispatch.numOfsequentialSegments Locals Content → Nat →
    TaskState code.dispatch.numOfsequentialSegments Locals Content → Prop where
  | compute (state : TaskState code.dispatch.numOfsequentialSegments Locals Content) (core : Nat)
      (next : Locals) (hcore : core < code.dispatch.numCores)
      (haction : code.task.action (state.locals core) = .compute next) :
      TaskStep state core { state with locals := Function.update state.locals core next }
  | wait (state : TaskState code.dispatch.numOfsequentialSegments Locals Content) (core : Nat)
      (ssID : Fin code.dispatch.numOfsequentialSegments) (next : Locals) (memory : Memory)
      (hcore : core < code.dispatch.numCores)
      (haction : code.task.action (state.locals core) = .enter ssID next)
      (hssState : state.ssState core ssID = false)
      (hlock : spinLock state.memory (ssPastPtr code.dispatch cacheLineBytes core ssID) =
        some memory) :
      TaskStep state core
        { state with
          memory := memory
          locals := Function.update state.locals core next
          ssState := Function.update state.ssState core
            (Function.update (state.ssState core) ssID true) }
  | waitSkipped (state : TaskState code.dispatch.numOfsequentialSegments Locals Content)
      (core : Nat) (ssID : Fin code.dispatch.numOfsequentialSegments) (next : Locals)
      (hcore : core < code.dispatch.numCores)
      (haction : code.task.action (state.locals core) = .enter ssID next)
      (hssState : state.ssState core ssID = true) :
      TaskStep state core { state with locals := Function.update state.locals core next }
  | signal (state : TaskState code.dispatch.numOfsequentialSegments Locals Content) (core : Nat)
      (ssID : Fin code.dispatch.numOfsequentialSegments) (next : Locals)
      (hcore : core < code.dispatch.numCores)
      (haction : code.task.action (state.locals core) = .leave ssID next) :
      TaskStep state core
        { state with
          memory := spinUnlock state.memory (ssFuturePtr code.dispatch cacheLineBytes core ssID)
          locals := Function.update state.locals core next }
  | access (state : TaskState code.dispatch.numOfsequentialSegments Locals Content) (core : Nat)
      (ssID : Fin code.dispatch.numOfsequentialSegments) (effect : Content → Locals × Content)
      (hcore : core < code.dispatch.numCores)
      (haction : code.task.action (state.locals core) = .access ssID effect) :
      TaskStep state core
        { state with
          shared := Function.update state.shared ssID (effect (state.shared ssID)).2
          locals := Function.update state.locals core (effect (state.shared ssID)).1 }
  | nextIteration (state : TaskState code.dispatch.numOfsequentialSegments Locals Content)
      (core : Nat) (hcore : core < code.dispatch.numCores)
      (haction : code.task.action (state.locals core) = .halt)
      (hbound : state.iteration core < code.tripCount) :
      TaskStep state core
        { state with
          iteration := Function.update state.iteration core
            (state.iteration core + code.dispatch.numCores)
          locals := Function.update state.locals core
            (code.task.start (state.iteration core + code.dispatch.numCores))
          ssState := Function.update state.ssState core fun _ => false }

/-- The cores, each at the header of its first iteration, on the locks the dispatcher laid out. -/
def taskSystem (initial : Fin code.dispatch.numOfsequentialSegments → Content) :
    System (TaskState code.dispatch.numOfsequentialSegments Locals Content) Nat where
  Initial state := state = ⟨code.dispatch.initialMemory, initial, id, code.task.start,
    fun _ _ => false⟩
  Step := TaskStep code cacheLineBytes

/-- A core is done when it has found the loop over and completed its exit block. -/
def TaskDone (state : TaskState code.dispatch.numOfsequentialSegments Locals Content)
    (core : Nat) : Prop :=
  code.tripCount ≤ state.iteration core ∧ code.task.action (state.locals core) = .halt

end Machine

end Gino.Helix
