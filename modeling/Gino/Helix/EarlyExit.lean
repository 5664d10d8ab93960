import Gino.Helix.LockRing

/-!
# The early exit of a HELIX loop

A loop whose exit is decided by the iterations themselves has a sequential prologue. The header
waits for the prologue and reads the loop-is-over flag; a set flag sends the core to the
failed-check block, which signals every segment. The core that takes a loop exit sets the flag
before its first prologue signal, waits for the segments it has not waited for, and signals every
segment at the end of the exit block. Segments are therefore signalled by cores that never waited
for them. This module is the machine: the cores, each somewhere in its task, on the locks of the
dispatcher.
-/

namespace Gino.Helix

open Machine Gino.Runtime

/-- Where a core is in its task. `header` is the prologue wait, `check` the load of the flag,
`setFlag` and `firstSignal` the start of the exit block, `exitWait` and `exitSignal` its waits, the
last segment first, and its signals; `failed` is the failed-check block. -/
inductive Point where
  | header
  | check
  | body
  | setFlag
  | firstSignal
  | exitWait (remaining : Nat)
  | exitSignal (ssID : Nat)
  | failed (ssID : Nat)
  | left
  deriving DecidableEq

/-- A loop with a sequential prologue on the lock arrays of `dispatch`. `exits` says which
iterations take a loop exit once their prologue runs. -/
structure HelixLoop where
  dispatch : Dispatch
  prologue : Nat
  exits : Nat → Bool

/-- The locks, the loop-is-over flag, the iteration, program point and phases of each core, the
iterations that entered each segment and those that took a loop exit, in order. A core enters the
prologue when it passes the check. -/
structure HelixState where
  memory : Memory
  loopIsOverFlag : Bool
  iteration : Nat → Nat
  point : Nat → Point
  phase : Nat → Nat → Phase
  entries : Nat → List Nat
  loopExits : List Nat

/-- The phase after a signal. A core that is not inside keeps its phase. -/
def Phase.leave : Phase → Phase
  | .inside => .after
  | phase => phase

namespace HelixState

/-- Move a core to another program point. -/
def goto (state : HelixState) (core : Nat) (point : Point) : HelixState :=
  { state with point := Function.update state.point core point }

/-- Note that a core's iteration entered a segment. -/
def enter (state : HelixState) (core ssID : Nat) : HelixState :=
  { state with
    entries := Function.update state.entries ssID
      (state.entries ssID ++ [state.iteration core]) }

/-- A wait that obtained its lock. The phase is the `ssState` of the segment. -/
def waited (state : HelixState) (core ssID : Nat) (memory : Memory) : HelixState :=
  { state with memory := memory, phase := setPhase state.phase core ssID .inside }

/-- A signal on a core's pointer for a segment. -/
def signalled (state : HelixState) (dispatch : Dispatch) (cacheLineBytes core ssID : Nat) :
    HelixState :=
  { state with
    memory := spinUnlock state.memory (ssFuturePtr dispatch cacheLineBytes core ssID)
    phase := setPhase state.phase core ssID (state.phase core ssID).leave }

end HelixState

section Machine

variable (loop : HelixLoop) (cacheLineBytes : Nat)

/-- The lock a core takes when it waits for a segment. -/
def takeLock (state : HelixState) (core ssID : Nat) : Option Memory :=
  spinLock state.memory (ssPastPtr loop.dispatch cacheLineBytes core ssID)

/-- The steps of the cores. The prologue holds the branches that leave the loop, so an iteration
that exits takes its exit before the prologue signal of the body. -/
inductive HelixStep : HelixState → Nat → HelixState → Prop where
  | headerWait (state : HelixState) (core : Nat) (memory : Memory)
      (hcore : core < loop.dispatch.numCores) (hpoint : state.point core = .header)
      (hlock : takeLock loop cacheLineBytes state core loop.prologue = some memory) :
      HelixStep state core ((state.waited core loop.prologue memory).goto core .check)
  | checkPassed (state : HelixState) (core : Nat)
      (hcore : core < loop.dispatch.numCores) (hpoint : state.point core = .check)
      (hflag : state.loopIsOverFlag = false) :
      HelixStep state core ((state.enter core loop.prologue).goto core .body)
  | checkFailed (state : HelixState) (core : Nat)
      (hcore : core < loop.dispatch.numCores) (hpoint : state.point core = .check)
      (hflag : state.loopIsOverFlag = true) :
      HelixStep state core (state.goto core (.failed 0))
  | bodyWait (state : HelixState) (core ssID : Nat) (memory : Memory)
      (hcore : core < loop.dispatch.numCores)
      (hssID : ssID < loop.dispatch.numOfsequentialSegments) (hpoint : state.point core = .body)
      (hphase : state.phase core ssID = .before)
      (hlock : takeLock loop cacheLineBytes state core ssID = some memory) :
      HelixStep state core ((state.waited core ssID memory).enter core ssID)
  | bodySignal (state : HelixState) (core ssID : Nat)
      (hcore : core < loop.dispatch.numCores)
      (hssID : ssID < loop.dispatch.numOfsequentialSegments) (hpoint : state.point core = .body)
      (hphase : state.phase core ssID = .inside)
      (hprologue : ssID = loop.prologue → loop.exits (state.iteration core) = false) :
      HelixStep state core (state.signalled loop.dispatch cacheLineBytes core ssID)
  | nextIteration (state : HelixState) (core : Nat)
      (hcore : core < loop.dispatch.numCores) (hpoint : state.point core = .body)
      (hphase : ∀ ssID < loop.dispatch.numOfsequentialSegments, state.phase core ssID = .after)
      (hstay : loop.exits (state.iteration core) = false) :
      HelixStep state core
        { state with
          iteration := Function.update state.iteration core
            (state.iteration core + loop.dispatch.numCores)
          point := Function.update state.point core .header
          phase := Function.update state.phase core fun _ => .before }
  | takeExit (state : HelixState) (core : Nat)
      (hcore : core < loop.dispatch.numCores) (hpoint : state.point core = .body)
      (hexit : loop.exits (state.iteration core) = true) :
      HelixStep state core
        { state.goto core .setFlag with loopExits := state.loopExits ++ [state.iteration core] }
  | setFlag (state : HelixState) (core : Nat)
      (hcore : core < loop.dispatch.numCores) (hpoint : state.point core = .setFlag) :
      HelixStep state core { state.goto core .firstSignal with loopIsOverFlag := true }
  | firstSignal (state : HelixState) (core : Nat)
      (hcore : core < loop.dispatch.numCores) (hpoint : state.point core = .firstSignal) :
      HelixStep state core
        ((state.signalled loop.dispatch cacheLineBytes core loop.prologue).goto core
          (.exitWait loop.dispatch.numOfsequentialSegments))
  | exitWait (state : HelixState) (core ssID : Nat) (memory : Memory)
      (hcore : core < loop.dispatch.numCores) (hpoint : state.point core = .exitWait (ssID + 1))
      (hphase : state.phase core ssID = .before)
      (hlock : takeLock loop cacheLineBytes state core ssID = some memory) :
      HelixStep state core
        (((state.waited core ssID memory).enter core ssID).goto core (.exitWait ssID))
  | exitSkip (state : HelixState) (core ssID : Nat)
      (hcore : core < loop.dispatch.numCores) (hpoint : state.point core = .exitWait (ssID + 1))
      (hphase : state.phase core ssID ≠ .before) :
      HelixStep state core (state.goto core (.exitWait ssID))
  | exitCode (state : HelixState) (core : Nat)
      (hcore : core < loop.dispatch.numCores) (hpoint : state.point core = .exitWait 0) :
      HelixStep state core (state.goto core (.exitSignal 0))
  | exitSignal (state : HelixState) (core ssID : Nat)
      (hcore : core < loop.dispatch.numCores)
      (hssID : ssID < loop.dispatch.numOfsequentialSegments)
      (hpoint : state.point core = .exitSignal ssID) :
      HelixStep state core
        ((state.signalled loop.dispatch cacheLineBytes core ssID).goto core
          (.exitSignal (ssID + 1)))
  | exitLeave (state : HelixState) (core : Nat)
      (hcore : core < loop.dispatch.numCores)
      (hpoint : state.point core = .exitSignal loop.dispatch.numOfsequentialSegments) :
      HelixStep state core (state.goto core .left)
  | failedSignal (state : HelixState) (core ssID : Nat)
      (hcore : core < loop.dispatch.numCores)
      (hssID : ssID < loop.dispatch.numOfsequentialSegments)
      (hpoint : state.point core = .failed ssID) :
      HelixStep state core
        ((state.signalled loop.dispatch cacheLineBytes core ssID).goto core (.failed (ssID + 1)))
  | failedLeave (state : HelixState) (core : Nat)
      (hcore : core < loop.dispatch.numCores)
      (hpoint : state.point core = .failed loop.dispatch.numOfsequentialSegments) :
      HelixStep state core (state.goto core .left)

/-- The cores of a loop, each at the header of its first iteration, on the locks the dispatcher
laid out and with its cleared flag. An event is the core that moves. -/
def helixSystem : System HelixState Nat where
  Initial state := state = ⟨loop.dispatch.initialMemory, false, id, fun _ => .header,
    fun _ _ => .before, fun _ => [], []⟩
  Step := HelixStep loop cacheLineBytes

end Machine

end Gino.Helix
