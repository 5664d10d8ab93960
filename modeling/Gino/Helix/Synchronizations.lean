import Gino.Helix.SequentialSegment
import Mathlib.Algebra.BigOperators.Group.List.Basic
import Mathlib.Data.List.Dedup

/-!
# Injected waits and signals

`HELIX::addSynchronizations` injects the calls of one segment at its frontier. A wait splits the
block of its instruction, which moves the beginning of the block, and exits are collected after the
waits are injected. What a walk through an iteration executes is `trace`.
-/

namespace Gino.Helix

open Graph Machine Relation

variable {Block : Type*} {loop : LoopCFG Block} [DecidableEq Block]

/-- An instruction an exit is collected as: one of the loop, or the first of the injected ones in
front of one of the loop. -/
inductive ExitInstruction (loop : LoopCFG Block) where
  | original (inst : loop.Instr)
  | injected (inst : loop.Instr)
  deriving DecidableEq

/-- Where a signal is inserted: in front of an instruction, after or before the wait there. -/
structure InsertPoint (loop : LoopCFG Block) where
  inst : loop.Instr
  afterWait : Bool
  deriving DecidableEq

/-- What is known of a segment when it is synchronized: whether it is the prologue, and which
instructions have code of the segments handled before right in front of them. -/
structure SegmentContext (loop : LoopCFG Block) where
  isPreamble : Bool
  behindEarlierCode : List loop.Instr

/-- The injected calls of a segment. -/
structure Synchronizations (loop : LoopCFG Block) where
  waits : List loop.Instr
  signals : List (InsertPoint loop)

/-- Whether an instruction is a terminator with other than one successor. -/
def endsInSeveral (inst : loop.Instr) : Bool :=
  inst.IsTerminator && (loop.successors inst.block).length != 1

/-- The instructions waits are injected in front of. The prologue waits at the header. -/
def waitInstructions (context : SegmentContext loop) (frontier : EntriesAndExits loop) :
    List loop.Instr :=
  if context.isPreamble then [loop.getFirstNonPHI loop.header] else frontier.entries

/-- The beginning of a block after the waits have been injected. -/
def beginningOfSuccessor (waits : List loop.Instr) (context : SegmentContext loop)
    (successor : Block) : ExitInstruction loop :=
  let inst := loop.getFirstNonPHI successor
  if inst ∈ waits ∨ inst ∈ context.behindEarlierCode then .injected inst else .original inst

/-- What one exit of the segment is collected as. -/
def collectExit (waits : List loop.Instr) (context : SegmentContext loop)
    (justBeforeExit : loop.Instr) : List (ExitInstruction loop) :=
  if endsInSeveral justBeforeExit
  then (loop.successors justBeforeExit.block).reduceOption.map (beginningOfSuccessor waits context)
  else [.original justBeforeExit]

/-- Where the signals of a collected exit are inserted. -/
def injectSignal : ExitInstruction loop → List (InsertPoint loop)
  | .injected inst => [⟨inst, false⟩]
  | .original inst =>
      match inst.getNextNonDebugInstruction with
      | some next => [⟨next, false⟩]
      | none =>
          if loop.terminatorIsBranch inst.block && endsInSeveral inst
          then (loop.successors inst.block).reduceOption.map fun successor =>
            ⟨loop.getFirstNonPHI successor, false⟩
          else [⟨inst, true⟩]

/-- The calls of a segment with a frontier. -/
def addSynchronizations (context : SegmentContext loop) (frontier : EntriesAndExits loop) :
    Synchronizations loop :=
  let waits := waitInstructions context frontier
  let exits := (frontier.exits.flatMap (collectExit waits context)).dedup
  ⟨waits, exits.flatMap injectSignal⟩

/-! ## What an iteration executes -/

/-- What the execution of an iteration shows of a segment. -/
inductive Event (loop : LoopCFG Block) where
  | wait
  | signal
  | execute (inst : loop.Instr)
  deriving DecidableEq

/-- The events at an instruction, when it is known whether the segment has waited. -/
def eventsAt (sync : Synchronizations loop) (ssInstructions : List loop.Instr) (ssState : Bool)
    (inst : loop.Instr) : List (Event loop) :=
  List.replicate (sync.signals.count ⟨inst, false⟩) .signal ++
    (if inst ∈ sync.waits ∧ ssState = false then [.wait] else []) ++
    List.replicate (sync.signals.count ⟨inst, true⟩) .signal ++
    (if inst ∈ ssInstructions then [.execute inst] else [])

/-- The events of a walk. -/
def trace (sync : Synchronizations loop) (ssInstructions : List loop.Instr) :
    Bool → List loop.Instr → List (Event loop)
  | _, [] => []
  | ssState, inst :: path =>
      eventsAt sync ssInstructions ssState inst ++
        trace sync ssInstructions (ssState || decide (inst ∈ sync.waits)) path

/-- A walk through one iteration, from the header to the end of a latch. -/
def IterationPath (loop : LoopCFG Block) (path : List loop.Instr) : Prop :=
  ∃ latch, some loop.header ∈ loop.successors latch ∧
    Walk loop.Step path (loop.first loop.header) (loop.getTerminator latch)

/-- An iteration waits once, then executes its instructions of the segment, then signals once. -/
def SynchronizedOnce (sync : Synchronizations loop) (ssInstructions path : List loop.Instr) :
    Prop :=
  trace sync ssInstructions false path =
    .wait :: (path.filter (· ∈ ssInstructions)).map .execute ++ [.signal]

instance (sync : Synchronizations loop) (ssInstructions path : List loop.Instr) :
    Decidable (SynchronizedOnce sync ssInstructions path) :=
  inferInstanceAs (Decidable (_ = _))

end Gino.Helix
