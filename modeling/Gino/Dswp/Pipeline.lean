import Gino.Dswp.StageCode
import Gino.Machine.System

/-!
# Running a DSWP pipeline

The stages of a pipeline run the code of their blocks and follow the control flow that
`generateLoopSubsetForStage` gives them. They share the memory and the queues, and a step of the
system is a step of one of them. `stage_moves` lists what a stage can do.
-/

namespace Gino.Dswp.Pipeline

open Relation Graph Machine

variable {Inst Block Value Region Content : Type*}

/-- Where a stage is: before a block that it comes to, in the code of a block, or out of the
loop. -/
inductive Position (pipeline : Pipeline Inst Block Value Region Content) where
  | entering (pred : Option Block) (B : Block)
  | running (B : Block) (code : List pipeline.StageInstruction)
  | left (exit : Block)

/-- A stage: the values of its instructions, and the live-out variables it has stored. -/
structure StageState (pipeline : Pipeline Inst Block Value Region Content) where
  values : pipeline.StageInstruction → Value
  position : pipeline.Position
  stored : Inst → Option Value

/-- The stages with the memory and the queues that they share. -/
structure PipelineState (pipeline : Pipeline Inst Block Value Region Content) where
  stages : Nat → pipeline.StageState
  memory : Region → Content
  channels : pipeline.Queue → Channel Value

variable (pipeline : Pipeline Inst Block Value Region Content)

/-- Every stage is before the header, and nothing is in the queues. -/
def initialState : pipeline.PipelineState :=
  { stages := fun _ =>
      ⟨fun _ => pipeline.undefined, .entering none pipeline.header, fun _ => none⟩
    memory := pipeline.initialMemory
    channels := fun _ => .empty }

section Stage

variable [DecidableEq Inst] (stage : Nat)

/-- The values that the operands of a stage have. -/
def clonedValues (values : pipeline.StageInstruction → Value) : Inst → Value :=
  fun P => values (pipeline.getCloneOfOriginalInstruction stage P)

/-- The operands of an instruction in a stage. -/
def arguments (values : pipeline.StageInstruction → Value) (I : Inst) : List Value :=
  (pipeline.operands I).map (pipeline.clonedValues stage values)

variable [DecidableEq Block]

/-- The jumps that a stage gets. -/
def stageJumps : List (Block × Block) :=
  (pipeline.generateLoopSubsetForStage (pipeline.subset stage) pipeline.traversalFuel).join.getD []

/-- The values after the PHIs of a block. -/
def enterStageBlock (pred : Option Block) (B : Block)
    (values : pipeline.StageInstruction → Value) : pipeline.StageInstruction → Value
  | .original I =>
      if .original I ∈ (pipeline.stageBlock stage B).takeWhile pipeline.isPHI
      then pipeline.phiValue I pred (pipeline.clonedValues stage values)
      else values (.original I)
  | I => values I

/-- Where the terminator of a block of a stage goes. -/
def nextBlock (B : Block) (values : pipeline.StageInstruction → Value) : Option Block :=
  if pipeline.keeps (pipeline.subset stage) B
  then some (pipeline.branch B (pipeline.arguments stage values (pipeline.terminator B)))
  else (pipeline.stageJumps stage).lookup B

/-- The successors of a block in a stage. -/
def stageSuccessors (B : Block) : List Block :=
  if B ∈ pipeline.basicBlocks
  then (pipeline.clonedSuccessors (pipeline.subset stage) (pipeline.stageJumps stage) B).getD []
  else []

/-- The blocks at whose ends a stage stores a live-out variable: the exits that the block of its
producer dominates, or else that block. -/
def determineLatestPointsToInsertLiveOutStore (liveOut : Inst) : List Block :=
  let insertPoints := pipeline.loopExitBasicBlocks.filter fun exit => exit ∉ reachableList
    (fun B => if B = pipeline.parent liveOut then [] else pipeline.stageSuccessors stage B)
    pipeline.functionBlocks [pipeline.header]
  if insertPoints = [] then [pipeline.parent liveOut] else insertPoints

/-- Store the live-out variables at the end of a block. -/
def storeLiveOuts (B : Block) (own : pipeline.StageState) : Inst → Option Value :=
  fun P =>
    if P ∈ pipeline.liveOuts stage ∧ B ∈ pipeline.determineLatestPointsToInsertLiveOutStore stage P
    then some (pipeline.clonedValues stage own.values P)
    else own.stored P

/-- Go from the end of a block to another one. -/
def goTo (B next : Block) (own : pipeline.StageState) : pipeline.StageState :=
  let stored := pipeline.storeLiveOuts stage B own
  if next ∈ pipeline.basicBlocks then { own with position := .entering (some B) next, stored }
  else { own with
    position := .left next
    stored := pipeline.storeLiveOuts stage next { own with stored } }

variable [DecidableEq Region]

/-- A step of a stage. There is none where the queue is empty that it pops. -/
def stepStage (state : pipeline.PipelineState) : Option pipeline.PipelineState :=
  let own := state.stages stage
  match own.position with
  | .entering pred B =>
      some { state with
        stages := Function.update state.stages stage { own with
          values := pipeline.enterStageBlock stage pred B own.values
          position := .running B (pipeline.stageCode stage B) } }
  | .running B (.original I :: code) =>
      let arguments := pipeline.arguments stage own.values I
      some { state with
        stages := Function.update state.stages stage { own with
          values := Function.update own.values (.original I)
            (pipeline.value I arguments state.memory)
          position := .running B code }
        memory := pipeline.effect I arguments state.memory }
  | .running B (.pop queue :: code) =>
      (state.channels queue).pop.map fun (value, channel) => { state with
        stages := Function.update state.stages stage { own with
          values := Function.update own.values (.pop queue) value
          position := .running B code }
        channels := Function.update state.channels queue channel }
  | .running B (.push queue :: code) =>
      some { state with
        stages := Function.update state.stages stage { own with position := .running B code }
        channels := Function.update state.channels queue ((state.channels queue).push
          (pipeline.clonedValues stage own.values (pipeline.producer queue))) }
  | .running B [] =>
      (pipeline.nextBlock stage B own.values).map fun next => { state with
        stages := Function.update state.stages stage (pipeline.goTo stage B next own) }
  | .left _ => none

end Stage

variable [DecidableEq Inst] [DecidableEq Block] [DecidableEq Region]

/-- The pipeline, with a step for each step of a stage. -/
def system : System pipeline.PipelineState Nat where
  Initial state := state = pipeline.initialState
  Step state stage next :=
    stage < pipeline.numTaskInstances ∧ pipeline.stepStage stage state = some next

/-- What a stage can do. -/
inductive Moves (stage : Nat) (state : pipeline.PipelineState) : pipeline.PipelineState → Prop where
  | enter (pred : Option Block) (B : Block)
      (hposition : (state.stages stage).position = .entering pred B) :
      Moves stage state { state with
        stages := Function.update state.stages stage { state.stages stage with
          values := pipeline.enterStageBlock stage pred B (state.stages stage).values
          position := .running B (pipeline.stageCode stage B) } }
  | execute (B : Block) (I : Inst) (code : List pipeline.StageInstruction)
      (hposition : (state.stages stage).position = .running B (.original I :: code)) :
      Moves stage state { state with
        stages := Function.update state.stages stage { state.stages stage with
          values := Function.update (state.stages stage).values (.original I)
            (pipeline.value I (pipeline.arguments stage (state.stages stage).values I) state.memory)
          position := .running B code }
        memory := pipeline.effect I (pipeline.arguments stage (state.stages stage).values I)
          state.memory }
  | pop (B : Block) (queue : pipeline.Queue) (code : List pipeline.StageInstruction) (value : Value)
      (channel : Channel Value)
      (hposition : (state.stages stage).position = .running B (.pop queue :: code))
      (hpop : (state.channels queue).pop = some (value, channel)) :
      Moves stage state { state with
        stages := Function.update state.stages stage { state.stages stage with
          values := Function.update (state.stages stage).values (.pop queue) value
          position := .running B code }
        channels := Function.update state.channels queue channel }
  | push (B : Block) (queue : pipeline.Queue) (code : List pipeline.StageInstruction)
      (hposition : (state.stages stage).position = .running B (.push queue :: code)) :
      Moves stage state { state with
        stages := Function.update state.stages stage
          { state.stages stage with position := .running B code }
        channels := Function.update state.channels queue ((state.channels queue).push
          (pipeline.clonedValues stage (state.stages stage).values (pipeline.producer queue))) }
  | goTo (B next : Block) (hposition : (state.stages stage).position = .running B [])
      (hnext : pipeline.nextBlock stage B (state.stages stage).values = some next) :
      Moves stage state { state with
        stages := Function.update state.stages stage
          (pipeline.goTo stage B next (state.stages stage)) }

variable {pipeline}

/-- A step of a stage is one of these. -/
theorem stage_moves {stage : Nat} {state next : pipeline.PipelineState}
    (h : pipeline.stepStage stage state = some next) : pipeline.Moves stage state next := by
  unfold stepStage at h
  cases hposition : (state.stages stage).position with
  | entering pred B =>
      simp only [hposition, Option.some.injEq] at h
      exact h ▸ .enter pred B hposition
  | left exit =>
      simp only [hposition] at h
      cases h
  | running B code =>
      cases code with
      | nil =>
          simp only [hposition, Option.map_eq_some_iff] at h
          obtain ⟨after, hnext, rfl⟩ := h
          exact .goTo B after hposition hnext
      | cons I code =>
          cases I with
          | original I =>
              simp only [hposition, Option.some.injEq] at h
              exact h ▸ .execute B I code hposition
          | pop queue =>
              simp only [hposition, Option.map_eq_some_iff] at h
              obtain ⟨⟨value, channel⟩, hpop, rfl⟩ := h
              exact .pop B queue code value channel hposition hpop
          | push queue =>
              simp only [hposition, Option.some.injEq] at h
              exact h ▸ .push B queue code hposition

/-- A stage does not move the others. -/
theorem Moves.others {stage : Nat} {state next : pipeline.PipelineState}
    (h : pipeline.Moves stage state next) {other : Nat} (hother : other ≠ stage) :
    next.stages other = state.stages other := by
  cases h with
  | enter | execute | pop | push | goTo => exact Function.update_of_ne hother _ _

end Gino.Dswp.Pipeline
