import Gino.Graph.Dominance
import Gino.Machine.Worklist
import Mathlib.Data.List.Range

/-!
# Spilling a loop-carried PHI

HELIX keeps the PHIs of the header in an environment in memory, one cell each. The values that come
from the latches are stored where they are defined (`insertStoresToSpilledLCD`), loads go to the
blocks from which no store can have been executed in the same iteration
(`defineFrontierForLoadsToSpilledLCD`), and the loads take the place of the PHI
(`replaceUsesOfSpilledPHIWithLoads`). An inserted instruction is known by its block and by the
position of the original instruction it comes before.
-/

namespace Gino.Helix

open Graph Machine Relation

/-! ## Loops with their exit blocks -/

/-- A loop with its exit blocks, which only blocks of the loop enter. A block has PHIs, other
instructions and a terminator. Every block is reached in an iteration. -/
structure LoopStructure (Block : Type*) where
  header : Block
  blocks : List Block
  isIncluded : Block → Bool
  successors : Block → List Block
  numPHIs : Block → Nat
  numOthers : Block → Nat
  mem_blocks : ∀ block, block ∈ blocks
  header_included : isIncluded header = true
  from_header : ∀ block, ReflTransGen
    (fun block next => isIncluded block = true ∧ next ∈ successors block ∧ next ≠ header)
    header block

namespace LoopStructure

variable {Block : Type*} (loop : LoopStructure Block)

/-- A step within an iteration, or out of the loop. -/
def Step (block next : Block) : Prop :=
  loop.isIncluded block = true ∧ next ∈ loop.successors block ∧ next ≠ loop.header

/-- Every block is reached from the header. -/
theorem reached (block : Block) : ReflTransGen loop.Step loop.header block := loop.from_header block

/-- The position of the terminator of a block. -/
def size (block : Block) : Nat := loop.numPHIs block + loop.numOthers block

/-- The blocks after the loop. -/
def getLoopExitBasicBlocks : List Block := loop.blocks.filter fun block => !loop.isIncluded block

/-- The edges out of the loop. -/
def getLoopExitEdges : List (Block × Block) :=
  (loop.blocks.filter fun block => loop.isIncluded block).flatMap fun exiting =>
    ((loop.successors exiting).filter fun exit => !loop.isIncluded exit).map fun exit =>
      (exiting, exit)

/-- Dominance within an iteration. -/
abbrev Dominates (block other : Block) : Prop := Graph.Dominates loop.Step loop.header block other

/-- The nearest dominator of a block with a property. -/
abbrev NearestDominator (P : Block → Prop) (block near : Block) : Prop :=
  Graph.NearestDominator loop.Step loop.header P block near

variable {loop}

/-- The exit blocks are the blocks outside. -/
theorem mem_exit_blocks {block : Block} :
    block ∈ loop.getLoopExitBasicBlocks ↔ loop.isIncluded block = false := by
  simp [getLoopExitBasicBlocks, loop.mem_blocks block]

/-- The exit edges are the steps out of the loop. -/
theorem mem_exit_edges {exiting exit : Block} :
    (exiting, exit) ∈ loop.getLoopExitEdges ↔
      loop.Step exiting exit ∧ loop.isIncluded exit = false := by
  have hheader : loop.isIncluded exit = false → exit ≠ loop.header := by
    rintro hexit rfl
    rw [loop.header_included] at hexit
    exact absurd hexit (by decide)
  simp only [getLoopExitEdges, Step, List.mem_flatMap, List.mem_filter, List.mem_map,
    Prod.mk.injEq, loop.mem_blocks, true_and, Bool.not_eq_true']
  constructor
  · rintro ⟨_, hincluded, _, ⟨hsuccessor, hexit⟩, rfl, rfl⟩
    exact ⟨⟨hincluded, hsuccessor, hheader hexit⟩, hexit⟩
  · rintro ⟨⟨hincluded, hsuccessor, -⟩, hexit⟩
    exact ⟨exiting, hincluded, exit, ⟨hsuccessor, hexit⟩, rfl, rfl⟩

end LoopStructure

variable {Block : Type*}

/-! ## The analyses -/

/-- The results of the compiler library's analyses: the blocks of the instructions that the
terminator of a block reaches, and the dominator tree. -/
structure SpillAnalyses (Block : Type*) where
  OUT : Block → List Block
  dominates : Block → Block → Bool
  immediateDominator : Block → Block
  findNearestCommonDominator : Block → Block → Block

/-- The terminator of a block of the loop reaches the blocks after it, and does not go on to the
next iteration. The analysis need not extend to the exit blocks. -/
structure SpillAnalyses.Documented (analyses : SpillAnalyses Block) (loop : LoopStructure Block) :
    Prop where
  reaches_of_out : ∀ block later, loop.isIncluded block = true → later ∈ analyses.OUT block →
    TransGen loop.Step block later
  out_of_reaches : ∀ block later, loop.isIncluded block = true → loop.isIncluded later = true →
    TransGen loop.Step block later → later ∈ analyses.OUT block
  dominates : ∀ block other, analyses.dominates block other = true ↔ loop.Dominates block other
  immediateDominator : ∀ block, block ≠ loop.header →
    loop.NearestDominator (· ≠ block) block (analyses.immediateDominator block)
  findNearestCommonDominator : ∀ block other,
    loop.NearestDominator (loop.Dominates · other) block
      (analyses.findNearestCommonDominator block other)

section Reference

variable [DecidableEq Block] (loop : LoopStructure Block)

/-- The blocks that come after a block in the same iteration. -/
def LoopStructure.iterationSuccessors (block : Block) : List Block :=
  if loop.isIncluded block then (loop.successors block).filter (· ≠ loop.header) else []

/-- The blocks that come after are the steps. -/
theorem LoopStructure.mem_iteration_successors {block next : Block} :
    next ∈ loop.iterationSuccessors block ↔ loop.Step block next := by
  unfold iterationSuccessors Step
  split_ifs with hincluded <;> simp [hincluded]

/-- Whether a block cannot be reached past another. -/
def LoopStructure.dominatesByTraversal (block other : Block) : Bool :=
  block = other ∨ other ∉ reachableList
    (fun before => if before = block then [] else loop.iterationSuccessors before) loop.blocks
    [loop.header]

/-- The nearest dominator of a block with a property, by search. -/
def LoopStructure.nearestBySearch (P : Block → Bool) (block : Block) : Block :=
  (loop.blocks.find? fun near => loop.dominatesByTraversal near block ∧ P near ∧
    ∀ other ∈ loop.blocks, loop.dominatesByTraversal other block → P other →
      loop.dominatesByTraversal other near).getD loop.header

/-- The analyses, by traversals and searches of the loop. -/
def SpillAnalyses.reference : SpillAnalyses Block where
  OUT block := reachableList loop.iterationSuccessors loop.blocks (loop.iterationSuccessors block)
  dominates := loop.dominatesByTraversal
  immediateDominator block := loop.nearestBySearch (· ≠ block) block
  findNearestCommonDominator block other :=
    loop.nearestBySearch (loop.dominatesByTraversal · other) block

variable {loop}

/-- The traversal past a block finds what it does not dominate. -/
theorem LoopStructure.dominates_by_traversal {block other : Block} :
    loop.dominatesByTraversal block other = true ↔ loop.Dominates block other := by
  unfold dominatesByTraversal
  rw [decide_eq_true_eq, mem_reachable_list loop.mem_blocks]
  have hedge : ∀ {before after : Block},
      after ∈ (if before = block then [] else loop.iterationSuccessors before) ↔
        before ≠ block ∧ loop.Step before after := by
    intro before after
    split_ifs with heq
    · simp [heq]
    · simp [heq, loop.mem_iteration_successors]
  simp only [List.mem_singleton, exists_eq_left, hedge]
  by_cases heq : block = other
  · subst heq
    exact iff_of_true (.inl rfl) (.refl block)
  · rw [reaches_past_iff heq]
    simp only [heq, false_or]
    push Not
    rfl

/-- The search finds the nearest dominator where there is a dominator with the property. -/
theorem LoopStructure.nearest_by_search {P : Block → Bool} {Q : Block → Prop} {block : Block}
    (hP : ∀ other, P other = true ↔ Q other) (h : ∃ other, loop.Dominates other block ∧ Q other) :
    loop.NearestDominator Q block (loop.nearestBySearch P block) := by
  obtain ⟨near, hnear⟩ := exists_nearest_dominator loop.mem_blocks (loop.reached block) h
  unfold nearestBySearch
  cases hfind : loop.blocks.find? _ with
  | none =>
      have hnone := List.find?_eq_none.mp hfind near (loop.mem_blocks near)
      simp only [dominates_by_traversal, hP, decide_eq_true_eq] at hnone
      exact absurd ⟨hnear.dominates, hnear.holds, fun other _ => hnear.nearest other⟩ hnone
  | some found =>
      have hfound := List.find?_some hfind
      simp only [dominates_by_traversal, hP, decide_eq_true_eq] at hfound
      exact ⟨hfound.1, hfound.2.1, fun other => hfound.2.2 other (loop.mem_blocks other)⟩

/-- The traversals and searches compute what is documented. -/
theorem SpillAnalyses.reference_documented : (SpillAnalyses.reference loop).Documented loop := by
  have hout : ∀ {block later}, later ∈ (SpillAnalyses.reference loop).OUT block ↔
      TransGen loop.Step block later := by
    intro block later
    have hsteps : (fun before after => after ∈ loop.iterationSuccessors before) = loop.Step := by
      funext before after
      exact propext loop.mem_iteration_successors
    show later ∈ reachableList _ _ _ ↔ _
    rw [mem_reachable_list loop.mem_blocks, TransGen.head'_iff, hsteps]
    simp only [loop.mem_iteration_successors]
  refine ⟨fun block later _ => hout.mp, fun block later _ _ => hout.mpr,
    fun block other => loop.dominates_by_traversal, fun block hne => ?_, fun block other => ?_⟩
  · exact loop.nearest_by_search (fun other => by simp) ⟨loop.header, .source_left _, hne.symm⟩
  · exact loop.nearest_by_search (fun other => loop.dominates_by_traversal)
      ⟨loop.header, .source_left _, .source_left _⟩

end Reference

/-! ## The spilled PHI -/

/-- What comes into the PHI along an edge: an instruction of this function, by its position, or a
value that is none. -/
inductive IncomingValue (Block : Type*) where
  | instruction (block : Block) (index : Nat)
  | noInstruction
  deriving DecidableEq

/-- A user of the PHI, and where it is a PHI itself the blocks that the value comes from. -/
structure SpillUser (Block : Type*) where
  block : Block
  index : Nat
  incomingBlocks : List Block
  deriving DecidableEq

/-- A PHI of the header with its incoming values and its users in the loop. The incoming block is
`none` for the pre-header. -/
structure SpilledLoopCarriedDependence (loop : LoopStructure Block) where
  index : Nat
  incoming : List (Option Block × IncomingValue Block)
  users : List (SpillUser Block)
  isPHI : index < loop.numPHIs loop.header
  latch_included : ∀ latch value, (some latch, value) ∈ incoming → loop.isIncluded latch = true
  value_valid : ∀ source block index, (source, .instruction block index) ∈ incoming →
    index < loop.size block
  user_included : ∀ user ∈ users, loop.isIncluded user.block = true

section Spill

variable {loop : LoopStructure Block} [DecidableEq Block]

instance lawfulBEqPosition : LawfulBEq (Block × Nat) := inferInstance

/-- Where the value that comes from a latch is stored. -/
def storeInsertPoint (loop : LoopStructure Block) (incomingBB : Block) :
    IncomingValue Block → Block × Nat
  | .instruction block index =>
      if loop.isIncluded block then
        if index < loop.numPHIs block then (block, loop.numPHIs block) else (block, index + 1)
      else (incomingBB, loop.size incomingBB)
  | .noInstruction => (incomingBB, loop.size incomingBB)

variable (spill : SpilledLoopCarriedDependence loop)

/-- The stores of the values that come from the latches. -/
def insertStoresToSpilledLCD : List (Block × Nat) :=
  spill.incoming.filterMap fun (incomingBB, incomingV) =>
    incomingBB.map fun latch => storeInsertPoint loop latch incomingV

/-- The users of the PHI once the stores are there: a store of the PHI itself uses it too. -/
def SpilledLoopCarriedDependence.cloneUsers : List (SpillUser Block) :=
  spill.users ++ spill.incoming.filterMap fun (incomingBB, incomingV) =>
    if incomingV = .instruction loop.header spill.index then
      incomingBB.map fun latch =>
        ⟨(storeInsertPoint loop latch incomingV).1, (storeInsertPoint loop latch incomingV).2, []⟩
    else none

/-! ## The frontier of the loads -/

/-- The blocks before which a store may have been executed in the same iteration. -/
def invalidatedBlocks (loop : LoopStructure Block) (analyses : SpillAnalyses Block)
    (stores : List (Block × Nat)) : List Block :=
  let byStores := stores.flatMap fun store =>
    ((loop.successors store.1).filter fun successor =>
      successor ≠ loop.header ∧ loop.isIncluded successor).flatMap fun successor =>
        successor :: analyses.OUT successor
  byStores ++ ((loop.getLoopExitEdges.filter fun edge => edge.1 ∈ byStores).map Prod.snd)

/-- The first dominator that is not invalidated. The walk up stops with an assertion at the
header. -/
def getValidBlockToLoadIn (loop : LoopStructure Block) (analyses : SpillAnalyses Block)
    (invalidated : List Block) : Nat → Block → Option Block
  | 0, _ => none
  | fuel + 1, validBlock =>
      if validBlock ∈ invalidated then
        if validBlock = loop.header then none
        else getValidBlockToLoadIn loop analyses invalidated fuel
          (analyses.immediateDominator validBlock)
      else some validBlock

/-- Whether a user is a PHI. -/
def SpillUser.IsPHI (loop : LoopStructure Block) (user : SpillUser Block) : Prop :=
  user.index < loop.numPHIs user.block

instance (user : SpillUser Block) : Decidable (user.IsPHI loop) :=
  inferInstanceAs (Decidable (_ < _))

/-- The block whose dominators can hold the load of a user. A load cannot be placed before a PHI,
and has to be executed before the edges along which the PHI takes the value. -/
def originalUserBlock (loop : LoopStructure Block) (analyses : SpillAnalyses Block)
    (user : SpillUser Block) : Block :=
  if user.IsPHI loop then
    user.incomingBlocks.foldl analyses.findNearestCommonDominator user.block
  else user.block

variable (analyses : SpillAnalyses Block)

/-- The blocks for the loads: the valid ones of the users and of the exits, without those that
others dominate. -/
def defineFrontierForLoadsToSpilledLCD (stores : List (Block × Nat)) : Option (List Block) := do
  let invalidated := invalidatedBlocks loop analyses stores
  let frontier ← (spill.cloneUsers.map (originalUserBlock loop analyses) ++
    loop.getLoopExitBasicBlocks).mapM
      (getValidBlockToLoadIn loop analyses invalidated loop.blocks.length)
  return (frontier.filter fun block =>
    ¬ ∃ otherBlock ∈ frontier, block ≠ otherBlock ∧ analyses.dominates otherBlock block).dedup

/-! ## The loads -/

/-- The inserted code: the stores, the loads, the load that each user reads, and the loads that are
live out at each exit. -/
structure SpillCode (Block : Type*) where
  environmentStores : List (Block × Nat)
  environmentLoads : List (Block × Nat)
  replacement : SpillUser Block → Option (Block × Nat)
  liveOuts : Block → List (Block × Nat)

/-- Where the load of a block goes: before the first user or store, or to the bottom. -/
def loadInsertPoint (stores : List (Block × Nat)) (block : Block) : Block × Nat :=
  (block, ((List.range' (loop.numPHIs block) (loop.numOthers block)).find? fun position =>
    (∃ user ∈ spill.cloneUsers, user.block = block ∧ user.index = position) ∨
      (block, position) ∈ stores).getD (loop.size block))

/-- A load for each block of the frontier. A user reads the first one that dominates it, and each
one that dominates an exit is live out there. -/
def replaceUsesOfSpilledPHIWithLoads (stores : List (Block × Nat)) (frontier : List Block) :
    Option (SpillCode Block) :=
  let loads := frontier.map (loadInsertPoint spill stores)
  let replacement := fun user : SpillUser Block =>
    loads.find? fun load => analyses.dominates load.1 user.block
  let liveOuts := fun exit => loads.filter fun load => analyses.dominates load.1 exit
  if (∀ user ∈ spill.cloneUsers, (replacement user).isSome) ∧
      ∀ exit ∈ loop.getLoopExitBasicBlocks, liveOuts exit ≠ [] then
    some ⟨stores, loads, replacement, liveOuts⟩
  else none

/-- The code for a spilled PHI. -/
def createLoadsAndStoresToSpilledLCD : Option (SpillCode Block) := do
  let stores := insertStoresToSpilledLCD spill
  let frontier ← defineFrontierForLoadsToSpilledLCD spill analyses stores
  replaceUsesOfSpilledPHIWithLoads spill analyses stores frontier

end Spill

end Gino.Helix
