import Gino.Helix.LoopGraph

/-!
# The frontier of a sequential segment

`SequentialSegment::determineEntryAndExitFrontier` finds where the waits and signals of a segment
go: two traversals from the instructions of the segment, and a pass over the blocks that go around
it. The sets of the source have no order, so the segment and the blocks of the last pass are lists
in any order. The analyses of the compiler library are a parameter.
-/

namespace Gino.Helix

open Graph Machine Relation LoopCFG

variable {Block : Type*} {loop : LoopCFG Block}

/-! ## Reachability within an iteration -/

/-- The instruction a data-flow value is generated at. -/
def computeGEN (inst : loop.Instr) : Set loop.Instr := {inst}

/-- The values before an instruction. -/
def computeIN (OUT : loop.Instr → Set loop.Instr) (inst : loop.Instr) : Set loop.Instr :=
  OUT inst ∪ computeGEN inst

/-- The values a successor propagates. Nothing comes from the header, which is in the next
iteration. -/
def computeOUT (IN : loop.Instr → Set loop.Instr) (succ : loop.Instr) : Set loop.Instr :=
  {value | succ ≠ loop.first loop.header ∧ value ∈ IN succ}

/-- A solution of the backward data-flow equations. -/
structure DataFlowResult (IN OUT : loop.Instr → Set loop.Instr) : Prop where
  IN_eq : ∀ inst, IN inst = computeIN OUT inst
  OUT_eq : ∀ inst, OUT inst = {value | ∃ succ ∈ inst.nextInstructions, value ∈ computeOUT IN succ}

/-- The instructions reached within an iteration are a solution. -/
theorem reachability_solves : DataFlowResult
    (fun inst : loop.Instr => {later | ReflTransGen loop.Step inst later})
    (fun inst => {later | TransGen loop.Step inst later}) := by
  constructor
  · intro inst
    ext later
    show ReflTransGen loop.Step inst later ↔ TransGen loop.Step inst later ∨ later = inst
    rw [reflTransGen_iff_eq_or_transGen, or_comm]
  · intro inst
    ext later
    show TransGen loop.Step inst later ↔ _
    rw [TransGen.head'_iff]
    constructor
    · rintro ⟨next, ⟨hnext, hne⟩, hreach⟩
      exact ⟨next, hnext, hne, hreach⟩
    · rintro ⟨next, hnext, hne, hreach⟩
      exact ⟨next, ⟨hnext, hne⟩, hreach⟩

/-- Every solution has the instructions reached within an iteration. -/
theorem DataFlowResult.mem_of_reaches {IN OUT : loop.Instr → Set loop.Instr}
    (h : DataFlowResult IN OUT) {inst later : loop.Instr} (hreach : TransGen loop.Step inst later) :
    later ∈ OUT inst := by
  have hstep : ∀ {inst next later : loop.Instr}, loop.Step inst next →
      (later = next ∨ later ∈ OUT next) → later ∈ OUT inst := by
    intro inst next later hstep hlater
    rw [h.OUT_eq]
    refine ⟨next, hstep.1, hstep.2, ?_⟩
    rw [h.IN_eq]
    exact hlater.symm
  induction hreach using TransGen.head_induction_on with
  | single hlast => exact hstep hlast (.inl rfl)
  | head hfirst _ ih => exact hstep hfirst (.inr ih)

/-! ## The analyses -/

/-- The results of the compiler library's analyses: what the data-flow engine computes, whether the
innermost loop of an instruction is the parallelized one, and dominance. -/
structure Analyses (loop : LoopCFG Block) where
  OUT : loop.Instr → List loop.Instr
  nestedMostLoopIsRoot : loop.Instr → Bool
  dominates : loop.Instr → loop.Instr → Bool

/-- The data-flow result is the least solution, inner loops are natural loops, and dominance is on
all walks from the header. -/
structure Analyses.Documented (analyses : Analyses loop) : Prop where
  OUT : ∃ IN, DataFlowResult IN (fun inst => {value | value ∈ analyses.OUT inst}) ∧
    ∀ IN' OUT', DataFlowResult IN' OUT' → ∀ inst, ∀ value ∈ analyses.OUT inst, value ∈ OUT' inst
  nestedMostLoopIsRoot : ∀ inst, analyses.nestedMostLoopIsRoot inst = true ↔ ¬ InInnerLoop inst
  dominates : ∀ definition inst, analyses.dominates definition inst = true ↔
    definition ≠ inst ∧ ∀ path, Walk loop.Step path (loop.first loop.header) inst →
      definition ∈ path

/-- The data-flow result is reachability within an iteration. -/
theorem Analyses.Documented.mem_out {analyses : Analyses loop} (h : analyses.Documented)
    {inst later : loop.Instr} : later ∈ analyses.OUT inst ↔ TransGen loop.Step inst later := by
  obtain ⟨IN, hsolution, hleast⟩ := h.OUT
  exact ⟨fun hmem => hleast _ _ reachability_solves inst later hmem,
    fun hreach => hsolution.mem_of_reaches hreach⟩

variable [DecidableEq Block]

/-- The instructions executed next in the same iteration. -/
def iterationNext (inst : loop.Instr) : List loop.Instr :=
  inst.nextInstructions.filter (· ≠ loop.first loop.header)

/-- The instructions executed next are the steps. -/
theorem mem_iterationNext {inst next : loop.Instr} :
    next ∈ iterationNext inst ↔ loop.Step inst next := by
  unfold iterationNext LoopCFG.Step
  rw [List.mem_filter, decide_eq_true_eq]

/-- Whether a walk leads from one instruction to another and not past a third. -/
def walksPast (past inst later : loop.Instr) : Bool :=
  past ≠ later ∧
    later ∈ reachableList (fun other => if other = past then [] else iterationNext other)
      loop.instructions [inst]

/-- Whether the edge goes back to a block that is on every walk to where it begins. -/
def isBackEdge (loop : LoopCFG Block) (latch header : Block) : Bool :=
  (loop.successors latch).any (· = some header) && header ≠ loop.header &&
    !walksPast (loop.first header) (loop.first loop.header) (loop.getTerminator latch)

/-- The analyses, by traversals of the loop. -/
def Analyses.reference (loop : LoopCFG Block) : Analyses loop where
  OUT inst := reachableList iterationNext loop.instructions (iterationNext inst)
  nestedMostLoopIsRoot inst := !loop.blocks.any fun header => loop.blocks.any fun latch =>
    isBackEdge loop latch header && (inst.block = header ||
      walksPast (loop.first header) inst (loop.getTerminator latch))
  dominates definition inst := definition ≠ inst ∧
    walksPast definition (loop.first loop.header) inst = false

/-- The traversal from an instruction finds what it reaches. -/
theorem mem_reference_out {inst later : loop.Instr} :
    later ∈ reachableList iterationNext loop.instructions (iterationNext inst) ↔
      TransGen loop.Step inst later := by
  have hsteps : (fun inst after : loop.Instr => after ∈ iterationNext inst) = loop.Step := by
    funext inst after
    exact propext mem_iterationNext
  rw [mem_reachable_list LoopCFG.mem_instructions, TransGen.head'_iff, hsteps]
  simp only [mem_iterationNext]

/-- The traversal past an instruction finds what has a walk around it. -/
theorem walks_past_iff {past inst later : loop.Instr} : walksPast past inst later = true ↔
    ∃ path, Walk loop.Step path inst later ∧ past ∉ path := by
  unfold walksPast
  rw [decide_eq_true_eq]
  have hedge : ∀ {other after : loop.Instr},
      after ∈ (if other = past then [] else iterationNext other) ↔
        other ≠ past ∧ loop.Step other after := by
    intro other after
    split_ifs with heq
    · simp [heq]
    · simp [heq, mem_iterationNext]
  by_cases hlater : past = later
  · subst hlater
    refine iff_of_false (fun h => h.1 rfl) ?_
    rintro ⟨path, hpath, hmem⟩
    exact hmem hpath.target_mem
  · rw [mem_reachable_list LoopCFG.mem_instructions]
    simp only [List.mem_singleton, exists_eq_left, hedge]
    rw [reaches_past_iff hlater]
    exact and_iff_right hlater

/-- The traversals find the back edges. -/
theorem is_back_edge_iff {latch header : Block} :
    isBackEdge loop latch header = true ↔ loop.IsBackEdge latch header := by
  have hdominates : (!walksPast (loop.first header) (loop.first loop.header)
      (loop.getTerminator latch)) = true ↔ Dominates loop.Step (loop.first loop.header)
        (loop.first header) (loop.getTerminator latch) := by
    rw [Bool.not_eq_true', ← Bool.not_eq_true, walks_past_iff]
    push Not
    rfl
  unfold isBackEdge
  rw [Bool.and_eq_true, Bool.and_eq_true, hdominates]
  simp only [List.any_eq_true, decide_eq_true_eq, exists_eq_right]
  exact ⟨fun ⟨⟨hedge, hinner⟩, hdom⟩ => ⟨hedge, hinner, hdom⟩,
    fun h => ⟨⟨h.edge, h.inner⟩, h.dominates⟩⟩

/-- The traversals compute what is documented. -/
theorem Analyses.reference_documented (loop : LoopCFG Block) :
    (Analyses.reference loop).Documented := by
  have hout : (fun inst => {value | value ∈ (Analyses.reference loop).OUT inst}) =
      fun inst => {later | TransGen loop.Step inst later} := by
    funext inst
    ext later
    exact mem_reference_out
  refine ⟨⟨_, hout ▸ reachability_solves, fun IN' OUT' h inst value hvalue =>
    h.mem_of_reaches (mem_reference_out.mp hvalue)⟩, fun inst => ?_, fun definition inst => ?_⟩
  · show (!List.any _ _) = true ↔ _
    rw [Bool.not_eq_true', ← Bool.not_eq_true, not_iff_not]
    simp only [List.any_eq_true, Bool.and_eq_true, Bool.or_eq_true, decide_eq_true_eq,
      is_back_edge_iff, walks_past_iff, loop.mem_blocks, true_and]
    rfl
  · show decide _ = true ↔ _
    rw [decide_eq_true_eq, ← Bool.not_eq_true, walks_past_iff]
    push Not
    rfl

/-! ## The frontier -/

/-- The instruction itself, or the first one of the block that is no PHI. -/
def getFrontierInstructionThatDoesNotSplitPHIs (originalBarrierInst : loop.Instr) : loop.Instr :=
  if originalBarrierInst.IsPHI then loop.getFirstNonPHI originalBarrierInst.block
  else originalBarrierInst

/-- The entries and exits of a segment. -/
structure EntriesAndExits (loop : LoopCFG Block) where
  entries : List loop.Instr
  exits : List loop.Instr
  deriving DecidableEq

section Checks

variable (analyses : Analyses loop) (ssInstructions : List loop.Instr)

/-- The instructions that could have been executed before this one. -/
def beforeInstructions (inst : loop.Instr) : List loop.Instr :=
  loop.instructions.filter fun before => before ≠ inst ∧ inst ∈ analyses.OUT before

/-- No other instruction of the segment can reach this one. -/
def checkIfBeforeEntryFrontier (inst : loop.Instr) : Bool :=
  (beforeInstructions analyses inst).all fun before => before = inst ∨ before ∉ ssInstructions

/-- No other instruction of the segment can be reached from this one. -/
def checkIfAfterExitFrontier (inst : loop.Instr) : Bool :=
  (analyses.OUT inst).all fun after => inst = after ∨ after ∉ ssInstructions

/-- An entry dominates the instruction. -/
def isDominatedByOtherEntry (entries : List loop.Instr) (inst : loop.Instr) : Bool :=
  entries.any fun entry => analyses.dominates entry inst

/-- An exit can reach the instruction. -/
def isReachableFromOtherExit (exits : List loop.Instr) (inst : loop.Instr) : Bool :=
  (beforeInstructions analyses inst).any fun before => before ∈ exits

/-- One item of the traversal for entries. -/
def visitPotentialEntry (entries : List loop.Instr) (potentialEntryI : loop.Instr) :
    List loop.Instr × List loop.Instr :=
  if analyses.nestedMostLoopIsRoot potentialEntryI &&
      checkIfBeforeEntryFrontier analyses ssInstructions potentialEntryI &&
      !isDominatedByOtherEntry analyses entries potentialEntryI
  then (entries.insert (getFrontierInstructionThatDoesNotSplitPHIs potentialEntryI), [])
  else (entries, potentialEntryI.previousInstructions)

/-- One item of the traversal for exits. -/
def visitPotentialExit (exits : List loop.Instr) (potentialExitI : loop.Instr) :
    List loop.Instr × List loop.Instr :=
  if analyses.nestedMostLoopIsRoot potentialExitI &&
      checkIfAfterExitFrontier analyses ssInstructions potentialExitI &&
      !isReachableFromOtherExit analyses exits potentialExitI
  then (exits.insert (getFrontierInstructionThatDoesNotSplitPHIs potentialExitI), [])
  else (exits, potentialExitI.nextInstructions)

/-- The first instructions of the blocks that go around the segment. -/
def instructionsUnreachableToAndFromSS : List loop.Instr :=
  (loop.blocks.map loop.first).filter fun inst =>
    inst ∉ ssInstructions ∧ checkIfBeforeEntryFrontier analyses ssInstructions inst ∧
      checkIfAfterExitFrontier analyses ssInstructions inst

/-- One unreachable instruction of the last pass. -/
def extendFrontier (frontier : EntriesAndExits loop) (inst : loop.Instr) : EntriesAndExits loop :=
  let nonInterferingPoint := getFrontierInstructionThatDoesNotSplitPHIs inst
  { entries :=
      if isDominatedByOtherEntry analyses frontier.entries nonInterferingPoint
      then frontier.entries else frontier.entries.insert nonInterferingPoint
    exits :=
      if isReachableFromOtherExit analyses frontier.exits nonInterferingPoint
      then frontier.exits else frontier.exits.insert nonInterferingPoint }

/-- The traversal for entries. -/
def findEntries : Option (List loop.Instr) :=
  worklist (visitPotentialEntry analyses ssInstructions)
    (ssInstructions.length +
      pushesLeft (fun inst => inst.previousInstructions.length) loop.instructions [])
    ssInstructions [] []

/-- The traversal for exits. -/
def findExits : Option (List loop.Instr) :=
  worklist (visitPotentialExit analyses ssInstructions)
    (ssInstructions.length +
      pushesLeft (fun inst => inst.nextInstructions.length) loop.instructions [])
    ssInstructions [] []

/-- The frontier, with the unreachable instructions in some order. -/
def determineEntryAndExitFrontier (unreachable : List loop.Instr) :
    Option (EntriesAndExits loop) := do
  let entries ← findEntries analyses ssInstructions
  let exits ← findExits analyses ssInstructions
  return unreachable.foldl (extendFrontier analyses) ⟨entries, exits⟩

end Checks

end Gino.Helix
