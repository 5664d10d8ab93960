import Mathlib.Data.List.Basic
import Mathlib.Data.List.TakeDrop

/-!
# Techniques that give up

What a technique writes before it decides whether to go on: into the function of the loop, as the
list of its basic blocks, and into the function of its task. DOALL and DSWP decide before they write
anything. HELIX decides in `synchronizeTask`, after it has created two basic blocks and spilled the
loop-carried variables, so `leaves_function_iff` says that it leaves the function as it was only
where it does not give up.
-/

namespace Gino.Technique

variable {Inst Value Block : Type*}

/-- An instruction of the function of a loop: one that it had, or one for the environment. -/
inductive Instruction (Inst Value : Type*) where
  | original (inst : Inst)
  | allocateEnvironmentArray (numVariables : Nat)
  | allocateEnvironmentVariable (envVariableID : Nat)
  | storeEnvironmentVariable (value : Value) (envVariableID : Nat)
  deriving DecidableEq

/-- The passes that write into the function of a task. -/
inductive TaskPass where
  | loopExitStubs
  | initializeLoopEnvironmentUsers
  | cloneSequentialLoop
  | generateCodeToLoadLiveInVariables
  | cloneMemoryLocationsLocallyAndRewireLoop
  | adjustDataAndControlFlowToUseClones
  | setReducableVariablesToBeginAtIdentityValue
  | branchToHeader
  | setEnvironmentArray
  | createLoadsAndStoresToSpilledLCD (envVariableID : Nat)
  | rewireLoopForIVsToIterateNthIterations
  | rewireLoopForPeriodicVariables
  | squeezeSequentialSegments
  deriving DecidableEq

/-- The function of a loop and what was written into the function of its task. -/
structure Program (Inst Value : Type*) where
  function : List (List (Instruction Inst Value))
  task : List TaskPass

/-- What a pass does. -/
inductive Effect (Inst Value : Type*) where
  | createBasicBlock
  | insertAtFunctionBegin (instructions : List (Instruction Inst Value))
  | appendToBasicBlock (block : Nat) (instructions : List (Instruction Inst Value))
  | inTask (pass : TaskPass)

/-- Insert before the first instruction of a function. -/
def insertAtBegin (instructions : List (Instruction Inst Value)) :
    List (List (Instruction Inst Value)) → List (List (Instruction Inst Value))
  | [] => []
  | first :: blocks => (instructions ++ first) :: blocks

/-- The program after an effect. -/
def Effect.run (program : Program Inst Value) : Effect Inst Value → Program Inst Value
  | .createBasicBlock => { program with function := program.function ++ [[]] }
  | .insertAtFunctionBegin instructions =>
      { program with function := insertAtBegin instructions program.function }
  | .appendToBasicBlock block instructions =>
      { program with function := program.function.modify block (· ++ instructions) }
  | .inTask pass => { program with task := program.task ++ [pass] }

/-- The program after a list of effects. -/
def runEffects (effects : List (Effect Inst Value)) (program : Program Inst Value) :
    Program Inst Value :=
  effects.foldl Effect.run program

/-- A PHI of the header of a loop. -/
structure HeaderPHI (Value : Type*) where
  preHeaderValue : Value
  isReduction : Bool
  isInductionVariable : Bool
  isPeriodicVariable : Bool
  contributesToInductionVariable : Bool

/-- A loop that a technique is applied to, with the results of the analyses that decide. The
sequential segments are those of the loop in the task of HELIX, by the blocks of their entries. The
passes that follow the decision to go on are a parameter. -/
structure LoopContent (Inst Value Block : Type*) where
  function : List (List (Instruction Inst Value))
  headerPHIs : List (HeaderPHI Value)
  isMemoryCloningEnabled : Bool
  numberOfPartitions : Nat
  taskHeader : Block
  taskLatches : List Block
  sequentialSegments : List (List Block)
  goOn : Program Inst Value → Program Inst Value
  function_ne : function ≠ []

/-- The techniques with their options. -/
inductive ParallelizationTechnique where
  | doall (enabled : Bool)
  | helix (forceParallelization : Bool)
  | dswp (forceParallelization : Bool)

section Apply

variable (loop : LoopContent Inst Value Block)

/-- The PHIs of the header that HELIX spills. -/
def LoopContent.originalLoopCarriedPHIs : List (HeaderPHI Value) :=
  loop.headerPHIs.filter fun phi => !(phi.isReduction || phi.isInductionVariable ||
    phi.isPeriodicVariable) && !phi.contributesToInductionVariable

/-- `addPredecessorAndSuccessorsBasicBlocksToTasks`: the entry and the exit of the parallelized
loop. -/
def addPredecessorAndSuccessorsBasicBlocksToTasks : List (Effect Inst Value) :=
  [.createBasicBlock, .createBasicBlock, .inTask .loopExitStubs]

/-- The basic block of the entry of the parallelized loop. -/
def LoopContent.entryPointOfParallelizedLoop : Nat := loop.function.length

/-- What the environment builder emits for spilled variables. -/
def environmentAllocations (numVariables : Nat) : List (Instruction Inst Value) :=
  .allocateEnvironmentArray numVariables ::
    (List.range numVariables).map .allocateEnvironmentVariable

/-- The initial values of the spilled variables. -/
def LoopContent.spillStores : List (Instruction Inst Value) :=
  loop.originalLoopCarriedPHIs.zipIdx.map fun phi =>
    .storeEnvironmentVariable phi.1.preHeaderValue phi.2

/-- `spillLoopCarriedDataDependencies`. -/
def spillLoopCarriedDataDependencies : List (Effect Inst Value) :=
  let numPHIs := loop.originalLoopCarriedPHIs.length
  [.inTask .setEnvironmentArray, .insertAtFunctionBegin (environmentAllocations numPHIs),
    .appendToBasicBlock loop.entryPointOfParallelizedLoop loop.spillStores] ++
    (List.range numPHIs).map fun phiI => .inTask (.createLoadsAndStoresToSpilledLCD phiI)

/-- `createParallelizableTask`. -/
def createParallelizableTask : List (Effect Inst Value) :=
  addPredecessorAndSuccessorsBasicBlocksToTasks ++
    [.inTask .initializeLoopEnvironmentUsers, .inTask .cloneSequentialLoop,
      .inTask .generateCodeToLoadLiveInVariables] ++
    (if loop.isMemoryCloningEnabled then [.inTask .cloneMemoryLocationsLocallyAndRewireLoop]
      else []) ++
    [.inTask .adjustDataAndControlFlowToUseClones,
      .inTask .setReducableVariablesToBeginAtIdentityValue, .inTask .branchToHeader] ++
    spillLoopCarriedDataDependencies loop ++
    [.inTask .rewireLoopForIVsToIterateNthIterations, .inTask .rewireLoopForPeriodicVariables]

/-- A sequential segment has an entry in the header and one in a latch. -/
def LoopContent.spansLoop [DecidableEq Block] (entries : List Block) : Bool :=
  entries.any (fun entryBlock => loop.taskHeader = entryBlock) &&
    entries.any fun entryBlock => entryBlock ∈ loop.taskLatches

/-- `synchronizeTask`: whether HELIX gives up because of a sequential segment. -/
def synchronizeTask [DecidableEq Block] (forceParallelization : Bool)
    (program : Program Inst Value) : Bool × Program Inst Value :=
  let program := runEffects [.inTask .squeezeSequentialSegments] program
  if !forceParallelization && loop.sequentialSegments.any loop.spansLoop then (false, program)
  else (true, loop.goOn program)

/-- `apply` of a technique: whether the loop was parallelized, and the program then. -/
def ParallelizationTechnique.apply [DecidableEq Block] :
    ParallelizationTechnique → Bool × Program Inst Value
  | .doall enabled =>
      if !enabled then (false, ⟨loop.function, []⟩)
      else (true, loop.goOn
        (runEffects addPredecessorAndSuccessorsBasicBlocksToTasks ⟨loop.function, []⟩))
  | .helix forceParallelization =>
      synchronizeTask loop forceParallelization
        (runEffects (createParallelizableTask loop) ⟨loop.function, []⟩)
  | .dswp forceParallelization =>
      if !forceParallelization && loop.numberOfPartitions == 1 then (false, ⟨loop.function, []⟩)
      else (true, loop.goOn
        (runEffects addPredecessorAndSuccessorsBasicBlocksToTasks ⟨loop.function, []⟩))

/-- A technique that gives up leaves the function as it was. -/
def LeavesFunction [DecidableEq Block] (technique : ParallelizationTechnique) : Prop :=
  (technique.apply loop).1 = false → (technique.apply loop).2.function = loop.function

end Apply

/-! ## What is left behind -/

/-- What is written into the function of the task leaves the function of the loop as it was. -/
theorem run_in_task {ι : Type*} (passes : List ι) (pass : ι → TaskPass)
    (program : Program Inst Value) :
    (runEffects (passes.map fun i => .inTask (pass i)) program).function = program.function := by
  unfold runEffects
  induction passes generalizing program with
  | nil => rfl
  | cons i passes ih => exact ih _

/-- Effects one after the other. -/
theorem run_effects_append (effects others : List (Effect Inst Value))
    (program : Program Inst Value) :
    runEffects (effects ++ others) program = runEffects others (runEffects effects program) :=
  List.foldl_append

/-- Inserting before the first instruction leaves the later blocks as they were. -/
theorem insert_at_begin_append (instructions : List (Instruction Inst Value))
    {function : List (List (Instruction Inst Value))} (hne : function ≠ [])
    (blocks : List (List (Instruction Inst Value))) :
    insertAtBegin instructions (function ++ blocks) =
      insertAtBegin instructions function ++ blocks := by
  cases function with
  | nil => exact absurd rfl hne
  | cons first rest => rfl

/-- Inserting before the first instruction keeps the number of blocks. -/
theorem insert_at_begin_length (instructions : List (Instruction Inst Value))
    (function : List (List (Instruction Inst Value))) :
    (insertAtBegin instructions function).length = function.length := by
  cases function with
  | nil => rfl
  | cons first rest => rfl

/-- Changing the first of the later blocks. -/
theorem modify_append {α : Type*} (blocks : List α) (block : α) (later : List α) (change : α → α) :
    (blocks ++ block :: later).modify blocks.length change = blocks ++ change block :: later := by
  induction blocks with
  | nil => rfl
  | cons first blocks ih => exact congrArg (first :: ·) ih

variable (loop : LoopContent Inst Value Block)

/-- The function that the passes of HELIX leave behind before its decision. -/
def LoopContent.leftBehind : List (List (Instruction Inst Value)) :=
  insertAtBegin (environmentAllocations loop.originalLoopCarriedPHIs.length) loop.function ++
    [loop.spillStores, []]

/-- The pass that spills variables allocates their environment and stores their initial values. -/
theorem spill_function (program : Program Inst Value)
    (hfunction : program.function = loop.function ++ [[], []]) :
    (runEffects (spillLoopCarriedDataDependencies loop) program).function = loop.leftBehind := by
  have hentry : loop.entryPointOfParallelizedLoop = (insertAtBegin
      (environmentAllocations loop.originalLoopCarriedPHIs.length) loop.function).length :=
    (insert_at_begin_length _ _).symm
  unfold spillLoopCarriedDataDependencies LoopContent.leftBehind
  rw [run_effects_append, run_in_task, hentry]
  simp only [runEffects, List.foldl_cons, List.foldl_nil, Effect.run, hfunction]
  rw [insert_at_begin_append _ loop.function_ne, modify_append, List.nil_append]

/-- The passes of HELIX before its decision create two basic blocks, of which the first one stores
the spilled variables, and allocate the environment of these. -/
theorem create_parallelizable_task_function :
    (runEffects (createParallelizableTask loop) ⟨loop.function, []⟩).function =
      loop.leftBehind := by
  unfold createParallelizableTask
  rw [run_effects_append, run_effects_append]
  have hrest : ∀ program : Program Inst Value, (runEffects
      [.inTask .rewireLoopForIVsToIterateNthIterations, .inTask .rewireLoopForPeriodicVariables]
      program).function = program.function := fun _ => rfl
  rw [hrest]
  refine spill_function loop _ ?_
  cases hcloning : loop.isMemoryCloningEnabled with
  | true => simp [runEffects, addPredecessorAndSuccessorsBasicBlocksToTasks, Effect.run]
  | false => simp [runEffects, addPredecessorAndSuccessorsBasicBlocksToTasks, Effect.run]

/-- What the passes of HELIX leave behind has two more basic blocks. -/
theorem left_behind_length : loop.leftBehind.length = loop.function.length + 2 := by
  unfold LoopContent.leftBehind
  rw [List.length_append, insert_at_begin_length]
  rfl

variable [DecidableEq Block]

/-- HELIX gives up where a sequential segment spans the loop. -/
theorem synchronize_task_eq_false {forceParallelization : Bool} (program : Program Inst Value) :
    (synchronizeTask loop forceParallelization program).1 = false ↔
      forceParallelization = false ∧ ∃ entries ∈ loop.sequentialSegments,
        loop.spansLoop entries = true := by
  unfold synchronizeTask
  dsimp only
  rw [← List.any_eq_true]
  split_ifs with hgivesUp
  · rw [Bool.and_eq_true, Bool.not_eq_true'] at hgivesUp
    exact iff_of_true rfl hgivesUp
  · rw [Bool.and_eq_true, Bool.not_eq_true'] at hgivesUp
    exact iff_of_false (by simp) hgivesUp

/-- HELIX that gives up leaves what its passes wrote. -/
theorem helix_leaves_behind {forceParallelization : Bool}
    (h : ((ParallelizationTechnique.helix forceParallelization).apply loop).1 = false) :
    ((ParallelizationTechnique.helix forceParallelization).apply loop).2.function =
      loop.leftBehind := by
  rw [← create_parallelizable_task_function loop]
  unfold ParallelizationTechnique.apply synchronizeTask at h ⊢
  dsimp only at h ⊢
  split_ifs at h ⊢
  rfl

/-- A technique that gives up leaves the function as it was, except for HELIX that gives up because
of a sequential segment that spans the loop. -/
theorem leaves_function_iff (technique : ParallelizationTechnique) :
    LeavesFunction loop technique ↔ ¬ (technique = .helix false ∧
      ∃ entries ∈ loop.sequentialSegments, loop.spansLoop entries = true) := by
  unfold LeavesFunction
  cases technique with
  | doall enabled =>
      refine iff_of_true (fun h => ?_) (by simp)
      dsimp only [ParallelizationTechnique.apply] at h ⊢
      split_ifs at h ⊢
      rfl
  | dswp forceParallelization =>
      refine iff_of_true (fun h => ?_) (by simp)
      dsimp only [ParallelizationTechnique.apply] at h ⊢
      split_ifs at h ⊢
      rfl
  | helix forceParallelization =>
      rw [ParallelizationTechnique.helix.injEq]
      constructor
      · intro hleaves hgivesUp
        have hfalse := (synchronize_task_eq_false loop
          (runEffects (createParallelizableTask loop) ⟨loop.function, []⟩)).mpr hgivesUp
        -- The two functions differ in the number of their basic blocks.
        have hlength := congrArg List.length
          ((hleaves hfalse).symm.trans (helix_leaves_behind loop hfalse))
        rw [left_behind_length] at hlength
        omega
      · intro hgoesOn hfalse
        exact absurd ((synchronize_task_eq_false loop _).mp hfalse) hgoesOn

/-- A loop with a spilled variable, whose only sequential segment starts in the header, which is its
latch too. -/
def spanningLoop : LoopContent Nat Nat Bool where
  function := [[.original 0], [.original 1]]
  headerPHIs := [⟨7, false, false, false, false⟩]
  isMemoryCloningEnabled := false
  numberOfPartitions := 1
  taskHeader := true
  taskLatches := [true]
  sequentialSegments := [[true]]
  goOn := id
  function_ne := by simp

/-- HELIX gives up on the loop and leaves two basic blocks, the environment and a store behind. -/
theorem helix_changes_function : ¬ LeavesFunction spanningLoop (.helix false) := by
  intro hleaves
  have hfalse : ((ParallelizationTechnique.helix false).apply spanningLoop).1 = false := by decide
  have hfunction := (hleaves hfalse).symm.trans (helix_leaves_behind spanningLoop hfalse)
  exact absurd hfunction (by decide)

end Gino.Technique
