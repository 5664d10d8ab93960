import Gino.Machine.Memo
import Mathlib.Data.List.Perm.Basic

/-!
# The sets of SCCs that get a sequential segment

`HELIX::identifySequentialSegments` maps the SCCs of the task to SCCs of the original loop, of which
it keeps the first that comes to an SCC of the task, and makes a sequential segment of every set
with an SCC whose kind has to execute sequentially. `may_judge_recorded` says by which kinds an SCC
of the task may be judged, whatever the order.
-/

namespace Gino.Helix

open Machine

/-- The kinds of SCCs that the pass tells apart. -/
inductive SCCKind where
  | loopCarriedUnknownSCC
  | unknownClosedFormSCC
  | otherSCC
  deriving DecidableEq

/-- The SCC has to execute sequentially. -/
def SCCKind.isSequential : SCCKind → Bool
  | .loopCarriedUnknownSCC => true
  | .unknownClosedFormSCC => true
  | .otherSCC => false

/-- An SCCDAG, with its nodes and the instructions of each in the order of a visit. -/
structure LoopSCCDAG (Inst SCC : Type) where
  nodes : List SCC
  internalNodes : SCC → List Inst
  nodup : nodes.Nodup
  unique : ∀ scc ∈ nodes, ∀ other ∈ nodes, ∀ inst ∈ internalNodes scc,
    inst ∈ internalNodes other → scc = other

/-- The instruction is one of an SCC of the SCCDAG. -/
def LoopSCCDAG.Contains {Inst SCC : Type} (dag : LoopSCCDAG Inst SCC) (scc : SCC) (inst : Inst) :
    Prop :=
  scc ∈ dag.nodes ∧ inst ∈ dag.internalNodes scc

/-- The loop, its clone in the task, and the spills. The SCCs of the task are those of the
instructions of the cloned loop, which has the stores of the spills. -/
structure SegmentInput (Inst TaskInst SCC TaskSCC Spill : Type) where
  originalSCCDAG : LoopSCCDAG Inst SCC
  originalKind : SCC → SCCKind
  wasOriginalLoopIVGoverned : Bool
  taskSCCDAG : LoopSCCDAG TaskInst TaskSCC
  taskKind : TaskSCC → SCCKind
  depsSCCs : List TaskSCC
  getCloneOfOriginalInstruction : Inst → Option TaskInst
  isIncluded : TaskInst → Bool
  spills : List Spill
  getOriginal : Spill → Inst
  environmentStores : Spill → List TaskInst
  included_iff : ∀ inst, isIncluded inst = true ↔ ∃ scc, taskSCCDAG.Contains scc inst
  original_contained : ∀ spill ∈ spills, ∃ scc, originalSCCDAG.Contains scc (getOriginal spill)
  stores_ne_nil : ∀ spill ∈ spills, environmentStores spill ≠ []
  stores_included : ∀ spill ∈ spills, ∀ store ∈ environmentStores spill, isIncluded store = true

/-- The original SCCs of the spills, and the map from SCCs of the task to original ones. -/
structure SCCMap (SCC TaskSCC : Type) where
  spillSCCs : List SCC
  taskToOriginalFunctionSCCMap : TaskSCC → Option SCC

variable {Inst TaskInst SCC TaskSCC Spill : Type}

/-! ## The pass -/

section Pass

variable [DecidableEq Inst] [DecidableEq TaskInst] [DecidableEq SCC] [DecidableEq TaskSCC]

/-- The SCC of an instruction. -/
def LoopSCCDAG.sccOfValue {Inst SCC : Type} [DecidableEq Inst] (dag : LoopSCCDAG Inst SCC)
    (inst : Inst) : Option SCC :=
  dag.nodes.find? fun scc => inst ∈ dag.internalNodes scc

variable (input : SegmentInput Inst TaskInst SCC TaskSCC Spill)

namespace SegmentInput

/-- The SCC of the task and the original SCC of a spill. There is none where an assertion fails. -/
def spillEntry (spill : Spill) : Option (TaskSCC × SCC) := do
  let originalSpillSCC ← input.originalSCCDAG.sccOfValue (input.getOriginal spill)
  let clonedInstructionInLoop ← (input.environmentStores spill).head?
  let clonedSpillSCC ← input.taskSCCDAG.sccOfValue clonedInstructionInLoop
  some (clonedSpillSCC, originalSpillSCC)

/-- Map the SCC of a spill. -/
def mapSpill (state : SCCMap SCC TaskSCC) (spill : Spill) : Option (SCCMap SCC TaskSCC) :=
  (input.spillEntry spill).map fun entry =>
    ⟨entry.2 :: state.spillSCCs, enterNew state.taskToOriginalFunctionSCCMap entry⟩

/-- The clone of an instruction, if it is in the loop. -/
def cloneInLoop (originalInst : Inst) : Option TaskInst :=
  (input.getCloneOfOriginalInstruction originalInst).filter input.isIncluded

/-- The first clone in the loop of an instruction of an SCC. -/
def anyClonedInstInLoop (originalSCC : SCC) : Option TaskInst :=
  (input.originalSCCDAG.internalNodes originalSCC).findSome? input.cloneInLoop

/-- The SCC of the task with an instruction. There is none where an assertion fails. -/
def singleMappingSCC (inst : TaskInst) : Option TaskSCC :=
  match input.taskSCCDAG.nodes.filter fun taskSCC =>
    inst ∈ input.taskSCCDAG.internalNodes taskSCC with
  | [taskSCC] => some taskSCC
  | _ => none

/-- Map the SCC with the clone of an instruction of an original SCC. -/
def mapNode (state : SCCMap SCC TaskSCC) (originalSCC : SCC) : Option (SCCMap SCC TaskSCC) :=
  if originalSCC ∈ state.spillSCCs then some state
  else
    match input.anyClonedInstInLoop originalSCC with
    | none => some state
    | some inst => (input.singleMappingSCC inst).map fun taskSCC =>
        ⟨state.spillSCCs, enterNew state.taskToOriginalFunctionSCCMap (taskSCC, originalSCC)⟩

/-- Map the SCCs of the task. -/
def mapSCCs : Option (SCCMap SCC TaskSCC) := do
  let spilled ← input.spills.foldlM input.mapSpill ⟨[], fun _ => none⟩
  input.originalSCCDAG.nodes.foldlM input.mapNode spilled

/-- An SCC that is not skipped: one with loop-carried data dependences, or any one where the loop is
not governed by an induction variable. -/
def isConsidered (scc : TaskSCC) : Bool :=
  !input.wasOriginalLoopIVGoverned || decide (scc ∈ input.depsSCCs)

/-- The kind of the SCC to analyze. -/
def kindToAnalyze (map : TaskSCC → Option SCC) (scc : TaskSCC) : SCCKind :=
  match map scc with
  | some originalSCC => input.originalKind originalSCC
  | none => input.taskKind scc

/-- A set with an SCC that has to execute sequentially. -/
def requireSS (map : TaskSCC → Option SCC) (set : List TaskSCC) : Bool :=
  set.any fun scc => input.isConsidered scc && (input.kindToAnalyze map scc).isSequential

omit [DecidableEq Inst] [DecidableEq TaskInst] [DecidableEq SCC] [DecidableEq TaskSCC] in
/-- The initial partition has a set for every SCC. -/
def partitionSCCDAG : List (List TaskSCC) := input.taskSCCDAG.nodes.map fun scc => [scc]

/-- `HELIX::identifySequentialSegments`. It gives the sets of the sequential segments, whose
positions are their IDs. -/
def identifySequentialSegments (getDepthOrderedSets : List (List TaskSCC) → List (List TaskSCC)) :
    Option (List (List TaskSCC)) := do
  let mapped ← input.mapSCCs
  some ((getDepthOrderedSets input.partitionSCCDAG).filter
    (input.requireSS mapped.taskToOriginalFunctionSCCMap))

/-! ## What comes to an SCC of the task -/

/-- The SCC is that of the original instruction of a spill. -/
def isSpillSCC (scc : SCC) : Bool :=
  input.spills.any fun spill =>
    input.originalSCCDAG.sccOfValue (input.getOriginal spill) = some scc

/-- The SCC of the task that an original SCC comes to, unless it is that of a spill. -/
def nodeEntry (originalSCC : SCC) : Option (TaskSCC × SCC) :=
  if input.isSpillSCC originalSCC then none
  else (input.anyClonedInstInLoop originalSCC).bind fun inst =>
    (input.singleMappingSCC inst).map fun taskSCC => (taskSCC, originalSCC)

/-- The original SCC that comes to an SCC of the task first. -/
def recorded (taskSCC : TaskSCC) : Option SCC :=
  ((input.spills.filterMap input.spillEntry ++
    input.originalSCCDAG.nodes.filterMap input.nodeEntry).find? fun entry =>
      entry.1 = taskSCC).map Prod.snd

end SegmentInput

omit [DecidableEq TaskInst] [DecidableEq SCC] [DecidableEq TaskSCC] in
/-- The SCC of an instruction is the one that contains it. -/
theorem LoopSCCDAG.scc_of_value_eq_some {dag : LoopSCCDAG Inst SCC} {scc : SCC} {inst : Inst} :
    dag.sccOfValue inst = some scc ↔ dag.Contains scc inst := by
  unfold sccOfValue
  constructor
  · intro hfind
    exact ⟨List.mem_of_find?_eq_some hfind, by simpa using List.find?_some hfind⟩
  · intro ⟨hscc, hinst⟩
    cases hfind : dag.nodes.find? fun scc => decide (inst ∈ dag.internalNodes scc) with
    | none =>
        have hnone := List.find?_eq_none.mp hfind scc hscc
        simp [hinst] at hnone
    | some other =>
        have hother := List.find?_some hfind
        rw [dag.unique other (List.mem_of_find?_eq_some hfind) scc hscc inst (by simpa using hother)
          hinst]

namespace SegmentInput

variable {input} {spill : Spill} {originalSCC : SCC} {taskSCC : TaskSCC} {inst : TaskInst}

omit [DecidableEq Inst] [DecidableEq SCC] [DecidableEq TaskSCC] in
/-- The SCC of the task with an instruction is the one that contains it. -/
theorem single_mapping_scc_eq_some :
    input.singleMappingSCC inst = some taskSCC ↔ input.taskSCCDAG.Contains taskSCC inst := by
  have hmem : ∀ scc, scc ∈ input.taskSCCDAG.nodes.filter (fun taskSCC =>
      inst ∈ input.taskSCCDAG.internalNodes taskSCC) ↔ input.taskSCCDAG.Contains scc inst := by
    intro scc
    rw [List.mem_filter, decide_eq_true_eq]
    rfl
  have hnodup := input.taskSCCDAG.nodup.filter fun taskSCC =>
    decide (inst ∈ input.taskSCCDAG.internalNodes taskSCC)
  unfold singleMappingSCC
  cases hfilter : input.taskSCCDAG.nodes.filter fun taskSCC =>
      inst ∈ input.taskSCCDAG.internalNodes taskSCC with
  | nil =>
      rw [hfilter] at hmem
      simp [← hmem taskSCC]
  | cons first rest =>
      rw [hfilter] at hmem hnodup
      have hfirst := (hmem first).mp List.mem_cons_self
      cases rest with
      | nil => simp [← hmem taskSCC, eq_comm]
      | cons second rest =>
          have hsecond := (hmem second).mp (List.mem_cons_of_mem _ List.mem_cons_self)
          have hsame := input.taskSCCDAG.unique first hfirst.1 second hsecond.1 inst hfirst.2
            hsecond.2
          simp [hsame] at hnodup

omit [DecidableEq SCC] [DecidableEq TaskSCC] in
/-- What a spill brings to the map. -/
theorem spill_entry_eq_some : input.spillEntry spill = some (taskSCC, originalSCC) ↔
    input.originalSCCDAG.Contains originalSCC (input.getOriginal spill) ∧
      ∃ store, (input.environmentStores spill).head? = some store ∧
        input.taskSCCDAG.Contains taskSCC store := by
  unfold spillEntry
  simp only [Option.bind_eq_bind, Option.bind_eq_some_iff, LoopSCCDAG.scc_of_value_eq_some,
    Option.some.injEq, Prod.mk.injEq]
  constructor
  · rintro ⟨_, horiginal, store, hstore, _, htask, rfl, rfl⟩
    exact ⟨horiginal, store, hstore, htask⟩
  · rintro ⟨horiginal, store, hstore, htask⟩
    exact ⟨_, horiginal, store, hstore, _, htask, rfl, rfl⟩

omit [DecidableEq SCC] [DecidableEq TaskSCC] in
/-- The assertions about a spill hold. -/
theorem exists_spill_entry (hspill : spill ∈ input.spills) :
    ∃ entry, input.spillEntry spill = some entry := by
  obtain ⟨originalSCC, horiginal⟩ := input.original_contained spill hspill
  cases hstores : input.environmentStores spill with
  | nil => exact (input.stores_ne_nil spill hspill hstores).elim
  | cons store rest =>
      have hstore : store ∈ input.environmentStores spill := hstores ▸ List.mem_cons_self
      obtain ⟨taskSCC, htask⟩ :=
        (input.included_iff store).mp (input.stores_included spill hspill store hstore)
      exact ⟨_, spill_entry_eq_some.mpr ⟨horiginal, store, by rw [hstores, List.head?_cons], htask⟩⟩

omit [DecidableEq TaskInst] [DecidableEq TaskSCC] in
/-- What the SCCs of spills are. -/
theorem is_spill_scc_iff : input.isSpillSCC originalSCC = true ↔ ∃ spill ∈ input.spills,
    input.originalSCCDAG.Contains originalSCC (input.getOriginal spill) := by
  simp [isSpillSCC, LoopSCCDAG.scc_of_value_eq_some]

omit [DecidableEq Inst] [DecidableEq TaskInst] [DecidableEq SCC] [DecidableEq TaskSCC] in
/-- A clone in the loop is one of an instruction, and in an SCC of the task. -/
theorem clone_in_loop_eq_some {originalInst : Inst} :
    input.cloneInLoop originalInst = some inst ↔
      input.getCloneOfOriginalInstruction originalInst = some inst ∧
        ∃ scc, input.taskSCCDAG.Contains scc inst := by
  unfold cloneInLoop
  rw [Option.filter_eq_some_iff, input.included_iff]

omit [DecidableEq SCC] in
/-- What the spills bring to the map. -/
theorem map_spills {spills : List Spill} (hspills : ∀ spill ∈ spills, spill ∈ input.spills)
    (state : SCCMap SCC TaskSCC) :
    ∃ spillSCCs, spills.foldlM input.mapSpill state = some ⟨spillSCCs,
        (spills.filterMap input.spillEntry).foldl enterNew state.taskToOriginalFunctionSCCMap⟩ ∧
      ∀ scc, scc ∈ spillSCCs ↔ scc ∈ state.spillSCCs ∨
        ∃ spill ∈ spills, input.originalSCCDAG.sccOfValue (input.getOriginal spill) = some scc := by
  induction spills generalizing state with
  | nil => exact ⟨state.spillSCCs, by simp, by simp⟩
  | cons spill rest ih =>
      obtain ⟨⟨taskSCC, originalSCC⟩, hentry⟩ :=
        exists_spill_entry (hspills spill List.mem_cons_self)
      have horiginal := LoopSCCDAG.scc_of_value_eq_some.mpr (spill_entry_eq_some.mp hentry).1
      obtain ⟨spillSCCs, hrun, hmem⟩ :=
        ih (fun other hother => hspills other (List.mem_cons_of_mem _ hother))
          ⟨originalSCC :: state.spillSCCs,
            enterNew state.taskToOriginalFunctionSCCMap (taskSCC, originalSCC)⟩
      refine ⟨spillSCCs, ?_, fun scc => ?_⟩
      · rw [List.foldlM_cons, List.filterMap_cons_some hentry, List.foldl_cons, ← hrun]
        unfold mapSpill
        rw [hentry]
        rfl
      · rw [hmem]
        simp [horiginal, or_assoc, or_left_comm, eq_comm]

/-- What an original SCC brings to the map. -/
theorem map_node_eq {spillSCCs : List SCC}
    (hspilled : ∀ scc, scc ∈ spillSCCs ↔ input.isSpillSCC scc = true) (originalSCC : SCC)
    (map : TaskSCC → Option SCC) :
    input.mapNode ⟨spillSCCs, map⟩ originalSCC =
      some ⟨spillSCCs, (input.nodeEntry originalSCC).elim map (enterNew map)⟩ := by
  unfold mapNode nodeEntry
  by_cases hspill : originalSCC ∈ spillSCCs
  · rw [if_pos hspill, if_pos ((hspilled originalSCC).mp hspill)]
    rfl
  · rw [if_neg hspill, if_neg (fun h => hspill ((hspilled originalSCC).mpr h))]
    cases hclone : input.anyClonedInstInLoop originalSCC with
    | none => rfl
    | some inst =>
        obtain ⟨originalInst, -, hinst⟩ := List.exists_of_findSome?_eq_some hclone
        obtain ⟨-, taskSCC, hcontains⟩ := clone_in_loop_eq_some.mp hinst
        simp [single_mapping_scc_eq_some.mpr hcontains]

/-- What the original SCCs bring to the map. -/
theorem map_nodes {spillSCCs : List SCC}
    (hspilled : ∀ scc, scc ∈ spillSCCs ↔ input.isSpillSCC scc = true) (nodes : List SCC)
    (map : TaskSCC → Option SCC) :
    nodes.foldlM input.mapNode ⟨spillSCCs, map⟩ =
      some ⟨spillSCCs, (nodes.filterMap input.nodeEntry).foldl enterNew map⟩ := by
  induction nodes generalizing map with
  | nil => rfl
  | cons originalSCC rest ih =>
      rw [List.foldlM_cons, map_node_eq hspilled, List.filterMap_cons]
      cases input.nodeEntry originalSCC with
      | none => exact ih map
      | some entry => exact ih (enterNew map entry)

/-- The map has what comes first. -/
theorem map_sccs_eq : ∃ spillSCCs, input.mapSCCs = some ⟨spillSCCs, input.recorded⟩ := by
  have hself : ∀ spill ∈ input.spills, spill ∈ input.spills := fun _ h => h
  obtain ⟨spillSCCs, hspills, hmem⟩ := map_spills hself ⟨[], fun _ => none⟩
  have hspilled : ∀ scc, scc ∈ spillSCCs ↔ input.isSpillSCC scc = true := by
    intro scc
    rw [hmem, isSpillSCC, List.any_eq_true]
    simp
  refine ⟨spillSCCs, ?_⟩
  unfold mapSCCs
  rw [hspills]
  show List.foldlM input.mapNode _ _ = _
  -- Both folds enter what is new, so that the map has what comes first in either.
  rw [map_nodes hspilled, ← List.foldl_append]
  congr 2
  funext taskSCC
  rw [foldl_enter_new, Option.none_or]
  rfl

omit [DecidableEq TaskSCC] in
/-- What an original SCC brings to the map is itself. -/
theorem node_entry_eq_some {scc : SCC} : input.nodeEntry originalSCC = some (taskSCC, scc) ↔
    input.isSpillSCC originalSCC = false ∧ scc = originalSCC ∧
      ∃ inst, input.anyClonedInstInLoop originalSCC = some inst ∧
        input.taskSCCDAG.Contains taskSCC inst := by
  unfold nodeEntry
  cases hspill : input.isSpillSCC originalSCC with
  | true => simp
  | false =>
      simp only [Bool.false_eq_true, if_false, Option.bind_eq_some_iff, Option.map_eq_some_iff,
        Prod.mk.injEq, single_mapping_scc_eq_some]
      constructor
      · rintro ⟨inst, hinst, _, hcontains, rfl, rfl⟩
        exact ⟨trivial, rfl, inst, hinst, hcontains⟩
      · rintro ⟨-, rfl, inst, hinst, hcontains⟩
        exact ⟨inst, hinst, _, hcontains, rfl, rfl⟩

variable (input) in
/-- Every spill has a store outside of the SCC. -/
def SpillsElsewhere (taskSCC : TaskSCC) : Prop :=
  ∀ spill ∈ input.spills, ∃ store ∈ input.environmentStores spill,
    ¬ input.taskSCCDAG.Contains taskSCC store

variable (input) in
/-- An instruction of the original SCC has its clone in the SCC of the task. -/
def HasCloneIn (originalSCC : SCC) (taskSCC : TaskSCC) : Prop :=
  ∃ originalInst, input.originalSCCDAG.Contains originalSCC originalInst ∧
    ∃ inst, input.getCloneOfOriginalInstruction originalInst = some inst ∧
      input.taskSCCDAG.Contains taskSCC inst

variable (input) in
/-- The original SCC is that of a spill with a store in the SCC of the task. -/
def HasStoreIn (originalSCC : SCC) (taskSCC : TaskSCC) : Prop :=
  ∃ spill ∈ input.spills, input.originalSCCDAG.Contains originalSCC (input.getOriginal spill) ∧
    ∃ store ∈ input.environmentStores spill, input.taskSCCDAG.Contains taskSCC store

variable (input) in
/-- The kinds by which an SCC of the task may be judged: those of the original SCCs of its stores,
of the original SCCs of its clones where every spill may be found elsewhere, and its own where every
original SCC may be. -/
inductive MayJudge (taskSCC : TaskSCC) : SCCKind → Prop where
  | ofSpill (originalSCC : SCC) (hstore : input.HasStoreIn originalSCC taskSCC) :
      MayJudge taskSCC (input.originalKind originalSCC)
  | ofClone (originalSCC : SCC) (hspills : input.SpillsElsewhere taskSCC)
      (hspill : input.isSpillSCC originalSCC = false)
      (hclone : input.HasCloneIn originalSCC taskSCC) :
      MayJudge taskSCC (input.originalKind originalSCC)
  | ofTask (hspills : input.SpillsElsewhere taskSCC)
      (hclones : ∀ originalSCC, input.isSpillSCC originalSCC = false →
        input.HasCloneIn originalSCC taskSCC → ∃ other ≠ taskSCC,
          input.HasCloneIn originalSCC other) :
      MayJudge taskSCC (input.taskKind taskSCC)

omit [DecidableEq Inst] [DecidableEq TaskInst] [DecidableEq SCC] [DecidableEq TaskSCC] in
/-- An original SCC with a clone in the loop has a first one. -/
theorem HasCloneIn.exists_first (h : input.HasCloneIn originalSCC taskSCC) :
    ∃ inst, input.anyClonedInstInLoop originalSCC = some inst := by
  obtain ⟨originalInst, ⟨-, hmem⟩, inst, hclone, hcontains⟩ := h
  have hinLoop := clone_in_loop_eq_some.mpr ⟨hclone, taskSCC, hcontains⟩
  refine Option.isSome_iff_exists.mp ?_
  unfold anyClonedInstInLoop
  rw [List.findSome?_isSome_iff]
  exact ⟨originalInst, hmem, by rw [hinLoop]; rfl⟩

omit [DecidableEq TaskSCC] in
/-- An original SCC with a clone in the loop comes to an SCC of the task with one of its clones. -/
theorem HasCloneIn.exists_entry (h : input.HasCloneIn originalSCC taskSCC)
    (hspill : input.isSpillSCC originalSCC = false) :
    ∃ other, (other, originalSCC) ∈ input.originalSCCDAG.nodes.filterMap input.nodeEntry ∧
      input.HasCloneIn originalSCC other := by
  obtain ⟨first, hfirst⟩ := h.exists_first
  obtain ⟨firstInst, hmem, hclone⟩ := List.exists_of_findSome?_eq_some hfirst
  obtain ⟨hclone, other, hother⟩ := clone_in_loop_eq_some.mp hclone
  obtain ⟨originalInst, ⟨hscc, -⟩, -⟩ := h
  exact ⟨other, List.mem_filterMap.mpr ⟨originalSCC, hscc,
    node_entry_eq_some.mpr ⟨hspill, rfl, first, hfirst, hother⟩⟩,
    firstInst, ⟨hscc, hmem⟩, first, hclone, hother⟩

/-- The pass judges an SCC by a kind by which it may be judged. -/
theorem may_judge_recorded (taskSCC : TaskSCC) :
    input.MayJudge taskSCC (input.kindToAnalyze input.recorded taskSCC) := by
  unfold kindToAnalyze recorded
  rw [List.find?_append]
  cases hspills : (input.spills.filterMap input.spillEntry).find? fun entry =>
      decide (entry.1 = taskSCC) with
  | some entry =>
      obtain ⟨spill, hspill, hentry⟩ := List.mem_filterMap.mp (List.mem_of_find?_eq_some hspills)
      have hkey : entry.1 = taskSCC := by simpa using List.find?_some hspills
      obtain ⟨horiginal, store, hstore, hcontains⟩ := spill_entry_eq_some.mp hentry
      exact .ofSpill _ ⟨spill, hspill, horiginal, store, List.mem_of_head? hstore, hkey ▸ hcontains⟩
  | none =>
      -- The first store of each spill is in another SCC, as none came to this one.
      have helsewhere : input.SpillsElsewhere taskSCC := by
        intro spill hspill
        obtain ⟨⟨other, originalSCC⟩, hentry⟩ := exists_spill_entry hspill
        have hmem := List.mem_filterMap.mpr ⟨spill, hspill, hentry⟩
        have hkey := List.find?_eq_none.mp hspills _ hmem
        obtain ⟨-, store, hstore, hother⟩ := spill_entry_eq_some.mp hentry
        refine ⟨store, List.mem_of_head? hstore, fun hcontains => hkey ?_⟩
        simpa using input.taskSCCDAG.unique other hother.1 taskSCC hcontains.1 store hother.2
          hcontains.2
      rw [Option.none_or]
      cases hnodes : (input.originalSCCDAG.nodes.filterMap input.nodeEntry).find? fun entry =>
          decide (entry.1 = taskSCC) with
      | some entry =>
          obtain ⟨originalSCC, hscc, hentry⟩ :=
            List.mem_filterMap.mp (List.mem_of_find?_eq_some hnodes)
          have hkey : entry.1 = taskSCC := by simpa using List.find?_some hnodes
          obtain ⟨hspill, hsame, inst, hinst, hcontains⟩ := node_entry_eq_some.mp hentry
          obtain ⟨originalInst, hmem, hclone⟩ := List.exists_of_findSome?_eq_some hinst
          rw [← hkey]
          show input.MayJudge entry.1 (input.originalKind entry.2)
          rw [hsame]
          exact .ofClone originalSCC (hkey ▸ helsewhere) hspill
            ⟨originalInst, ⟨hscc, hmem⟩, inst, (clone_in_loop_eq_some.mp hclone).1, hcontains⟩
      | none =>
          refine .ofTask helsewhere fun originalSCC hspill hclone => ?_
          obtain ⟨other, hentry, hother⟩ := hclone.exists_entry hspill
          exact ⟨other, by simpa using List.find?_eq_none.mp hnodes _ hentry, hother⟩

end SegmentInput

end Pass

end Gino.Helix
