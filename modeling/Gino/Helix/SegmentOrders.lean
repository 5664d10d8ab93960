import Gino.Helix.SegmentSets

/-!
# Sequential segments and the order of a visit

The same sets of SCCs get a sequential segment in every order of the nodes, instructions, spills and
stores, and none that must have one is missed, exactly where the kinds by which an SCC of the task
may be judged agree on whether it has to execute sequentially (`segments_sound_iff`).
-/

namespace Gino.Helix

variable {Inst TaskInst SCC TaskSCC Spill : Type}

/-! ## Other orders -/

/-- The same input with all that is visited in another order. -/
structure Reorders (input other : SegmentInput Inst TaskInst SCC TaskSCC Spill) : Prop where
  nodes : input.originalSCCDAG.nodes.Perm other.originalSCCDAG.nodes
  internalNodes : ∀ scc,
    (input.originalSCCDAG.internalNodes scc).Perm (other.originalSCCDAG.internalNodes scc)
  taskNodes : input.taskSCCDAG.nodes.Perm other.taskSCCDAG.nodes
  taskInternalNodes : ∀ scc,
    (input.taskSCCDAG.internalNodes scc).Perm (other.taskSCCDAG.internalNodes scc)
  spills : input.spills.Perm other.spills
  environmentStores : ∀ spill,
    (input.environmentStores spill).Perm (other.environmentStores spill)
  depsSCCs : input.depsSCCs.Perm other.depsSCCs
  getOriginal : input.getOriginal = other.getOriginal
  clones : input.getCloneOfOriginalInstruction = other.getCloneOfOriginalInstruction
  originalKind : input.originalKind = other.originalKind
  taskKind : input.taskKind = other.taskKind
  governed : input.wasOriginalLoopIVGoverned = other.wasOriginalLoopIVGoverned

namespace Reorders

variable {input other : SegmentInput Inst TaskInst SCC TaskSCC Spill} {originalSCC : SCC}
  {taskSCC : TaskSCC}

/-- The order that an input has. -/
theorem refl (input : SegmentInput Inst TaskInst SCC TaskSCC Spill) : Reorders input input :=
  ⟨.refl _, fun _ => .refl _, .refl _, fun _ => .refl _, .refl _, fun _ => .refl _, .refl _, rfl,
    rfl, rfl, rfl, rfl⟩

/-- The order before. -/
theorem symm (h : Reorders input other) : Reorders other input :=
  ⟨h.nodes.symm, fun scc => (h.internalNodes scc).symm, h.taskNodes.symm,
    fun scc => (h.taskInternalNodes scc).symm, h.spills.symm,
    fun spill => (h.environmentStores spill).symm, h.depsSCCs.symm, h.getOriginal.symm,
    h.clones.symm, h.originalKind.symm, h.taskKind.symm, h.governed.symm⟩

/-- The original SCCs have the same instructions. -/
theorem contains_iff (h : Reorders input other) (inst : Inst) :
    input.originalSCCDAG.Contains originalSCC inst ↔
      other.originalSCCDAG.Contains originalSCC inst :=
  and_congr h.nodes.mem_iff (h.internalNodes originalSCC).mem_iff

/-- The SCCs of the task have the same instructions. -/
theorem task_contains_iff (h : Reorders input other) (inst : TaskInst) :
    input.taskSCCDAG.Contains taskSCC inst ↔ other.taskSCCDAG.Contains taskSCC inst :=
  and_congr h.taskNodes.mem_iff (h.taskInternalNodes taskSCC).mem_iff

/-- The original SCCs have clones in the same SCCs. -/
theorem has_clone_in_iff (h : Reorders input other) :
    input.HasCloneIn originalSCC taskSCC ↔ other.HasCloneIn originalSCC taskSCC := by
  unfold SegmentInput.HasCloneIn
  simp only [h.contains_iff, h.task_contains_iff, h.clones]

/-- The original SCCs have stores in the same SCCs. -/
theorem has_store_in_iff (h : Reorders input other) :
    input.HasStoreIn originalSCC taskSCC ↔ other.HasStoreIn originalSCC taskSCC := by
  unfold SegmentInput.HasStoreIn
  simp only [h.contains_iff, h.task_contains_iff, h.spills.mem_iff, h.getOriginal,
    (h.environmentStores _).mem_iff]

/-- The spills have stores outside of the same SCCs. -/
theorem spills_elsewhere_iff (h : Reorders input other) :
    input.SpillsElsewhere taskSCC ↔ other.SpillsElsewhere taskSCC := by
  unfold SegmentInput.SpillsElsewhere
  simp only [h.task_contains_iff, h.spills.mem_iff, (h.environmentStores _).mem_iff]

/-- The same original SCCs are those of spills. -/
theorem is_spill_scc_eq [DecidableEq Inst] [DecidableEq SCC] (h : Reorders input other) :
    input.isSpillSCC originalSCC = other.isSpillSCC originalSCC := by
  rw [Bool.eq_iff_iff, SegmentInput.is_spill_scc_iff, SegmentInput.is_spill_scc_iff]
  simp only [h.contains_iff, h.spills.mem_iff, h.getOriginal]

/-- An SCC may be judged by the same kinds. -/
theorem may_judge [DecidableEq Inst] [DecidableEq SCC] (h : Reorders input other) {kind : SCCKind}
    (hjudge : input.MayJudge taskSCC kind) : other.MayJudge taskSCC kind := by
  cases hjudge with
  | ofSpill originalSCC hstore =>
      rw [h.originalKind]
      exact .ofSpill originalSCC (h.has_store_in_iff.mp hstore)
  | ofClone originalSCC hspills hspill hclone =>
      rw [h.originalKind]
      exact .ofClone originalSCC (h.spills_elsewhere_iff.mp hspills) (h.is_spill_scc_eq ▸ hspill)
        (h.has_clone_in_iff.mp hclone)
  | ofTask hspills hclones =>
      rw [h.taskKind]
      refine .ofTask (h.spills_elsewhere_iff.mp hspills) fun originalSCC hspill hclone => ?_
      obtain ⟨elsewhere, hne, hother⟩ := hclones originalSCC (h.is_spill_scc_eq.trans hspill)
        (h.has_clone_in_iff.mpr hclone)
      exact ⟨elsewhere, hne, h.has_clone_in_iff.mp hother⟩

end Reorders

/-! ## Orders that judge by a given kind -/

/-- The items that meet a condition before the others. -/
def bringFirst {α : Type} (p : α → Bool) (items : List α) : List α :=
  items.filter p ++ items.filter fun item => !p item

/-- Bringing items first only reorders. -/
theorem bring_first_perm {α : Type} (p : α → Bool) (items : List α) :
    (bringFirst p items).Perm items :=
  List.filter_append_perm p items

/-- The first item then meets the condition if any does. -/
theorem exists_bring_first {α : Type} {p : α → Bool} {items : List α} {item : α}
    (hitem : item ∈ items) (hp : p item = true) :
    ∃ first rest, bringFirst p items = first :: rest ∧ first ∈ items ∧ p first = true := by
  have hmem : item ∈ items.filter p := List.mem_filter.mpr ⟨hitem, hp⟩
  unfold bringFirst
  cases hfilter : items.filter p with
  | nil => simp [hfilter] at hmem
  | cons first rest =>
      have hfirst : first ∈ items.filter p := hfilter ▸ List.mem_cons_self
      exact ⟨first, _, rfl, (List.mem_filter.mp hfirst).1, (List.mem_filter.mp hfirst).2⟩

namespace SegmentInput

variable {input : SegmentInput Inst TaskInst SCC TaskSCC Spill} {originalSCC : SCC}
  {taskSCC : TaskSCC}

variable (input) in
/-- The input with some spills, stores, SCCs and instructions brought first. -/
def visitFirst (spillFirst : Spill → Bool) (storeFirst : TaskInst → Bool) (nodeFirst : SCC → Bool)
    (instFirst : Inst → Bool) : SegmentInput Inst TaskInst SCC TaskSCC Spill :=
  { input with
    originalSCCDAG :=
      { nodes := bringFirst nodeFirst input.originalSCCDAG.nodes
        internalNodes := fun scc => bringFirst instFirst (input.originalSCCDAG.internalNodes scc)
        nodup := (bring_first_perm _ _).nodup_iff.mpr input.originalSCCDAG.nodup
        unique := by
          intro scc hscc other hother inst hinst hotherInst
          rw [(bring_first_perm _ _).mem_iff] at hscc hother hinst hotherInst
          exact input.originalSCCDAG.unique scc hscc other hother inst hinst hotherInst }
    spills := bringFirst spillFirst input.spills
    environmentStores := fun spill => bringFirst storeFirst (input.environmentStores spill)
    original_contained := by
      intro spill hspill
      obtain ⟨scc, hcontains⟩ :=
        input.original_contained spill ((bring_first_perm _ _).mem_iff.mp hspill)
      exact ⟨scc, (bring_first_perm _ _).mem_iff.mpr hcontains.1,
        (bring_first_perm _ _).mem_iff.mpr hcontains.2⟩
    stores_ne_nil := by
      intro spill hspill hnil
      have hperm := bring_first_perm storeFirst (input.environmentStores spill)
      rw [hnil] at hperm
      exact input.stores_ne_nil spill ((bring_first_perm _ _).mem_iff.mp hspill)
        hperm.symm.eq_nil
    stores_included := by
      intro spill hspill store hstore
      exact input.stores_included spill ((bring_first_perm _ _).mem_iff.mp hspill) store
        ((bring_first_perm _ _).mem_iff.mp hstore) }

/-- It is the same input in another order. -/
theorem reorders_visit_first (spillFirst : Spill → Bool) (storeFirst : TaskInst → Bool)
    (nodeFirst : SCC → Bool) (instFirst : Inst → Bool) :
    Reorders input (input.visitFirst spillFirst storeFirst nodeFirst instFirst) where
  nodes := (bring_first_perm _ _).symm
  internalNodes _ := (bring_first_perm _ _).symm
  taskNodes := .refl _
  taskInternalNodes _ := .refl _
  spills := (bring_first_perm _ _).symm
  environmentStores _ := (bring_first_perm _ _).symm
  depsSCCs := .refl _
  getOriginal := rfl
  clones := rfl
  originalKind := rfl
  taskKind := rfl
  governed := rfl

section Judge

variable [DecidableEq Inst] [DecidableEq TaskInst] [DecidableEq SCC] [DecidableEq TaskSCC]

/-- An order in which the spill of an original SCC comes first. -/
theorem exists_recorded_spill (hstore : input.HasStoreIn originalSCC taskSCC) :
    ∃ other, Reorders input other ∧ other.recorded taskSCC = some originalSCC := by
  obtain ⟨spill, hspill, horiginal, store, hmem, htask⟩ := hstore
  -- The spills of the SCC with a store in that of the task come first, and so do these stores.
  let inTask : TaskInst → Bool := fun store => store ∈ input.taskSCCDAG.internalNodes taskSCC
  let ofSCC : Spill → Bool := fun spill =>
    decide (input.originalSCCDAG.sccOfValue (input.getOriginal spill) = some originalSCC) &&
      (input.environmentStores spill).any inTask
  let other := input.visitFirst ofSCC inTask (fun _ => true) fun _ => true
  have hreorders : Reorders input other := reorders_visit_first _ _ _ _
  refine ⟨other, hreorders, ?_⟩
  have hof : ofSCC spill = true := by
    simp only [ofSCC, inTask, Bool.and_eq_true, decide_eq_true_eq, List.any_eq_true,
      LoopSCCDAG.scc_of_value_eq_some]
    exact ⟨horiginal, store, hmem, htask.2⟩
  obtain ⟨first, rest, hfirsts, -, hfirst⟩ := exists_bring_first hspill hof
  simp only [ofSCC, Bool.and_eq_true, decide_eq_true_eq, List.any_eq_true,
    LoopSCCDAG.scc_of_value_eq_some] at hfirst
  obtain ⟨hfirstSCC, firstStore, hfirstStore, hinTask⟩ := hfirst
  obtain ⟨head, tail, hstores, -, hhead⟩ := exists_bring_first hfirstStore hinTask
  have hentry : other.spillEntry first = some (taskSCC, originalSCC) := by
    refine spill_entry_eq_some.mpr ⟨(hreorders.contains_iff _).mp hfirstSCC, head, ?_,
      htask.1, of_decide_eq_true hhead⟩
    show (bringFirst inTask (input.environmentStores first)).head? = some head
    rw [hstores, List.head?_cons]
  have hspills : other.spills = first :: rest := hfirsts
  unfold recorded
  rw [hspills, List.filterMap_cons_some hentry, List.cons_append, List.find?_cons]
  simp

omit [DecidableEq SCC] in
/-- No spill comes to an SCC that none has to come to when the other stores come first. -/
theorem find_spill_eq_none (hspills : input.SpillsElsewhere taskSCC) (spillFirst : Spill → Bool)
    (nodeFirst : SCC → Bool) (instFirst : Inst → Bool) :
    let other := input.visitFirst spillFirst
      (fun store => store ∉ input.taskSCCDAG.internalNodes taskSCC) nodeFirst instFirst
    ((other.spills.filterMap other.spillEntry).find? fun entry => entry.1 = taskSCC) = none := by
  intro other
  refine List.find?_eq_none.mpr fun entry hentry hkey => ?_
  obtain ⟨spill, hspill, hentry⟩ := List.mem_filterMap.mp hentry
  obtain ⟨-, store, hstore, htask⟩ := spill_entry_eq_some.mp hentry
  obtain ⟨elsewhere, hmem, hnot⟩ := hspills spill ((bring_first_perm _ _).mem_iff.mp hspill)
  have hkey : entry.1 = taskSCC := of_decide_eq_true hkey
  have houtside : elsewhere ∉ input.taskSCCDAG.internalNodes taskSCC :=
    fun h => hnot ⟨hkey ▸ htask.1, h⟩
  obtain ⟨head, tail, hstores, -, hhead⟩ := exists_bring_first
    (p := fun store => decide (store ∉ input.taskSCCDAG.internalNodes taskSCC)) hmem
    (decide_eq_true houtside)
  have hfirst : (other.environmentStores spill).head? = some head := by
    show (bringFirst _ _).head? = _
    rw [hstores, List.head?_cons]
  rw [Option.some.inj (hstore.symm.trans hfirst), hkey] at htask
  exact of_decide_eq_true hhead htask.2

/-- An order in which a clone of an original SCC comes first. -/
theorem exists_recorded_clone (hspills : input.SpillsElsewhere taskSCC)
    (hspill : input.isSpillSCC originalSCC = false)
    (hclone : input.HasCloneIn originalSCC taskSCC) :
    ∃ other, Reorders input other ∧ other.recorded taskSCC = some originalSCC := by
  obtain ⟨originalInst, ⟨hscc, hmem⟩, inst, hinst, htask⟩ := hclone
  -- The SCC comes first, and so do the instructions with a clone in the SCC of the task.
  let toTask : Inst → Bool := fun originalInst =>
    (input.cloneInLoop originalInst).any fun inst => inst ∈ input.taskSCCDAG.internalNodes taskSCC
  let isSCC : SCC → Bool := fun scc => scc = originalSCC
  let other := input.visitFirst (fun _ => true)
    (fun store => store ∉ input.taskSCCDAG.internalNodes taskSCC) isSCC toTask
  have hreorders : Reorders input other := reorders_visit_first _ _ _ _
  refine ⟨other, hreorders, ?_⟩
  have htoTask : toTask originalInst = true := by
    simp only [toTask, clone_in_loop_eq_some.mpr ⟨hinst, taskSCC, htask⟩, Option.any_some,
      decide_eq_true_eq]
    exact htask.2
  obtain ⟨firstInst, restInsts, hinsts, -, hfirstInst⟩ := exists_bring_first hmem htoTask
  obtain ⟨firstSCC, restSCCs, hsccs, -, hfirstSCC⟩ :=
    exists_bring_first (p := isSCC) hscc (by simp [isSCC])
  obtain rfl : firstSCC = originalSCC := by simpa [isSCC] using hfirstSCC
  obtain ⟨clone, hclone, hcloneTask⟩ := (Option.any_eq_true _ _).mp hfirstInst
  have hentry : other.nodeEntry firstSCC = some (taskSCC, firstSCC) := by
    refine node_entry_eq_some.mpr ⟨hreorders.is_spill_scc_eq ▸ hspill, rfl, clone, ?_, htask.1,
      of_decide_eq_true hcloneTask⟩
    show (bringFirst toTask _).findSome? input.cloneInLoop = some clone
    rw [hinsts, List.findSome?_cons, hclone]
  have hnodes : other.originalSCCDAG.nodes = firstSCC :: restSCCs := hsccs
  unfold recorded
  rw [List.find?_append, find_spill_eq_none hspills, Option.none_or, hnodes,
    List.filterMap_cons_some hentry, List.find?_cons]
  simp

/-- An order in which nothing comes to an SCC that nothing has to come to. -/
theorem exists_recorded_none (hspills : input.SpillsElsewhere taskSCC)
    (hclones : ∀ originalSCC, input.isSpillSCC originalSCC = false →
      input.HasCloneIn originalSCC taskSCC → ∃ other ≠ taskSCC,
        input.HasCloneIn originalSCC other) :
    ∃ other, Reorders input other ∧ other.recorded taskSCC = none := by
  -- The instructions with a clone elsewhere come first, and so do the stores elsewhere.
  let elsewhere : Inst → Bool := fun originalInst =>
    (input.cloneInLoop originalInst).any fun inst => inst ∉ input.taskSCCDAG.internalNodes taskSCC
  let other := input.visitFirst (fun _ => true)
    (fun store => store ∉ input.taskSCCDAG.internalNodes taskSCC) (fun _ => true) elsewhere
  have hreorders : Reorders input other := reorders_visit_first _ _ _ _
  refine ⟨other, hreorders, ?_⟩
  unfold recorded
  rw [List.find?_append, find_spill_eq_none hspills, Option.none_or, Option.map_eq_none_iff,
    List.find?_eq_none]
  intro entry hentry hkey
  obtain ⟨originalSCC, hscc, hentry⟩ := List.mem_filterMap.mp hentry
  have hkey : entry.1 = taskSCC := of_decide_eq_true hkey
  obtain ⟨hspill, -, inst, hinst, htask⟩ := node_entry_eq_some.mp hentry
  obtain ⟨originalInst, hmem, hclone⟩ := List.exists_of_findSome?_eq_some hinst
  have hcloneIn : other.HasCloneIn originalSCC taskSCC :=
    ⟨originalInst, ⟨hscc, hmem⟩, inst, (clone_in_loop_eq_some.mp hclone).1, hkey ▸ htask⟩
  obtain ⟨outside, hne, outsideInst, ⟨-, houtsideMem⟩, clone, houtsideClone, houtside⟩ :=
    hclones originalSCC (hreorders.is_spill_scc_eq.trans hspill)
      (hreorders.has_clone_in_iff.mpr hcloneIn)
  have helsewhere : elsewhere outsideInst = true := by
    simp only [elsewhere, clone_in_loop_eq_some.mpr ⟨houtsideClone, outside, houtside⟩,
      Option.any_some, decide_eq_true_eq]
    intro hboth
    exact hne (input.taskSCCDAG.unique outside houtside.1 taskSCC (hkey ▸ htask.1) clone
      houtside.2 hboth)
  obtain ⟨firstInst, restInsts, hinsts, -, hfirstInst⟩ := exists_bring_first houtsideMem helsewhere
  obtain ⟨first, hfirst, hfirstTask⟩ := (Option.any_eq_true _ _).mp hfirstInst
  have hany : other.anyClonedInstInLoop originalSCC = some first := by
    show (bringFirst elsewhere _).findSome? input.cloneInLoop = some first
    rw [hinsts, List.findSome?_cons, hfirst]
  rw [Option.some.inj (hinst.symm.trans hany), hkey] at htask
  exact of_decide_eq_true hfirstTask htask.2

/-- By every kind by which an SCC may be judged, some order judges it. -/
theorem MayJudge.exists_order {kind : SCCKind} (h : input.MayJudge taskSCC kind) :
    ∃ other, Reorders input other ∧ other.kindToAnalyze other.recorded taskSCC = kind := by
  cases h with
  | ofSpill originalSCC hstore =>
      obtain ⟨other, hreorders, hrecorded⟩ := exists_recorded_spill hstore
      refine ⟨other, hreorders, ?_⟩
      rw [kindToAnalyze, hrecorded, hreorders.originalKind]
  | ofClone originalSCC hspills hspill hclone =>
      obtain ⟨other, hreorders, hrecorded⟩ := exists_recorded_clone hspills hspill hclone
      refine ⟨other, hreorders, ?_⟩
      rw [kindToAnalyze, hrecorded, hreorders.originalKind]
  | ofTask hspills hclones =>
      obtain ⟨other, hreorders, hrecorded⟩ := exists_recorded_none hspills hclones
      refine ⟨other, hreorders, ?_⟩
      rw [kindToAnalyze, hrecorded, hreorders.taskKind]

/-! ## When the order does not matter -/

variable (input) in
/-- The SCC has loop-carried data dependences and a clone or a store of an original SCC that has to
execute sequentially. -/
def MustBeSequential (taskSCC : TaskSCC) : Prop :=
  taskSCC ∈ input.depsSCCs ∧ ∃ originalSCC, (input.originalKind originalSCC).isSequential = true ∧
    (input.HasCloneIn originalSCC taskSCC ∨ input.HasStoreIn originalSCC taskSCC)

variable (input) in
/-- The kinds by which an SCC may be judged agree on whether it has to execute sequentially, and
none of them says that it does not if it must. -/
def Settled (taskSCC : TaskSCC) : Prop :=
  (∀ kind, input.MayJudge taskSCC kind → kind.isSequential = true) ∨
    (∀ kind, input.MayJudge taskSCC kind → kind.isSequential = false) ∧
      ¬ input.MustBeSequential taskSCC

variable (input) in
/-- In every order the same sets get a sequential segment, among them every set with an SCC that
must be sequential. -/
structure SegmentsSound (getDepthOrderedSets : List (List TaskSCC) → List (List TaskSCC)) :
    Prop where
  agree : ∀ first second, Reorders input first → Reorders input second →
    ∃ sss sss', first.identifySequentialSegments getDepthOrderedSets = some sss ∧
      second.identifySequentialSegments getDepthOrderedSets = some sss' ∧ sss.Perm sss'
  covered : ∀ other, Reorders input other →
    ∃ sss, other.identifySequentialSegments getDepthOrderedSets = some sss ∧
      ∀ set ∈ getDepthOrderedSets other.partitionSCCDAG,
        (∃ taskSCC ∈ set, input.MustBeSequential taskSCC) → set ∈ sss

/-- The sets with a sequential segment are those that require one. -/
theorem identify_sequential_segments_eq
    (getDepthOrderedSets : List (List TaskSCC) → List (List TaskSCC)) :
    input.identifySequentialSegments getDepthOrderedSets =
      some ((getDepthOrderedSets input.partitionSCCDAG).filter
        (input.requireSS input.recorded)) := by
  obtain ⟨spillSCCs, hmapped⟩ :
      ∃ spillSCCs, input.mapSCCs = some ⟨spillSCCs, input.recorded⟩ := map_sccs_eq
  unfold identifySequentialSegments
  rw [hmapped]
  rfl

omit [DecidableEq Inst] [DecidableEq TaskInst] [DecidableEq SCC] in
/-- The same SCCs are considered in every order. -/
theorem is_considered_eq {other : SegmentInput Inst TaskInst SCC TaskSCC Spill}
    (h : Reorders input other) : other.isConsidered taskSCC = input.isConsidered taskSCC := by
  unfold isConsidered
  rw [h.governed, decide_eq_decide.mpr h.depsSCCs.mem_iff]

/-- Whether a settled SCC is judged to execute sequentially does not depend on the order. -/
theorem Settled.judged_eq {other : SegmentInput Inst TaskInst SCC TaskSCC Spill}
    (h : input.Settled taskSCC) (hreorders : Reorders input other) :
    (other.kindToAnalyze other.recorded taskSCC).isSequential =
      (input.kindToAnalyze input.recorded taskSCC).isSequential := by
  have hother := hreorders.symm.may_judge (may_judge_recorded taskSCC)
  have hinput : input.MayJudge taskSCC (input.kindToAnalyze input.recorded taskSCC) :=
    may_judge_recorded taskSCC
  rcases h with hall | ⟨hnone, -⟩
  · rw [hall _ hother, hall _ hinput]
  · rw [hnone _ hother, hnone _ hinput]

/-- Whether a set of settled SCCs requires a sequential segment does not depend on the order,
whatever the partition. -/
theorem require_ss_eq {other : SegmentInput Inst TaskInst SCC TaskSCC Spill} {set : List TaskSCC}
    (hsettled : ∀ taskSCC ∈ set, input.isConsidered taskSCC = true → input.Settled taskSCC)
    (hreorders : Reorders input other) :
    other.requireSS other.recorded set = input.requireSS input.recorded set := by
  unfold requireSS
  rw [Bool.eq_iff_iff, List.any_eq_true, List.any_eq_true]
  refine exists_congr fun taskSCC => and_congr_right fun hmem => ?_
  rw [is_considered_eq hreorders]
  cases hconsidered : input.isConsidered taskSCC with
  | false => simp
  | true => rw [(hsettled taskSCC hmem hconsidered).judged_eq hreorders]

/-- A set of settled SCCs gets a sequential segment if one of them must be sequential, whatever the
partition. -/
theorem require_ss_of_must_be_sequential {set : List TaskSCC}
    (hsettled : ∀ taskSCC ∈ set, input.isConsidered taskSCC = true → input.Settled taskSCC)
    (hset : ∃ taskSCC ∈ set, input.MustBeSequential taskSCC) :
    input.requireSS input.recorded set = true := by
  obtain ⟨taskSCC, hmem, hmust⟩ := hset
  have hconsidered : input.isConsidered taskSCC = true := by
    unfold isConsidered
    rw [decide_eq_true hmust.1, Bool.or_true]
  refine List.any_eq_true.mpr ⟨taskSCC, hmem, ?_⟩
  rw [hconsidered, Bool.true_and]
  rcases hsettled taskSCC hmem hconsidered with hall | ⟨-, hnot⟩
  · exact hall _ (may_judge_recorded taskSCC)
  · exact (hnot hmust).elim

section Sets

variable {getDepthOrderedSets : List (List TaskSCC) → List (List TaskSCC)}
  {other : SegmentInput Inst TaskInst SCC TaskSCC Spill}

omit [DecidableEq Inst] [DecidableEq TaskInst] [DecidableEq SCC] [DecidableEq TaskSCC] in
/-- In every order the partitioner is given a set for every SCC. -/
theorem mem_ordered_sets (hsets : ∀ sets, (getDepthOrderedSets sets).Perm sets)
    (hreorders : Reorders input other) {set : List TaskSCC} :
    set ∈ getDepthOrderedSets other.partitionSCCDAG ↔
      ∃ taskSCC ∈ input.taskSCCDAG.nodes, [taskSCC] = set := by
  rw [(hsets _).mem_iff]
  unfold partitionSCCDAG
  simp only [List.mem_map, hreorders.taskNodes.mem_iff]

/-- An SCC that is considered gets a sequential segment where it is judged to execute
sequentially. -/
theorem mem_segments_iff (hsets : ∀ sets, (getDepthOrderedSets sets).Perm sets)
    (hreorders : Reorders input other) (hnode : taskSCC ∈ input.taskSCCDAG.nodes)
    (hconsidered : input.isConsidered taskSCC = true) {sss : List (List TaskSCC)}
    (hsss : other.identifySequentialSegments getDepthOrderedSets = some sss) :
    [taskSCC] ∈ sss ↔ (other.kindToAnalyze other.recorded taskSCC).isSequential = true := by
  rw [identify_sequential_segments_eq, Option.some.injEq] at hsss
  have hset : [taskSCC] ∈ getDepthOrderedSets other.partitionSCCDAG :=
    (mem_ordered_sets hsets hreorders).mpr ⟨taskSCC, hnode, rfl⟩
  rw [← hsss, List.mem_filter, and_iff_right hset]
  simp [requireSS, is_considered_eq hreorders, hconsidered]

/-- What is considered is settled where no order misses a set or gives other ones. -/
theorem SegmentsSound.settled (hsound : input.SegmentsSound getDepthOrderedSets)
    (hsets : ∀ sets, (getDepthOrderedSets sets).Perm sets)
    (hnode : taskSCC ∈ input.taskSCCDAG.nodes) (hconsidered : input.isConsidered taskSCC = true) :
    input.Settled taskSCC := by
  by_cases hsome : ∃ kind, input.MayJudge taskSCC kind ∧ kind.isSequential = true
  · -- The order that judges by this kind gives the set, and so does the order of any other kind.
    obtain ⟨kind, hkind, hsequential⟩ := hsome
    obtain ⟨first, hfirst, rfl⟩ := hkind.exists_order
    refine .inl fun other hother => ?_
    obtain ⟨second, hsecond, rfl⟩ := hother.exists_order
    obtain ⟨sss, sss', hsss, hsss', hperm⟩ := hsound.agree first second hfirst hsecond
    rw [← mem_segments_iff hsets hfirst hnode hconsidered hsss, hperm.mem_iff] at hsequential
    exact (mem_segments_iff hsets hsecond hnode hconsidered hsss').mp hsequential
  · have hnone : ∀ kind, input.MayJudge taskSCC kind → kind.isSequential = false := by
      intro kind hkind
      exact Bool.eq_false_iff.mpr fun hsequential => hsome ⟨kind, hkind, hsequential⟩
    refine .inr ⟨hnone, fun hmust => ?_⟩
    obtain ⟨sss, hsss, hcovered⟩ := hsound.covered input (.refl input)
    have hset := (mem_ordered_sets hsets (.refl input)).mpr ⟨taskSCC, hnode, rfl⟩
    have hin := hcovered [taskSCC] hset ⟨taskSCC, List.mem_singleton_self _, hmust⟩
    rw [mem_segments_iff hsets (.refl input) hnode hconsidered hsss,
      hnone _ (may_judge_recorded taskSCC)] at hin
    cases hin

/-- Where what is considered is settled, every order gives the sets that require a segment in the
order of the input. -/
theorem segments_of_settled (hsets : ∀ sets, (getDepthOrderedSets sets).Perm sets)
    (hsettled : ∀ taskSCC ∈ input.taskSCCDAG.nodes, input.isConsidered taskSCC = true →
      input.Settled taskSCC) (hreorders : Reorders input other) :
    other.identifySequentialSegments getDepthOrderedSets =
      some ((getDepthOrderedSets other.partitionSCCDAG).filter
        (input.requireSS input.recorded)) := by
  rw [identify_sequential_segments_eq]
  refine congrArg some (List.filter_congr fun set hset => ?_)
  refine require_ss_eq (fun taskSCC htaskSCC => ?_) hreorders
  obtain ⟨node, hnode, rfl⟩ := (mem_ordered_sets hsets hreorders).mp hset
  obtain rfl := List.mem_singleton.mp htaskSCC
  exact hsettled taskSCC hnode

/-- No order misses a set or gives other ones where what is considered is settled. -/
theorem sound_of_settled (hsets : ∀ sets, (getDepthOrderedSets sets).Perm sets)
    (hsettled : ∀ taskSCC ∈ input.taskSCCDAG.nodes, input.isConsidered taskSCC = true →
      input.Settled taskSCC) : input.SegmentsSound getDepthOrderedSets := by
  have hpartition : ∀ other, Reorders input other →
      (getDepthOrderedSets other.partitionSCCDAG).Perm input.partitionSCCDAG := by
    intro other hreorders
    exact (hsets _).trans (hreorders.taskNodes.symm.map _)
  refine ⟨fun first second hfirst hsecond => ?_, fun other hreorders => ?_⟩
  · refine ⟨_, _, segments_of_settled hsets hsettled hfirst,
      segments_of_settled hsets hsettled hsecond, List.Perm.filter _ ?_⟩
    exact (hpartition first hfirst).trans (hpartition second hsecond).symm
  · refine ⟨_, segments_of_settled hsets hsettled hreorders, fun set hset hmust => ?_⟩
    refine List.mem_filter.mpr ⟨hset, require_ss_of_must_be_sequential ?_ hmust⟩
    intro taskSCC htaskSCC
    obtain ⟨node, hnode, rfl⟩ := (mem_ordered_sets hsets hreorders).mp hset
    obtain rfl := List.mem_singleton.mp htaskSCC
    exact hsettled taskSCC hnode

end Sets

/-- The pass gives the same sets in every order, and misses none that must be sequential, exactly
where every SCC that it considers is settled. The partitioner puts the sets that it is given into an
order. -/
theorem segments_sound_iff (input : SegmentInput Inst TaskInst SCC TaskSCC Spill)
    (getDepthOrderedSets : List (List TaskSCC) → List (List TaskSCC))
    (hsets : ∀ sets, (getDepthOrderedSets sets).Perm sets) :
    input.SegmentsSound getDepthOrderedSets ↔
      ∀ taskSCC ∈ input.taskSCCDAG.nodes, input.isConsidered taskSCC = true →
        input.Settled taskSCC :=
  ⟨fun hsound _ => hsound.settled hsets, sound_of_settled hsets⟩

end Judge

end SegmentInput

namespace MergedSCCs

open SegmentInput

/-- Two original SCCs of one instruction each, whose clones are one SCC of the task. -/
def merged (kind : Bool → SCCKind) : SegmentInput Bool Bool Bool Unit Empty where
  originalSCCDAG := ⟨[false, true], fun scc => [scc], by decide, by decide⟩
  originalKind := kind
  wasOriginalLoopIVGoverned := true
  taskSCCDAG := ⟨[()], fun _ => [false, true], by decide, by decide⟩
  taskKind _ := .loopCarriedUnknownSCC
  depsSCCs := [()]
  getCloneOfOriginalInstruction := some
  isIncluded _ := true
  spills := []
  getOriginal := Empty.elim
  environmentStores := Empty.elim
  included_iff inst := ⟨fun _ => ⟨(), List.mem_cons_self, by cases inst <;> decide⟩, fun _ => rfl⟩
  original_contained _ hspill := (List.not_mem_nil hspill).elim
  stores_ne_nil _ hspill := (List.not_mem_nil hspill).elim
  stores_included _ hspill := (List.not_mem_nil hspill).elim

/-- Where both have to execute sequentially, no order misses the segment. -/
theorem sequential_sound : (merged fun _ => .loopCarriedUnknownSCC).SegmentsSound id := by
  refine (segments_sound_iff _ id fun _ => .refl _).mpr fun taskSCC _ _ => .inl ?_
  intro kind hkind
  cases hkind with
  | ofSpill => rfl
  | ofClone => rfl
  | ofTask => rfl

/-- One SCC has to execute sequentially, and the other does not. -/
def mixed : SegmentInput Bool Bool Bool Unit Empty :=
  merged fun scc => if scc then .loopCarriedUnknownSCC else .otherSCC

/-- The other order of the two original SCCs. -/
def swapped : SegmentInput Bool Bool Bool Unit Empty :=
  mixed.visitFirst (fun _ => true) (fun _ => true) id fun _ => true

/-- The order of the two decides whether there is a segment, and misses it where the SCC that does
not have to execute sequentially comes first. -/
theorem order_decides : mixed.identifySequentialSegments id = some [] ∧
    swapped.identifySequentialSegments id = some [[()]] ∧ Reorders mixed swapped ∧
      mixed.MustBeSequential () ∧ ¬ mixed.SegmentsSound id := by
  have hfirst : mixed.identifySequentialSegments id = some [] := rfl
  have hmust : mixed.MustBeSequential () :=
    ⟨List.mem_cons_self, true, rfl, .inl ⟨true, ⟨by decide, by decide⟩, true, rfl,
      List.mem_cons_self, by decide⟩⟩
  refine ⟨hfirst, rfl, reorders_visit_first _ _ _ _, hmust, fun hsound => ?_⟩
  obtain ⟨sss, hsss, hcovered⟩ := hsound.covered mixed (.refl mixed)
  rw [hfirst, Option.some.injEq] at hsss
  have hin := hcovered [()] List.mem_cons_self ⟨(), List.mem_cons_self, hmust⟩
  rw [← hsss] at hin
  cases hin

end MergedSCCs

end Gino.Helix
