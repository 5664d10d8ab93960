import Gino.Dswp.SCCDAG
import Gino.Machine.Worklist
import Mathlib.Data.List.Induction

/-!
# The stages of a DSWP pipeline

The components that cannot be cloned are partitioned among the stages, which are identified by their
position in the depth order. A component that can be cloned goes to every stage that it reaches
(`mem_clonable_sccs`).
-/

namespace Gino.Dswp

open Relation Machine

variable {Inst SCC : Type*}

/-- A partition of the components that cannot be cloned, in the depth order. -/
structure Partition (SCC : Type*) (canBeCloned : SCC → Bool) where
  depthOrderedSets : List (List SCC)
  remaining : ∀ subset ∈ depthOrderedSets, ∀ scc ∈ subset, canBeCloned scc = false
  covers : ∀ scc, canBeCloned scc = false → ∃ subset ∈ depthOrderedSets, scc ∈ subset
  nonempty : ∀ subset ∈ depthOrderedSets, subset ≠ []
  disjoint : depthOrderedSets.Pairwise List.Disjoint

variable {canBeCloned : SCC → Bool}

namespace Partition

variable (partition : Partition SCC canBeCloned)

/-- The number of stages. -/
def numTaskInstances : Nat := partition.depthOrderedSets.length

/-- The components of a stage that cannot be cloned. -/
def stageSCCs (task : Nat) : List SCC := partition.depthOrderedSets.getD task []

variable {partition} in
/-- The components of a stage are those of its set. -/
theorem mem_stage_sccs {task : Nat} {scc : SCC} :
    scc ∈ partition.stageSCCs task ↔
      ∃ subset, partition.depthOrderedSets[task]? = some subset ∧ scc ∈ subset := by
  unfold stageSCCs
  rw [List.getD_eq_getElem?_getD]
  cases partition.depthOrderedSets[task]? with
  | none => simp
  | some subset => simp

/-- The components of a stage are not clonable. -/
theorem not_clonable_of_mem {task : Nat} {scc : SCC} (h : scc ∈ partition.stageSCCs task) :
    canBeCloned scc = false := by
  obtain ⟨subset, hget, hmem⟩ := mem_stage_sccs.mp h
  exact partition.remaining subset (List.mem_of_getElem? hget) scc hmem

/-- A stage with a component is one of the pipeline. -/
theorem lt_of_mem {task : Nat} {scc : SCC} (h : scc ∈ partition.stageSCCs task) :
    task < partition.numTaskInstances := by
  obtain ⟨subset, hget, -⟩ := mem_stage_sccs.mp h
  exact (List.getElem?_eq_some_iff.mp hget).1

/-- A component that is not clonable is in a stage. -/
theorem exists_stage {scc : SCC} (h : canBeCloned scc = false) :
    ∃ task, scc ∈ partition.stageSCCs task := by
  obtain ⟨subset, hsubset, hscc⟩ := partition.covers scc h
  obtain ⟨task, hget⟩ := List.getElem?_of_mem hsubset
  exact ⟨task, mem_stage_sccs.mpr ⟨subset, hget, hscc⟩⟩

/-- A stage has a component. -/
theorem exists_mem_stage {task : Nat} (h : task < partition.numTaskInstances) :
    ∃ scc, scc ∈ partition.stageSCCs task := by
  have hget := List.getElem?_eq_getElem h
  obtain ⟨scc, hscc⟩ :=
    List.exists_mem_of_ne_nil _ (partition.nonempty _ (List.getElem_mem h))
  exact ⟨scc, mem_stage_sccs.mpr ⟨_, hget, hscc⟩⟩

/-- A component is in at most one stage. -/
theorem stage_unique {task other : Nat} {scc : SCC} (h : scc ∈ partition.stageSCCs task)
    (hother : scc ∈ partition.stageSCCs other) : task = other := by
  obtain ⟨subset, hget, hmem⟩ := mem_stage_sccs.mp h
  obtain ⟨otherSet, hotherGet, hotherMem⟩ := mem_stage_sccs.mp hother
  obtain ⟨hlt, rfl⟩ := List.getElem?_eq_some_iff.mp hget
  obtain ⟨hotherLt, rfl⟩ := List.getElem?_eq_some_iff.mp hotherGet
  have hdisjoint := List.pairwise_iff_getElem.mp partition.disjoint
  rcases Nat.lt_trichotomy task other with hbefore | heq | hafter
  · exact (hdisjoint task other hlt hotherLt hbefore hmem hotherMem).elim
  · exact heq
  · exact (hdisjoint other task hotherLt hlt hafter hotherMem hmem).elim

end Partition

section SccToStage

variable [DecidableEq SCC]

/-- The stage of each component of some sets, as `generateStagesFromPartitionedSCCs` notes it set
by set. -/
def assignStages (sets : List (List SCC)) : SCC → Option Nat :=
  sets.zipIdx.foldl (fun sccToStage subset =>
    fun scc => if scc ∈ subset.1 then some subset.2 else sccToStage scc) fun _ => none

/-- One more set. -/
theorem assign_stages_append (sets : List (List SCC)) (subset : List SCC) (scc : SCC) :
    assignStages (sets ++ [subset]) scc =
      if scc ∈ subset then some sets.length else assignStages sets scc := by
  unfold assignStages
  rw [List.zipIdx_append, List.foldl_append]
  simp only [List.zipIdx_singleton, Nat.zero_add, List.foldl_cons, List.foldl_nil]

/-- A component is in the set of its stage. -/
theorem mem_of_assign_stages {sets : List (List SCC)} {scc : SCC} {task : Nat}
    (h : assignStages sets scc = some task) :
    ∃ subset, sets[task]? = some subset ∧ scc ∈ subset := by
  induction sets using List.reverseRecOn with
  | nil => cases h
  | append_singleton sets subset ih =>
      rw [assign_stages_append] at h
      split_ifs at h with hmem
      · obtain rfl := Option.some.inj h
        exact ⟨subset, List.getElem?_concat_length, hmem⟩
      · obtain ⟨other, hget, hmem⟩ := ih h
        have hlt := (List.getElem?_eq_some_iff.mp hget).1
        exact ⟨other, (List.getElem?_append_left hlt).trans hget, hmem⟩

/-- A component of a set has a stage. -/
theorem exists_assign_stages {sets : List (List SCC)} {scc : SCC}
    (h : ∃ subset ∈ sets, scc ∈ subset) : ∃ task, assignStages sets scc = some task := by
  induction sets using List.reverseRecOn with
  | nil => simp at h
  | append_singleton sets subset ih =>
      rw [assign_stages_append]
      split_ifs with hmem
      · exact ⟨_, rfl⟩
      · obtain ⟨other, hother, hmemOther⟩ := h
        rcases List.mem_append.mp hother with hbefore | hlast
        · exact ih ⟨other, hbefore, hmemOther⟩
        · exact (hmem (List.mem_singleton.mp hlast ▸ hmemOther)).elim

/-- `generateStagesFromPartitionedSCCs`: the stage of a component. -/
def Partition.sccToStage (partition : Partition SCC canBeCloned) : SCC → Option Nat :=
  assignStages partition.depthOrderedSets

/-- A component has the stage that holds it. -/
theorem Partition.scc_to_stage_eq_some {partition : Partition SCC canBeCloned} {scc : SCC}
    {task : Nat} : partition.sccToStage scc = some task ↔ scc ∈ partition.stageSCCs task := by
  constructor
  · exact fun h => mem_stage_sccs.mpr (mem_of_assign_stages h)
  · intro h
    obtain ⟨stage, hstage⟩ :=
      exists_assign_stages (partition.covers scc (partition.not_clonable_of_mem h))
    have hsame := partition.stage_unique (mem_stage_sccs.mpr (mem_of_assign_stages hstage)) h
    exact hsame ▸ hstage

end SccToStage

/-! ## The clonable components of a stage -/

section Clonable

variable [DecidableEq SCC] (dag : SCCDAG Inst SCC) (partition : Partition SCC canBeCloned)

/-- `addClonableSCCsToStages`: go backwards from the components of a stage, and collect the
clonable ones that are visited. -/
def clonableSCCs (task : Nat) : List SCC :=
  (pushedList dag.incomingSCCs dag.nodes (partition.stageSCCs task)).filter
    fun fromSCC => canBeCloned fromSCC

/-- A component reaches a stage over one or more edges. -/
def ReachesStage (dag : SCCDAG Inst SCC) (partition : Partition SCC canBeCloned) (scc : SCC)
    (task : Nat) : Prop :=
  ∃ stageSCC ∈ partition.stageSCCs task, dag.Reaches scc stageSCC

variable {dag partition} {task : Nat} {scc : SCC}

/-- A stage clones the clonable components that reach it. -/
theorem mem_clonable_sccs :
    scc ∈ clonableSCCs dag partition task ↔
      canBeCloned scc = true ∧ ReachesStage dag partition scc task := by
  -- The traversal goes up from the components of the stage, against the edges.
  have hback : ∀ start, TransGen (fun item after => after ∈ dag.incomingSCCs item) start scc ↔
      dag.Reaches scc start := by
    intro start
    have hedge : (fun item after => after ∈ dag.incomingSCCs item) = Function.swap dag.Edge := by
      funext item after
      exact propext SCCDAG.mem_incoming_sccs
    rw [hedge, transGen_swap]
    rfl
  unfold clonableSCCs ReachesStage
  rw [List.mem_filter, mem_pushed_list dag.nodes_complete]
  simp only [hback]
  exact and_comm

/-- A component of a stage: its own or a cloned one. -/
def InStage (dag : SCCDAG Inst SCC) (partition : Partition SCC canBeCloned) (task : Nat)
    (scc : SCC) : Prop :=
  scc ∈ partition.stageSCCs task ∨ scc ∈ clonableSCCs dag partition task

/-- What has an edge to a component of a stage reaches the stage. -/
theorem InStage.reaches_stage {fromSCC : SCC} (h : InStage dag partition task scc)
    (hedge : dag.Edge fromSCC scc) : ReachesStage dag partition fromSCC task := by
  rcases h with hstage | hclonable
  · exact ⟨scc, hstage, .single hedge⟩
  · obtain ⟨-, stageSCC, hstage, hreach⟩ := mem_clonable_sccs.mp hclonable
    exact ⟨stageSCC, hstage, .head hedge hreach⟩

/-- A stage holds a clonable component exactly when it reaches the stage. -/
theorem in_stage_of_clonable (hclonable : canBeCloned scc = true) :
    InStage dag partition task scc ↔ ReachesStage dag partition scc task := by
  unfold InStage
  rw [mem_clonable_sccs]
  constructor
  · intro h
    rcases h with hstage | hreach
    · rw [partition.not_clonable_of_mem hstage] at hclonable
      cases hclonable
    · exact hreach.2
  · exact fun h => .inr ⟨hclonable, h⟩

end Clonable

end Gino.Dswp
