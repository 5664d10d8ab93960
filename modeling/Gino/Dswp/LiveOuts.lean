import Gino.Dswp.Stages

/-!
# The live-outs of a DSWP pipeline

`getClonableSCCs` chooses the components that every stage may clone, and `collectLiveOutEnvInfo`
gives each live-out to a stage that holds its producer. A clonable component that reaches no stage
is in none: `live_outs_collected_iff` says when no live-out is lost.
-/

namespace Gino.Dswp

open Relation Machine

/-- The kinds of instructions that the choice of the clonable components tells apart. -/
inductive InstructionKind where
  | phi
  | getElementPtr
  | cast
  | compare
  | terminator
  | other
  deriving DecidableEq

/-- What the compiler library found for a component: no dependence that is carried around the loop,
or some, each from one instruction to another. -/
inductive SCCAttrs (Inst : Type*) where
  | loopIteration
  | loopCarried (loopCarriedDependences : List (Inst × Inst))

/-- The components of a loop with their attributes. -/
structure SCCManager (Inst SCC : Type*) extends SCCDAG Inst SCC where
  kind : Inst → InstructionKind
  attrs : SCC → SCCAttrs Inst
  doesHaveMemoryDependencesWithin : SCC → Bool
  innermostIsTopLoop : Inst → Bool

variable {Inst SCC : Type*} [DecidableEq SCC]

/-- The choice of `DSWP::getClonableSCCs` for one component. -/
def isClonable (manager : SCCManager Inst SCC) (currentSCC : SCC) : Bool :=
  let onlyTerminators := (manager.internalNodes currentSCC).all fun inst =>
    manager.kind inst = .compare ∨ manager.kind inst = .terminator
  let isTrivial := match manager.internalNodes currentSCC with
    | [inst] => decide (manager.kind inst = .phi ∨ manager.kind inst = .getElementPtr ∨
        manager.kind inst = .cast)
    | _ => false
  let lcFullyContained := match manager.attrs currentSCC with
    | .loopIteration => true
    | .loopCarried dependences => dependences.all fun (valueFrom, valueTo) =>
        !(manager.innermostIsTopLoop valueFrom || manager.innermostIsTopLoop valueTo)
  onlyTerminators ||
    (!(manager.outgoingSCCs currentSCC).isEmpty &&
      (isTrivial ||
        (!manager.doesHaveMemoryDependencesWithin currentSCC && lcFullyContained)))

/-- `DSWP::getClonableSCCs`. -/
def getClonableSCCs (manager : SCCManager Inst SCC) : List SCC :=
  manager.nodes.filter fun scc => isClonable manager scc

/-- `DSWP::canBeCloned`. -/
def canBeCloned (manager : SCCManager Inst SCC) (scc : SCC) : Bool :=
  decide (scc ∈ getClonableSCCs manager)

/-- The live-out variables of the environment of a loop, with the instructions that produce them. -/
structure Environment (Inst : Type*) where
  envIDsOfLiveOutVars : List Nat
  producer : Nat → Inst

variable {clonable : SCC → Bool}

/-- The stage whose environment user a live-out is added to: the first one that clones its
producer, or the one that has it. -/
def liveOutTask (dag : SCCDAG Inst SCC) (partition : Partition SCC clonable)
    (producer : Inst) : Option Nat :=
  let producerSCC := dag.sccOfValue producer
  if clonable producerSCC then
    (List.range partition.numTaskInstances).find? fun task =>
      producerSCC ∈ clonableSCCs dag partition task
  else partition.sccToStage producerSCC

/-- `DSWP::collectLiveOutEnvInfo`: the live-outs of the environment user of each stage. -/
def collectLiveOutEnvInfo (dag : SCCDAG Inst SCC) (partition : Partition SCC clonable)
    (environment : Environment Inst) : Nat → List Nat :=
  environment.envIDsOfLiveOutVars.foldl (fun users envID => fun task =>
    if liveOutTask dag partition (environment.producer envID) = some task
    then users task ++ [envID] else users task) fun _ => []

/-- Every live-out is added to one stage, and this stage holds the component of its producer. -/
def LiveOutsCollected (dag : SCCDAG Inst SCC) (partition : Partition SCC clonable)
    (environment : Environment Inst) : Prop :=
  ∀ envID ∈ environment.envIDsOfLiveOutVars, ∃ task < partition.numTaskInstances,
    (∀ other, envID ∈ collectLiveOutEnvInfo dag partition environment other ↔ other = task) ∧
    if clonable (dag.sccOfValue (environment.producer envID))
    then dag.sccOfValue (environment.producer envID) ∈ clonableSCCs dag partition task
    else dag.sccOfValue (environment.producer envID) ∈ partition.stageSCCs task

section Collected

variable {dag : SCCDAG Inst SCC} {partition : Partition SCC clonable}
  {environment : Environment Inst} {producer : Inst} {task : Nat}

/-- The environment user of a stage has the live-outs that are added to it. -/
theorem mem_collect_live_out {envID : Nat} :
    envID ∈ collectLiveOutEnvInfo dag partition environment task ↔
      envID ∈ environment.envIDsOfLiveOutVars ∧
        liveOutTask dag partition (environment.producer envID) = some task := by
  unfold collectLiveOutEnvInfo
  induction environment.envIDsOfLiveOutVars using List.reverseRecOn with
  | nil => simp
  | append_singleton envIDs last ih =>
      rw [List.foldl_append, List.foldl_cons, List.foldl_nil, List.mem_append, List.mem_singleton]
      split_ifs with htask
      · rw [List.mem_append, ih, List.mem_singleton, or_and_right]
        exact or_congr_right ⟨fun h => ⟨h, h ▸ htask⟩, fun h => h.1⟩
      · rw [ih, or_and_right, iff_self_or]
        exact fun h => (htask (h.1 ▸ h.2)).elim

/-- The stage a live-out is added to holds the component of its producer. -/
theorem mem_of_live_out_task (h : liveOutTask dag partition producer = some task) :
    task < partition.numTaskInstances ∧
      if clonable (dag.sccOfValue producer)
      then dag.sccOfValue producer ∈ clonableSCCs dag partition task
      else dag.sccOfValue producer ∈ partition.stageSCCs task := by
  unfold liveOutTask at h
  dsimp only at h
  split_ifs at h ⊢ with hclonable
  · have hfound := List.find?_some h
    have hlt := List.mem_range.mp (List.mem_of_find?_eq_some h)
    exact ⟨hlt, of_decide_eq_true hfound⟩
  · have hmem := Partition.scc_to_stage_eq_some.mp h
    exact ⟨partition.lt_of_mem hmem, hmem⟩

/-- A live-out is added to a stage unless its producer is in a clonable component that reaches no
component of a stage. -/
theorem exists_live_out_task :
    (∃ task, liveOutTask dag partition producer = some task) ↔
      (clonable (dag.sccOfValue producer) = true → ∃ scc, clonable scc = false ∧
        dag.Reaches (dag.sccOfValue producer) scc) := by
  constructor
  · intro ⟨task, htask⟩ hclonable
    have hmem := (mem_of_live_out_task htask).2
    rw [if_pos hclonable] at hmem
    obtain ⟨-, scc, hscc, hreach⟩ := mem_clonable_sccs.mp hmem
    exact ⟨scc, partition.not_clonable_of_mem hscc, hreach⟩
  · intro h
    unfold liveOutTask
    dsimp only
    -- A clonable component is looked up in the stages that clone it, another one in its own.
    split_ifs with hclonable
    · obtain ⟨scc, hnot, hreach⟩ := h hclonable
      obtain ⟨task, htask⟩ := partition.exists_stage hnot
      have hmem : dag.sccOfValue producer ∈ clonableSCCs dag partition task :=
        mem_clonable_sccs.mpr ⟨hclonable, scc, htask, hreach⟩
      rw [← Option.isSome_iff_exists, List.find?_isSome]
      exact ⟨task, List.mem_range.mpr (partition.lt_of_mem htask), decide_eq_true hmem⟩
    · obtain ⟨task, htask⟩ := partition.exists_stage (Bool.eq_false_iff.mpr hclonable)
      exact ⟨task, Partition.scc_to_stage_eq_some.mpr htask⟩

end Collected

/-- No live-out is lost exactly when every live-out whose producer is in a clonable component
reaches a component that is not clonable. -/
theorem live_outs_collected_iff (manager : SCCManager Inst SCC)
    (partition : Partition SCC (canBeCloned manager)) (environment : Environment Inst) :
    LiveOutsCollected manager.toSCCDAG partition environment ↔
      ∀ envID ∈ environment.envIDsOfLiveOutVars,
        canBeCloned manager (manager.sccOfValue (environment.producer envID)) = true →
          ∃ scc, canBeCloned manager scc = false ∧
            manager.Reaches (manager.sccOfValue (environment.producer envID)) scc := by
  constructor
  · intro h envID hmem
    obtain ⟨task, -, hadded, -⟩ := h envID hmem
    exact exists_live_out_task.mp ⟨task, (mem_collect_live_out.mp ((hadded task).mpr rfl)).2⟩
  · intro h envID hmem
    obtain ⟨task, htask⟩ := exists_live_out_task.mpr (h envID hmem)
    obtain ⟨hlt, hholds⟩ := mem_of_live_out_task htask
    refine ⟨task, hlt, fun other => ?_, hholds⟩
    rw [mem_collect_live_out, htask, Option.some.injEq]
    exact ⟨fun hother => hother.2.symm, fun hother => ⟨hmem, hother.symm⟩⟩

/-- The instructions of a loop, each a component of its own. -/
inductive ComparedInst where
  | first | second | compare
  deriving DecidableEq

/-- A loop with two components that depend on themselves around the loop, one on the other, and a
comparison of what the second one computes. -/
def comparedLoop : SCCManager ComparedInst ComparedInst where
  instructions := [.first, .second, .compare]
  nodes := [.first, .second, .compare]
  sccOfValue := id
  edges := [⟨.first, .first, .memory⟩, ⟨.first, .second, .data⟩, ⟨.second, .second, .memory⟩,
    ⟨.second, .compare, .data⟩]
  instructions_complete inst := by cases inst <;> decide
  nodes_complete scc := by cases scc <;> decide
  kind := fun inst => if inst = .compare then .compare else .other
  attrs := fun scc => .loopCarried [(scc, scc)]
  doesHaveMemoryDependencesWithin := fun scc => decide (scc ≠ .compare)
  innermostIsTopLoop := fun _ => true

/-- A stage for each of the two components. -/
def comparedPartition : Partition ComparedInst (canBeCloned comparedLoop) where
  depthOrderedSets := [[.first], [.second]]
  remaining := by decide
  covers scc := by cases scc <;> decide
  nonempty := by decide
  disjoint := by simp

/-- The comparison is live after the loop, clonable, and used by no component: no stage collects
it. -/
theorem live_out_of_compare_lost :
    ¬ LiveOutsCollected comparedLoop.toSCCDAG comparedPartition ⟨[0], fun _ => .compare⟩ := by
  intro h
  obtain ⟨task, -, hadded, -⟩ := h 0 List.mem_cons_self
  have htask := (mem_collect_live_out.mp ((hadded task).mpr rfl)).2
  have hnone : liveOutTask comparedLoop.toSCCDAG comparedPartition .compare = none := by decide
  have heq := hnone.symm.trans htask
  cases heq

end Gino.Dswp
