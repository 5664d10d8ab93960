import Gino.Dswp.QueueRequests

/-!
# Queues go forward

Where the depth order of the stages is topological for the dependences through clonable components,
and the branches that leave the loop are in the first stages, each queue goes to a later stage
(`queues_go_forward`).
-/

namespace Gino.Dswp

open Relation Machine

variable {Inst SCC : Type*} {canBeCloned : SCC → Bool}

/-- A dependence of one component on another that is taken through clonable components. -/
inductive ThroughClonable (dag : SCCDAG Inst SCC) (canBeCloned : SCC → Bool) : SCC → SCC → Prop
  | edge {fromSCC toSCC : SCC} (hedge : dag.Edge fromSCC toSCC) :
      ThroughClonable dag canBeCloned fromSCC toSCC
  | through {fromSCC scc toSCC : SCC} (hedge : dag.Edge fromSCC scc)
      (hclonable : canBeCloned scc = true) (hrest : ThroughClonable dag canBeCloned scc toSCC) :
      ThroughClonable dag canBeCloned fromSCC toSCC

/-- A dependence through clonable components is one over edges. -/
theorem ThroughClonable.reaches {dag : SCCDAG Inst SCC} {fromSCC toSCC : SCC}
    (h : ThroughClonable dag canBeCloned fromSCC toSCC) : dag.Reaches fromSCC toSCC := by
  induction h with
  | edge hedge => exact .single hedge
  | through hedge _ _ ih => exact .head hedge ih

/-- The depth order is topological, and the branches that leave the loop come first. -/
structure DepthOrdered (loop : DswpLoop Inst SCC) (partition : Partition SCC canBeCloned) :
    Prop where
  topological : ∀ fromSCC toSCC fromStage toStage,
    ThroughClonable loop.toSCCDAG canBeCloned fromSCC toSCC →
      fromSCC ∈ partition.stageSCCs fromStage → toSCC ∈ partition.stageSCCs toStage →
        fromStage ≤ toStage
  exits_first : ∀ branch scc fromStage toStage, loop.isTerminator branch = true →
    loop.hasLoopExitSuccessor branch = true →
      loop.sccOfValue branch ∈ partition.stageSCCs fromStage →
        scc ∈ partition.stageSCCs toStage → fromStage ≤ toStage

/-- The depth order is topological for the dependences through clonable components. -/
def Topological (loop : DswpLoop Inst SCC) (partition : Partition SCC canBeCloned) : Prop :=
  ∀ fromSCC toSCC fromStage toStage, ThroughClonable loop.toSCCDAG canBeCloned fromSCC toSCC →
    fromSCC ∈ partition.stageSCCs fromStage → toSCC ∈ partition.stageSCCs toStage →
      fromStage ≤ toStage

/-- `areQueuesAcyclical`: no stage pushes to itself or an earlier stage, or pops from itself or a
later one. -/
def areQueuesAcyclical (partition : Partition SCC canBeCloned) (state : QueueState Inst) : Bool :=
  (List.range partition.numTaskInstances).all fun i =>
    ((state.pushValueQueues i).all fun queueIdx =>
      (state.queues[queueIdx]?).any fun queue => i < queue.toStage) &&
    (state.popValueQueues i).all fun queueIdx =>
      (state.queues[queueIdx]?).any fun queue => queue.fromStage < i

/-- A queue from one stage to another. -/
def StageEdge (state : QueueState Inst) (fromStage toStage : Nat) : Prop :=
  ∃ queue ∈ state.queues, queue.fromStage = fromStage ∧ queue.toStage = toStage

/-- Each queue goes to a later stage. -/
def QueuesGoForward (partition : Partition SCC canBeCloned) (state : QueueState Inst) : Prop :=
  ∀ queue ∈ state.queues, queue.fromStage < queue.toStage ∧
    queue.toStage < partition.numTaskInstances

/-- The queues form no cycle of stages. -/
def StagesAcyclic (state : QueueState Inst) : Prop :=
  ∀ stage, ¬ TransGen (StageEdge state) stage stage

variable {loop : DswpLoop Inst SCC} {partition : Partition SCC canBeCloned}
  {state : QueueState Inst}

/-- What a component reaches is reached through clonable components from the last component on the
way that is not clonable. -/
theorem Topological.le_of_reaches (h : Topological loop partition) {fromSCC toSCC : SCC}
    {fromStage toStage : Nat} (hreach : loop.Reaches fromSCC toSCC)
    (hfrom : fromSCC ∈ partition.stageSCCs fromStage)
    (hto : toSCC ∈ partition.stageSCCs toStage) : fromStage ≤ toStage := by
  suffices hpath : ∃ scc stage, scc ∈ partition.stageSCCs stage ∧ stage ≤ toStage ∧
      (fromSCC = scc ∨ ThroughClonable loop.toSCCDAG canBeCloned fromSCC scc) by
    obtain ⟨scc, stage, hstage, hle, hsame | hthrough⟩ := hpath
    · exact Nat.le_trans (Nat.le_of_eq (partition.stage_unique hfrom (hsame ▸ hstage))) hle
    · exact Nat.le_trans (h _ _ _ _ hthrough hfrom hstage) hle
  clear hfrom
  induction hreach using TransGen.head_induction_on with
  | single hedge => exact ⟨toSCC, toStage, hto, Nat.le_refl _, .inr (.edge hedge)⟩
  | @head scc after hedge _ ih =>
      obtain ⟨last, stage, hstage, hle, hrest⟩ := ih
      cases hclonable : canBeCloned after with
      | true =>
          refine ⟨last, stage, hstage, hle, .inr ?_⟩
          rcases hrest with rfl | hthrough
          · exact .edge hedge
          · exact .through hedge hclonable hthrough
      | false =>
          -- The way starts again at a component that is not clonable.
          obtain ⟨afterStage, hafter⟩ := partition.exists_stage hclonable
          refine ⟨after, afterStage, hafter, ?_, .inr (.edge hedge)⟩
          rcases hrest with rfl | hthrough
          · exact Nat.le_trans (Nat.le_of_eq (partition.stage_unique hafter hstage)) hle
          · exact Nat.le_trans (h _ _ _ _ hthrough hafter hstage) hle

/-- The stage of a component does not come after the stages that it reaches. -/
theorem DepthOrdered.le_of_reaches_stage (hdepth : DepthOrdered loop partition) {scc : SCC}
    {fromStage toStage : Nat} (hreach : ReachesStage loop.toSCCDAG partition scc toStage)
    (hfrom : scc ∈ partition.stageSCCs fromStage) : fromStage ≤ toStage := by
  obtain ⟨stageSCC, hstageSCC, hreach⟩ := hreach
  exact Topological.le_of_reaches hdepth.topological hreach hfrom hstageSCC

/-- Queues that go forward pass the check. -/
theorem QueuesGoForward.are_queues_acyclical (h : QueuesGoForward partition state)
    {requests : List (QueueRequest Inst)} (hregistered : Registered requests state) :
    areQueuesAcyclical partition state = true := by
  unfold areQueuesAcyclical
  simp only [List.all_eq_true, Bool.and_eq_true]
  refine fun stage _ => ⟨fun i hpush => ?_, fun i hpop => ?_⟩
  · obtain ⟨queue, hget, rfl⟩ := (hregistered.pushes i stage).mp hpush
    rw [hget, Option.any_some]
    exact decide_eq_true (h queue (List.mem_of_getElem? hget)).1
  · obtain ⟨queue, hget, rfl⟩ := (hregistered.pops i stage).mp hpop
    rw [hget, Option.any_some]
    exact decide_eq_true (h queue (List.mem_of_getElem? hget)).1

/-- Queues that go forward form no cycle. -/
theorem QueuesGoForward.stages_acyclic (h : QueuesGoForward partition state) :
    StagesAcyclic state := by
  intro stage hcycle
  have hlt : ∀ {fromStage toStage : Nat}, TransGen (StageEdge state) fromStage toStage →
      fromStage < toStage := by
    intro fromStage toStage hsteps
    induction hsteps with
    | single hstep =>
        obtain ⟨queue, hmem, rfl, rfl⟩ := hstep
        exact (h queue hmem).1
    | tail _ hstep ih =>
        obtain ⟨queue, hmem, rfl, rfl⟩ := hstep
        exact Nat.lt_trans ih (h queue hmem).1
  exact Nat.lt_irrefl _ (hlt hcycle)

variable [DecidableEq SCC]

/-- A value that a stage needs comes from an earlier one. -/
theorem NeedsQueue.lt (hdepth : DepthOrdered loop partition) {request : QueueRequest Inst}
    (h : NeedsQueue loop partition request) :
    request.fromStage < request.toStage ∧ request.toStage < partition.numTaskInstances := by
  rcases h with hdata | hcontrol
  · have hreach := hdata.holds.reaches_stage ⟨hdata.outside, _, hdata.data, rfl, rfl⟩
    have hle := hdepth.le_of_reaches_stage hreach hdata.produces
    exact ⟨Nat.lt_of_le_of_ne hle hdata.other, hdata.holds.lt⟩
  · obtain ⟨hlt, hnot, hfollows⟩ := hcontrol.follows
    have hne : request.fromStage ≠ request.toStage := fun heq => hnot (heq ▸ hcontrol.produces)
    refine ⟨Nat.lt_of_le_of_ne ?_ hne, hlt⟩
    rcases hfollows with hexit | hreach
    · obtain ⟨inst, hcontrols⟩ := hcontrol.branch.controls
      obtain ⟨scc, hscc⟩ := partition.exists_mem_stage hlt
      exact hdepth.exits_first _ _ _ _ (loop.controls_terminator _ hcontrols rfl) hexit
        hcontrol.produces hscc
    · exact hdepth.le_of_reaches_stage hreach hcontrol.produces

/-- The queues that are collected go forward. -/
theorem DepthOrdered.forward (hdepth : DepthOrdered loop partition)
    {requests : List (QueueRequest Inst)} (hregistered : Registered requests state)
    (hrequests : ∀ request, request ∈ requests ↔ NeedsQueue loop partition request) :
    QueuesGoForward partition state := by
  intro queue hmem
  obtain ⟨i, hget⟩ := List.getElem?_of_mem hmem
  obtain ⟨request, hrequest, -, hfrom, hto⟩ := hregistered.needed i queue hget
  rw [hfrom, hto]
  exact ((hrequests request).mp hrequest).lt hdepth

/-- Every queue goes from a stage to a later one, so that the check for cycles passes and the
stages and their queues form no cycle. -/
theorem queues_go_forward [DecidableEq Inst] (hdepth : DepthOrdered loop partition)
    (h : collectQueueInfo loop partition = some state) :
    QueuesGoForward partition state ∧ areQueuesAcyclical partition state = true ∧
      StagesAcyclic state := by
  obtain ⟨requests, hregistered, hrequests⟩ := (collect_queue_info h).1
  have hforward := hdepth.forward hregistered hrequests
  exact ⟨hforward, hforward.are_queues_acyclical hregistered, hforward.stages_acyclic⟩

/-- The components other than that of `y` are in the first stage. -/
theorem break_stage_eq_zero {scc : BreakSCC} {stage : Nat} (hscc : scc ≠ .y)
    (h : scc ∈ breakPartition.stageSCCs stage) : stage = 0 := by
  refine breakPartition.stage_unique h ?_
  have hclonable := breakPartition.not_clonable_of_mem h
  cases scc with
  | y => exact (hscc rfl).elim
  | ret | exit => decide
  | c3 | br3 => cases hclonable

/-- The stages of the loop with a break are ordered. -/
theorem break_depth_ordered : DepthOrdered breakLoop breakPartition where
  topological fromSCC toSCC fromStage toStage hthrough hfrom _ := by
    have hrank : breakRank fromSCC < breakRank toSCC :=
      SCCDAG.rank_lt_of_reaches breakRank (by decide) hthrough.reaches
    have hne : fromSCC ≠ .y := by
      rintro rfl
      cases toSCC <;> exact absurd hrank (by decide)
    rw [break_stage_eq_zero hne hfrom]
    exact Nat.zero_le _
  exits_first branch _ fromStage _ hterminator _ hfrom _ := by
    have hne : breakLoop.sccOfValue branch ≠ .y := by
      cases branch with
      | y => cases hterminator
      | _ => decide
    rw [break_stage_eq_zero hne hfrom]
    exact Nat.zero_le _

/-- The queues of the loop with a break go forward. -/
theorem break_queues_go_forward : QueuesGoForward breakPartition breakQueues ∧
    areQueuesAcyclical breakPartition breakQueues = true ∧ StagesAcyclic breakQueues :=
  queues_go_forward break_depth_ordered break_queues_collected

end Gino.Dswp
