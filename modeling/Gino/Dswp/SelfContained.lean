import Gino.Dswp.QueueRequests

/-!
# Self-contained stages

A stage is self-contained when it holds or pops what its instructions depend on. The one case that
the passes leave out is that of a branch that leaves the loop: every stage imports it, but not what
it depends on (`self_contained_iff`).
-/

namespace Gino.Dswp

open Relation Machine

variable {Inst SCC : Type*} [DecidableEq SCC] {canBeCloned : SCC → Bool}

section Subset

variable (loop : DswpLoop Inst SCC) (partition : Partition SCC canBeCloned)
  (state : QueueState Inst)

/-- The instructions that `generateLoopSubsetForStage` puts in a stage. -/
def loopSubset (task : Nat) : List Inst :=
  (clonableSCCs loop.toSCCDAG partition task).flatMap loop.internalNodes ++
    (partition.stageSCCs task).flatMap loop.internalNodes ++
    (state.popValueQueues task).flatMap fun queueIndex =>
      match state.queues[queueIndex]? with
      | none => []
      | some queue => queue.consumers.filter fun conditionalBranch =>
          loop.isTerminator conditionalBranch

/-- A stage pops a queue with a producer. -/
def Pops (task : Nat) (producer : Inst) : Prop :=
  ∃ i ∈ state.popValueQueues task, ∃ queue, state.queues[i]? = some queue ∧
    queue.producer = producer

/-- A branch with a condition in the loop. -/
def HasCondition (branch : Inst) : Prop :=
  ∃ condition, ⟨condition, branch, .data⟩ ∈ loop.edges

/-- A stage holds or pops what its instructions depend on. -/
structure SelfContained (task : Nat) : Prop where
  clones : ∀ scc, scc ∈ clonableSCCs loop.toSCCDAG partition task ↔
    canBeCloned scc = true ∧ ∃ stageSCC ∈ partition.stageSCCs task, loop.Reaches scc stageSCC
  data : ∀ inst ∈ loopSubset loop partition state task, ∀ producer,
    ⟨producer, inst, .data⟩ ∈ loop.edges →
      producer ∈ loopSubset loop partition state task ∨
        ∃ i ∈ state.popValueQueues task, ∃ queue, state.queues[i]? = some queue ∧
          queue.producer = producer ∧ ∃ stage,
            (∀ other, i ∈ state.pushValueQueues other ↔ other = stage) ∧
              (producer ∈ loopSubset loop partition state stage ∨ Pops state stage producer)
  control : ∀ branch inst, HasCondition loop branch → loop.TransitivelyControls branch inst →
    inst ∈ loopSubset loop partition state task ∨ Pops state task inst →
      branch ∈ loopSubset loop partition state task

/-- All stages are self-contained. -/
def StagesSelfContained : Prop :=
  ∀ task < partition.numTaskInstances, SelfContained loop partition state task

/-- A branch of the pipeline that leaves the loop. -/
def ExitBranch (canBeCloned : SCC → Bool) (branch : Inst) : Prop :=
  ConditionalBranch loop canBeCloned branch ∧ loop.hasLoopExitSuccessor branch = true

/-- What a branch that leaves the loop depends on is for every stage: its clonable conditions reach
the stage, and so do the branches that control it or its other condition, unless they leave the
loop as well. -/
def ExitBranchesSelfContained : Prop :=
  ∀ task < partition.numTaskInstances, ∀ branch, ExitBranch loop canBeCloned branch →
    loop.sccOfValue branch ∉ partition.stageSCCs task →
      (∀ producer, ⟨producer, branch, .data⟩ ∈ loop.edges →
        canBeCloned (loop.sccOfValue producer) = true →
          ReachesStage loop.toSCCDAG partition (loop.sccOfValue producer) task) ∧
      ∀ other, HasCondition loop other →
        loop.TransitivelyControls other branch ∨
          (∃ condition, ⟨condition, branch, .data⟩ ∈ loop.edges ∧
            canBeCloned (loop.sccOfValue condition) = false ∧
            loop.TransitivelyControls other condition) →
        ExitBranch loop canBeCloned other ∨ loop.sccOfValue other ∈ partition.stageSCCs task ∨
          ReachesStage loop.toSCCDAG partition (loop.sccOfValue other) task

end Subset

/-! ## The instructions and the queues of a stage -/

section Collected

variable [DecidableEq Inst] {loop : DswpLoop Inst SCC} {partition : Partition SCC canBeCloned}
  {state : QueueState Inst} {task : Nat} {inst producer branch : Inst}

/-- The queues that a stage pops are those that it needs. -/
theorem pops_iff (h : collectQueueInfo loop partition = some state) :
    Pops state task producer ↔ ∃ request, NeedsQueue loop partition request ∧
      request.toStage = task ∧ request.producer = producer := by
  obtain ⟨requests, hregistered, hrequests⟩ := (collect_queue_info h).1
  constructor
  · intro ⟨i, hi, queue, hget, hproducer⟩
    obtain ⟨other, hother, hto⟩ := (hregistered.pops i task).mp hi
    obtain rfl := Option.some.inj (hget.symm.trans hother)
    obtain ⟨request, hmem, hserves⟩ := hregistered.needed i queue hget
    exact ⟨request, (hrequests request).mp hmem, hserves.2.2.symm.trans hto,
      hserves.1.symm.trans hproducer⟩
  · intro ⟨request, hneeds, hto, hproducer⟩
    obtain ⟨i, queue, hget, hserves⟩ := hregistered.served request ((hrequests request).mpr hneeds)
    exact ⟨i, (hregistered.pops i task).mpr ⟨queue, hget, hserves.2.2.trans hto⟩, queue, hget,
      hserves.1.trans hproducer⟩

/-- The queue of a need has the one stage that pushes it. -/
theorem exists_queue_of_needs (h : collectQueueInfo loop partition = some state)
    {request : QueueRequest Inst} (hneeds : NeedsQueue loop partition request) :
    ∃ i ∈ state.popValueQueues request.toStage, ∃ queue, state.queues[i]? = some queue ∧
      queue.producer = request.producer ∧
        ∀ other, i ∈ state.pushValueQueues other ↔ other = request.fromStage := by
  obtain ⟨requests, hregistered, hrequests⟩ := (collect_queue_info h).1
  obtain ⟨i, queue, hget, hserves⟩ := hregistered.served request ((hrequests request).mpr hneeds)
  refine ⟨i, (hregistered.pops i _).mpr ⟨queue, hget, hserves.2.2⟩, queue, hget, hserves.1,
    fun other => ?_⟩
  rw [hregistered.pushes, hget]
  constructor
  · intro ⟨pushed, heq, hfrom⟩
    obtain rfl := Option.some.inj heq
    exact hfrom.symm.trans hserves.2.1
  · intro hother
    exact ⟨queue, rfl, hserves.2.1.trans hother.symm⟩

/-- A branch that a stage follows is in a queue that the stage needs. -/
theorem exists_needs_of_follows (h : collectQueueInfo loop partition = some state)
    (hbranch : ConditionalBranch loop canBeCloned branch)
    (hfollows : Follows loop partition branch task) :
    ∃ request, NeedsQueue loop partition request ∧ request.toStage = task ∧
      request.consumer = branch ∧ ∀ other, ⟨other, branch, .data⟩ ∈ loop.edges ∧
        canBeCloned (loop.sccOfValue other) = false ↔ other = request.producer := by
  obtain ⟨condition, hcondition⟩ := (collect_queue_info h).2 branch hbranch
  obtain ⟨hdata, hclonable⟩ := (hcondition condition).mpr rfl
  obtain ⟨stage, hstage⟩ := partition.exists_stage hbranch.not_clonable
  exact ⟨⟨stage, task, condition, branch⟩, .inr ⟨hbranch, hdata, hclonable, hstage, hfollows⟩,
    rfl, rfl, hcondition⟩

/-- The instructions of a stage are those of its components and the branches that it follows. -/
theorem mem_loop_subset (h : collectQueueInfo loop partition = some state) :
    inst ∈ loopSubset loop partition state task ↔
      InStage loop.toSCCDAG partition task (loop.sccOfValue inst) ∨
        ConditionalBranch loop canBeCloned inst ∧ Follows loop partition inst task := by
  obtain ⟨requests, hregistered, hrequests⟩ := (collect_queue_info h).1
  unfold loopSubset
  simp only [List.mem_append, List.mem_flatMap, SCCDAG.mem_internal_nodes]
  constructor
  · intro hmem
    rcases hmem with (⟨scc, hclonable, rfl⟩ | ⟨scc, hstage, rfl⟩) | ⟨i, hi, himported⟩
    · exact .inl (.inr hclonable)
    · exact .inl (.inl hstage)
    · obtain ⟨queue, hget, hto⟩ := (hregistered.pops i task).mp hi
      rw [hget] at himported
      -- An imported instruction consumes a queue, so that some request asked for it.
      obtain ⟨hconsumer, -⟩ := List.mem_filter.mp himported
      obtain ⟨request, hmem, hserves, rfl⟩ := (hregistered.consumers i queue hget inst).mp hconsumer
      obtain rfl := hserves.2.2.symm.trans hto
      rcases (hrequests request).mp hmem with hdata | hcontrol
      · exact .inl hdata.holds
      · exact .inr ⟨hcontrol.branch, hcontrol.follows⟩
  · intro hmem
    rcases hmem with (hstage | hclonable) | ⟨hbranch, hfollows⟩
    · exact .inl (.inr ⟨_, hstage, rfl⟩)
    · exact .inl (.inl ⟨_, hclonable, rfl⟩)
    · obtain ⟨request, hneeds, rfl, rfl, -⟩ := exists_needs_of_follows h hbranch hfollows
      have hmem := (hrequests request).mpr hneeds
      obtain ⟨i, queue, hget, hserves⟩ := hregistered.served request hmem
      refine .inr ⟨i, (hregistered.pops i _).mpr ⟨queue, hget, hserves.2.2⟩, ?_⟩
      rw [hget]
      obtain ⟨controlled, hcontrols⟩ := hbranch.controls
      exact List.mem_filter.mpr ⟨(hregistered.consumers i queue hget _).mpr
        ⟨request, hmem, hserves, rfl⟩, loop.controls_terminator _ hcontrols rfl⟩

omit [DecidableEq Inst] in
/-- The producer of a queue that is needed is not clonable. -/
theorem NeedsQueue.not_clonable {request : QueueRequest Inst}
    (h : NeedsQueue loop partition request) :
    canBeCloned (loop.sccOfValue request.producer) = false := by
  rcases h with hdata | hcontrol
  · exact partition.not_clonable_of_mem hdata.produces
  · exact hcontrol.not_clonable

/-- The stage that pushes a queue holds its producer or pops it. -/
theorem NeedsQueue.pushes (h : collectQueueInfo loop partition = some state)
    {request : QueueRequest Inst} (hneeds : NeedsQueue loop partition request) :
    request.producer ∈ loopSubset loop partition state request.fromStage ∨
      Pops state request.fromStage request.producer := by
  rw [mem_loop_subset h, pops_iff h]
  rcases hneeds with hdata | hcontrol
  · exact .inl (.inl (.inl hdata.produces))
  · obtain ⟨stage, hstage⟩ := partition.exists_stage hcontrol.not_clonable
    by_cases hsame : stage = request.fromStage
    · exact .inl (.inl (.inl (hsame ▸ hstage)))
    · -- The stage of the branch pops the condition that it passes on.
      refine .inr ⟨⟨stage, request.fromStage, request.producer, request.consumer⟩, .inl
        ⟨hcontrol.data, fun heq => hsame ?_, .inl hcontrol.produces, hstage, hsame⟩, rfl, rfl⟩
      exact partition.stage_unique hstage (heq ▸ hcontrol.produces)

/-- A branch whose component reaches a stage is there. -/
theorem branch_mem_of_reaches (h : collectQueueInfo loop partition = some state)
    (hcondition : HasCondition loop branch) (hcontrols : loop.TransitivelyControls branch inst)
    (hreach : ReachesStage loop.toSCCDAG partition (loop.sccOfValue branch) task) :
    branch ∈ loopSubset loop partition state task := by
  rw [mem_loop_subset h]
  cases hclonable : canBeCloned (loop.sccOfValue branch) with
  | true => exact .inl ((in_stage_of_clonable hclonable).mpr hreach)
  | false =>
      by_cases hstage : loop.sccOfValue branch ∈ partition.stageSCCs task
      · exact .inl (.inl hstage)
      · obtain ⟨condition, hdata⟩ := hcondition
        obtain ⟨stageSCC, hstageSCC, _⟩ := id hreach
        have hbranch : ConditionalBranch loop canBeCloned branch := by
          refine ⟨?_, ⟨_, hdata, rfl, by simp⟩, hclonable⟩
          obtain ⟨other, ⟨⟨src, dst, kind⟩, hedge, rfl, rfl, rfl⟩, -⟩ :=
            TransGen.head'_iff.mp hcontrols
          exact ⟨dst, hedge⟩
        exact .inr ⟨hbranch, partition.lt_of_mem hstageSCC, hstage, .inr hreach⟩

omit [DecidableEq SCC] [DecidableEq Inst] in
/-- What transitively controls an instruction whose component reaches a stage reaches it too. -/
theorem reaches_stage_of_controls (hcontrols : loop.TransitivelyControls branch inst)
    (hreach : ReachesStage loop.toSCCDAG partition (loop.sccOfValue inst) task) :
    ReachesStage loop.toSCCDAG partition (loop.sccOfValue branch) task := by
  obtain ⟨stageSCC, hstageSCC, hstep⟩ := hreach
  rcases hcontrols.reaches with heq | hbefore
  · exact ⟨stageSCC, hstageSCC, heq ▸ hstep⟩
  · exact ⟨stageSCC, hstageSCC, hbefore.trans hstep⟩

/-- What transitively controls an instruction of a component of a stage is there. -/
theorem branch_mem_of_in_stage (h : collectQueueInfo loop partition = some state)
    (hcondition : HasCondition loop branch) (hcontrols : loop.TransitivelyControls branch inst)
    (hstage : InStage loop.toSCCDAG partition task (loop.sccOfValue inst)) :
    branch ∈ loopSubset loop partition state task := by
  rcases hcontrols.reaches with heq | hbefore
  · exact (mem_loop_subset h).mpr (.inl (heq ▸ hstage))
  · refine branch_mem_of_reaches h hcondition hcontrols ?_
    obtain ⟨middle, hreach, hlast⟩ := TransGen.tail'_iff.mp hbefore
    obtain ⟨stageSCC, hstageSCC, hstep⟩ := hstage.reaches_stage hlast
    exact ⟨stageSCC, hstageSCC, .trans_right hreach hstep⟩

omit [DecidableEq Inst] in
/-- The component of the producer of a data request reaches the stage. -/
theorem DataRequest.reaches_stage {request : QueueRequest Inst}
    (h : DataRequest loop partition request) :
    ReachesStage loop.toSCCDAG partition (loop.sccOfValue request.producer) request.toStage :=
  h.holds.reaches_stage ⟨h.outside, _, h.data, rfl, rfl⟩

omit [DecidableEq SCC] [DecidableEq Inst] in
/-- What a branch depends on that reaches a stage reaches it too. -/
theorem reaches_stage_of_data (hdata : ⟨producer, branch, .data⟩ ∈ loop.edges)
    (hreach : ReachesStage loop.toSCCDAG partition (loop.sccOfValue branch) task) :
    ReachesStage loop.toSCCDAG partition (loop.sccOfValue producer) task := by
  obtain ⟨stageSCC, hstageSCC, hstep⟩ := hreach
  rcases SCCDAG.edge_of_dependence hdata with heq | hedge
  · exact ⟨stageSCC, hstageSCC, heq ▸ hstep⟩
  · exact ⟨stageSCC, hstageSCC, .head hedge hstep⟩

/-- A producer that is not clonable of an instruction of a stage is there or popped. -/
theorem needs_of_data (h : collectQueueInfo loop partition = some state)
    (hdata : ⟨producer, inst, .data⟩ ∈ loop.edges)
    (hclonable : canBeCloned (loop.sccOfValue producer) = false)
    (hinst : InStage loop.toSCCDAG partition task (loop.sccOfValue inst) ∨
      ConditionalBranch loop canBeCloned inst ∧ Follows loop partition inst task) :
    InStage loop.toSCCDAG partition task (loop.sccOfValue producer) ∨
      ∃ request, NeedsQueue loop partition request ∧ request.toStage = task ∧
        request.producer = producer := by
  rcases hinst with hstage | ⟨hbranch, hfollows⟩
  · obtain ⟨fromStage, hfrom⟩ := partition.exists_stage hclonable
    by_cases hsame : fromStage = task
    · exact .inl (.inl (hsame ▸ hfrom))
    · by_cases hscc : loop.sccOfValue producer = loop.sccOfValue inst
      · exact .inl (hscc ▸ hstage)
      · exact .inr ⟨⟨fromStage, task, producer, inst⟩, .inl ⟨hdata, hscc, hstage, hfrom, hsame⟩,
          rfl, rfl⟩
  · obtain ⟨request, hneeds, hto, -, hcondition⟩ := exists_needs_of_follows h hbranch hfollows
    exact .inr ⟨request, hneeds, hto, ((hcondition producer).mp ⟨hdata, hclonable⟩).symm⟩

omit [DecidableEq Inst] in
/-- A clonable producer of an instruction of a stage is there, unless the instruction is a branch
that leaves the loop. -/
theorem in_stage_of_data (hexits : ExitBranchesSelfContained loop partition)
    (hdata : ⟨producer, inst, .data⟩ ∈ loop.edges)
    (hclonable : canBeCloned (loop.sccOfValue producer) = true)
    (hinst : InStage loop.toSCCDAG partition task (loop.sccOfValue inst) ∨
      ConditionalBranch loop canBeCloned inst ∧ Follows loop partition inst task) :
    InStage loop.toSCCDAG partition task (loop.sccOfValue producer) := by
  rw [in_stage_of_clonable hclonable]
  rcases hinst with hstage | ⟨hbranch, hlt, hnot, hfollows⟩
  · rcases SCCDAG.edge_of_dependence hdata with heq | hedge
    · rw [heq] at hclonable ⊢
      exact (in_stage_of_clonable hclonable).mp hstage
    · exact hstage.reaches_stage hedge
  · rcases hfollows with hexit | hreach
    · exact (hexits task hlt inst ⟨hbranch, hexit⟩ hnot).1 producer hdata hclonable
    · exact reaches_stage_of_data hdata hreach

/-- A branch that controls a branch of a stage, or its condition, is there. -/
theorem branch_mem_of_follows (h : collectQueueInfo loop partition = some state)
    (hexits : ExitBranchesSelfContained loop partition) (hcondition : HasCondition loop branch)
    (hbranch : ConditionalBranch loop canBeCloned inst)
    (hfollows : Follows loop partition inst task) {controlled : Inst}
    (hcontrols : loop.TransitivelyControls branch controlled)
    (hcontrolled : controlled = inst ∨ ⟨controlled, inst, .data⟩ ∈ loop.edges ∧
      canBeCloned (loop.sccOfValue controlled) = false) :
    branch ∈ loopSubset loop partition state task := by
  obtain ⟨hlt, hnot, hexit | hreach⟩ := id hfollows
  · have hself := (hexits task hlt inst ⟨hbranch, hexit⟩ hnot).2 branch hcondition
    have hcases : ExitBranch loop canBeCloned branch ∨
        loop.sccOfValue branch ∈ partition.stageSCCs task ∨
          ReachesStage loop.toSCCDAG partition (loop.sccOfValue branch) task := by
      rcases hcontrolled with rfl | ⟨hdata, hclonable⟩
      · exact hself (.inl hcontrols)
      · exact hself (.inr ⟨controlled, hdata, hclonable, hcontrols⟩)
    rcases hcases with ⟨hother, hotherExit⟩ | hstage | hreach
    · rw [mem_loop_subset h]
      by_cases hstage : loop.sccOfValue branch ∈ partition.stageSCCs task
      · exact .inl (.inl hstage)
      · exact .inr ⟨hother, hlt, hstage, .inl hotherExit⟩
    · exact (mem_loop_subset h).mpr (.inl (.inl hstage))
    · exact branch_mem_of_reaches h hcondition hcontrols hreach
  · refine branch_mem_of_reaches h hcondition hcontrols (reaches_stage_of_controls hcontrols ?_)
    rcases hcontrolled with rfl | ⟨hdata, -⟩
    · exact hreach
    · exact reaches_stage_of_data hdata hreach

/-- A stage is self-contained where the branches that leave the loop are. -/
theorem self_contained_of_exits (h : collectQueueInfo loop partition = some state)
    (hexits : ExitBranchesSelfContained loop partition) :
    SelfContained loop partition state task where
  clones scc := mem_clonable_sccs
  data inst hinst producer hdata := by
    have hinst := (mem_loop_subset h).mp hinst
    cases hclonable : canBeCloned (loop.sccOfValue producer) with
    | true =>
        exact .inl ((mem_loop_subset h).mpr (.inl (in_stage_of_data hexits hdata hclonable hinst)))
    | false =>
        rcases needs_of_data h hdata hclonable hinst with hstage | ⟨request, hneeds, rfl, rfl⟩
        · exact .inl ((mem_loop_subset h).mpr (.inl hstage))
        · obtain ⟨i, hpop, queue, hget, hproducer, hpush⟩ := exists_queue_of_needs h hneeds
          exact .inr ⟨i, hpop, queue, hget, hproducer, request.fromStage, hpush, hneeds.pushes h⟩
  control branch inst hcondition hcontrols hinst := by
    rcases hinst with hmem | hpops
    · rcases (mem_loop_subset h).mp hmem with hstage | ⟨hbranch, hfollows⟩
      · exact branch_mem_of_in_stage h hcondition hcontrols hstage
      · exact branch_mem_of_follows h hexits hcondition hbranch hfollows hcontrols (.inl rfl)
    · obtain ⟨request, hneeds, rfl, rfl⟩ := (pops_iff h).mp hpops
      rcases hneeds with hdata | hcontrol
      · exact branch_mem_of_reaches h hcondition hcontrols
          (reaches_stage_of_controls hcontrols hdata.reaches_stage)
      · exact branch_mem_of_follows h hexits hcondition hcontrol.branch hcontrol.follows hcontrols
          (.inr ⟨hcontrol.data, hcontrol.not_clonable⟩)

/-- A branch that leaves the loop depends on what its stages hold where these are self-contained. -/
theorem exits_of_self_contained (h : collectQueueInfo loop partition = some state)
    (hself : StagesSelfContained loop partition state) :
    ExitBranchesSelfContained loop partition := by
  intro task hlt branch ⟨hbranch, hexit⟩ hnot
  have hfollows : Follows loop partition branch task := ⟨hlt, hnot, .inl hexit⟩
  have hmem := (mem_loop_subset h).mpr (.inr ⟨hbranch, hfollows⟩)
  refine ⟨fun producer hdata hclonable => ?_, fun other hcondition hcontrols => ?_⟩
  · rcases (hself task hlt).data branch hmem producer hdata with hinside | hpopped
    · rcases (mem_loop_subset h).mp hinside with hstage | ⟨hother, -⟩
      · exact (in_stage_of_clonable hclonable).mp hstage
      · rw [hother.not_clonable] at hclonable
        cases hclonable
    · obtain ⟨i, hi, queue, hget, hproducer, -⟩ := hpopped
      obtain ⟨request, hneeds, -, rfl⟩ := (pops_iff h).mp ⟨i, hi, queue, hget, hproducer⟩
      rw [hneeds.not_clonable] at hclonable
      cases hclonable
  · have hother : other ∈ loopSubset loop partition state task := by
      rcases hcontrols with hcontrols | ⟨condition, hdata, hclonable, hcontrols⟩
      · exact (hself task hlt).control other branch hcondition hcontrols (.inl hmem)
      · obtain ⟨request, hneeds, hto, -, hproducer⟩ := exists_needs_of_follows h hbranch hfollows
        refine (hself task hlt).control other condition hcondition hcontrols (.inr ?_)
        exact (pops_iff h).mpr ⟨request, hneeds, hto,
          ((hproducer condition).mp ⟨hdata, hclonable⟩).symm⟩
    -- The other branch is in the stage, or the stage follows it as well.
    rcases (mem_loop_subset h).mp hother with hstage | ⟨hbranch, -, -, hfollows⟩
    · rcases hstage with hstage | hclonable
      · exact .inr (.inl hstage)
      · exact .inr (.inr (mem_clonable_sccs.mp hclonable).2)
    · rcases hfollows with hotherExit | hreach
      · exact .inl ⟨hbranch, hotherExit⟩
      · exact .inr (.inr hreach)

/-- The stages are self-contained exactly when what the branches that leave the loop depend on is
for every stage. -/
theorem self_contained_iff (h : collectQueueInfo loop partition = some state) :
    StagesSelfContained loop partition state ↔ ExitBranchesSelfContained loop partition :=
  ⟨exits_of_self_contained h, fun hexits _ _ => self_contained_of_exits h hexits⟩

end Collected

/-- The self-containedness of the stages of the loop is that of its branches. -/
theorem break_self_contained_iff : StagesSelfContained breakLoop breakPartition breakQueues ↔
    ExitBranchesSelfContained breakLoop breakPartition :=
  self_contained_iff break_queues_collected

/-- The stage of `y` imports the break, but not the branch that controls it. -/
theorem break_stages_not_self_contained :
    ¬ StagesSelfContained breakLoop breakPartition breakQueues := by
  intro hself
  have hcontrols : breakLoop.TransitivelyControls .br3 .exit :=
    .single ⟨⟨.br3, .exit, .control⟩, by decide, rfl, rfl, rfl⟩
  have himported : BreakInst.exit ∈ loopSubset breakLoop breakPartition breakQueues 1 := by
    decide +kernel
  have hmissing : BreakInst.br3 ∉ loopSubset breakLoop breakPartition breakQueues 1 := by
    decide +kernel
  exact hmissing ((hself 1 (by decide)).control .br3 .exit ⟨.c3, by decide⟩ hcontrols
    (.inl himported))

end Gino.Dswp
