import Gino.Dswp.Queues

/-!
# The queues that the dependences of a loop need

`collectDataAndMemoryQueueInfo` requests a queue for each data dependence into a stage, and
`collectControlQueueInfo` one for the condition of each branch that controls another stage.
`mem_data_requests` and `mem_control_requests` say which requests they make, and
`collect_queue_info` that the queues are those of the requests.
-/

namespace Gino.Dswp

open Relation Machine

variable {Inst SCC : Type*}

/-- A loop: its dependences, whose components have no cycle, its branches, and the sizes of its
values. -/
structure DswpLoop (Inst SCC : Type*) extends SCCDAG Inst SCC where
  isTerminator : Inst → Bool
  hasLoopExitSuccessor : Inst → Bool
  supportedSize : Inst → Bool
  controls_terminator : ∀ edge ∈ edges, edge.kind = .control → isTerminator edge.src = true
  acyclic : ∀ scc, ¬ toSCCDAG.Reaches scc scc

variable [DecidableEq SCC] {canBeCloned : SCC → Bool}

/-! ## Data dependences -/

section Data

variable (loop : DswpLoop Inst SCC) (partition : Partition SCC canBeCloned)

/-- The requests of the dependences from one component to another that a stage holds. -/
def edgeRequests (toStage : Nat) (fromSCC scc : SCC) : List (Option (QueueRequest Inst)) :=
  if canBeCloned fromSCC then []
  else
    match partition.sccToStage fromSCC with
    | none => [none]
    | some fromStage =>
        if fromStage = toStage then []
        else
          ((loop.subEdges fromSCC scc).filter fun edge => edge.kind ≠ .control).map fun edge =>
            if edge.kind = .memory then none
            else some ⟨fromStage, toStage, edge.src, edge.dst⟩

/-- The requests of `collectDataAndMemoryQueueInfo`. A memory dependence fails its assertion. -/
def dataRequests : List (Option (QueueRequest Inst)) :=
  (List.range partition.numTaskInstances).flatMap fun toStage =>
    (clonableSCCs loop.toSCCDAG partition toStage ++ partition.stageSCCs toStage).flatMap
      fun scc => (loop.incomingSCCs scc).flatMap fun fromSCC =>
        edgeRequests loop partition toStage fromSCC scc

/-- A stage needs the value of a producer for a data dependence. -/
structure DataRequest (request : QueueRequest Inst) : Prop where
  data : ⟨request.producer, request.consumer, .data⟩ ∈ loop.edges
  outside : loop.sccOfValue request.producer ≠ loop.sccOfValue request.consumer
  holds : InStage loop.toSCCDAG partition request.toStage (loop.sccOfValue request.consumer)
  produces : loop.sccOfValue request.producer ∈ partition.stageSCCs request.fromStage
  other : request.fromStage ≠ request.toStage

variable {loop partition} {request : QueueRequest Inst}

/-- A stage that holds a component is one of the pipeline. -/
theorem InStage.lt {task : Nat} {scc : SCC} (h : InStage loop.toSCCDAG partition task scc) :
    task < partition.numTaskInstances := by
  rcases h with hstage | hclonable
  · exact partition.lt_of_mem hstage
  · obtain ⟨-, stageSCC, hstage, -⟩ := mem_clonable_sccs.mp hclonable
    exact partition.lt_of_mem hstage

/-- The requests between two components. -/
theorem mem_edge_requests {toStage : Nat} {fromSCC scc : SCC} :
    some request ∈ edgeRequests loop partition toStage fromSCC scc ↔
      request.toStage = toStage ∧ loop.sccOfValue request.producer = fromSCC ∧
        loop.sccOfValue request.consumer = scc ∧
        ⟨request.producer, request.consumer, .data⟩ ∈ loop.edges ∧
        fromSCC ∈ partition.stageSCCs request.fromStage ∧ request.fromStage ≠ toStage := by
  unfold edgeRequests
  constructor
  · intro hmem
    split_ifs at hmem with hclonable
    · cases hmem
    · cases hstage : partition.sccToStage fromSCC with
      | none =>
          rw [hstage] at hmem
          simp at hmem
      | some fromStage =>
          rw [hstage] at hmem
          dsimp only at hmem
          split_ifs at hmem with hother
          · cases hmem
          · obtain ⟨edge, hedge, hrequest⟩ := List.mem_map.mp hmem
            obtain ⟨hedge, hkind⟩ := List.mem_filter.mp hedge
            obtain ⟨hedges, hsrc, hdst⟩ := SCCDAG.mem_sub_edges.mp hedge
            -- A request for a memory dependence aborts, and control dependences are left out
            -- before.
            split_ifs at hrequest with hmemory
            obtain rfl := Option.some.inj hrequest
            refine ⟨rfl, hsrc, hdst, ?_, Partition.scc_to_stage_eq_some.mp hstage, hother⟩
            obtain ⟨src, dst, kind⟩ := edge
            cases kind with
            | data => exact hedges
            | memory => exact (hmemory rfl).elim
            | control => simp at hkind
  · intro ⟨hto, hsrc, hdst, hedge, hstage, hother⟩
    have hclonable := partition.not_clonable_of_mem hstage
    rw [if_neg (by rw [hclonable]; exact Bool.false_ne_true),
      Partition.scc_to_stage_eq_some.mpr hstage]
    dsimp only
    rw [if_neg hother]
    refine List.mem_map.mpr ⟨⟨request.producer, request.consumer, .data⟩,
      List.mem_filter.mpr ⟨SCCDAG.mem_sub_edges.mpr ⟨hedge, hsrc, hdst⟩, rfl⟩, ?_⟩
    rw [if_neg (by simp), ← hto]

/-- The requests for the data dependences. -/
theorem mem_data_requests :
    some request ∈ dataRequests loop partition ↔ DataRequest loop partition request := by
  unfold dataRequests
  simp only [List.mem_flatMap, List.mem_range, mem_edge_requests]
  constructor
  · intro ⟨toStage, _, scc, hscc, fromSCC, hfrom, hto, hsrc, hdst, hedge, hstage, hother⟩
    subst hto hsrc hdst
    exact ⟨hedge, (SCCDAG.mem_incoming_sccs.mp hfrom).1, (List.mem_append.mp hscc).symm,
      hstage, hother⟩
  · intro h
    exact ⟨request.toStage, h.holds.lt, loop.sccOfValue request.consumer,
      List.mem_append.mpr h.holds.symm, loop.sccOfValue request.producer,
      SCCDAG.mem_incoming_sccs.mpr ⟨h.outside, _, h.data, rfl, rfl⟩, rfl, rfl, rfl, h.data,
      h.produces, h.other⟩

end Data

/-! ## Control dependences -/

section Control

variable [DecidableEq Inst] (loop : DswpLoop Inst SCC) (partition : Partition SCC canBeCloned)

/-- The dependences with an end in a component. -/
def sccEdges (scc : SCC) : List (Dependence Inst) :=
  loop.edges.filter fun edge => loop.sccOfValue edge.src = scc ∨ loop.sccOfValue edge.dst = scc

/-- The dependences of a node of the graph of a component. -/
def incomingEdges (node : SCC × Inst) : List (Dependence Inst) :=
  (sccEdges loop node.1).filter fun edge => edge.dst = node.2

/-- The nodes, in the graphs of the components, of the branches with a condition that are not
clonable and that control an instruction. -/
def conditionalBranchNodes (canBeCloned : SCC → Bool) : List (SCC × Inst) :=
  (loop.nodes.flatMap fun scc =>
    ((sccEdges loop scc).filter fun controlEdge =>
      controlEdge.kind = .control ∧ canBeCloned (loop.sccOfValue controlEdge.src) = false ∧
        ∃ edge ∈ incomingEdges loop (scc, controlEdge.src), edge.kind ≠ .control).map
      fun controlEdge => (scc, controlEdge.src)).dedup

/-- The conditions of a branch that are not clonable. -/
def conditionsOfConditionalBranch (canBeCloned : SCC → Bool) (node : SCC × Inst) : List Inst :=
  (((incomingEdges loop node).filter fun edge => edge.kind ≠ .control ∧
    canBeCloned (loop.sccOfValue edge.src) = false).map fun edge => edge.src).dedup

/-- The stage of a component that is not clonable. -/
def getTaskOfNode (scc : SCC) : Option Nat :=
  if canBeCloned scc then none else partition.sccToStage scc

/-- The other stages of the components that a branch reaches. -/
def collectTransitivelyControlledTasks (node : SCC × Inst) : List Nat :=
  ((pushedList loop.outgoingSCCs loop.nodes [loop.sccOfValue node.2]).filterMap
    (getTaskOfNode partition)).dedup.filter
      fun task => getTaskOfNode partition (loop.sccOfValue node.2) ≠ some task

/-- The stages that follow a branch: all for an exit of the loop. -/
def tasksControlledByCondition (node : SCC × Inst) : List Nat :=
  if loop.hasLoopExitSuccessor node.2 then List.range partition.numTaskInstances
  else collectTransitivelyControlledTasks loop partition node

/-- The requests for the condition of a branch. A memory dependence of the branch and a number of
conditions other than one fail their assertions. -/
def branchRequests (node : SCC × Inst) : List (Option (QueueRequest Inst)) :=
  if ∃ edge ∈ incomingEdges loop node, edge.kind = .memory then [none]
  else
    match conditionsOfConditionalBranch loop canBeCloned node,
        partition.sccToStage (loop.sccOfValue node.2) with
    | [condition], some taskOfCondition =>
        ((tasksControlledByCondition loop partition node).filter fun task =>
          taskOfCondition ≠ task).map fun task => some ⟨taskOfCondition, task, condition, node.2⟩
    | _, _ => [none]

/-- The requests of `collectControlQueueInfo`. -/
def controlRequests : List (Option (QueueRequest Inst)) :=
  (conditionalBranchNodes loop canBeCloned).flatMap (branchRequests loop partition)

/-- `collectDataAndMemoryQueueInfo` and then `collectControlQueueInfo`. -/
def collectQueueInfo : Option (QueueState Inst) :=
  (registerQueues loop.supportedSize (dataRequests loop partition) .start).bind
    (registerQueues loop.supportedSize (controlRequests loop partition))

/-- A branch with a condition that is not clonable and that controls an instruction. -/
structure ConditionalBranch (canBeCloned : SCC → Bool) (branch : Inst) : Prop where
  controls : ∃ inst, ⟨branch, inst, .control⟩ ∈ loop.edges
  condition : ∃ edge ∈ loop.edges, edge.dst = branch ∧ edge.kind ≠ .control
  not_clonable : canBeCloned (loop.sccOfValue branch) = false

/-- A stage follows a branch that it does not hold. -/
def Follows (branch : Inst) (task : Nat) : Prop :=
  task < partition.numTaskInstances ∧ loop.sccOfValue branch ∉ partition.stageSCCs task ∧
    (loop.hasLoopExitSuccessor branch = true ∨
      ReachesStage loop.toSCCDAG partition (loop.sccOfValue branch) task)

/-- A stage needs the condition of a branch. -/
structure ControlRequest (request : QueueRequest Inst) : Prop where
  branch : ConditionalBranch loop canBeCloned request.consumer
  data : ⟨request.producer, request.consumer, .data⟩ ∈ loop.edges
  not_clonable : canBeCloned (loop.sccOfValue request.producer) = false
  produces : loop.sccOfValue request.consumer ∈ partition.stageSCCs request.fromStage
  follows : Follows loop partition request.consumer request.toStage

variable {loop partition} {request : QueueRequest Inst}

/-- The dependences of a node of the graph of its own component. -/
theorem mem_incoming_edges {edge : Dependence Inst} {branch : Inst} :
    edge ∈ incomingEdges loop (loop.sccOfValue branch, branch) ↔
      edge ∈ loop.edges ∧ edge.dst = branch := by
  unfold incomingEdges sccEdges
  simp only [List.mem_filter, decide_eq_true_eq]
  constructor
  · exact fun h => ⟨h.1.1, h.2⟩
  · exact fun h => ⟨⟨h.1, .inr (congrArg loop.sccOfValue h.2)⟩, h.2⟩

/-- The node of a branch with a dependence is in the graph of its own component. -/
theorem scc_of_incoming_edge {scc : SCC} {controlEdge edge : Dependence Inst}
    (hcontrol : controlEdge ∈ sccEdges loop scc)
    (hedge : edge ∈ incomingEdges loop (scc, controlEdge.src)) :
    scc = loop.sccOfValue controlEdge.src := by
  unfold incomingEdges at hedge
  obtain ⟨hincoming, hdst⟩ := List.mem_filter.mp hedge
  obtain ⟨hedges, hends⟩ := List.mem_filter.mp hincoming
  obtain ⟨hcontrolEdges, hcontrolEnds⟩ := List.mem_filter.mp hcontrol
  simp only [decide_eq_true_eq] at hdst hends hcontrolEnds
  rcases hcontrolEnds with hsrc | hinside
  · exact hsrc.symm
  · rw [hdst] at hends
    rcases hends with hfrom | hsrc
    · -- An edge into the component and one from it would make a cycle.
      by_contra hne
      refine loop.acyclic scc (.tail (.single ⟨hne, edge, hedges, hfrom, ?_⟩)
        ⟨Ne.symm hne, controlEdge, hcontrolEdges, rfl, hinside⟩)
      rw [hdst]
    · exact hsrc.symm

/-- The nodes of the conditional branches are in the graphs of their own components. -/
theorem mem_conditional_branch_nodes {node : SCC × Inst} :
    node ∈ conditionalBranchNodes loop canBeCloned ↔
      node.1 = loop.sccOfValue node.2 ∧ ConditionalBranch loop canBeCloned node.2 := by
  obtain ⟨scc, branch⟩ := node
  unfold conditionalBranchNodes
  simp only [List.mem_dedup, List.mem_flatMap, List.mem_map, List.mem_filter, decide_eq_true_eq,
    Prod.mk.injEq]
  constructor
  · intro ⟨other, _, controlEdge, ⟨hcontrol, hkind, hclonable, edge, hedge, hdata⟩, hscc, hbranch⟩
    subst hscc hbranch
    have hsame := scc_of_incoming_edge hcontrol hedge
    obtain ⟨src, dst, kind⟩ := controlEdge
    dsimp only at hkind hclonable hsame
    subst hkind hsame
    obtain ⟨hedges, hdst⟩ := mem_incoming_edges.mp hedge
    exact ⟨rfl, ⟨dst, (List.mem_filter.mp hcontrol).1⟩, ⟨edge, hedges, hdst, hdata⟩, hclonable⟩
  · intro ⟨hscc, ⟨inst, hcontrol⟩, ⟨edge, hedge, hdst, hdata⟩, hclonable⟩
    subst hscc
    refine ⟨_, loop.nodes_complete _, ⟨branch, inst, .control⟩, ⟨?_, rfl, hclonable, edge,
      mem_incoming_edges.mpr ⟨hedge, hdst⟩, hdata⟩, rfl, rfl⟩
    exact List.mem_filter.mpr ⟨hcontrol, by simp⟩

omit [DecidableEq Inst] in
/-- The stage of a component that is not clonable. -/
theorem get_task_of_node_eq_some {scc : SCC} {task : Nat} :
    getTaskOfNode partition scc = some task ↔ scc ∈ partition.stageSCCs task := by
  unfold getTaskOfNode
  split_ifs with hclonable
  · constructor
    · intro h
      cases h
    · intro h
      rw [partition.not_clonable_of_mem h] at hclonable
      cases hclonable
  · exact Partition.scc_to_stage_eq_some

omit [DecidableEq Inst] in
/-- The stages that get the condition of a branch are those that follow it. -/
theorem mem_tasks_controlled {branch : Inst} {scc : SCC} {taskOfCondition task : Nat}
    (hstage : loop.sccOfValue branch ∈ partition.stageSCCs taskOfCondition) :
    task ∈ (tasksControlledByCondition loop partition (scc, branch)).filter
      (fun task => taskOfCondition ≠ task) ↔ Follows loop partition branch task := by
  have hown : taskOfCondition ≠ task ↔ loop.sccOfValue branch ∉ partition.stageSCCs task :=
    ⟨fun hne hmem => hne (partition.stage_unique hstage hmem), fun hmem heq => hmem (heq ▸ hstage)⟩
  -- The traversal goes down from the component of the branch, and leaves out its own stage.
  have hcontrolled : task ∈ collectTransitivelyControlledTasks loop partition (scc, branch) ↔
      ReachesStage loop.toSCCDAG partition (loop.sccOfValue branch) task ∧
        loop.sccOfValue branch ∉ partition.stageSCCs task := by
    have hforward : (fun item after => after ∈ loop.outgoingSCCs item) = loop.Edge := by
      funext item after
      exact propext SCCDAG.mem_outgoing_sccs
    unfold collectTransitivelyControlledTasks ReachesStage
    simp only [List.mem_filter, List.mem_dedup, List.mem_filterMap, get_task_of_node_eq_some,
      decide_eq_true_eq, ne_eq, mem_pushed_list loop.nodes_complete, List.mem_singleton,
      exists_eq_left, hforward]
    refine and_congr_left fun _ => ?_
    exact ⟨fun ⟨stageSCC, hreach, hmem⟩ => ⟨stageSCC, hmem, hreach⟩,
      fun ⟨stageSCC, hmem, hreach⟩ => ⟨stageSCC, hreach, hmem⟩⟩
  rw [List.mem_filter, decide_eq_true_eq, hown]
  unfold tasksControlledByCondition Follows
  split_ifs with hexit
  · simp [hexit]
  · rw [hcontrolled]
    simp only [hexit, Bool.false_eq_true, false_or]
    constructor
    · intro ⟨⟨hreach, _⟩, hmem⟩
      obtain ⟨stageSCC, hstageSCC, _⟩ := id hreach
      exact ⟨partition.lt_of_mem hstageSCC, hmem, hreach⟩
    · exact fun ⟨_, hmem, hreach⟩ => ⟨⟨hreach, hmem⟩, hmem⟩

/-- The conditions of a branch without a memory dependence. -/
theorem mem_conditions_of_conditional_branch {branch condition : Inst}
    (hmemory : ¬ ∃ edge ∈ incomingEdges loop (loop.sccOfValue branch, branch),
      edge.kind = .memory) :
    condition ∈ conditionsOfConditionalBranch loop canBeCloned (loop.sccOfValue branch, branch) ↔
      ⟨condition, branch, .data⟩ ∈ loop.edges ∧
        canBeCloned (loop.sccOfValue condition) = false := by
  unfold conditionsOfConditionalBranch
  simp only [List.mem_dedup, List.mem_map, List.mem_filter, decide_eq_true_eq]
  constructor
  · intro ⟨edge, ⟨hedge, hkind, hclonable⟩, hsrc⟩
    subst hsrc
    obtain ⟨hedges, hdst⟩ := mem_incoming_edges.mp hedge
    obtain ⟨src, dst, kind⟩ := edge
    dsimp only at hdst
    subst hdst
    cases kind with
    | data => exact ⟨hedges, hclonable⟩
    | memory => exact (hmemory ⟨_, hedge, rfl⟩).elim
    | control => exact (hkind rfl).elim
  · intro ⟨hedge, hclonable⟩
    exact ⟨⟨condition, branch, .data⟩, ⟨mem_incoming_edges.mpr ⟨hedge, rfl⟩, by simp, hclonable⟩,
      rfl⟩

variable (partition) in
/-- The requests for the condition of a branch fail, or one condition goes to each stage that
follows the branch. -/
theorem mem_branch_requests (branch : Inst) :
    branchRequests loop partition (loop.sccOfValue branch, branch) = [none] ∨
      ∃ condition taskOfCondition,
        (∀ other, ⟨other, branch, .data⟩ ∈ loop.edges ∧
          canBeCloned (loop.sccOfValue other) = false ↔ other = condition) ∧
        loop.sccOfValue branch ∈ partition.stageSCCs taskOfCondition ∧
        ∀ request, request ∈ branchRequests loop partition (loop.sccOfValue branch, branch) ↔
          ∃ task, Follows loop partition branch task ∧
            some ⟨taskOfCondition, task, condition, branch⟩ = request := by
  unfold branchRequests
  split_ifs with hmemory
  · exact .inl rfl
  · split
    · rename_i condition taskOfCondition hcondition hstage
      have hstage := Partition.scc_to_stage_eq_some.mp hstage
      refine .inr ⟨condition, taskOfCondition, fun other => ?_, hstage, fun request => ?_⟩
      · rw [← mem_conditions_of_conditional_branch hmemory, hcondition, List.mem_singleton]
      · simp only [List.mem_map, mem_tasks_controlled hstage]
    · exact .inl rfl

/-- One condition goes to each stage that follows a conditional branch where no request fails. -/
theorem exists_branch_requests {requests : List (QueueRequest Inst)}
    (h : controlRequests loop partition = requests.map some) {branch : Inst}
    (hbranch : ConditionalBranch loop canBeCloned branch) :
    ∃ condition taskOfCondition,
      (∀ other, ⟨other, branch, .data⟩ ∈ loop.edges ∧
        canBeCloned (loop.sccOfValue other) = false ↔ other = condition) ∧
      loop.sccOfValue branch ∈ partition.stageSCCs taskOfCondition ∧
      ∀ request, request ∈ branchRequests loop partition (loop.sccOfValue branch, branch) ↔
        ∃ task, Follows loop partition branch task ∧
          some ⟨taskOfCondition, task, condition, branch⟩ = request := by
  have hnode : (loop.sccOfValue branch, branch) ∈ conditionalBranchNodes loop canBeCloned :=
    mem_conditional_branch_nodes.mpr ⟨rfl, hbranch⟩
  rcases mem_branch_requests partition branch with hnone | hsome
  · have hfails : none ∈ controlRequests loop partition :=
      List.mem_flatMap.mpr ⟨_, hnode, by rw [hnone]; exact List.mem_singleton_self _⟩
    rw [h] at hfails
    simp at hfails
  · exact hsome

/-- The requests for the conditions of the branches. -/
theorem mem_control_requests {requests : List (QueueRequest Inst)}
    (h : controlRequests loop partition = requests.map some) :
    request ∈ requests ↔ ControlRequest loop partition request := by
  rw [← List.mem_map_of_injective fun _ _ => Option.some.inj, ← h]
  unfold controlRequests
  rw [List.mem_flatMap]
  constructor
  · intro ⟨⟨scc, branch⟩, hnode, hrequest⟩
    obtain ⟨hscc, hbranch⟩ := mem_conditional_branch_nodes.mp hnode
    dsimp only at hscc hbranch
    subst hscc
    obtain ⟨condition, taskOfCondition, hcondition, hstage, hrequests⟩ :=
      exists_branch_requests h hbranch
    obtain ⟨task, hfollows, heq⟩ := (hrequests _).mp hrequest
    obtain rfl := Option.some.inj heq
    obtain ⟨hdata, hclonable⟩ := (hcondition condition).mpr rfl
    exact ⟨hbranch, hdata, hclonable, hstage, hfollows⟩
  · intro hcontrol
    obtain ⟨fromStage, toStage, producer, branch⟩ := request
    obtain ⟨condition, taskOfCondition, hcondition, hstage, hrequests⟩ :=
      exists_branch_requests h hcontrol.branch
    obtain rfl := (hcondition producer).mp ⟨hcontrol.data, hcontrol.not_clonable⟩
    obtain rfl := partition.stage_unique hcontrol.produces hstage
    exact ⟨_, mem_conditional_branch_nodes.mpr ⟨rfl, hcontrol.branch⟩,
      (hrequests _).mpr ⟨toStage, hcontrol.follows, rfl⟩⟩

end Control

/-! ## The queues -/

section Collect

variable [DecidableEq Inst] {loop : DswpLoop Inst SCC} {partition : Partition SCC canBeCloned}

/-- A stage needs the value of a producer. -/
def NeedsQueue (loop : DswpLoop Inst SCC) (partition : Partition SCC canBeCloned)
    (request : QueueRequest Inst) : Prop :=
  DataRequest loop partition request ∨ ControlRequest loop partition request

/-- The queues that are collected are those that the stages need, and each conditional branch has
one condition that is not clonable. -/
theorem collect_queue_info {state : QueueState Inst}
    (h : collectQueueInfo loop partition = some state) :
    (∃ requests, Registered requests state ∧
      ∀ request, request ∈ requests ↔ NeedsQueue loop partition request) ∧
    ∀ branch, ConditionalBranch loop canBeCloned branch → ∃ condition, ∀ other,
      ⟨other, branch, .data⟩ ∈ loop.edges ∧ canBeCloned (loop.sccOfValue other) = false ↔
        other = condition := by
  unfold collectQueueInfo at h
  obtain ⟨middle, hmiddle, hstate⟩ := Option.bind_eq_some_iff.mp h
  obtain ⟨dataMade, hdata, hdataMade⟩ := registered_start.register_queues hmiddle
  obtain ⟨controlMade, hcontrol, hcontrolMade⟩ := hdataMade.register_queues hstate
  rw [List.nil_append] at hcontrolMade
  refine ⟨⟨dataMade ++ controlMade, hcontrolMade, fun request => ?_⟩, fun branch hbranch => ?_⟩
  · unfold NeedsQueue
    rw [List.mem_append, mem_control_requests hcontrol, ← mem_data_requests, hdata,
      List.mem_map_of_injective fun _ _ => Option.some.inj]
  · obtain ⟨condition, -, hcondition, -⟩ := exists_branch_requests hcontrol hbranch
    exact ⟨condition, hcondition⟩

end Collect

/-! ## A break under a condition -/

/-- The instructions of an inner loop of an endless one: it returns on `c1`, and where `c3` holds it
computes `e`, leaves on `e`, and computes `x` otherwise. -/
inductive BreakInst where
  | y | c1 | br1 | c3 | br3 | e | exit | x
  deriving DecidableEq

/-- The components of the instructions. -/
inductive BreakSCC where
  | y | ret | c3 | br3 | exit
  deriving DecidableEq

/-- The order of the components along their dependences. -/
def breakRank : BreakSCC → Nat
  | .ret => 0
  | .c3 => 1
  | .br3 => 2
  | .y | .exit => 3

/-- The loop with a break under a condition. -/
def breakLoop : DswpLoop BreakInst BreakSCC where
  instructions := [.y, .c1, .br1, .c3, .br3, .e, .exit, .x]
  nodes := [.y, .ret, .c3, .br3, .exit]
  sccOfValue
    | .y => .y
    | .c1 | .br1 => .ret
    | .c3 => .c3
    | .br3 => .br3
    | .e | .exit | .x => .exit
  edges := [⟨.c1, .br1, .data⟩, ⟨.c3, .br3, .data⟩, ⟨.e, .exit, .data⟩, ⟨.x, .e, .data⟩,
    ⟨.br1, .y, .control⟩, ⟨.br1, .c1, .control⟩, ⟨.br1, .br1, .control⟩, ⟨.br1, .c3, .control⟩,
    ⟨.br1, .br3, .control⟩, ⟨.br3, .e, .control⟩, ⟨.br3, .exit, .control⟩, ⟨.exit, .x, .control⟩]
  instructions_complete inst := by cases inst <;> decide
  nodes_complete scc := by cases scc <;> decide
  isTerminator inst := inst = .br1 ∨ inst = .br3 ∨ inst = .exit
  hasLoopExitSuccessor inst := inst = .br1 ∨ inst = .exit
  supportedSize _ := true
  controls_terminator := by decide
  acyclic _ hcycle := Nat.lt_irrefl _ (SCCDAG.rank_lt_of_reaches breakRank (by decide) hcycle)

/-- The compare and the branch of the inner condition can be cloned. -/
def breakClonable (scc : BreakSCC) : Bool := scc = .c3 ∨ scc = .br3

/-- A stage for the two branches that leave the loop, and one for `y`. -/
def breakPartition : Partition BreakSCC breakClonable where
  depthOrderedSets := [[.ret, .exit], [.y]]
  remaining := by decide
  covers scc := by cases scc <;> decide
  nonempty := by decide
  disjoint := by simp

/-- The queues of the loop. -/
def breakQueues : QueueState BreakInst :=
  (collectQueueInfo breakLoop breakPartition).get (by decide +kernel)

/-- The loop has these queues. -/
theorem break_queues_collected : collectQueueInfo breakLoop breakPartition = some breakQueues :=
  (Option.some_get _).symm

end Gino.Dswp
