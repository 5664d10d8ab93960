import Gino.Dswp.ExitControl
import Gino.Dswp.LiveOuts
import Gino.Dswp.PipelineProgress

/-!
# The pipeline that DSWP makes of a loop

`DSWP::apply` gives each stage the instructions of its components and the branches that it follows,
the queues that were collected, and its live-out variables. Where the dependences are those of the
loop and no cloned component accesses the memory, the stages have what they need
(`Applied.wired`), so that every run of them ends with what the sequential loop computes
(`applied_runs_as_loop`).
-/

namespace Gino.Dswp

open Relation Graph Machine Pipeline

variable {Inst Block Value Region Content SCC : Type*}

/-- A queue between other instructions. -/
def QueueInfo.map {Other : Type*} (f : Inst → Other) (queue : QueueInfo Inst) : QueueInfo Other :=
  ⟨f queue.producer, queue.consumers.map f, queue.fromStage, queue.toStage⟩

variable [DecidableEq SCC]

/-- The pipeline that `DSWP::apply` makes of a partition and the queues that were collected. -/
def apply {canBeCloned : SCC → Bool} (program : LoopProgram Inst Block Value Region Content)
    (loop : DswpLoop program.LoopInst SCC) (partition : Partition SCC canBeCloned)
    (environment : Environment program.LoopInst) (state : QueueState program.LoopInst) :
    Pipeline Inst Block Value Region Content where
  toLoopProgram := program
  numTaskInstances := partition.numTaskInstances
  subset task := (loopSubset loop partition state task).map Subtype.val
  queues := state.queues.map (QueueInfo.map Subtype.val)
  liveOuts task := (collectLiveOutEnvInfo loop.toSCCDAG partition environment task).map
    fun envID => (environment.producer envID).1

variable [DecidableEq Inst]

/-- No memory dependence goes from one stage to another where the queues were collected. -/
theorem same_stage_of_memory {canBeCloned : SCC → Bool} {loop : DswpLoop Inst SCC}
    {partition : Partition SCC canBeCloned} {state : QueueState Inst}
    (h : collectQueueInfo loop partition = some state) {I J : Inst}
    (hmemory : MemoryDependence loop.toSCCDAG I J) {fromStage toStage : Nat}
    (hI : loop.sccOfValue I ∈ partition.stageSCCs fromStage)
    (hJ : loop.sccOfValue J ∈ partition.stageSCCs toStage) : fromStage = toStage := by
  by_contra hne
  have houtside : loop.sccOfValue I ≠ loop.sccOfValue J := fun heq =>
    hne (partition.stage_unique hI (heq ▸ hJ))
  -- The request for the dependence fails its assertion.
  have hfails : none ∈ edgeRequests loop partition toStage (loop.sccOfValue I)
      (loop.sccOfValue J) := by
    unfold edgeRequests
    rw [partition.not_clonable_of_mem hI, if_neg Bool.false_ne_true,
      Partition.scc_to_stage_eq_some.mpr hI]
    dsimp only
    rw [if_neg hne]
    exact List.mem_map.mpr ⟨⟨I, J, .memory⟩, List.mem_filter.mpr
      ⟨SCCDAG.mem_sub_edges.mpr ⟨hmemory, rfl, rfl⟩, rfl⟩, rfl⟩
  have hnone : none ∈ dataRequests loop partition := by
    unfold dataRequests
    simp only [List.mem_flatMap]
    exact ⟨toStage, List.mem_range.mpr (partition.lt_of_mem hJ), loop.sccOfValue J,
      List.mem_append_right _ hJ, loop.sccOfValue I,
      SCCDAG.mem_incoming_sccs.mpr ⟨houtside, _, hmemory, rfl, rfl⟩, hfails⟩
  unfold collectQueueInfo at h
  obtain ⟨middle, hmiddle, -⟩ := Option.bind_eq_some_iff.mp h
  obtain ⟨dataMade, hdata, -⟩ := registered_start.register_queues hmiddle
  rw [hdata] at hnone
  simp at hnone

/-- A loop that DSWP was applied to, with the queues that were collected for it. -/
structure Applied (Inst Block Value Region Content SCC : Type*) [DecidableEq Inst]
    [DecidableEq SCC] where
  program : LoopProgram Inst Block Value Region Content
  loop : DswpLoop program.LoopInst SCC
  canBeCloned : SCC → Bool
  partition : Partition SCC canBeCloned
  environment : Environment program.LoopInst
  state : QueueState program.LoopInst
  graph : DependenceGraph program loop
  left_for_good : program.LeftForGood
  topological : Topological loop partition
  /-- No component that accesses the memory is cloned. -/
  cloned : ∀ I : program.LoopInst, canBeCloned (loop.sccOfValue I) = true →
    program.region I.1 = none
  collected : collectQueueInfo loop partition = some state

namespace Applied

variable (applied : Applied Inst Block Value Region Content SCC)

/-- The pipeline of the loop. -/
def pipeline : Pipeline Inst Block Value Region Content :=
  apply applied.program applied.loop applied.partition applied.environment applied.state

/-- The instructions of a stage. -/
abbrev stageInsts (task : Nat) : List applied.program.LoopInst :=
  loopSubset applied.loop applied.partition applied.state task

variable {applied} {task : Nat}

/-- The instructions of a stage are those that were chosen for it. -/
theorem mem_subset {I : Inst} :
    I ∈ applied.pipeline.subset task ↔ ∃ inst ∈ applied.stageInsts task, inst.1 = I :=
  List.mem_map

/-! ## The queues -/

variable (applied) in
/-- The queues of the pipeline are those that were collected. -/
theorem get_queue (i : Nat) :
    applied.pipeline.queues[i]? = applied.state.queues[i]?.map (QueueInfo.map Subtype.val) :=
  List.getElem?_map

/-- A queue of the pipeline carries a value that its stage needs. -/
theorem exists_needs (queue : applied.pipeline.Queue) :
    ∃ request, NeedsQueue applied.loop applied.partition request ∧
      applied.pipeline.producer queue = request.producer.1 ∧
      (applied.pipeline.queues.get queue).fromStage = request.fromStage ∧
      (applied.pipeline.queues.get queue).toStage = request.toStage := by
  obtain ⟨requests, hregistered, hrequests⟩ := (collect_queue_info applied.collected).1
  have hget := List.getElem?_eq_getElem queue.isLt
  rw [get_queue] at hget
  obtain ⟨original, horiginal, hmap⟩ := Option.map_eq_some_iff.mp hget
  obtain ⟨request, hmem, hproducer, hfrom, hto⟩ := hregistered.needed _ _ horiginal
  have hqueue : applied.pipeline.queues.get queue = original.map Subtype.val := hmap.symm
  refine ⟨request, (hrequests request).mp hmem, ?_, ?_, ?_⟩
  · unfold Pipeline.producer
    rw [hqueue]
    exact congrArg Subtype.val hproducer
  · rw [hqueue]
    exact hfrom
  · rw [hqueue]
    exact hto

/-- A stage has what was chosen for it or is popped for it. -/
theorem holds {P : applied.program.LoopInst}
    (h : P ∈ applied.stageInsts task ∨ Pops applied.state task P) :
    applied.pipeline.Holds task P.1 := by
  rcases h with hmem | ⟨i, hi, queue, hget, rfl⟩
  · exact .inl (mem_subset.mpr ⟨P, hmem, rfl⟩)
  · obtain ⟨requests, hregistered, -⟩ := (collect_queue_info applied.collected).1
    obtain ⟨other, hother, rfl⟩ := (hregistered.pops i task).mp hi
    obtain rfl := Option.some.inj (hget.symm.trans hother)
    have hpipeline := applied.get_queue i
    rw [hget] at hpipeline
    obtain ⟨hlt, hqueue⟩ := List.getElem?_eq_some_iff.mp hpipeline
    refine .inr ⟨⟨i, hlt⟩, mem_pop_queues.mpr ?_, ?_⟩
    · exact congrArg QueueInfo.toStage hqueue
    · exact congrArg QueueInfo.producer hqueue

/-- The queues go forward. -/
theorem queues_forward : applied.pipeline.QueuesForward := by
  intro queue
  obtain ⟨request, hneeds, -, hfrom, hto⟩ := exists_needs queue
  rw [hfrom, hto]
  exact (hneeds.lt (applied.graph.depth_ordered applied.left_for_good applied.topological)).1

/-! ## What the stages have -/

variable (applied task) in
/-- Every stage is self-contained. -/
theorem self_contained :
    SelfContained applied.loop applied.partition applied.state task :=
  self_contained_of_exits applied.collected
    (applied.graph.exits_self_contained applied.left_for_good)

/-- A stage has what its instructions use. -/
theorem holds_of_data {producer inst : applied.program.LoopInst}
    (hinst : inst ∈ applied.stageInsts task)
    (hdata : ⟨producer, inst, .data⟩ ∈ applied.loop.edges) :
    applied.pipeline.Holds task producer.1 := by
  refine holds ?_
  rcases (applied.self_contained task).data inst hinst producer hdata with
    hmem | ⟨i, hi, queue, hget, hproducer, -⟩
  · exact .inl hmem
  · exact .inr ⟨i, hi, queue, hget, hproducer⟩

/-- A stage has the branches that control what it has. -/
theorem controlled {node : Block} (hnode : node ∈ applied.program.basicBlocks)
    {inst : applied.program.LoopInst}
    (hinst : inst ∈ applied.stageInsts task ∨ Pops applied.state task inst)
    (hcontrols : ∀ branch (hbranch : branch ∈ applied.program.basicBlocks),
      applied.program.ControlDependent branch node →
        applied.loop.TransitivelyControls (applied.program.loopTerminator branch hbranch) inst) :
    applied.pipeline.Controlled (applied.pipeline.subset task) node := by
  intro branch hbranch hdependent
  have hcondition := applied.graph.conditions branch hbranch node hnode hdependent
  have hmem := (applied.self_contained task).control _ inst hcondition
    (hcontrols branch hbranch hdependent) hinst
  exact LoopCFG.keeps_iff.mpr (mem_subset.mpr ⟨_, hmem, rfl⟩)

/-- A stage has the branches that control the blocks of what it has. -/
theorem controlled_parent {inst : applied.program.LoopInst}
    (hinst : inst ∈ applied.stageInsts task ∨ Pops applied.state task inst) :
    applied.pipeline.Controlled (applied.pipeline.subset task) (applied.program.parent inst.1) :=
  controlled inst.2 hinst fun branch hbranch hdependent =>
    .single ⟨_, applied.graph.control branch hbranch inst hdependent, rfl, rfl, rfl⟩

/-- Every stage has the branches that leave the loop. -/
theorem exit_mem (htask : task < applied.partition.numTaskInstances) {B : Block}
    (hB : B ∈ applied.program.basicBlocks)
    (hexit : ∃ exit ∈ applied.program.successors B, exit ∉ applied.program.basicBlocks) :
    applied.program.loopTerminator B hB ∈ applied.stageInsts task := by
  refine (mem_loop_subset applied.collected).mpr ?_
  rcases applied.graph.exit_reaches_stage applied.left_for_good hB hexit htask with hstage | hreach
  · exact .inl (.inl hstage)
  · cases hclonable :
        applied.canBeCloned (applied.loop.sccOfValue (applied.program.loopTerminator B hB)) with
    | true => exact .inl ((in_stage_of_clonable hclonable).mpr hreach)
    | false =>
        by_cases hstage : applied.loop.sccOfValue (applied.program.loopTerminator B hB) ∈
            applied.partition.stageSCCs task
        · exact .inl (.inl hstage)
        · obtain ⟨hcontrols, condition, hdata⟩ :=
            applied.graph.exit_conditional applied.left_for_good hB hexit
          exact .inr ⟨⟨hcontrols, ⟨_, hdata, rfl, by simp⟩, hclonable⟩, htask, hstage, .inr hreach⟩

/-! ## Memory -/

/-- The component of an instruction that accesses the memory is not cloned. -/
theorem not_clonable {I : applied.program.LoopInst} {region : Region}
    (h : applied.program.region I.1 = some region) :
    applied.canBeCloned (applied.loop.sccOfValue I) = false := by
  cases hclonable : applied.canBeCloned (applied.loop.sccOfValue I) with
  | true =>
      rw [applied.cloned I hclonable] at h
      cases h
  | false => rfl

/-- Instructions that are connected by memory dependences are in the same stages. -/
theorem stage_iff_of_memory {I J : applied.program.LoopInst}
    (h : EqvGen (MemoryDependence applied.loop.toSCCDAG) I J) :
    applied.loop.sccOfValue I ∈ applied.partition.stageSCCs task ↔
      applied.loop.sccOfValue J ∈ applied.partition.stageSCCs task := by
  induction h with
  | rel I J hmemory =>
      obtain ⟨region, hI, hJ⟩ := applied.graph.accesses I J hmemory
      obtain ⟨fromStage, hfrom⟩ := applied.partition.exists_stage (not_clonable hI)
      obtain ⟨toStage, hto⟩ := applied.partition.exists_stage (not_clonable hJ)
      obtain rfl := same_stage_of_memory applied.collected hmemory hfrom hto
      constructor
      · intro hstage
        rw [applied.partition.stage_unique hstage hfrom]
        exact hto
      · intro hstage
        rw [applied.partition.stage_unique hstage hto]
        exact hfrom
  | refl I => rfl
  | symm I J _ ih => exact ih.symm
  | trans I J K _ _ ih ih' => exact ih.trans ih'

/-- The component of an instruction of a stage that accesses the memory is one of the stage. -/
theorem mem_stage_of_region {I : applied.program.LoopInst} {region : Region}
    (h : applied.program.region I.1 = some region) (hI : I ∈ applied.stageInsts task) :
    applied.loop.sccOfValue I ∈ applied.partition.stageSCCs task := by
  rcases (mem_loop_subset applied.collected).mp hI with (hstage | hclonable) | ⟨hbranch, -⟩
  · exact hstage
  · rw [applied.cloned I (mem_clonable_sccs.mp hclonable).1] at h
    cases h
  · obtain ⟨controlled, hcontrols⟩ := hbranch.controls
    obtain ⟨B, hB, rfl⟩ :=
      applied.graph.exists_block (applied.loop.controls_terminator _ hcontrols rfl)
    rw [show applied.program.region (applied.program.loopTerminator B hB).1 = none from
      applied.graph.branches B hB] at h
    cases h

/-- The instructions that access a region are in the stage that has one of them. -/
theorem mem_stage_of_same_region {I J : applied.program.LoopInst} {region : Region}
    (hI : applied.program.region I.1 = some region) (hJ : applied.program.region J.1 = some region)
    (hmem : I ∈ applied.stageInsts task) :
    applied.loop.sccOfValue J ∈ applied.partition.stageSCCs task :=
  (stage_iff_of_memory (applied.graph.memory I J region hI hJ)).mp (mem_stage_of_region hI hmem)

variable (applied) in
/-- The stages of the pipeline have what they need. -/
theorem wired : applied.pipeline.Wired where
  subset stage hstage :=
    { inside := fun I hI => by
        obtain ⟨inst, -, rfl⟩ := mem_subset.mp hI
        exact inst.2
      exits := fun B hB exit hexit houtside =>
        mem_subset.mpr ⟨_, exit_mem hstage hB ⟨exit, hexit, houtside⟩, rfl⟩
      controls := fun I hI B hB hdependent => by
        obtain ⟨inst, hinst, rfl⟩ := mem_subset.mp hI
        exact LoopCFG.keeps_iff.mp (controlled_parent (.inl hinst) B hB hdependent) }
  operands stage _ I hI P hP := by
    obtain ⟨inst, hinst, rfl⟩ := mem_subset.mp hI
    obtain ⟨producer, rfl, hdata⟩ := applied.graph.operands inst P hP
    exact holds_of_data hinst hdata
  incoming stage _ I hI pred P hP := by
    obtain ⟨inst, hinst, rfl⟩ := mem_subset.mp hI
    obtain ⟨producer, rfl, hdata⟩ := applied.graph.incoming inst pred P hP
    exact holds_of_data hinst hdata
  phis stage _ B I hphi hI pred hpred hsuccessor := by
    obtain ⟨inst, hinst, rfl⟩ := mem_subset.mp hI
    obtain rfl := applied.program.parent_phi B inst.1 hphi
    exact controlled hpred (.inl hinst) fun branch hbranch hdependent =>
      applied.graph.phis inst hphi pred hpred hsuccessor branch hbranch hdependent
  pops stage _ queue hqueue := by
    obtain ⟨request, hneeds, hproducer, -, hto⟩ := exists_needs queue
    rw [mem_pop_queues.mp hqueue] at hto
    rw [hproducer]
    exact controlled_parent (.inr ((pops_iff applied.collected).mpr
      ⟨request, hneeds, hto.symm, rfl⟩))
  pushes stage _ queue hqueue := by
    obtain ⟨request, hneeds, hproducer, hfrom, -⟩ := exists_needs queue
    rw [mem_push_queues.mp hqueue] at hfrom
    rw [hproducer, hfrom]
    exact holds (hneeds.pushes applied.collected)
  liveOuts stage _ P hP := by
    obtain ⟨envID, henvID, rfl⟩ := List.mem_map.mp hP
    have htask := (mem_of_live_out_task (mem_collect_live_out.mp henvID).2).2
    refine holds (.inl ((mem_loop_subset applied.collected).mpr (.inl ?_)))
    split at htask
    · exact .inr htask
    · exact .inl htask
  producers queue := by
    obtain ⟨request, hneeds, hproducer, -⟩ := exists_needs queue
    rw [hproducer]
    refine (applied.graph.instructions request.producer).resolve_right ?_
    rcases hneeds with hdata | hcontrol
    · exact applied.graph.values _ _ hdata.data
    · exact applied.graph.values _ _ hcontrol.data
  stages queue := by
    obtain ⟨request, hneeds, -, hfrom, hto⟩ := exists_needs queue
    have hlt := hneeds.lt (applied.graph.depth_ordered applied.left_for_good applied.topological)
    rw [hfrom, hto]
    exact ⟨hlt.1.trans hlt.2, hlt.2⟩
  regions stage _ other _ I hI J hJ region hIregion hJregion := by
    obtain ⟨inst, hinst, rfl⟩ := mem_subset.mp hI
    obtain ⟨accessed, haccessed, rfl⟩ := mem_subset.mp hJ
    exact applied.partition.stage_unique (mem_stage_of_same_region hIregion hJregion hinst)
      (mem_stage_of_region hJregion haccessed)
  owners stage _ region howns B hB I hI hregion := by
    obtain ⟨J, hJ, hJregion⟩ := howns
    obtain ⟨inst, hinst, rfl⟩ := mem_subset.mp hJ
    have hparent := applied.program.parent_body B I hI
    refine mem_subset.mpr ⟨⟨I, hparent.symm ▸ hB⟩, ?_, rfl⟩
    exact (mem_loop_subset applied.collected).mpr
      (.inl (.inl (mem_stage_of_same_region hJregion hregion hinst)))

/-! ## Runs of the pipeline -/

/-- A region that no stage accesses is accessed by no instruction of the loop. -/
theorem not_accessed {region : Region} (h : ∀ stage < applied.partition.numTaskInstances,
      ¬ applied.pipeline.Owns stage region) :
    ∀ B ∈ applied.program.basicBlocks, ∀ I ∈ applied.program.body B,
      applied.program.region I ≠ some region := by
  intro B hB I hI hregion
  have hparent := applied.program.parent_body B I hI
  let inst : applied.program.LoopInst := ⟨I, hparent.symm ▸ hB⟩
  obtain ⟨stage, hstage⟩ := applied.partition.exists_stage (not_clonable (I := inst) hregion)
  refine h stage (applied.partition.lt_of_mem hstage) ⟨I, mem_subset.mpr ⟨inst, ?_, rfl⟩, hregion⟩
  exact (mem_loop_subset applied.collected).mpr (.inl (.inl hstage))

end Applied

/-- Every run of the stages that DSWP makes of a loop is finite, and a run that cannot go on has the
memory of the sequential loop, empty queues, all stages at the block that the loop leaves to, and
the values of the loop in the live-out variables of the stages. -/
theorem applied_runs_as_loop [DecidableEq Block] [DecidableEq Region]
    (applied : Applied Inst Block Value Region Content SCC) {total : Nat}
    (hleaves : applied.program.LeavesAt total) {final : applied.pipeline.PipelineState}
    {past : List (applied.pipeline.PipelineState × Nat)}
    (h : applied.pipeline.system.Run past final) :
    past.length ≤ ∑ stage ∈ Finset.range applied.partition.numTaskInstances,
        applied.pipeline.visitSteps stage 0 total ∧
      ((∀ stage next, ¬ applied.pipeline.system.Step final stage next) →
        final.memory = (applied.program.sequential total).memory ∧
        (∀ queue, (final.channels queue).contents = []) ∧
        ∀ stage < applied.partition.numTaskInstances,
          (final.stages stage).position = .left (applied.program.sequential total).block ∧
          (∀ P value, (final.stages stage).stored P = some value →
            value = (applied.program.sequential total).values P) ∧
          ∀ P ∈ applied.pipeline.liveOuts stage,
            (applied.program.sequential total).block ∈
                applied.pipeline.determineLatestPointsToInsertLiveOutStore stage P ∨
              applied.pipeline.StoresInLoop stage P ∧ applied.program.executions P total ≠ [] →
            (final.stages stage).stored P =
              some ((applied.program.sequential total).values P)) := by
  refine ⟨run_length_le applied.wired hleaves h, fun hstuck => ?_⟩
  have hinvariant := invariant_reachable applied.wired h.reachable
  have hleft := all_left_of_stuck applied.wired Applied.queues_forward hleaves h.reachable hstuck
  refine ⟨memory_of_left applied.wired (fun _ => Applied.not_accessed) hleaves h.reachable hleft,
    hinvariant.empty_of_leaves applied.wired hleaves hleft, fun stage hstage => ?_⟩
  obtain ⟨exit, hposition⟩ := hleft stage hstage
  exact ⟨(hinvariant.sequential_of_left hleaves hstage hposition).1,
    live_outs_of_left applied.wired hleaves h hstage hposition⟩

namespace StoredSum

/-- The block of a loop `do { total = sum + i; *cell += total; i = i + 1; } while (i < 2);` and the
block after it. -/
inductive SumBlock where
  | body | after
  deriving DecidableEq

/-- The instructions of the loop, and the terminator of the block after it. -/
inductive SumInst where
  | i | sum | next | total | store | test | branch | leave
  deriving DecidableEq

/-- The components of the instructions. -/
inductive SumSCC where
  | count | sum | store
  deriving DecidableEq

/-- What the instructions use. -/
def operands : SumInst → List SumInst
  | .next => [.i]
  | .total => [.sum, .i]
  | .store => [.total]
  | .test => [.next]
  | .branch => [.test]
  | _ => []

/-- The loop. -/
def program : LoopProgram SumInst SumBlock Nat Unit Nat where
  functionBlocks := [.body, .after]
  successors
    | .body => [.body, .after]
    | .after => []
  isFinal B := B = .after
  basicBlocks := [.body]
  header := .body
  parent
    | .leave => .after
    | _ => .body
  terminator
    | .body => .branch
    | .after => .leave
  functionBlocks_complete B := by cases B <;> decide
  header_mem := by decide
  parent_terminator B := by cases B <;> rfl
  not_final := by decide
  reaches_final B _ := by
    refine ⟨.after, rfl, ?_⟩
    cases B with
    | body => exact .single (show SumBlock.after ∈ [SumBlock.body, .after] by decide)
    | after => exact .refl
  phis
    | .body => [.i, .sum]
    | .after => []
  body
    | .body => [.next, .total, .store, .test]
    | .after => []
  operands
  incoming
    | .i, some .body => .inl .next
    | .sum, some .body => .inl .total
    | _, _ => .inr 0
  region
    | .store => some ()
    | _ => none
  result
    | .next, arguments, _ => arguments.sum + 1
    | .total, arguments, _ => arguments.sum
    | .test, [next], _ => if next < 2 then 1 else 0
    | _, _, _ => 0
  update _ arguments content := content + arguments.sum
  branch _ arguments := if arguments = [1] then .body else .after
  undefined := 0
  initialMemory _ := 0
  parent_phi B := by cases B <;> decide
  parent_body B := by cases B <;> decide
  not_phi B := by cases B <;> decide
  nodup_phis B := by cases B <;> decide
  nodup_body B := by cases B <;> decide
  defined_before B before I after hbody := by
    have htails : ∀ code ∈ ([.next, .total, .store, .test] : List SumInst).tails,
        ∀ P ∈ code.head?.elim [] operands, P ∉ code := by decide
    cases B with
    | body => exact htails _ ((List.mem_tails _ _).mpr ⟨before, hbody.symm⟩)
    | after => simp at hbody
  branch_mem B hB arguments := by
    obtain rfl := List.mem_singleton.mp hB
    dsimp only
    split <;> decide

/-- An instruction of the loop. -/
def inLoop (I : SumInst) (h : program.parent I = .body) : program.LoopInst :=
  ⟨I, List.mem_singleton.mpr h⟩

/-- The instructions of the loop. -/
def instructions : List program.LoopInst :=
  [inLoop .i rfl, inLoop .sum rfl, inLoop .next rfl, inLoop .total rfl, inLoop .store rfl,
    inLoop .test rfl, inLoop .branch rfl]

/-- They are all. -/
theorem mem_instructions (I : program.LoopInst) : I ∈ instructions := by
  obtain ⟨I, hI⟩ := I
  cases I with
  | leave => exact absurd hI (by decide)
  | _ => decide +revert

/-- The order of the components along their dependences. -/
def rank : SumSCC → Nat
  | .count => 0
  | .sum => 1
  | .store => 2

/-- The loop with its dependences. -/
def loop : DswpLoop program.LoopInst SumSCC where
  instructions
  nodes := [.count, .sum, .store]
  sccOfValue I := match I.1 with
    | .sum | .total => .sum
    | .store => .store
    | _ => .count
  edges := [⟨inLoop .next rfl, inLoop .i rfl, .data⟩, ⟨inLoop .i rfl, inLoop .next rfl, .data⟩,
    ⟨inLoop .next rfl, inLoop .test rfl, .data⟩, ⟨inLoop .test rfl, inLoop .branch rfl, .data⟩,
    ⟨inLoop .total rfl, inLoop .sum rfl, .data⟩, ⟨inLoop .sum rfl, inLoop .total rfl, .data⟩,
    ⟨inLoop .i rfl, inLoop .total rfl, .data⟩, ⟨inLoop .total rfl, inLoop .store rfl, .data⟩,
    ⟨inLoop .store rfl, inLoop .store rfl, .memory⟩] ++
      instructions.map fun I => ⟨inLoop .branch rfl, I, .control⟩
  instructions_complete := mem_instructions
  nodes_complete scc := by cases scc <;> decide
  isTerminator I := I.1 = .branch
  hasLoopExitSuccessor I := I.1 = .branch
  supportedSize _ := true
  controls_terminator := by decide
  acyclic _ hcycle := Nat.lt_irrefl _ (SCCDAG.rank_lt_of_reaches rank (by decide) hcycle)

/-- A stage that counts, and one that adds and stores. -/
def partition : Partition SumSCC (fun _ => false) where
  depthOrderedSets := [[.count], [.sum, .store]]
  remaining _ _ _ _ := rfl
  covers scc _ := by cases scc <;> decide
  nonempty := by decide
  disjoint := by simp

/-- The queues of the loop. -/
def queues : QueueState program.LoopInst :=
  (collectQueueInfo loop partition).get (by decide +kernel)

/-- Only the block of the loop has instructions of it. -/
theorem branch_eq {B : SumBlock} (hB : B ∈ program.basicBlocks) :
    program.loopTerminator B hB = inLoop .branch rfl := by
  obtain rfl := List.mem_singleton.mp hB
  rfl

/-- What holds of each instruction in the list holds of all. -/
theorem for_all {p : program.LoopInst → Prop} (h : ∀ I ∈ instructions, p I)
    (I : program.LoopInst) : p I := h I (mem_instructions I)

/-- The branch controls all instructions. -/
theorem controls (I : program.LoopInst) : ⟨inLoop .branch rfl, I, .control⟩ ∈ loop.edges :=
  List.mem_append_right _ (List.mem_map_of_mem (mem_instructions I))

/-- What a PHI takes from the block before is a dependence. -/
theorem incoming_dependence (I : program.LoopInst) (pred : Option SumBlock) (P : SumInst)
    (h : program.incoming I.1 pred = .inl P) :
    ∃ producer : program.LoopInst, producer.1 = P ∧ ⟨producer, I, .data⟩ ∈ loop.edges := by
  have hall : ∀ I ∈ instructions, ∀ pred ∈ [none, some SumBlock.body, some .after],
      ∀ P ∈ (program.incoming I.1 pred).getLeft?, ∃ producer ∈ instructions,
        producer.1 = P ∧ ⟨producer, I, .data⟩ ∈ loop.edges := by decide
  have hpred : pred ∈ [none, some SumBlock.body, some .after] := by
    cases pred with
    | none => decide
    | some B => cases B <;> decide
  obtain ⟨producer, -, hproducer⟩ := for_all hall I pred hpred P (by rw [h]; rfl)
  exact ⟨producer, hproducer⟩

/-- The dependences are those of the loop. -/
theorem graph : DependenceGraph program loop where
  instructions := for_all (by decide)
  components scc := by
    cases scc with
    | count => exact ⟨inLoop .i rfl, rfl⟩
    | sum => exact ⟨inLoop .sum rfl, rfl⟩
    | store => exact ⟨inLoop .store rfl, rfl⟩
  operands I P hP := by
    have h : ∀ I ∈ instructions, ∀ P ∈ program.operands I.1, ∃ producer ∈ instructions,
      producer.1 = P ∧ ⟨producer, I, .data⟩ ∈ loop.edges := by decide
    obtain ⟨producer, -, hproducer⟩ := for_all h I P hP
    exact ⟨producer, hproducer⟩
  incoming := incoming_dependence
  values producer consumer hdata := by
    have h : ∀ edge ∈ loop.edges, edge.kind = .data →
      edge.src.1 ≠ program.terminator (program.parent edge.src.1) := by decide
    exact h _ hdata rfl
  control branch hbranch I _ := branch_eq hbranch ▸ controls I
  phis I _ _ _ _ branch hbranch _ := .single ⟨_, branch_eq hbranch ▸ controls I, rfl, rfl, rfl⟩
  conditions branch hbranch _ _ _ := by
    rw [branch_eq]
    exact ⟨inLoop .test rfl, by decide⟩
  terminators := for_all (by decide)
  exits B hB := by
    obtain rfl := List.mem_singleton.mp hB
    exact iff_of_true rfl ⟨.after, by decide⟩
  memory I J region hI hJ := by
    have h : ∀ I ∈ instructions, program.region I.1 ≠ none → I = inLoop .store rfl := by decide
    rw [for_all h I (by rw [hI]; exact nofun), for_all h J (by rw [hJ]; exact nofun)]
    exact .refl _
  accesses I J hmemory := by
    have h : ∀ edge ∈ loop.edges, edge.kind = .memory → program.region edge.src.1 = some () ∧
      program.region edge.dst.1 = some () := by decide
    exact ⟨(), h _ hmemory rfl⟩
  branches := by decide

/-- The stages are ordered. -/
theorem topological : Topological loop partition := by
  have hstage : ∀ {scc stage}, scc ∈ partition.stageSCCs stage →
      stage = if scc = .count then 0 else 1 := fun {scc _} h =>
    partition.stage_unique h (by cases scc <;> decide)
  intro fromSCC toSCC fromStage toStage hthrough hfrom hto
  have hrank : rank fromSCC < rank toSCC :=
    SCCDAG.rank_lt_of_reaches rank (by decide) hthrough.reaches
  rw [hstage hfrom, hstage hto]
  cases fromSCC with
  | count => exact Nat.zero_le _
  | sum | store =>
      cases toSCC with
      | count => exact absurd hrank (Nat.not_lt_zero _)
      | sum | store => decide

/-- DSWP applied to the loop. -/
def applied : Applied SumInst SumBlock Nat Unit Nat SumSCC where
  program
  loop
  canBeCloned := fun _ => false
  partition
  environment := ⟨[0], fun _ => inLoop .total rfl⟩
  state := queues
  graph
  left_for_good :=
    { connected := fun B hB other hother => by
        obtain rfl := List.mem_singleton.mp hB
        obtain rfl := List.mem_singleton.mp hother
        exact .single ⟨hB, by decide⟩
      leaves := fun B _ exit _ houtside => by
        cases exit with
        | body => exact absurd (List.mem_singleton_self _) houtside
        | after => exact ⟨.after, rfl, .refl⟩ }
  topological
  cloned _ h := by cases h
  collected := (Option.some_get _).symm

/-- The first stage runs to the end, and then the second one. -/
def final : applied.pipeline.PipelineState :=
  applied.pipeline.runStages (List.replicate 16 0 ++ List.replicate 20 1)
    applied.pipeline.initialState

/-- The loop is left after two visits. -/
theorem leaves : applied.program.LeavesAt 2 := by
  unfold LoopProgram.LeavesAt
  decide

/-- No stage can move after the order. -/
theorem stuck (stage : Nat) (next : applied.pipeline.PipelineState) :
    ¬ applied.pipeline.system.Step final stage next := by
  intro ⟨hstage, hstep⟩
  have hnone : ∀ stage < 2, (applied.pipeline.stepStage stage final).isNone := by decide +kernel
  have hnot := hnone stage hstage
  rw [hstep] at hnot
  cases hnot

/-- The run ends with the sum of the loop in the memory and in the live-out variable. -/
theorem runs_as_loop : final.memory () = 1 ∧ (final.stages 1).stored .total = some 1 := by
  have hreachable : applied.pipeline.system.Reachable final :=
    run_stages_reachable (by decide) (.initial rfl)
  obtain ⟨past, hrun⟩ := hreachable.has_run
  obtain ⟨hmemory, -, hstages⟩ := (applied_runs_as_loop applied leaves hrun).2 stuck
  refine ⟨by rw [hmemory]; decide, ?_⟩
  obtain ⟨-, -, hstored⟩ := hstages 1 (by decide)
  exact (hstored .total (by decide) (.inl (by decide))).trans (by decide)

end StoredSum

end Gino.Dswp
