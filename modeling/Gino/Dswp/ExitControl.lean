import Gino.Dswp.Acyclic
import Gino.Dswp.LoopProgram
import Gino.Dswp.SelfContained

/-!
# The branches that leave a loop

Where a function may end after a loop without coming back to it, a branch that leaves the loop
controls every instruction of it (`DependenceGraph.exit_controls`). Its component is then in every
stage or reaches it, so that the stages have what the branches that leave the loop depend on
(`DependenceGraph.exits_self_contained`), and these branches come first in a topological order
(`DependenceGraph.depth_ordered`).
-/

namespace Gino.Dswp

open Relation Graph Machine

/-! ## Control flow -/

namespace LoopCFG

variable {Inst Block : Type*} (cfg : LoopCFG Inst Block)

/-- A step from a block outside the loop. -/
def OutsideStep (B after : Block) : Prop := B ∉ cfg.basicBlocks ∧ after ∈ cfg.successors B

/-- The blocks of the loop come to each other, and the function may end after the loop without
coming back to it. -/
structure LeftForGood : Prop where
  connected : ∀ B ∈ cfg.basicBlocks, ∀ other ∈ cfg.basicBlocks, TransGen cfg.LoopStep B other
  leaves : ∀ B ∈ cfg.basicBlocks, ∀ exit ∈ cfg.successors B, exit ∉ cfg.basicBlocks →
    ∃ final, cfg.isFinal final = true ∧ ReflTransGen cfg.OutsideStep exit final

/-- The instructions of the loop. -/
abbrev LoopInst : Type _ := {I : Inst // cfg.parent I ∈ cfg.basicBlocks}

/-- The terminator of a block of the loop. -/
def loopTerminator (B : Block) (hB : B ∈ cfg.basicBlocks) : cfg.LoopInst :=
  ⟨cfg.terminator B, (cfg.parent_terminator B).symm ▸ hB⟩

variable {cfg}

/-- What the function comes to at its end without the loop is outside the loop. -/
theorem not_mem_of_outside_walk {path : List Block} {exit final B : Block}
    (h : Walk cfg.OutsideStep path exit final) (hfinal : cfg.isFinal final = true) (hB : B ∈ path) :
    B ∉ cfg.basicBlocks := by
  rcases (h.reaches_target hB).cases_head with rfl | ⟨after, hstep, -⟩
  · intro hloop
    rw [cfg.not_final B hloop] at hfinal
    cases hfinal
  · exact hstep.1

/-- No block of the loop post-dominates another one that leaves the loop. -/
theorem LeftForGood.not_post_dominates (h : cfg.LeftForGood) {B exit other : Block}
    (hB : B ∈ cfg.basicBlocks) (hexit : exit ∈ cfg.successors B) (houtside : exit ∉ cfg.basicBlocks)
    (hother : other ∈ cfg.basicBlocks) :
    ¬ StrictlyPostDominates (Successor cfg.successors) (fun final => cfg.isFinal final = true) other
      B := by
  intro ⟨hne, hpost⟩
  obtain ⟨final, hfinal, hreach⟩ := h.leaves B hB exit hexit houtside
  obtain ⟨path, hpath⟩ := exists_walk hreach
  have hwalk : Walk (Successor cfg.successors) path exit final :=
    ⟨hpath.chain.imp fun _ _ hstep => hstep.2, hpath.head, hpath.last⟩
  rcases List.mem_cons.mp (hpost final hfinal _ (hwalk.cons hexit)) with heq | hmem
  · exact hne heq
  · exact not_mem_of_outside_walk hpath hfinal hmem hother

/-- Every block of the loop depends on the control of the blocks that leave it. -/
theorem LeftForGood.controls (h : cfg.LeftForGood) {B exit other : Block}
    (hB : B ∈ cfg.basicBlocks) (hexit : exit ∈ cfg.successors B) (houtside : exit ∉ cfg.basicBlocks)
    (hother : other ∈ cfg.basicBlocks) :
    TransGen (fun branch node => branch ∈ cfg.basicBlocks ∧ cfg.ControlDependent branch node) B
      other := by
  obtain ⟨path, hpath⟩ := exists_walk_of_steps (h.connected B hB other hother)
  have hinside : ∀ node ∈ B :: path, node ∈ cfg.basicBlocks := fun _ hnode =>
    mem_basic_blocks_of_walk hpath hnode
  refine (walk_of_loop hpath).transitively_control_dependent path hinside fun node hnode => ?_
  refine h.not_post_dominates hB hexit houtside ?_
  rcases List.mem_append.mp hnode with hmem | hmem
  · exact hinside node (List.mem_cons_of_mem _ hmem)
  · exact List.mem_singleton.mp hmem ▸ hother

end LoopCFG

/-! ## Dependences -/

variable {Inst Block Value Region Content SCC : Type*}

/-- One instruction has a memory dependence on another. -/
def MemoryDependence {Inst : Type*} (dag : SCCDAG Inst SCC) (I J : Inst) : Prop :=
  ⟨I, J, .memory⟩ ∈ dag.edges

/-- The dependences of a loop have what instructions use, what the branches of the loop control, and
which accesses to the memory conflict, and the loop computes the conditions of these branches
(`conditions`). The last is a condition on the loop: a branch on a value from outside the loop has
no condition among the nodes, and `collectControlQueueInfo` skips it. -/
structure DependenceGraph (program : LoopProgram Inst Block Value Region Content)
    (loop : DswpLoop program.LoopInst SCC) : Prop where
  instructions : ∀ I : program.LoopInst, I.1 ∈ program.phis (program.parent I.1) ++
    program.body (program.parent I.1) ∨ I.1 = program.terminator (program.parent I.1)
  components : ∀ scc, ∃ I, loop.sccOfValue I = scc
  operands : ∀ I : program.LoopInst, ∀ P ∈ program.operands I.1,
    ∃ producer : program.LoopInst, producer.1 = P ∧ ⟨producer, I, .data⟩ ∈ loop.edges
  incoming : ∀ I : program.LoopInst, ∀ pred P, program.incoming I.1 pred = .inl P →
    ∃ producer : program.LoopInst, producer.1 = P ∧ ⟨producer, I, .data⟩ ∈ loop.edges
  /-- A terminator has no value. -/
  values : ∀ producer consumer, ⟨producer, consumer, .data⟩ ∈ loop.edges →
    producer.1 ≠ program.terminator (program.parent producer.1)
  control : ∀ branch (hbranch : branch ∈ program.basicBlocks), ∀ I : program.LoopInst,
    program.ControlDependent branch (program.parent I.1) →
      ⟨program.loopTerminator branch hbranch, I, .control⟩ ∈ loop.edges
  /-- A PHI depends on the branches that choose the block before it. -/
  phis : ∀ I : program.LoopInst, I.1 ∈ program.phis (program.parent I.1) →
    ∀ pred ∈ program.basicBlocks, program.parent I.1 ∈ program.successors pred →
      ∀ branch (hbranch : branch ∈ program.basicBlocks), program.ControlDependent branch pred →
        loop.TransitivelyControls (program.loopTerminator branch hbranch) I
  /-- The condition of a branch that controls something is computed in the loop. -/
  conditions : ∀ branch (hbranch : branch ∈ program.basicBlocks), ∀ node ∈ program.basicBlocks,
    program.ControlDependent branch node →
      HasCondition loop (program.loopTerminator branch hbranch)
  terminators : ∀ I, loop.isTerminator I = true → I.1 = program.terminator (program.parent I.1)
  exits : ∀ B (hB : B ∈ program.basicBlocks),
    loop.hasLoopExitSuccessor (program.loopTerminator B hB) = true ↔
      ∃ exit ∈ program.successors B, exit ∉ program.basicBlocks
  /-- Accesses to one region are connected by dependences. -/
  memory : ∀ I J : program.LoopInst, ∀ region, program.region I.1 = some region →
    program.region J.1 = some region → EqvGen (MemoryDependence loop.toSCCDAG) I J
  accesses : ∀ I J, MemoryDependence loop.toSCCDAG I J → ∃ region,
    program.region I.1 = some region ∧ program.region J.1 = some region
  branches : ∀ B ∈ program.basicBlocks, program.region (program.terminator B) = none

namespace DependenceGraph

variable {program : LoopProgram Inst Block Value Region Content}
  {loop : DswpLoop program.LoopInst SCC} {canBeCloned : SCC → Bool}
  {partition : Partition SCC canBeCloned}

/-- A terminator of the loop is that of its block. -/
theorem exists_block (hgraph : DependenceGraph program loop) {branch : program.LoopInst}
    (h : loop.isTerminator branch = true) :
    ∃ B, ∃ hB : B ∈ program.basicBlocks, branch = program.loopTerminator B hB :=
  ⟨program.parent branch.1, branch.2, Subtype.ext (hgraph.terminators branch h)⟩

/-- What depends on the control of a branch over others has dependences on it. -/
theorem transitively_controls (hgraph : DependenceGraph program loop) {branch node : Block}
    (hbranch : branch ∈ program.basicBlocks)
    (h : TransGen (fun branch node => branch ∈ program.basicBlocks ∧
      program.ControlDependent branch node) branch node) {I : program.LoopInst}
    (hI : program.parent I.1 = node) :
    loop.TransitivelyControls (program.loopTerminator branch hbranch) I := by
  induction h generalizing I with
  | single hdependent =>
      subst hI
      exact .single ⟨_, hgraph.control _ hbranch I hdependent.2, rfl, rfl, rfl⟩
  | @tail middle node _ hdependent ih =>
      subst hI
      exact (ih (I := program.loopTerminator middle hdependent.1)
        (program.parent_terminator middle)).tail
          ⟨_, hgraph.control _ hdependent.1 I hdependent.2, rfl, rfl, rfl⟩

/-- A branch that leaves the loop controls all instructions of it. -/
theorem exit_controls (hgraph : DependenceGraph program loop) (hleft : program.LeftForGood)
    {B : Block} (hB : B ∈ program.basicBlocks)
    (hexit : ∃ exit ∈ program.successors B, exit ∉ program.basicBlocks) (I : program.LoopInst) :
    loop.TransitivelyControls (program.loopTerminator B hB) I := by
  obtain ⟨exit, hsuccessor, houtside⟩ := hexit
  exact hgraph.transitively_controls hB (hleft.controls hB hsuccessor houtside I.2) rfl

/-- A branch that leaves the loop controls an instruction and has a condition. -/
theorem exit_conditional (hgraph : DependenceGraph program loop) (hleft : program.LeftForGood)
    {B : Block} (hB : B ∈ program.basicBlocks)
    (hexit : ∃ exit ∈ program.successors B, exit ∉ program.basicBlocks) :
    (∃ I, ⟨program.loopTerminator B hB, I, .control⟩ ∈ loop.edges) ∧
      HasCondition loop (program.loopTerminator B hB) := by
  obtain ⟨exit, hsuccessor, houtside⟩ := hexit
  obtain ⟨node, ⟨-, hdependent⟩, hrest⟩ :=
    TransGen.head'_iff.mp (hleft.controls hB hsuccessor houtside hB)
  have hnode : node ∈ program.basicBlocks := by
    rcases hrest.cases_head with rfl | ⟨after, hstep, -⟩
    · exact hB
    · exact hstep.1
  refine ⟨⟨program.loopTerminator node hnode, hgraph.control B hB _ ?_⟩,
    hgraph.conditions B hB node hnode hdependent⟩
  show program.ControlDependent B (program.parent (program.terminator node))
  rw [program.parent_terminator]
  exact hdependent

/-- The component of a branch that leaves the loop is in every stage or reaches it. -/
theorem exit_reaches_stage (hgraph : DependenceGraph program loop) (hleft : program.LeftForGood)
    {B : Block} (hB : B ∈ program.basicBlocks)
    (hexit : ∃ exit ∈ program.successors B, exit ∉ program.basicBlocks) {task : Nat}
    (htask : task < partition.numTaskInstances) :
    loop.sccOfValue (program.loopTerminator B hB) ∈ partition.stageSCCs task ∨
      ReachesStage loop.toSCCDAG partition (loop.sccOfValue (program.loopTerminator B hB))
        task := by
  obtain ⟨scc, hscc⟩ := partition.exists_mem_stage htask
  obtain ⟨I, rfl⟩ := hgraph.components scc
  rcases (hgraph.exit_controls hleft hB hexit I).reaches with heq | hreach
  · exact .inl (heq ▸ hscc)
  · exact .inr ⟨_, hscc, hreach⟩

/-- The stages have what the branches that leave the loop depend on. -/
theorem exits_self_contained (hgraph : DependenceGraph program loop)
    (hleft : program.LeftForGood) : ExitBranchesSelfContained loop partition := by
  intro task htask branch ⟨hbranch, hexit⟩ hnot
  obtain ⟨controlled, hcontrols⟩ := hbranch.controls
  obtain ⟨B, hB, rfl⟩ := hgraph.exists_block (loop.controls_terminator _ hcontrols rfl)
  have hreach :=
    (hgraph.exit_reaches_stage hleft hB ((hgraph.exits B hB).mp hexit) htask).resolve_left hnot
  refine ⟨fun producer hdata _ => reaches_stage_of_data hdata hreach, fun other _ hother => ?_⟩
  refine .inr (.inr ?_)
  rcases hother with hcontrols | ⟨condition, hdata, -, hcontrols⟩
  · exact reaches_stage_of_controls hcontrols hreach
  · exact reaches_stage_of_controls hcontrols (reaches_stage_of_data hdata hreach)

/-- The branches that leave the loop come first in a topological order. -/
theorem depth_ordered (hgraph : DependenceGraph program loop) (hleft : program.LeftForGood)
    (htopological : Topological loop partition) : DepthOrdered loop partition where
  topological := htopological
  exits_first branch scc fromStage toStage hterminator hexit hfrom hto := by
    obtain ⟨B, hB, rfl⟩ := hgraph.exists_block hterminator
    obtain ⟨I, rfl⟩ := hgraph.components scc
    rcases (hgraph.exit_controls hleft hB ((hgraph.exits B hB).mp hexit) I).reaches with
      heq | hreach
    · exact Nat.le_of_eq (partition.stage_unique hfrom (heq ▸ hto))
    · exact htopological.le_of_reaches hreach hfrom hto

end DependenceGraph

end Gino.Dswp
