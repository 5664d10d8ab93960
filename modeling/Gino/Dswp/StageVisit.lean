import Gino.Dswp.Pipeline

/-!
# A stage visits a block

`Completes target code values memory` says that a stage that runs the rest of a block, and pops what
the sequential loop has after the block, pushes what the loop has and ends with what it needs of the
state `target`. A stage of a wired pipeline that agrees with the loop before a block completes the
code of the block (`completes_stage_code`).
-/

namespace Gino.Dswp.Pipeline

open Relation Graph Machine

variable {Inst Block Value Region Content : Type*}
  (pipeline : Pipeline Inst Block Value Region Content) [DecidableEq Inst]

/-- Stages that have what they need: producers in the stage or from a queue, the branches that
control its instructions, what it pops and what its PHIs take, and memory dependences inside one
stage. -/
structure Closed : Prop where
  subset : ∀ stage < pipeline.numTaskInstances, pipeline.toLoopCFG.Closed (pipeline.subset stage)
  operands : ∀ stage < pipeline.numTaskInstances, ∀ I ∈ pipeline.subset stage,
    ∀ P ∈ pipeline.operands I, pipeline.Holds stage P
  incoming : ∀ stage < pipeline.numTaskInstances, ∀ I ∈ pipeline.subset stage,
    ∀ pred P, pipeline.incoming I pred = .inl P → pipeline.Holds stage P
  phis : ∀ stage < pipeline.numTaskInstances, ∀ B, ∀ I ∈ pipeline.phis B,
    I ∈ pipeline.subset stage → ∀ pred ∈ pipeline.basicBlocks, B ∈ pipeline.successors pred →
      pipeline.Controlled (pipeline.subset stage) pred
  pops : ∀ stage < pipeline.numTaskInstances, ∀ queue ∈ pipeline.popQueues stage,
    pipeline.Controlled (pipeline.subset stage) (pipeline.parent (pipeline.producer queue))
  pushes : ∀ stage < pipeline.numTaskInstances, ∀ queue ∈ pipeline.pushQueues stage,
    pipeline.Holds stage (pipeline.producer queue)
  liveOuts : ∀ stage < pipeline.numTaskInstances, ∀ P ∈ pipeline.liveOuts stage,
    pipeline.Holds stage P
  /-- What a queue carries is the value of a PHI or of another instruction of a block. -/
  producers : ∀ queue, pipeline.producer queue ∈
    pipeline.phis (pipeline.parent (pipeline.producer queue)) ++
      pipeline.body (pipeline.parent (pipeline.producer queue))
  stages : ∀ queue : pipeline.Queue, (pipeline.queues.get queue).fromStage <
    pipeline.numTaskInstances ∧ (pipeline.queues.get queue).toStage < pipeline.numTaskInstances
  /-- Instructions with a memory dependence are in one stage. -/
  regions : ∀ stage < pipeline.numTaskInstances, ∀ other < pipeline.numTaskInstances,
    ∀ I ∈ pipeline.subset stage, ∀ J ∈ pipeline.subset other, ∀ region,
      pipeline.region I = some region → pipeline.region J = some region → stage = other
  /-- Every instruction of the loop is in a stage. -/
  complete : ∀ B ∈ pipeline.basicBlocks,
    ∀ I ∈ pipeline.phis B ++ pipeline.body B ++ [pipeline.terminator B],
      ∃ stage < pipeline.numTaskInstances, I ∈ pipeline.subset stage

/-- A region that the instructions of a stage access. -/
def Owns (stage : Nat) (region : Region) : Prop :=
  ∃ I ∈ pipeline.subset stage, pipeline.region I = some region

/-- The same of stages that may leave out instructions of the loop, except those that access a
region of a stage. -/
structure Wired : Prop where
  subset : ∀ stage < pipeline.numTaskInstances, pipeline.toLoopCFG.Closed (pipeline.subset stage)
  operands : ∀ stage < pipeline.numTaskInstances, ∀ I ∈ pipeline.subset stage,
    ∀ P ∈ pipeline.operands I, pipeline.Holds stage P
  incoming : ∀ stage < pipeline.numTaskInstances, ∀ I ∈ pipeline.subset stage,
    ∀ pred P, pipeline.incoming I pred = .inl P → pipeline.Holds stage P
  phis : ∀ stage < pipeline.numTaskInstances, ∀ B, ∀ I ∈ pipeline.phis B,
    I ∈ pipeline.subset stage → ∀ pred ∈ pipeline.basicBlocks, B ∈ pipeline.successors pred →
      pipeline.Controlled (pipeline.subset stage) pred
  pops : ∀ stage < pipeline.numTaskInstances, ∀ queue ∈ pipeline.popQueues stage,
    pipeline.Controlled (pipeline.subset stage) (pipeline.parent (pipeline.producer queue))
  pushes : ∀ stage < pipeline.numTaskInstances, ∀ queue ∈ pipeline.pushQueues stage,
    pipeline.Holds stage (pipeline.producer queue)
  liveOuts : ∀ stage < pipeline.numTaskInstances, ∀ P ∈ pipeline.liveOuts stage,
    pipeline.Holds stage P
  producers : ∀ queue, pipeline.producer queue ∈
    pipeline.phis (pipeline.parent (pipeline.producer queue)) ++
      pipeline.body (pipeline.parent (pipeline.producer queue))
  stages : ∀ queue : pipeline.Queue, (pipeline.queues.get queue).fromStage <
    pipeline.numTaskInstances ∧ (pipeline.queues.get queue).toStage < pipeline.numTaskInstances
  regions : ∀ stage < pipeline.numTaskInstances, ∀ other < pipeline.numTaskInstances,
    ∀ I ∈ pipeline.subset stage, ∀ J ∈ pipeline.subset other, ∀ region,
      pipeline.region I = some region → pipeline.region J = some region → stage = other
  owners : ∀ stage < pipeline.numTaskInstances, ∀ region, pipeline.Owns stage region →
    ∀ B ∈ pipeline.basicBlocks, ∀ I ∈ pipeline.body B, pipeline.region I = some region →
      I ∈ pipeline.subset stage

variable {pipeline} in
/-- A closed pipeline is wired. -/
theorem Closed.wired (hclosed : pipeline.Closed) : pipeline.Wired where
  subset := hclosed.subset
  operands := hclosed.operands
  incoming := hclosed.incoming
  phis := hclosed.phis
  pops := hclosed.pops
  pushes := hclosed.pushes
  liveOuts := hclosed.liveOuts
  producers := hclosed.producers
  stages := hclosed.stages
  regions := hclosed.regions
  owners stage hstage region howns B hB I hI hregion := by
    obtain ⟨J, hJ, hJregion⟩ := howns
    obtain ⟨other, hother, hsubset⟩ := hclosed.complete B hB I (by simp [hI])
    rw [hclosed.regions stage hstage other hother J hJ I hsubset region hJregion hregion]
    exact hsubset

/-- What holds of wired pipelines holds of closed ones. -/
instance : Coe pipeline.Closed pipeline.Wired := ⟨Closed.wired⟩

/-- What a stage has is as in a state of the sequential loop. -/
structure Agrees (stage : Nat) (values : pipeline.StageInstruction → Value)
    (memory : Region → Content) (target : LoopState Inst Block Value Region Content) : Prop where
  originals : ∀ I ∈ pipeline.subset stage, values (.original I) = target.values I
  pops : ∀ queue ∈ pipeline.popQueues stage,
    values (.pop queue) = target.values (pipeline.producer queue)
  memory : ∀ region, pipeline.Owns stage region → memory region = target.memory region

variable {pipeline} {stage : Nat}

/-- The operands of a stage that agrees with the loop are those of the loop. -/
theorem Agrees.cloned_values {values : pipeline.StageInstruction → Value}
    {memory : Region → Content} {target : LoopState Inst Block Value Region Content}
    (h : pipeline.Agrees stage values memory target) {P : Inst} (hholds : pipeline.Holds stage P) :
    pipeline.clonedValues stage values P = target.values P := by
  unfold clonedValues
  rcases clone_cases hholds with ⟨hsubset, hclone⟩ | ⟨queue, hqueue, rfl, hclone⟩
  · rw [hclone, h.originals P hsubset]
  · rw [hclone, h.pops queue hqueue]

omit [DecidableEq Inst] in
/-- A stage agrees with any state that has the same of what it needs. -/
theorem Agrees.congr {values : pipeline.StageInstruction → Value} {memory : Region → Content}
    {target other : LoopState Inst Block Value Region Content}
    (h : pipeline.Agrees stage values memory target)
    (hvalues : ∀ P, pipeline.Holds stage P → other.values P = target.values P)
    (hmemory : ∀ region, pipeline.Owns stage region → other.memory region = target.memory region) :
    pipeline.Agrees stage values memory other where
  originals I hI := (h.originals I hI).trans (hvalues I (.inl hI)).symm
  pops queue hqueue :=
    (h.pops queue hqueue).trans (hvalues _ (.inr ⟨queue, hqueue, rfl⟩)).symm
  memory region howns := (h.memory region howns).trans (hmemory region howns).symm

variable [DecidableEq Region]

variable (pipeline) in
/-- What a stage does with the rest of a block, if it pops the values that the loop has after the
block, is what the loop does. -/
def Completes (stage : Nat) (target : LoopState Inst Block Value Region Content) :
    List pipeline.StageInstruction → (pipeline.StageInstruction → Value) →
      (Region → Content) → Prop
  | [], values, memory => pipeline.Agrees stage values memory target
  | .original I :: code, values, memory =>
      let arguments := pipeline.arguments stage values I
      Completes stage target code
        (Function.update values (.original I) (pipeline.value I arguments memory))
        (pipeline.effect I arguments memory)
  | .pop queue :: code, values, memory =>
      Completes stage target code
        (Function.update values (.pop queue) (target.values (pipeline.producer queue))) memory
  | .push queue :: code, values, memory =>
      pipeline.clonedValues stage values (pipeline.producer queue) =
        target.values (pipeline.producer queue) ∧ Completes stage target code values memory

/-- What the other stages do to the memory does not matter. -/
theorem Completes.congr {target : LoopState Inst Block Value Region Content}
    {code : List pipeline.StageInstruction} {values : pipeline.StageInstruction → Value}
    {memory other : Region → Content} (h : pipeline.Completes stage target code values memory)
    (hcode : ∀ I, .original I ∈ code → I ∈ pipeline.subset stage)
    (hmemory : ∀ region, pipeline.Owns stage region → other region = memory region) :
    pipeline.Completes stage target code values other := by
  induction code generalizing values memory other with
  | nil =>
      exact ⟨h.originals, h.pops, fun region howns =>
        (hmemory region howns).trans (h.memory region howns)⟩
  | cons I code ih =>
      have hcode' : ∀ I, .original I ∈ code → I ∈ pipeline.subset stage := fun I hI =>
        hcode I (List.mem_cons_of_mem _ hI)
      cases I with
      | original I =>
          have hI := hcode I List.mem_cons_self
          have hvalue : pipeline.value I (pipeline.arguments stage values I) other =
              pipeline.value I (pipeline.arguments stage values I) memory :=
            LoopProgram.value_congr (fun own hown => hmemory own ⟨I, hI, hown⟩) _
          unfold Completes
          dsimp only
          rw [hvalue]
          exact ih h hcode' fun region howns =>
            LoopProgram.effect_congr I (hmemory region howns) _
      | pop queue => exact ih h hcode' hmemory
      | push queue => exact ⟨h.1, ih h.2 hcode' hmemory⟩

namespace Wired

/-- Instructions that are not in a stage do not change what it needs. -/
theorem foldl_skip (hwired : pipeline.Wired) (hstage : stage < pipeline.numTaskInstances)
    {B : Block} (hB : B ∈ pipeline.basicBlocks) {skip : List Inst}
    (hbody : ∀ I ∈ skip, I ∈ pipeline.body B) (hskip : ∀ I ∈ skip, I ∉ pipeline.subset stage)
    (state : (Inst → Value) × (Region → Content)) :
    (∀ I ∈ pipeline.subset stage, (skip.foldl pipeline.execute state).1 I = state.1 I) ∧
      ∀ region, pipeline.Owns stage region →
        (skip.foldl pipeline.execute state).2 region = state.2 region := by
  refine ⟨fun I hI => ?_, fun region howns => ?_⟩
  · exact LoopProgram.values_foldl_execute (fun hmem => hskip I hmem hI) state
  · exact LoopProgram.memory_foldl_execute (fun I hI hregion =>
      hskip I hI (hwired.owners stage hstage region howns B hB I (hbody I hI) hregion)) state

end Wired

variable {B : Block} {target : LoopState Inst Block Value Region Content}

/-- A stage that is where the loop is in a block. It has still to pop `pops`, and the loop has still
to execute `todo`. -/
structure InStep (stage : Nat) (B : Block) (target : LoopState Inst Block Value Region Content)
    (code : List pipeline.StageInstruction) (pops : List pipeline.Queue) (todo : List Inst)
    (values : pipeline.StageInstruction → Value) (memory : Region → Content)
    (state : (Inst → Value) × (Region → Content)) : Prop where
  reaches : todo.foldl pipeline.execute state = (target.values, target.memory)
  suffix : todo <:+ pipeline.body B
  others : code.filter (fun I => !I.isPush) = pops.map .pop ++
    (todo.filter fun I => I ∈ pipeline.subset stage).map .original
  after_clone : code.Pairwise fun first later => ∀ queue, first = .push queue →
    later ≠ pipeline.getCloneOfOriginalInstruction stage (pipeline.producer queue)
  pushes : ∀ queue, .push queue ∈ code → queue ∈ pipeline.pushQueues stage
  originals : ∀ I ∈ pipeline.subset stage, values (.original I) = state.1 I
  popped : ∀ queue ∈ pipeline.popQueues stage, queue ∉ pops →
    values (.pop queue) = target.values (pipeline.producer queue)
  memory_eq : ∀ region, pipeline.Owns stage region → memory region = state.2 region

namespace InStep

variable {code : List pipeline.StageInstruction} {pops : List pipeline.Queue} {todo : List Inst}
  {values : pipeline.StageInstruction → Value} {memory : Region → Content}
  {state : (Inst → Value) × (Region → Content)}

/-- An instruction that the loop has still to execute in the stage is in the code. -/
theorem original_mem (h : InStep stage B target code pops todo values memory state) {I : Inst}
    (hI : I ∈ todo) (hsubset : I ∈ pipeline.subset stage) : .original I ∈ code := by
  have hmem : StageInst.original I ∈ code.filter fun I => !I.isPush := by
    rw [h.others]
    exact List.mem_append_right _ (List.mem_map_of_mem (List.mem_filter.mpr
      ⟨hI, decide_eq_true hsubset⟩))
  exact List.mem_of_mem_filter hmem

/-- A queue that the stage has still to pop is in the code. -/
theorem pop_mem (h : InStep stage B target code pops todo values memory state)
    {queue : pipeline.Queue} (hqueue : queue ∈ pops) : .pop queue ∈ code := by
  have hmem : StageInst.pop queue ∈ code.filter fun I => !I.isPush := by
    rw [h.others]
    exact List.mem_append_left _ (List.mem_map_of_mem hqueue)
  exact List.mem_of_mem_filter hmem

/-- What the loop does not execute any more is as after the block. -/
theorem state_eq (h : InStep stage B target code pops todo values memory state) {P : Inst}
    (hP : P ∉ todo) : state.1 P = target.values P := by
  rw [← LoopProgram.values_foldl_execute hP state, h.reaches]

/-- A clone that does not come any more has the value after the block. -/
theorem cloned_value_eq (h : InStep stage B target code pops todo values memory state) {P : Inst}
    (hholds : pipeline.Holds stage P)
    (hclone : pipeline.getCloneOfOriginalInstruction stage P ∉ code) :
    pipeline.clonedValues stage values P = target.values P := by
  unfold clonedValues
  rcases clone_cases hholds with ⟨hsubset, heq⟩ | ⟨queue, hqueue, rfl, heq⟩
  · rw [heq] at hclone ⊢
    rw [h.originals P hsubset, h.state_eq fun hmem => hclone (h.original_mem hmem hsubset)]
  · rw [heq] at hclone ⊢
    exact h.popped queue hqueue fun hmem => hclone (h.pop_mem hmem)

/-- At the end of the code of a block the stage agrees with the loop. -/
theorem agrees (h : InStep stage B target [] pops todo values memory state)
    (hwired : pipeline.Wired) (hstage : stage < pipeline.numTaskInstances)
    (hB : B ∈ pipeline.basicBlocks) : pipeline.Agrees stage values memory target := by
  have hskip : ∀ I ∈ todo, I ∉ pipeline.subset stage := fun I hI hsubset =>
    absurd (h.original_mem hI hsubset) List.not_mem_nil
  obtain ⟨hvalues, hmemory⟩ := hwired.foldl_skip hstage hB (fun I hI => h.suffix.subset hI) hskip
    state
  rw [h.reaches] at hvalues hmemory
  refine ⟨fun I hI => ?_, fun queue hqueue => ?_, fun region howns => ?_⟩
  · exact (h.originals I hI).trans (hvalues I hI).symm
  · exact h.popped queue hqueue fun hmem => absurd (h.pop_mem hmem) List.not_mem_nil
  · exact (h.memory_eq region howns).trans (hmemory region howns).symm

/-- A push takes the value after the block. -/
theorem push {queue : pipeline.Queue}
    (h : InStep stage B target (.push queue :: code) pops todo values memory state)
    (hwired : pipeline.Wired) (hstage : stage < pipeline.numTaskInstances) :
    pipeline.clonedValues stage values (pipeline.producer queue) =
        target.values (pipeline.producer queue) ∧
      InStep stage B target code pops todo values memory state := by
  obtain ⟨hclone, hafter⟩ := List.pairwise_cons.mp h.after_clone
  have hrest : InStep stage B target code pops todo values memory state :=
    ⟨h.reaches, h.suffix, h.others, hafter, fun other hother =>
      h.pushes other (List.mem_cons_of_mem _ hother), h.originals, h.popped, h.memory_eq⟩
  refine ⟨hrest.cloned_value_eq ?_ fun hmem => hclone _ hmem queue rfl rfl, hrest⟩
  exact hwired.pushes stage hstage queue (h.pushes queue List.mem_cons_self)

/-- A pop gives the value after the block. -/
theorem pop {queue : pipeline.Queue}
    (h : InStep stage B target (.pop queue :: code) pops todo values memory state) :
    ∃ pops', InStep stage B target code pops' todo
      (Function.update values (.pop queue) (target.values (pipeline.producer queue))) memory
        state := by
  have hothers := h.others
  rw [List.filter_cons_of_pos rfl] at hothers
  cases pops with
  | nil =>
      -- Instructions of the loop do not come before a pop.
      rw [List.map_nil, List.nil_append] at hothers
      obtain ⟨I, -, heq⟩ := List.mem_map.mp (hothers ▸ List.mem_cons_self)
      cases heq
  | cons first pops =>
      obtain ⟨hfirst, hrest⟩ := List.cons_eq_cons.mp hothers
      cases hfirst
      refine ⟨pops, h.reaches, h.suffix, hrest, (List.pairwise_cons.mp h.after_clone).2,
        fun other hother => h.pushes other (List.mem_cons_of_mem _ hother), fun I hI => ?_,
        fun other hother hmem => ?_, h.memory_eq⟩
      · rw [Function.update_of_ne (by simp)]
        exact h.originals I hI
      · by_cases heq : other = queue
        · rw [heq, Function.update_self]
        · rw [Function.update_of_ne (by simpa using heq)]
          exact h.popped other hother fun hin => hmem ((List.mem_cons.mp hin).resolve_left heq)

/-- The stage executes an instruction as the loop does, after those that are not in the stage. -/
theorem execute {I : Inst}
    (h : InStep stage B target (.original I :: code) pops todo values memory state)
    (hwired : pipeline.Wired) (hstage : stage < pipeline.numTaskInstances)
    (hB : B ∈ pipeline.basicBlocks) : ∃ todo' state', InStep stage B target code [] todo'
      (Function.update values (.original I)
        (pipeline.value I (pipeline.arguments stage values I) memory))
      (pipeline.effect I (pipeline.arguments stage values I) memory) state' := by
  have hothers := h.others
  rw [List.filter_cons_of_pos rfl] at hothers
  cases pops with
  | cons first pops =>
      obtain ⟨hfirst, -⟩ := List.cons_eq_cons.mp hothers
      cases hfirst
  | nil =>
      rw [List.map_nil, List.nil_append] at hothers
      obtain ⟨first, rest, hfilter, hfirst, hrest⟩ := List.map_eq_cons_iff.mp hothers.symm
      cases hfirst
      obtain ⟨skip, todo', rfl, hskip, hI, rfl⟩ := List.filter_eq_cons_iff.mp hfilter
      have hsubset : I ∈ pipeline.subset stage := of_decide_eq_true hI
      have hskip' : ∀ J ∈ skip, J ∉ pipeline.subset stage := fun J hJ hin =>
        hskip J hJ (decide_eq_true hin)
      obtain ⟨hvalues, hmemory⟩ := hwired.foldl_skip hstage hB
        (fun J hJ => h.suffix.subset (List.mem_append_left _ hJ)) hskip' state
      have hreaches := h.reaches
      rw [List.foldl_append] at hreaches
      generalize skip.foldl pipeline.execute state = aligned at hvalues hmemory hreaches
      -- The operands are not executed any more in the block.
      have harguments : pipeline.arguments stage values I =
          (pipeline.operands I).map aligned.1 := by
        refine List.map_congr_left fun P hP => ?_
        obtain ⟨done, hdone⟩ := h.suffix
        have hlater : P ∉ I :: todo' :=
          pipeline.defined_before B (done ++ skip) I todo' (by rw [← hdone, List.append_assoc]) P hP
        unfold clonedValues
        rcases clone_cases (hwired.operands stage hstage I hsubset P hP) with
          ⟨hPsubset, heq⟩ | ⟨queue, hqueue, rfl, heq⟩
        · rw [heq, h.originals P hPsubset, hvalues P hPsubset]
        · rw [heq, h.popped queue hqueue List.not_mem_nil,
            ← LoopProgram.values_foldl_execute hlater aligned, hreaches]
      have hown : ∀ region, pipeline.Owns stage region → memory region = aligned.2 region :=
        fun region howns => (h.memory_eq region howns).trans (hmemory region howns).symm
      refine ⟨todo', pipeline.execute aligned I, hreaches,
        (List.suffix_append_of_suffix (List.suffix_cons I todo')).trans h.suffix, hrest.symm,
        (List.pairwise_cons.mp h.after_clone).2, fun other hother =>
          h.pushes other (List.mem_cons_of_mem _ hother), fun J hJ => ?_,
        fun queue hqueue _ => ?_, fun region howns => ?_⟩
      · by_cases heq : J = I
        · subst heq
          rw [Function.update_self, LoopProgram.execute_self, harguments]
          exact LoopProgram.value_congr (fun own hregion => hown own ⟨J, hJ, hregion⟩) _
        · rw [Function.update_of_ne (by simpa using heq), LoopProgram.execute_of_ne _ heq,
            h.originals J hJ, hvalues J hJ]
      · rw [Function.update_of_ne (by simp)]
        exact h.popped queue hqueue List.not_mem_nil
      · rw [harguments]
        exact LoopProgram.effect_congr I (hown region howns) _

/-- A stage in step with the loop completes its code. -/
theorem completes (h : InStep stage B target code pops todo values memory state)
    (hwired : pipeline.Wired) (hstage : stage < pipeline.numTaskInstances)
    (hB : B ∈ pipeline.basicBlocks) : pipeline.Completes stage target code values memory := by
  induction code generalizing pops todo values memory state with
  | nil => exact h.agrees hwired hstage hB
  | cons I code ih =>
      cases I with
      | original I =>
          obtain ⟨todo', state', hstep⟩ := h.execute hwired hstage hB
          exact ih hstep
      | pop queue =>
          obtain ⟨pops', hstep⟩ := h.pop
          exact ih hstep
      | push queue =>
          obtain ⟨hvalue, hstep⟩ := h.push hwired hstage
          exact ⟨hvalue, ih hstep⟩

end InStep

variable [DecidableEq Block] {values : pipeline.StageInstruction → Value}
  {memory : Region → Content} {state : LoopState Inst Block Value Region Content}

omit [DecidableEq Region] [DecidableEq Block] in
/-- A PHI of a stage takes what it takes in the loop. -/
theorem Agrees.phi_value (h : pipeline.Agrees stage values memory state) (hwired : pipeline.Wired)
    (hstage : stage < pipeline.numTaskInstances) {I : Inst} (hI : I ∈ pipeline.subset stage)
    (pred : Option Block) :
    pipeline.phiValue I pred (pipeline.clonedValues stage values) =
      pipeline.phiValue I pred state.values := by
  unfold LoopProgram.phiValue
  cases hincoming : pipeline.incoming I pred with
  | inl P => exact h.cloned_values (hwired.incoming stage hstage I hI pred P hincoming)
  | inr value => rfl

omit [DecidableEq Region] in
/-- The code of a block of a stage, which holds what its queues carry. -/
theorem Wired.placed_stage_code (hwired : pipeline.Wired)
    (hstage : stage < pipeline.numTaskInstances) (B : Block) :
    (pipeline.stageBlock stage B).takeWhile pipeline.isPHI = pipeline.phiClones stage B ∧
      pipeline.Placed stage B (pipeline.stageCode stage B) ∧
      ∀ queue, (pipeline.stageCode stage B).count (.push queue) =
        if queue ∈ pipeline.pushQueues stage ∧ pipeline.parent (pipeline.producer queue) = B
        then 1 else 0 :=
  Pipeline.placed_stage_code stage B fun queue hqueue =>
    ⟨hwired.pushes stage hstage queue hqueue, hwired.producers queue⟩

/-- After the PHIs of a block a stage is in step with the loop. -/
theorem Agrees.in_step (h : pipeline.Agrees stage values memory state) (hwired : pipeline.Wired)
    (hstage : stage < pipeline.numTaskInstances) (hB : state.block ∈ pipeline.basicBlocks)
    {pred : Option Block}
    (hpred : ∀ I ∈ pipeline.phis state.block, I ∈ pipeline.subset stage → pred = state.pred) :
    InStep stage state.block (pipeline.visit state) (pipeline.stageCode stage state.block)
      (pipeline.blockPops stage state.block) (pipeline.body state.block)
      (pipeline.enterStageBlock stage pred state.block values) memory
      (pipeline.enterBlock state.pred state.block state.values, state.memory) := by
  obtain ⟨hphis, hplaced, hcount⟩ := hwired.placed_stage_code hstage state.block
  refine ⟨?_, List.suffix_refl _, hplaced.others, hplaced.after_clone, fun queue hpush => ?_,
    fun I hI => ?_, fun queue hqueue hpop => ?_, h.memory⟩
  · unfold LoopProgram.visit
    rw [if_pos hB]
  · by_contra hnot
    have hzero := hcount queue
    rw [if_neg fun hand => hnot hand.1] at hzero
    exact List.count_eq_zero.mp hzero hpush
  · unfold enterStageBlock LoopProgram.enterBlock
    dsimp only
    have hmem : (StageInst.original I : pipeline.StageInstruction) ∈
        pipeline.phiClones stage state.block ↔ I ∈ pipeline.phis state.block := by
      unfold phiClones
      simp [hI]
    rw [hphis]
    by_cases hphi : I ∈ pipeline.phis state.block
    · rw [if_pos (hmem.mpr hphi), if_pos hphi, h.phi_value hwired hstage hI, hpred I hphi hI]
    · rw [if_neg fun hin => hphi (hmem.mp hin), if_neg hphi, h.originals I hI]
  · have hne : pipeline.parent (pipeline.producer queue) ≠ state.block := fun heq =>
      hpop (mem_block_pops.mpr ⟨hqueue, heq⟩)
    rw [LoopProgram.visit_values hne, ← h.pops queue hqueue]
    rfl

/-- A stage that agrees with the loop before a block completes the code of the block. -/
theorem Agrees.completes_stage_code (h : pipeline.Agrees stage values memory state)
    (hwired : pipeline.Wired) (hstage : stage < pipeline.numTaskInstances)
    (hB : state.block ∈ pipeline.basicBlocks) {pred : Option Block}
    (hpred : ∀ I ∈ pipeline.phis state.block, I ∈ pipeline.subset stage → pred = state.pred) :
    pipeline.Completes stage (pipeline.visit state) (pipeline.stageCode stage state.block)
      (pipeline.enterStageBlock stage pred state.block values) memory :=
  (h.in_step hwired hstage hB hpred).completes hwired hstage hB

omit [DecidableEq Region] in
/-- The instructions in the code of a stage are in its subset. -/
theorem mem_subset_of_code (hwired : pipeline.Wired) (hstage : stage < pipeline.numTaskInstances)
    {B : Block} {I : Inst} (h : .original I ∈ pipeline.stageCode stage B) :
    I ∈ pipeline.subset stage := by
  obtain ⟨-, hplaced, -⟩ := hwired.placed_stage_code hstage B
  have hmem : StageInst.original I ∈
      (pipeline.stageCode stage B).filter fun I => !I.isPush := List.mem_filter.mpr ⟨h, rfl⟩
  rw [hplaced.others] at hmem
  simp only [List.mem_append, List.mem_map, reduceCtorEq, and_false, exists_false, false_or,
    StageInst.original.injEq, exists_eq_right, List.mem_filter, decide_eq_true_eq] at hmem
  exact hmem.2

end Gino.Dswp.Pipeline
