import Gino.Dswp.Acyclic
import Gino.Dswp.PipelineRuns
import Gino.Dswp.StageProjection
import Mathlib.Algebra.BigOperators.Intervals
import Mathlib.Algebra.Order.BigOperators.Group.Finset

/-!
# A DSWP pipeline terminates

Where the queues go forward and the sequential loop is left, no interleaving of the stages gets
stuck: the first stage that has not left the loop can move, since the stages that push what it pops
have left (`pipeline_progress`). Each stage moves to later and later visits of the loop, so that no
interleaving is longer than the code of all visits in all stages, and the longest ones end with what
the sequential loop computes (`pipeline_terminates`).
-/

namespace Gino.Dswp.Pipeline

open Relation Graph Machine

variable {Inst Block Value Region Content : Type*}
  (pipeline : Pipeline Inst Block Value Region Content)

/-- Every queue goes to a later stage. -/
def QueuesForward : Prop :=
  ∀ queue : pipeline.Queue,
    (pipeline.queues.get queue).fromStage < (pipeline.queues.get queue).toStage

variable {pipeline} in
/-- The check of the source gives it, for the queues that were registered. -/
theorem queues_forward_of_acyclical {SCC : Type*} {canBeCloned : SCC → Bool}
    {partition : Partition SCC canBeCloned} {requests : List (QueueRequest Inst)}
    {queueState : QueueState Inst} (hregistered : Registered requests queueState)
    (hqueues : pipeline.queues = queueState.queues)
    (hstages : ∀ queue : pipeline.Queue,
      (pipeline.queues.get queue).fromStage < partition.numTaskInstances)
    (hchecked : areQueuesAcyclical partition queueState = true) : pipeline.QueuesForward := by
  intro queue
  unfold areQueuesAcyclical at hchecked
  simp only [List.all_eq_true, Bool.and_eq_true] at hchecked
  have hget : queueState.queues[queue.val]? = some (pipeline.queues.get queue) := by
    rw [← hqueues]
    exact List.getElem?_eq_getElem queue.isLt
  have hpush := (hregistered.pushes queue.val _).mpr ⟨_, hget, rfl⟩
  have hlater := (hchecked _ (List.mem_range.mpr (hstages queue))).1 queue.val hpush
  rw [hget, Option.any_some, decide_eq_true_eq] at hlater
  exact hlater

/-- The block that a stage is before or in, or that it left the loop to. -/
def Position.block {pipeline : Pipeline Inst Block Value Region Content} :
    pipeline.Position → Block
  | .entering _ B => B
  | .running B _ => B
  | .left exit => exit

variable [DecidableEq Inst] [DecidableEq Block]

/-- A stage came to its block by the control flow that the traversal gave it, and is in the loop
unless it left it. -/
structure OnPath (stage : Nat) (own : pipeline.StageState) : Prop where
  path : ReflTransGen (pipeline.StageStep (pipeline.subset stage) (pipeline.stageJumps stage))
    pipeline.header own.position.block
  inside : (∀ exit, own.position ≠ .left exit) → own.position.block ∈ pipeline.basicBlocks

variable [DecidableEq Region] {pipeline} {stage : Nat} {state next : pipeline.PipelineState}

/-! ## Where a stage goes next -/

omit [DecidableEq Region] in
/-- The terminator of a block goes along the control flow of the stage. -/
theorem stage_step_of_next_block {B after : Block}
    {values : pipeline.StageInstruction → Value} (hB : B ∈ pipeline.basicBlocks)
    (h : pipeline.nextBlock stage B values = some after) :
    pipeline.StageStep (pipeline.subset stage) (pipeline.stageJumps stage) B after := by
  unfold nextBlock at h
  cases hkeeps : pipeline.keeps (pipeline.subset stage) B with
  | true =>
      rw [hkeeps, if_pos rfl, Option.some.injEq] at h
      refine ⟨hB, pipeline.successors B, ?_, h ▸ pipeline.branch_mem B hB _⟩
      unfold LoopCFG.clonedSuccessors
      rw [hkeeps, if_pos rfl]
  | false =>
      rw [hkeeps, if_neg Bool.false_ne_true] at h
      refine ⟨hB, [after], ?_, List.mem_singleton_self after⟩
      unfold LoopCFG.clonedSuccessors
      rw [hkeeps, if_neg Bool.false_ne_true, h]
      rfl

omit [DecidableEq Region] in
/-- Where a stage is after the end of a block. -/
theorem position_go_to (B after : Block) (own : pipeline.StageState) :
    (pipeline.goTo stage B after own).position =
      if after ∈ pipeline.basicBlocks then .entering (some B) after else .left after := by
  unfold goTo
  dsimp only
  split
  · rfl
  · rfl

omit [DecidableEq Region] in
/-- A stage that goes on stays on its path. -/
theorem OnPath.go_to {own : pipeline.StageState} {B after : Block}
    (h : pipeline.OnPath stage own) (hposition : own.position = .running B [])
    (hnext : pipeline.nextBlock stage B own.values = some after) :
    pipeline.OnPath stage (pipeline.goTo stage B after own) := by
  have hB : B ∈ pipeline.basicBlocks := by
    have hinside := h.inside (by simp [hposition])
    rw [hposition] at hinside
    exact hinside
  have hpath := h.path
  rw [hposition] at hpath
  have hafter := hpath.tail (stage_step_of_next_block hB hnext)
  by_cases hloop : after ∈ pipeline.basicBlocks
  · refine ⟨?_, fun _ => ?_⟩
    · rw [position_go_to, if_pos hloop]
      exact hafter
    · rw [position_go_to, if_pos hloop]
      exact hloop
  · refine ⟨?_, fun hnot => absurd ?_ (hnot after)⟩
    · rw [position_go_to, if_neg hloop]
      exact hafter
    · rw [position_go_to, if_neg hloop]

/-- A stage stays on its path. -/
theorem OnPath.moves {own other : Nat} (h : pipeline.OnPath other (state.stages other))
    (hmoves : pipeline.Moves own state next) : pipeline.OnPath other (next.stages other) := by
  by_cases heq : other = own
  · subst heq
    have hsame : ∀ {B code position}, (state.stages other).position = position →
        position.block = B → (∀ exit, position ≠ .left exit) → ∀ values, pipeline.OnPath other
          { state.stages other with values, position := .running B code } := by
      intro B code position hposition hblock hnot values
      subst hposition hblock
      exact ⟨h.path, fun _ => h.inside hnot⟩
    cases hmoves with
    | enter _ _ hposition | execute _ _ _ hposition | pop _ _ _ _ _ hposition
    | push _ _ _ hposition =>
        dsimp only
        rw [Function.update_self]
        exact hsame hposition rfl (by simp) _
    | goTo B after hposition hnext =>
        dsimp only
        rw [Function.update_self]
        exact h.go_to hposition hnext
  · rw [hmoves.others heq]
    exact h

/-- In every reachable state the stages are on their paths. -/
theorem on_path_reachable (h : pipeline.system.Reachable state) (stage : Nat) :
    pipeline.OnPath stage (state.stages stage) := by
  refine h.invariant (fun state => pipeline.OnPath stage (state.stages stage)) ?_ ?_
  · intro first hfirst
    obtain rfl : first = pipeline.initialState := hfirst
    exact ⟨.refl, fun _ => pipeline.header_mem⟩
  · intro before other after hbefore hstep
    exact hbefore.moves (stage_moves hstep.2)

omit [DecidableEq Region] in
/-- A stage on its path has a place to go to from the end of a block: no block that it comes to was
left without a terminator. -/
theorem OnPath.exists_next {own : pipeline.StageState} {B : Block}
    (h : pipeline.OnPath stage own) (hwired : pipeline.Wired)
    (hstage : stage < pipeline.numTaskInstances) (hposition : own.position = .running B []) :
    ∃ after, pipeline.nextBlock stage B own.values = some after := by
  have hinside := h.inside (by simp [hposition])
  have hpath := h.path
  rw [hposition] at hinside hpath
  obtain ⟨jumps, visited, hjumps, hfound⟩ :=
    LoopCFG.exists_generate_loop_subset (hwired.subset stage hstage) (Nat.le_refl _)
  have hsame : pipeline.stageJumps stage = jumps := by
    unfold stageJumps
    rw [hjumps]
    rfl
  have hheader := hfound.header.resolve_left List.not_mem_nil
  rw [hsame] at hpath
  obtain ⟨successors, hsuccessors, -⟩ :=
    hfound.closed B (hfound.visited_of_reaches hheader hpath) hinside
  unfold LoopCFG.clonedSuccessors at hsuccessors
  unfold nextBlock
  cases hkeeps : pipeline.keeps (pipeline.subset stage) B with
  | true => exact ⟨_, if_pos rfl⟩
  | false =>
      rw [hkeeps, if_neg Bool.false_ne_true, Option.map_eq_some_iff] at hsuccessors
      obtain ⟨after, hlookup, -⟩ := hsuccessors
      rw [if_neg Bool.false_ne_true, hsame]
      exact ⟨after, hlookup⟩

/-! ## No interleaving gets stuck -/

/-- A queue whose producer stage has left the loop has what a stage is about to pop. -/
theorem Invariant.exists_pop (h : pipeline.Invariant state) (hwired : pipeline.Wired)
    {total : Nat} (hleaves : pipeline.LeavesAt total) {B : Block} {queue : pipeline.Queue}
    {code : List pipeline.StageInstruction} {n : Nat}
    (hinside : pipeline.Inside stage (state.stages stage) state.memory state.channels B
      (.pop queue :: code) n) (hqueue : queue ∈ pipeline.popQueues stage) {exit : Block}
    (hleft : (state.stages (pipeline.queues.get queue).fromStage).position = .left exit) :
    ∃ value channel, (state.channels queue).pop = some (value, channel) := by
  obtain ⟨k, hk, hafter⟩ :=
    (h.follows _ (hwired.stages queue).1).after_of_left hleft hleaves
  have hpushed : (state.channels queue).pushed = pipeline.executions (pipeline.producer queue) k :=
    (List.append_nil _).symm.trans (hafter.histories.pushed queue (mem_push_queues.mpr rfl))
  have hpopped := hinside.histories.popped queue hqueue
  have hlength := congrArg List.length hpopped
  have hle := (LoopProgram.executions_prefix_of_leaves (P := pipeline.producer queue) hk
    (n + 1)).length_le
  rw [← hpushed] at hle
  rw [List.length_append, List.length_replicate, List.count_cons_self] at hlength
  unfold Channel.pushed at hle
  rw [List.length_append] at hle
  unfold Channel.pop
  cases hcontents : (state.channels queue).contents with
  | nil =>
      rw [hcontents, List.length_nil] at hle
      omega
  | cons value rest => exact ⟨value, _, rfl⟩

/-- A stage can move when the earlier ones have left the loop. -/
theorem Invariant.can_step (h : pipeline.Invariant state) (hwired : pipeline.Wired)
    (hforward : pipeline.QueuesForward) {total : Nat} (hleaves : pipeline.LeavesAt total)
    (hpath : pipeline.OnPath stage (state.stages stage))
    (hstage : stage < pipeline.numTaskInstances)
    (hrunning : ∀ exit, (state.stages stage).position ≠ .left exit)
    (hearlier : ∀ other < stage, ∃ exit, (state.stages other).position = .left exit) :
    ∃ next, pipeline.stepStage stage state = some next := by
  unfold stepStage
  dsimp only
  cases h.follows stage hstage with
  | before pred B n hposition => exact ⟨_, by rw [hposition]⟩
  | after exit n hposition => exact absurd hposition (hrunning exit)
  | lost n hlost => exact absurd hleaves hlost.not_leaves
  | inside B code n hposition hB hinside =>
      rw [hposition]
      cases code with
      | nil =>
          obtain ⟨after, hafter⟩ := hpath.exists_next hwired hstage hposition
          dsimp only
          rw [hafter]
          exact ⟨_, rfl⟩
      | cons I code =>
          cases I with
          | original I => exact ⟨_, rfl⟩
          | push queue => exact ⟨_, rfl⟩
          | pop queue =>
              have hqueue := (hwired.queues_of_code hstage).2
                ((h.code stage B _ hposition).subset List.mem_cons_self)
              -- The stage that pushes is an earlier one, and has left the loop.
              have hlt := hforward queue
              rw [mem_pop_queues.mp hqueue] at hlt
              obtain ⟨exit, hleft⟩ := hearlier _ hlt
              obtain ⟨value, channel, hpop⟩ := h.exists_pop hwired hleaves hinside hqueue hleft
              dsimp only
              rw [hpop]
              exact ⟨_, rfl⟩

/-- When not all stages have left the loop, the first one that has not can move. -/
theorem Invariant.exists_step (h : pipeline.Invariant state) (hwired : pipeline.Wired)
    (hforward : pipeline.QueuesForward) {total : Nat} (hleaves : pipeline.LeavesAt total)
    (hpath : ∀ stage, pipeline.OnPath stage (state.stages stage)) (hrunning : ¬ AllLeft state) :
    ∃ stage next, pipeline.system.Step state stage next := by
  unfold AllLeft at hrunning
  push Not at hrunning
  classical
  obtain ⟨hstage, hleast⟩ := Nat.find_spec hrunning
  have hearlier : ∀ other < Nat.find hrunning, ∃ exit,
      (state.stages other).position = .left exit := by
    intro other hlt
    have hnot := Nat.find_min hrunning hlt
    push Not at hnot
    exact hnot (hlt.trans hstage)
  obtain ⟨next, hstep⟩ := h.can_step hwired hforward hleaves (hpath _) hstage hleast hearlier
  exact ⟨_, next, hstage, hstep⟩

/-- Where the queues go forward and the sequential loop is left, some stage can move in every
reachable state in which not all stages have left the loop. -/
theorem pipeline_progress (hclosed : pipeline.Closed) (hforward : pipeline.QueuesForward)
    {total : Nat} (hleaves : pipeline.LeavesAt total) (h : pipeline.system.Reachable state)
    (hrunning : ¬ AllLeft state) : ∃ stage next, pipeline.system.Step state stage next :=
  (invariant_reachable hclosed h).exists_step hclosed hforward hleaves (on_path_reachable h)
    hrunning

/-- The queue of the nested loop goes forward. -/
theorem nested_queues_forward (d : Bool) : (nestedLoop d).QueuesForward := by
  unfold QueuesForward
  decide +revert

/-- The loop whose inner loop ends is left after four visits. -/
theorem nested_leaves : (nestedLoop false).LeavesAt 4 := by
  unfold LoopProgram.LeavesAt
  decide

/-- The second stage has come to its queue. -/
def nestedWaiting : (nestedLoop false).PipelineState :=
  (nestedLoop false).runStages [1, 1, 1, 1, 1] (nestedLoop false).initialState

/-- A stage that waits for a queue does not keep the others from moving. -/
theorem nested_progress : ((nestedLoop false).stepStage 1 nestedWaiting).isNone ∧
    ∃ stage next, (nestedLoop false).system.Step nestedWaiting stage next := by
  refine ⟨by decide, pipeline_progress (nested_closed false) (nested_queues_forward false)
    nested_leaves (run_stages_reachable (by decide) (.initial rfl)) fun hleft => ?_⟩
  obtain ⟨exit, hposition⟩ := hleft 1 (by decide)
  cases hposition

/-! ## No interleaving is endless -/

/-- A stage at a visit of the loop. -/
inductive FollowsAt (stage : Nat) (own : pipeline.StageState) (memory : Region → Content)
    (channels : pipeline.Queue → Channel Value) (n : Nat) : Prop where
  | before (pred : Option Block) (B : Block) (hposition : own.position = .entering pred B)
      (hB : B ∈ pipeline.basicBlocks) (h : pipeline.Before stage own memory channels pred B n)
  | inside (B : Block) (code : List pipeline.StageInstruction)
      (hposition : own.position = .running B code) (hB : B ∈ pipeline.basicBlocks)
      (h : pipeline.Inside stage own memory channels B code n)
  | after (exit : Block) (hposition : own.position = .left exit)
      (hexit : exit ∉ pipeline.basicBlocks)
      (h : pipeline.After stage own memory channels exit n)

variable (pipeline) in
/-- The steps of a stage that takes part in all visits from one to another: it enters each block,
runs its code and goes on. -/
def visitSteps (stage first last : Nat) : Nat :=
  ∑ i ∈ Finset.Ico first last,
    ((pipeline.stageCode stage (pipeline.sequential i).block).length + 2)

variable (pipeline) in
/-- The steps that a stage at a visit may still make until the loop is left. -/
def stepsLeft (stage total n : Nat) : pipeline.Position → Nat
  | .entering _ _ => pipeline.visitSteps stage n total
  | .running _ code => code.length + 1 + pipeline.visitSteps stage (n + 1) total
  | .left _ => 0

/-- A later visit leaves fewer steps. -/
theorem visit_steps_le {first later last : Nat} (h : first ≤ later) :
    pipeline.visitSteps stage later last ≤ pipeline.visitSteps stage first last :=
  Finset.sum_le_sum_of_subset (Finset.Ico_subset_Ico_left h)

/-- A stage that comes to a visit is at it. -/
theorem Arrives.follows_at {own : pipeline.StageState} {memory : Region → Content}
    {channels : pipeline.Queue → Channel Value} {B after : Block} {m : Nat}
    (h : Arrives stage own memory channels B after m) (hwired : pipeline.Wired)
    (hstage : stage < pipeline.numTaskInstances) :
    FollowsAt stage (pipeline.goTo stage B after own) memory channels m := by
  unfold goTo
  dsimp only
  by_cases hafter : after ∈ pipeline.basicBlocks
  · rw [if_pos hafter]
    exact .before (some B) after rfl hafter ⟨h.block, h.pred, h.agrees, h.histories, h.stored⟩
  · rw [if_neg hafter]
    refine .after after rfl hafter ⟨h.block, h.agrees, h.histories, fun P value hstored => ?_⟩
    dsimp only [storeLiveOuts] at hstored
    split at hstored
    · case _ hpoint =>
        rw [← Option.some.inj hstored]
        exact h.agrees.cloned_values (hwired.liveOuts stage hstage P hpoint.1)
    · exact (h.stored P value hstored).2

/-- After the end of a block a stage of a loop that is left comes to a later visit, and nothing that
it has is executed before. -/
theorem Inside.exists_arrives {own : pipeline.StageState} {memory : Region → Content}
    {channels : pipeline.Queue → Channel Value} {B after : Block} {n total : Nat}
    (h : pipeline.Inside stage own memory channels B [] n) (hwired : pipeline.Wired)
    (hstage : stage < pipeline.numTaskInstances) (hB : B ∈ pipeline.basicBlocks)
    (hleaves : pipeline.LeavesAt total)
    (hnext : pipeline.nextBlock stage B own.values = some after) :
    ∃ m, n < m ∧ Arrives stage own memory channels B after m ∧
      ∀ P, pipeline.Holds stage P → pipeline.executions P m = pipeline.executions P (n + 1) := by
  unfold nextBlock at hnext
  have hblock := h.block
  cases hkeeps : pipeline.keeps (pipeline.subset stage) B with
  | true =>
      have harguments : pipeline.arguments stage own.values (pipeline.terminator B) =
          (pipeline.operands (pipeline.terminator B)).map (pipeline.sequential (n + 1)).values :=
        List.map_congr_left fun P hP => h.completes.cloned_values
          (hwired.operands stage hstage _ (LoopCFG.keeps_iff.mp hkeeps) P hP)
      rw [hkeeps, if_pos rfl, harguments, Option.some.injEq] at hnext
      have hsame : (pipeline.sequential (n + 1)).block = after := by
        rw [← hnext, ← hblock]
        exact LoopProgram.block_of_visit (hblock ▸ hB)
      rw [← hsame]
      exact ⟨n + 1, n.lt_succ_self,
        h.arrives hwired hstage hB n.lt_succ_self fun i hi hlt => by omega, fun _ _ => rfl⟩
  | false =>
      rw [hkeeps, if_neg Bool.false_ne_true] at hnext
      obtain ⟨hpost, hinside⟩ := hwired.post_dominator_of_jump hstage hnext
      subst hblock
      rcases LoopProgram.next_visit (hwired.subset stage hstage) hB hkeeps hpost hinside with
        ⟨m, hlt, rfl, hskip⟩ | hnever
      · refine ⟨m, hlt, h.arrives hwired hstage hB hlt hskip, fun P hholds => ?_⟩
        exact Wired.executions_skip hholds hlt fun i hi him hrelevant =>
          hskip i hi him (hwired.controlled_of_relevant hstage hrelevant)
      · -- The loop does not go on for ever.
        have hloop := (hnever (max (n + 1) total) (Nat.le_max_left _ _)).1
        rw [LoopProgram.sequential_of_leaves hleaves (Nat.le_max_right _ _)] at hloop
        exact absurd hloop hleaves

/-- A stage that others leave alone stays at its visit. -/
theorem FollowsAt.untouched (hwired : pipeline.Wired) (hstage : stage < pipeline.numTaskInstances)
    {own : pipeline.StageState} {n : Nat}
    (h : FollowsAt stage own state.memory state.channels n)
    (hcode : ∀ B code, own.position = .running B code → code <:+ pipeline.stageCode stage B)
    (hsame : Untouched stage state next) :
    FollowsAt stage own next.memory next.channels n := by
  have hagrees : ∀ {target}, pipeline.Agrees stage own.values state.memory target →
      pipeline.Agrees stage own.values next.memory target := fun hagrees =>
    ⟨hagrees.originals, hagrees.pops, fun region howns =>
      (hsame.memory region howns).trans (hagrees.memory region howns)⟩
  cases h with
  | before pred B hposition hB h =>
      exact .before pred B hposition hB
        ⟨h.block, h.pred, hagrees h.agrees, h.histories.untouched hsame, h.stored⟩
  | inside B code hposition hB h =>
      exact .inside B code hposition hB ⟨h.block, h.completes.congr (fun I hI =>
        mem_subset_of_code hwired hstage ((hcode B code hposition).subset hI)) hsame.memory,
          h.histories.untouched hsame, h.stored⟩
  | after exit hposition hexit h =>
      exact .after exit hposition hexit
        ⟨h.block, hagrees h.agrees, h.histories.untouched hsame, h.stored⟩

/-- A visit of a block is before the loop is left, and takes the steps of its block. -/
theorem visit_steps_of_visit {n total : Nat} (hleaves : pipeline.LeavesAt total)
    (hloop : (pipeline.sequential n).block ∈ pipeline.basicBlocks) :
    pipeline.visitSteps stage n total =
      (pipeline.stageCode stage (pipeline.sequential n).block).length + 2 +
        pipeline.visitSteps stage (n + 1) total := by
  have hlt : n < total := by
    by_contra hle
    rw [LoopProgram.sequential_of_leaves hleaves (Nat.le_of_not_lt hle)] at hloop
    exact hleaves hloop
  exact Finset.sum_eq_sum_Ico_succ_bot hlt _

/-- The live-out variables that a stage at a visit has stored: in the loop, those whose producers
were executed, and at the exit that it left to, those that are stored there. -/
structure StoredAt (stage : Nat) (own : pipeline.StageState) (n : Nat) : Prop where
  in_loop : ∀ P, pipeline.StoresInLoop stage P → pipeline.executions P n ≠ [] → own.stored P ≠ none
  at_exit : ∀ exit, own.position = .left exit → ∀ P ∈ pipeline.liveOuts stage,
    exit ∈ pipeline.determineLatestPointsToInsertLiveOutStore stage P → own.stored P ≠ none

omit [DecidableEq Region] in
/-- A live-out variable is stored at the end of the blocks for it, and stays stored. -/
theorem store_live_outs_ne_none {own : pipeline.StageState} {B : Block} {P : Inst}
    (h : own.stored P ≠ none ∨ P ∈ pipeline.liveOuts stage ∧
      B ∈ pipeline.determineLatestPointsToInsertLiveOutStore stage P) :
    pipeline.storeLiveOuts stage B own P ≠ none := by
  unfold storeLiveOuts
  split_ifs with hpoint
  · simp
  · exact h.resolve_right hpoint

/-- In the code of a block a stage stores nothing. -/
theorem StoredAt.running {own : pipeline.StageState} {n : Nat} (h : StoredAt stage own n)
    (values : pipeline.StageInstruction → Value) (B : Block)
    (code : List pipeline.StageInstruction) :
    StoredAt stage { own with values, position := .running B code } n where
  in_loop := h.in_loop
  at_exit exit hleft := by cases hleft

/-- At the end of a block a stage stores what it has to. -/
theorem StoredAt.go_to {own : pipeline.StageState} {B after : Block} {n m : Nat}
    (h : StoredAt stage own n) (hblock : (pipeline.sequential n).block = B)
    (hB : B ∈ pipeline.basicBlocks) (hskipped : ∀ P ∈ pipeline.liveOuts stage,
      pipeline.executions P m = pipeline.executions P (n + 1)) :
    StoredAt stage (pipeline.goTo stage B after own) m := by
  subst hblock
  have hend : ∀ P, pipeline.StoresInLoop stage P → pipeline.executions P m ≠ [] →
      pipeline.storeLiveOuts stage (pipeline.sequential n).block own P ≠ none := by
    intro P hstores hexecuted
    rw [hskipped P hstores.1, ← executions_visit P hB] at hexecuted
    refine store_live_outs_ne_none ?_
    by_cases hparent : pipeline.parent P = (pipeline.sequential n).block
    · rw [hstores.2, hparent]
      exact .inr ⟨hstores.1, List.mem_singleton_self _⟩
    · rw [if_neg hparent, List.replicate_zero, List.append_nil] at hexecuted
      exact .inl (h.in_loop P hstores hexecuted)
  unfold goTo
  dsimp only
  split
  · exact ⟨hend, fun exit hleft => by cases hleft⟩
  · refine ⟨fun P hstores hexecuted => ?_, fun exit hleft P hliveOut hpoint => ?_⟩
    · exact store_live_outs_ne_none (.inl (hend P hstores hexecuted))
    · cases hleft
      exact store_live_outs_ne_none (.inr ⟨hliveOut, hpoint⟩)

/-- A step of a stage takes one of the steps that it has left, and stores what it has to. -/
theorem Invariant.steps_moves (h : pipeline.Invariant state) (hwired : pipeline.Wired)
    {total n : Nat} (hleaves : pipeline.LeavesAt total) (hstage : stage < pipeline.numTaskInstances)
    (hat : FollowsAt stage (state.stages stage) state.memory state.channels n)
    (hmoves : pipeline.Moves stage state next) :
    ∃ m, FollowsAt stage (next.stages stage) next.memory next.channels m ∧
      (StoredAt stage (state.stages stage) n → StoredAt stage (next.stages stage) m) ∧
      pipeline.stepsLeft stage total m (next.stages stage).position + 1 ≤
        pipeline.stepsLeft stage total n (state.stages stage).position := by
  cases hat with
  | before pred B hposition hB hbefore =>
      cases hmoves with
      | enter pred' B' hposition' =>
          rw [hposition] at hposition' ⊢
          cases hposition'
          dsimp only
          rw [Function.update_self]
          refine ⟨n, .inside B _ rfl hB (hbefore.enter hwired hstage hB),
            fun hstored => hstored.running _ _ _, ?_⟩
          show (pipeline.stageCode stage B).length + 1 + pipeline.visitSteps stage (n + 1) total +
            1 ≤ pipeline.visitSteps stage n total
          have hblock := hbefore.block
          subst hblock
          rw [visit_steps_of_visit hleaves hB]
          omega
      | execute _ _ _ hposition' | pop _ _ _ _ _ hposition' | push _ _ _ hposition'
      | goTo _ _ hposition' =>
          rw [hposition] at hposition'
          cases hposition'
  | after exit hposition hexit hafter =>
      cases hmoves with
      | enter _ _ hposition' | execute _ _ _ hposition' | pop _ _ _ _ _ hposition'
      | push _ _ _ hposition' | goTo _ _ hposition' =>
          rw [hposition] at hposition'
          cases hposition'
  | inside B code hposition hB hinside =>
      have hcode := h.code stage B code hposition
      cases hmoves with
      | enter _ _ hposition' =>
          rw [hposition] at hposition'
          cases hposition'
      | execute B' I rest hposition' =>
          rw [hposition] at hposition' ⊢
          cases hposition'
          dsimp only
          rw [Function.update_self]
          refine ⟨n, .inside B rest rfl hB hinside.execute,
            fun hstored => hstored.running _ _ _, ?_⟩
          dsimp only [stepsLeft, List.length_cons]
          omega
      | pop B' queue rest value channel hposition' hpop =>
          rw [hposition] at hposition' ⊢
          cases hposition'
          have hqueue := (hwired.queues_of_code hstage).2 (hcode.subset List.mem_cons_self)
          obtain rfl := h.popped_value hwired hinside hqueue hpop
          dsimp only
          rw [Function.update_self]
          refine ⟨n, .inside B rest rfl hB (hinside.pop hpop),
            fun hstored => hstored.running _ _ _, ?_⟩
          dsimp only [stepsLeft, List.length_cons]
          omega
      | push B' queue rest hposition' =>
          rw [hposition] at hposition' ⊢
          cases hposition'
          dsimp only
          rw [Function.update_self]
          refine ⟨n, .inside B rest rfl hB hinside.push, fun hstored => hstored.running _ _ _, ?_⟩
          dsimp only [stepsLeft, List.length_cons]
          omega
      | goTo B' after hposition' hnext =>
          rw [hposition] at hposition' ⊢
          cases hposition'
          dsimp only
          rw [Function.update_self]
          obtain ⟨m, hlt, harrives, hskipped⟩ :=
            hinside.exists_arrives hwired hstage hB hleaves hnext
          refine ⟨m, harrives.follows_at hwired hstage, fun hstored => ?_, ?_⟩
          · exact hstored.go_to hinside.block hB fun P hliveOut =>
              hskipped P (hwired.liveOuts stage hstage P hliveOut)
          have hle : pipeline.visitSteps stage m total ≤ pipeline.visitSteps stage (n + 1) total :=
            visit_steps_le hlt
          rw [position_go_to]
          split
          · show pipeline.visitSteps stage m total + 1 ≤
              0 + 1 + pipeline.visitSteps stage (n + 1) total
            omega
          · show 0 + 1 ≤ 0 + 1 + pipeline.visitSteps stage (n + 1) total
            omega

/-- In a run every stage is at a visit and has stored what it has to there, and its steps with those
that it has left are no more than those of all visits. -/
theorem steps_of_run (hwired : pipeline.Wired) {total : Nat} (hleaves : pipeline.LeavesAt total)
    {past : List (pipeline.PipelineState × Nat)} (h : pipeline.system.Run past state)
    (hstage : stage < pipeline.numTaskInstances) :
    ∃ n, FollowsAt stage (state.stages stage) state.memory state.channels n ∧
      StoredAt stage (state.stages stage) n ∧ System.occurrences past stage +
        pipeline.stepsLeft stage total n (state.stages stage).position ≤
          pipeline.visitSteps stage 0 total := by
  induction h with
  | initial hinitial =>
      obtain rfl : _ = pipeline.initialState := hinitial
      refine ⟨0, .before none pipeline.header rfl pipeline.header_mem ⟨rfl, fun _ _ _ => rfl,
        ⟨fun _ _ => rfl, fun _ _ => rfl, fun _ _ => rfl⟩, ⟨fun _ _ => rfl, fun _ _ => rfl⟩,
        fun P value hstored => ?_⟩, ⟨fun P _ hexecuted => ?_, fun exit hleft => ?_⟩, ?_⟩
      · cases hstored
      · exact absurd rfl hexecuted
      · cases hleft
      · show 0 + pipeline.visitSteps stage 0 total ≤ pipeline.visitSteps stage 0 total
        omega
  | @step past before event after hrun hstep ih =>
      obtain ⟨n, hat, hstored, hle⟩ := ih
      have hinvariant := invariant_reachable hwired hrun.reachable
      have hmoves := stage_moves hstep.2
      rw [System.occurrences_cons]
      by_cases heq : stage = event
      · subst heq
        obtain ⟨m, hafter, hstores, hless⟩ :=
          hinvariant.steps_moves hwired hleaves hstage hat hmoves
        refine ⟨m, hafter, hstores hstored, ?_⟩
        rw [Function.update_self]
        omega
      · refine ⟨n, ?_, ?_, ?_⟩
        · rw [hmoves.others heq]
          exact hat.untouched hwired hstage (hinvariant.code stage)
            (hmoves.untouched hwired hinvariant hstep.1 hstage heq)
        · rw [hmoves.others heq]
          exact hstored
        · rw [Function.update_of_ne heq, hmoves.others heq]
          exact hle

/-- A run of the stages has no more steps than the code of all visits in all stages. -/
theorem run_length_le (hwired : pipeline.Wired) {total : Nat} (hleaves : pipeline.LeavesAt total)
    {past : List (pipeline.PipelineState × Nat)} (h : pipeline.system.Run past state) :
    past.length ≤ ∑ stage ∈ Finset.range pipeline.numTaskInstances,
      pipeline.visitSteps stage 0 total := by
  have hparties : ∀ before stage after, pipeline.system.Step before stage after →
      stage ∈ Finset.range pipeline.numTaskInstances := fun _ _ _ hstep =>
    Finset.mem_range.mpr hstep.1
  rw [h.length_eq_sum hparties]
  refine Finset.sum_le_sum fun stage hstage => ?_
  obtain ⟨n, -, -, hle⟩ := steps_of_run hwired hleaves h (Finset.mem_range.mp hstage)
  exact (Nat.le_add_right _ _).trans hle

/-- A stage that has left the loop is where the sequential loop is when it is left, with its values
and its memory. -/
theorem Invariant.sequential_of_left (h : pipeline.Invariant state) {total : Nat}
    (hleaves : pipeline.LeavesAt total) (hstage : stage < pipeline.numTaskInstances) {exit : Block}
    (hleft : (state.stages stage).position = .left exit) :
    (state.stages stage).position = .left (pipeline.sequential total).block ∧
      (∀ P value, (state.stages stage).stored P = some value →
        value = (pipeline.sequential total).values P) ∧
      ∀ region, pipeline.Owns stage region →
        state.memory region = (pipeline.sequential total).memory region := by
  obtain ⟨k, hk, hafter⟩ := (h.follows stage hstage).after_of_left hleft hleaves
  rw [LoopProgram.sequential_eq_of_leaves hleaves hk]
  refine ⟨?_, hafter.stored, hafter.agrees.memory⟩
  rw [hleft, hafter.block]

/-- All stages have left the loop in a reachable state in which none can move. -/
theorem all_left_of_stuck (hwired : pipeline.Wired) (hforward : pipeline.QueuesForward)
    {total : Nat} (hleaves : pipeline.LeavesAt total) (h : pipeline.system.Reachable state)
    (hstuck : ∀ stage next, ¬ pipeline.system.Step state stage next) : AllLeft state := by
  by_contra hrunning
  obtain ⟨stage, next, hstep⟩ := (invariant_reachable hwired h).exists_step hwired hforward hleaves
    (on_path_reachable h) hrunning
  exact hstuck stage next hstep

/-- A stage that has left the loop has stored what it has to. -/
theorem stored_of_left (hwired : pipeline.Wired) {total : Nat} (hleaves : pipeline.LeavesAt total)
    {past : List (pipeline.PipelineState × Nat)} (h : pipeline.system.Run past state)
    (hstage : stage < pipeline.numTaskInstances) {exit : Block}
    (hleft : (state.stages stage).position = .left exit) :
    StoredAt stage (state.stages stage) total := by
  obtain ⟨n, hat, hstored, -⟩ := steps_of_run hwired hleaves h hstage
  cases hat with
  | before _ _ hposition | inside _ _ hposition =>
      rw [hleft] at hposition
      cases hposition
  | after exit' hposition hexit hafter =>
      have hn : pipeline.LeavesAt n := by
        unfold LoopProgram.LeavesAt
        rw [hafter.block]
        exact hexit
      refine ⟨fun P hstores hexecuted => hstored.in_loop P hstores ?_, hstored.at_exit⟩
      rw [LoopProgram.executions_eq_of_leaves hn hleaves]
      exact hexecuted

/-- The memory is that of the sequential loop when all stages have left the loop, if the loop does
not access what no stage accesses. -/
theorem memory_of_left (hwired : pipeline.Wired)
    (hunowned : ∀ region, (∀ stage < pipeline.numTaskInstances, ¬ pipeline.Owns stage region) →
      ∀ B ∈ pipeline.basicBlocks, ∀ I ∈ pipeline.body B, pipeline.region I ≠ some region)
    {total : Nat} (hleaves : pipeline.LeavesAt total) (h : pipeline.system.Reachable state)
    (hleft : AllLeft state) : state.memory = (pipeline.sequential total).memory := by
  funext region
  by_cases howned : ∃ stage < pipeline.numTaskInstances, pipeline.Owns stage region
  · obtain ⟨stage, hstage, howns⟩ := howned
    obtain ⟨exit, hposition⟩ := hleft stage hstage
    exact ((invariant_reachable hwired h).sequential_of_left hleaves hstage
      hposition).2.2 region howns
  · push Not at howned
    rw [memory_of_not_owned hwired h howned]
    exact (LoopProgram.sequential_memory_of_not_accessed (hunowned region howned) total).symm

/-- What a stage stores of the live-out variables once it has left the loop are the values of the
sequential loop, and it stores those whose blocks it has come to. -/
theorem live_outs_of_left (hwired : pipeline.Wired) {total : Nat}
    (hleaves : pipeline.LeavesAt total) {past : List (pipeline.PipelineState × Nat)}
    (h : pipeline.system.Run past state) (hstage : stage < pipeline.numTaskInstances) {exit : Block}
    (hleft : (state.stages stage).position = .left exit) :
    (∀ P value, (state.stages stage).stored P = some value →
      value = (pipeline.sequential total).values P) ∧
    ∀ P ∈ pipeline.liveOuts stage,
      (pipeline.sequential total).block ∈
          pipeline.determineLatestPointsToInsertLiveOutStore stage P ∨
        pipeline.StoresInLoop stage P ∧ pipeline.executions P total ≠ [] →
      (state.stages stage).stored P = some ((pipeline.sequential total).values P) := by
  obtain ⟨hexit, hvalues, -⟩ :=
    (invariant_reachable hwired h.reachable).sequential_of_left hleaves hstage hleft
  have hstored := stored_of_left hwired hleaves h hstage hleft
  refine ⟨hvalues, fun P hliveOut hpoint => ?_⟩
  have hsome : (state.stages stage).stored P ≠ none := by
    rcases hpoint with hpoint | ⟨hstores, hexecuted⟩
    · exact hstored.at_exit _ hexit P hliveOut hpoint
    · exact hstored.in_loop P hstores hexecuted
  obtain ⟨value, hvalue⟩ := Option.ne_none_iff_exists'.mp hsome
  rw [hvalue]
  exact congrArg some (hvalues P value hvalue)

omit [DecidableEq Block] [DecidableEq Region] in
/-- A region that no stage of a closed pipeline accesses is accessed by no instruction of the
loop. -/
theorem Closed.not_accessed (hclosed : pipeline.Closed) (region : Region)
    (h : ∀ stage < pipeline.numTaskInstances, ¬ pipeline.Owns stage region) :
    ∀ B ∈ pipeline.basicBlocks, ∀ I ∈ pipeline.body B, pipeline.region I ≠ some region := by
  intro B hB I hI hregion
  obtain ⟨stage, hstage, hsubset⟩ := hclosed.complete B hB I (by simp [hI])
  exact h stage hstage ⟨I, hsubset, hregion⟩

/-- Every run of the stages is finite, and a run that cannot go on has the memory of the sequential
loop, empty queues, all stages out of the loop at the block that the sequential loop leaves to, and
the values of the loop in the live-out variables: those that are stored are these, and every one
that a stage stores at this exit, or in the loop where its producer was executed, is stored. -/
theorem pipeline_terminates (hclosed : pipeline.Closed) (hforward : pipeline.QueuesForward)
    {total : Nat} (hleaves : pipeline.LeavesAt total)
    {past : List (pipeline.PipelineState × Nat)} (h : pipeline.system.Run past state) :
    past.length ≤ ∑ stage ∈ Finset.range pipeline.numTaskInstances,
        pipeline.visitSteps stage 0 total ∧
      ((∀ stage next, ¬ pipeline.system.Step state stage next) →
        state.memory = (pipeline.sequential total).memory ∧
        (∀ queue, (state.channels queue).contents = []) ∧
        ∀ stage < pipeline.numTaskInstances,
          (state.stages stage).position = .left (pipeline.sequential total).block ∧
          (∀ P value, (state.stages stage).stored P = some value →
            value = (pipeline.sequential total).values P) ∧
          ∀ P ∈ pipeline.liveOuts stage,
            (pipeline.sequential total).block ∈
                pipeline.determineLatestPointsToInsertLiveOutStore stage P ∨
              pipeline.StoresInLoop stage P ∧ pipeline.executions P total ≠ [] →
            (state.stages stage).stored P = some ((pipeline.sequential total).values P)) := by
  have hinvariant := invariant_reachable hclosed h.reachable
  refine ⟨run_length_le hclosed hleaves h, fun hstuck => ?_⟩
  have hleft := all_left_of_stuck hclosed hforward hleaves h.reachable hstuck
  refine ⟨memory_of_left hclosed hclosed.not_accessed hleaves h.reachable hleft,
    hinvariant.empty hclosed hleft, fun stage hstage => ?_⟩
  obtain ⟨exit, hposition⟩ := hleft stage hstage
  exact ⟨(hinvariant.sequential_of_left hleaves hstage hposition).1,
    live_outs_of_left hclosed hleaves h hstage hposition⟩

/-- No stage can move after the order of the nested loop. -/
theorem nested_stuck (stage : Nat) (next : (nestedLoop false).PipelineState) :
    ¬ (nestedLoop false).system.Step (nestedState false) stage next := by
  intro ⟨hstage, hstep⟩
  have hnone : ∀ stage < 3, ((nestedLoop false).stepStage stage (nestedState false)).isNone := by
    decide
  have hnot := hnone stage hstage
  rw [hstep] at hnot
  cases hnot

/-- The run of the nested loop is bounded and ends with the value of the loop stored. -/
theorem nested_terminates : ∃ past, (nestedLoop false).system.Run past (nestedState false) ∧
    past.length ≤ ∑ stage ∈ Finset.range 3, (nestedLoop false).visitSteps stage 0 4 ∧
      (∀ queue, ((nestedState false).channels queue).contents = []) ∧
      ((nestedState false).stages 1).stored .y = some 8 := by
  obtain ⟨past, hrun⟩ := (nested_reachable false).has_run
  have hends := pipeline_terminates (nested_closed false) (nested_queues_forward false)
    nested_leaves hrun
  obtain ⟨-, hempty, hstages⟩ := hends.2 nested_stuck
  have hstored := (hstages 1 (by decide)).2.2 .y (by decide)
    (.inr ⟨⟨by decide, by decide⟩, by decide⟩)
  exact ⟨past, hrun, hends.1, hempty, hstored.trans (by decide)⟩

end Gino.Dswp.Pipeline
