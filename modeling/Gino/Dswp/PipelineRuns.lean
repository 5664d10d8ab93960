import Gino.Dswp.StageFollows
import Mathlib.Data.Finset.Lattice.Fold

/-!
# A DSWP pipeline computes what the sequential loop computes

In every reachable state of a wired pipeline each stage follows the sequential loop, since what it
pops was pushed by a stage that follows it too. So what was popped from a queue is what its producer
had in the sequential loop, the queues are empty when all stages have left the loop, and the
live-out variables and the memory are then those of the sequential loop (`computes_sequential`).
When the sequential loop does not terminate, a stage may be past the part that it does not leave.
-/

namespace Gino.Dswp.Pipeline

open Relation Graph Machine

section Runs

variable {Inst Block Value Region Content : Type*}
  (pipeline : Pipeline Inst Block Value Region Content) [DecidableEq Inst] [DecidableEq Block]
  [DecidableEq Region]

/-- Every stage follows the loop, and runs code of its blocks. -/
structure Invariant (state : pipeline.PipelineState) : Prop where
  follows : ∀ stage < pipeline.numTaskInstances,
    pipeline.Follows stage (state.stages stage) state.memory state.channels
  code : ∀ stage B code, (state.stages stage).position = .running B code →
    code <:+ pipeline.stageCode stage B

variable {pipeline} {stage : Nat} {state next : pipeline.PipelineState}

/-! ## What a stage does to the others -/

/-- Nothing is taken back from a queue. -/
theorem Moves.channels_mono (h : pipeline.Moves stage state next) (queue : pipeline.Queue) :
    (state.channels queue).pushed <+: (next.channels queue).pushed ∧
      (state.channels queue).popped <+: (next.channels queue).popped := by
  cases h with
  | enter | execute | goTo => exact ⟨List.prefix_refl _, List.prefix_refl _⟩
  | pop B other code value channel hposition hpop =>
      obtain ⟨hpopped, hpushed⟩ := Channel.pop_eq_some hpop
      dsimp only
      by_cases heq : queue = other
      · rw [heq, Function.update_self, hpushed, hpopped]
        exact ⟨List.prefix_refl _, List.prefix_append _ _⟩
      · rw [Function.update_of_ne heq]
        exact ⟨List.prefix_refl _, List.prefix_refl _⟩
  | push B other code hposition =>
      dsimp only
      by_cases heq : queue = other
      · rw [heq, Function.update_self, Channel.pushed_push, Channel.popped_push]
        exact ⟨List.prefix_append _ _, List.prefix_refl _⟩
      · rw [Function.update_of_ne heq]
        exact ⟨List.prefix_refl _, List.prefix_refl _⟩

omit [DecidableEq Region] in
/-- The queues of the pushes and pops in the code of a stage are its own. -/
theorem Wired.queues_of_code (hwired : pipeline.Wired)
    (hstage : stage < pipeline.numTaskInstances) {B : Block} {queue : pipeline.Queue} :
    (.push queue ∈ pipeline.stageCode stage B → queue ∈ pipeline.pushQueues stage) ∧
      (.pop queue ∈ pipeline.stageCode stage B → queue ∈ pipeline.popQueues stage) := by
  obtain ⟨-, hplaced, hcount⟩ := hwired.placed_stage_code hstage B
  refine ⟨fun hmem => ?_, fun hmem => ?_⟩
  · by_contra hnot
    have hzero := hcount queue
    rw [if_neg fun hand => hnot hand.1] at hzero
    exact List.count_eq_zero.mp hzero hmem
  · by_contra hnot
    have hzero := hplaced.count_pop queue
    rw [if_neg fun hand => hnot hand.1] at hzero
    exact List.count_eq_zero.mp hzero hmem

/-- A step of a stage leaves what another stage has. -/
structure Untouched (other : Nat) (state next : pipeline.PipelineState) : Prop where
  memory : ∀ region, pipeline.Owns other region → next.memory region = state.memory region
  pushed : ∀ queue ∈ pipeline.pushQueues other,
    (next.channels queue).pushed = (state.channels queue).pushed
  popped : ∀ queue ∈ pipeline.popQueues other,
    (next.channels queue).popped = (state.channels queue).popped

/-- The stages do not disturb each other. -/
theorem Moves.untouched (h : pipeline.Moves stage state next) (hwired : pipeline.Wired)
    (hinvariant : pipeline.Invariant state) (hstage : stage < pipeline.numTaskInstances)
    {other : Nat} (hother : other < pipeline.numTaskInstances) (hne : other ≠ stage) :
    Untouched other state next := by
  have hcode := fun B code (hposition : (state.stages stage).position = .running B code) =>
    hinvariant.code stage B code hposition
  cases h with
  | enter | goTo => exact ⟨fun _ _ => rfl, fun _ _ => rfl, fun _ _ => rfl⟩
  | execute B I code hposition =>
      refine ⟨fun region howns => ?_, fun _ _ => rfl, fun _ _ => rfl⟩
      have hI := mem_subset_of_code hwired hstage
        ((hcode B _ hposition).subset List.mem_cons_self)
      obtain ⟨J, hJ, hregion⟩ := howns
      exact LoopProgram.effect_of_ne (fun hsame => hne (hwired.regions other hother stage hstage
        J hJ I hI region hregion hsame)) _ _
  | pop B queue code value channel hposition hpop =>
      obtain ⟨hpopped, hpushed⟩ := Channel.pop_eq_some hpop
      have hqueue := (hwired.queues_of_code hstage).2
        ((hcode B _ hposition).subset List.mem_cons_self)
      refine ⟨fun _ _ => rfl, fun another _ => ?_, fun another hanother => ?_⟩
      · dsimp only
        by_cases heq : another = queue
        · rw [heq, Function.update_self, hpushed]
        · rw [Function.update_of_ne heq]
      · refine congrArg Channel.popped (Function.update_of_ne (fun heq => hne ?_) _ _)
        rw [← mem_pop_queues.mp hanother, heq, mem_pop_queues.mp hqueue]
  | push B queue code hposition =>
      have hqueue := (hwired.queues_of_code hstage).1
        ((hcode B _ hposition).subset List.mem_cons_self)
      refine ⟨fun _ _ => rfl, fun another hanother => ?_, fun another _ => ?_⟩
      · refine congrArg Channel.pushed (Function.update_of_ne (fun heq => hne ?_) _ _)
        rw [← mem_push_queues.mp hanother, heq, mem_push_queues.mp hqueue]
      · dsimp only
        by_cases heq : another = queue
        · rw [heq, Function.update_self, Channel.popped_push]
        · rw [Function.update_of_ne heq]

/-- Histories that other stages leave. -/
theorem Histories.untouched {code : List pipeline.StageInstruction} {n : Nat}
    (h : pipeline.Histories stage state.channels code n) (hsame : Untouched stage state next) :
    pipeline.Histories stage next.channels code n where
  pushed queue hqueue := by rw [hsame.pushed queue hqueue, h.pushed queue hqueue]
  popped queue hqueue := by rw [hsame.popped queue hqueue, h.popped queue hqueue]

/-- A stage that others leave alone follows the loop as before. -/
theorem Follows.untouched (hwired : pipeline.Wired) (hstage : stage < pipeline.numTaskInstances)
    {own : pipeline.StageState} (h : pipeline.Follows stage own state.memory state.channels)
    (hcode : ∀ B code, own.position = .running B code → code <:+ pipeline.stageCode stage B)
    (hsame : Untouched stage state next) :
    pipeline.Follows stage own next.memory next.channels := by
  have hagrees : ∀ {target}, pipeline.Agrees stage own.values state.memory target →
      pipeline.Agrees stage own.values next.memory target := fun hagrees =>
    ⟨hagrees.originals, hagrees.pops, fun region howns =>
      (hsame.memory region howns).trans (hagrees.memory region howns)⟩
  cases h with
  | before pred B n hposition hB h =>
      exact .before pred B n hposition hB
        ⟨h.block, h.pred, hagrees h.agrees, h.histories.untouched hsame, h.stored⟩
  | inside B code n hposition hB h =>
      refine .inside B code n hposition hB ⟨h.block,
        h.completes.congr (fun I hI => ?_) hsame.memory, h.histories.untouched hsame, h.stored⟩
      exact mem_subset_of_code hwired hstage ((hcode B code hposition).subset hI)
  | after exit n hposition hexit h =>
      exact .after exit n hposition hexit
        ⟨h.block, hagrees h.agrees, h.histories.untouched hsame, h.stored⟩
  | lost n h =>
      refine .lost n ⟨h.skipped, fun queue hqueue => ?_, fun queue hqueue => ?_⟩
      · rw [hsame.pushed queue hqueue]
        exact h.pushed queue hqueue
      · rw [hsame.popped queue hqueue]
        exact h.popped queue hqueue

/-! ## What is in the queues -/

/-- What was pushed into a queue agrees with what its producer had in the loop. -/
theorem Follows.pushed_agree (hwired : pipeline.Wired)
    (hstage : stage < pipeline.numTaskInstances) {own : pipeline.StageState}
    {memory : Region → Content} {channels : pipeline.Queue → Channel Value}
    (h : pipeline.Follows stage own memory channels) {queue : pipeline.Queue}
    (hqueue : queue ∈ pipeline.pushQueues stage) (k : Nat) :
    Agree (channels queue).pushed (pipeline.executions (pipeline.producer queue) k) := by
  have hstart : ∀ {code n}, pipeline.Histories stage channels code n →
      Agree (channels queue).pushed (pipeline.executions (pipeline.producer queue) k) :=
    fun {_ n} hhistories => (LoopProgram.executions_agree _ n k).of_start
      (hhistories.pushed queue hqueue ▸ List.prefix_append _ _)
  cases h with
  | before pred B n hposition hB h => exact hstart h.histories
  | inside B code n hposition hB h => exact hstart h.histories
  | after exit n hposition hexit h => exact hstart h.histories
  | lost n h =>
      -- The producer is not executed after the stage is lost.
      refine .inr (List.IsPrefix.trans ?_ (h.pushed queue hqueue))
      rcases Nat.le_total k n with hle | hle
      · exact LoopProgram.executions_mono hle
      · rw [Wired.executions_skip (hwired.pushes stage hstage queue hqueue) hle
          fun i hi _ => (h.skipped i hi).2]

namespace Invariant

/-- What was pushed into a queue agrees with what its producer had in the loop. -/
theorem pushed_agree (h : pipeline.Invariant state) (hwired : pipeline.Wired)
    (queue : pipeline.Queue) (k : Nat) : Agree (state.channels queue).pushed
      (pipeline.executions (pipeline.producer queue) k) :=
  (h.follows _ (hwired.stages queue).1).pushed_agree hwired (hwired.stages queue).1
    (mem_push_queues.mpr rfl) k

/-- A stage that pops where the loop is pops what the loop has. -/
theorem popped_value (h : pipeline.Invariant state) (hwired : pipeline.Wired)
    {B : Block} {queue : pipeline.Queue} {code : List pipeline.StageInstruction} {n : Nat}
    {value : Value} {channel : Channel Value}
    (hinside : pipeline.Inside stage (state.stages stage) state.memory state.channels B
      (.pop queue :: code) n) (hqueue : queue ∈ pipeline.popQueues stage)
    (hpop : (state.channels queue).pop = some (value, channel)) :
    value = (pipeline.sequential (n + 1)).values (pipeline.producer queue) := by
  obtain ⟨hpopped, hpushed⟩ := Channel.pop_eq_some hpop
  have hvalue : (state.channels queue).popped ++ [value] <+: (state.channels queue).pushed := by
    rw [← hpopped, ← hpushed]
    exact Channel.popped_prefix_pushed
  have hloop := hinside.histories.popped queue hqueue
  rw [List.count_cons_self, List.replicate_succ, List.append_cons] at hloop
  exact (h.pushed_agree hwired queue (n + 1)).eq_of_concat hvalue (hloop ▸ List.prefix_append _ _)

/-- The stage that moves follows the loop. -/
theorem follows_moves (h : pipeline.Invariant state) (hwired : pipeline.Wired)
    (hstage : stage < pipeline.numTaskInstances) (hmoves : pipeline.Moves stage state next) :
    pipeline.Follows stage (next.stages stage) next.memory next.channels := by
  cases h.follows stage hstage with
  | lost n hlost =>
      refine .lost n ⟨hlost.skipped, fun queue hqueue => ?_, fun queue hqueue => ?_⟩
      · exact (hlost.pushed queue hqueue).trans (hmoves.channels_mono queue).1
      · exact (hlost.popped queue hqueue).trans (hmoves.channels_mono queue).2
  | before pred B n hposition hB hbefore =>
      cases hmoves with
      | enter pred' B' hposition' =>
          rw [hposition] at hposition'
          cases hposition'
          dsimp only
          rw [Function.update_self]
          exact .inside B _ n rfl hB (hbefore.enter hwired hstage hB)
      | execute _ _ _ hposition' | pop _ _ _ _ _ hposition' | push _ _ _ hposition'
      | goTo _ _ hposition' =>
          rw [hposition] at hposition'
          cases hposition'
  | after exit n hposition hexit hafter =>
      cases hmoves with
      | enter _ _ hposition' | execute _ _ _ hposition' | pop _ _ _ _ _ hposition'
      | push _ _ _ hposition' | goTo _ _ hposition' =>
          rw [hposition] at hposition'
          cases hposition'
  | inside B code n hposition hB hinside =>
      have hcode := h.code stage B code hposition
      cases hmoves with
      | enter _ _ hposition' =>
          rw [hposition] at hposition'
          cases hposition'
      | execute B' I rest hposition' =>
          rw [hposition] at hposition'
          cases hposition'
          dsimp only
          rw [Function.update_self]
          exact .inside B rest n rfl hB hinside.execute
      | pop B' queue rest value channel hposition' hpop =>
          rw [hposition] at hposition'
          cases hposition'
          have hqueue := (hwired.queues_of_code hstage).2 (hcode.subset List.mem_cons_self)
          obtain rfl := h.popped_value hwired hinside hqueue hpop
          dsimp only
          rw [Function.update_self]
          exact .inside B rest n rfl hB (hinside.pop hpop)
      | push B' queue rest hposition' =>
          rw [hposition] at hposition'
          cases hposition'
          dsimp only
          rw [Function.update_self]
          exact .inside B rest n rfl hB hinside.push
      | goTo B' after hposition' hnext =>
          rw [hposition] at hposition'
          cases hposition'
          dsimp only
          rw [Function.update_self]
          exact hinside.go_to hwired hstage hB hnext

/-- The code that a stage runs is the end of a block. -/
theorem code_moves (h : pipeline.Invariant state) (hmoves : pipeline.Moves stage state next)
    {B : Block} {code : List pipeline.StageInstruction}
    (hposition : (next.stages stage).position = .running B code) :
    code <:+ pipeline.stageCode stage B := by
  cases hmoves with
  | enter pred B' hposition' =>
      dsimp only at hposition
      rw [Function.update_self] at hposition
      cases hposition
      exact List.suffix_refl _
  | execute B' I rest hposition' | pop B' queue rest value channel hposition' hpop
  | push B' queue rest hposition' =>
      dsimp only at hposition
      rw [Function.update_self] at hposition
      cases hposition
      exact (List.suffix_cons _ _).trans (h.code stage B _ hposition')
  | goTo B' after hposition' hnext =>
      dsimp only at hposition
      rw [Function.update_self] at hposition
      unfold goTo at hposition
      dsimp only at hposition
      split at hposition
      · cases hposition
      · cases hposition

/-- A step of a stage keeps the invariant. -/
theorem moves (h : pipeline.Invariant state) (hwired : pipeline.Wired)
    (hstage : stage < pipeline.numTaskInstances) (hmoves : pipeline.Moves stage state next) :
    pipeline.Invariant next where
  follows other hother := by
    by_cases heq : other = stage
    · subst heq
      exact h.follows_moves hwired hother hmoves
    · rw [hmoves.others heq]
      exact (h.follows other hother).untouched hwired hother (h.code other)
        (hmoves.untouched hwired h hstage hother heq)
  code other B code hposition := by
    by_cases heq : other = stage
    · subst heq
      exact h.code_moves hmoves hposition
    · rw [hmoves.others heq] at hposition
      exact h.code other B code hposition

end Invariant

/-- At the start every stage is where the loop is. -/
theorem invariant_initial : pipeline.Invariant pipeline.initialState where
  follows stage hstage := by
    refine .before none pipeline.header 0 rfl pipeline.header_mem ⟨rfl, fun _ _ _ => rfl,
      ⟨fun _ _ => rfl, fun _ _ => rfl, fun _ _ => rfl⟩, ⟨fun _ _ => rfl, fun _ _ => rfl⟩,
      fun P value hstored => ?_⟩
    cases hstored
  code stage B code hposition := by cases hposition

/-- In every reachable state the stages follow the loop. -/
theorem invariant_reachable (hwired : pipeline.Wired) (h : pipeline.system.Reachable state) :
    pipeline.Invariant state := by
  refine h.invariant pipeline.Invariant ?_ ?_
  · intro first hfirst
    obtain rfl : first = pipeline.initialState := hfirst
    exact invariant_initial
  · intro before stage after hbefore hstep
    exact hbefore.moves hwired hstep.1 (stage_moves hstep.2)

/-- A region that no stage accesses keeps its contents. -/
theorem memory_of_not_owned (hwired : pipeline.Wired) (h : pipeline.system.Reachable state)
    {region : Region} (hnot : ∀ stage < pipeline.numTaskInstances, ¬ pipeline.Owns stage region) :
    state.memory region = pipeline.initialMemory region := by
  have hboth : pipeline.Invariant state ∧ state.memory region = pipeline.initialMemory region := by
    refine h.invariant (fun state => pipeline.Invariant state ∧
      state.memory region = pipeline.initialMemory region) ?_ ?_
    · intro first hfirst
      obtain rfl : first = pipeline.initialState := hfirst
      exact ⟨invariant_initial, rfl⟩
    · intro before stage after ⟨hinvariant, hmemory⟩ hstep
      have hmoves := stage_moves hstep.2
      refine ⟨hinvariant.moves hwired hstep.1 hmoves, ?_⟩
      cases hmoves with
      | enter | pop | push | goTo => exact hmemory
      | execute B I code hposition =>
          have hI := mem_subset_of_code hwired hstep.1
            ((hinvariant.code stage B _ hposition).subset List.mem_cons_self)
          exact (LoopProgram.effect_of_ne (fun hregion => hnot stage hstep.1 ⟨I, hI, hregion⟩)
            _ _).trans hmemory
  exact hboth.2

/-! ## The results of a run -/

/-- Every stage has left the loop. -/
def AllLeft (state : pipeline.PipelineState) : Prop :=
  ∀ stage < pipeline.numTaskInstances, ∃ exit, (state.stages stage).position = .left exit

/-- What the pipeline computes is what the sequential loop computes. -/
structure ComputesSequential (state : pipeline.PipelineState) : Prop where
  /-- A value that was popped is the value of the same execution in the loop, if there is one. -/
  popped : ∀ (queue : pipeline.Queue) (i : Nat) (value : Value) (n : Nat) (sequentialValue : Value),
    (state.channels queue).popped[i]? = some value →
      (pipeline.executions (pipeline.producer queue) n)[i]? = some sequentialValue →
        value = sequentialValue
  /-- There is one if the loop is left. -/
  popped_of_leaves : ∀ n, pipeline.LeavesAt n →
    ∀ (queue : pipeline.Queue) (i : Nat) (value : Value),
    (state.channels queue).popped[i]? = some value →
      (pipeline.executions (pipeline.producer queue) n)[i]? = some value
  leaves : AllLeft state → ∃ n, pipeline.LeavesAt n
  empty : AllLeft state → ∀ queue, (state.channels queue).contents = []
  live_outs : ∀ n, pipeline.LeavesAt n → ∀ stage < pipeline.numTaskInstances, ∀ exit,
    (state.stages stage).position = .left exit → exit = (pipeline.sequential n).block ∧
      ∀ P value, (state.stages stage).stored P = some value →
        value = (pipeline.sequential n).values P
  memory : AllLeft state → ∀ n, pipeline.LeavesAt n → ∀ stage < pipeline.numTaskInstances,
    ∀ region, pipeline.Owns stage region →
      state.memory region = (pipeline.sequential n).memory region

/-- No stage is lost if the loop is left. -/
theorem Lost.not_leaves {channels : pipeline.Queue → Channel Value} {n k : Nat}
    (h : pipeline.Lost stage channels n) : ¬ pipeline.LeavesAt k := by
  intro hleaves
  have hloop := (h.skipped (max n k) (Nat.le_max_left n k)).1
  rw [LoopProgram.sequential_of_leaves hleaves (Nat.le_max_right n k)] at hloop
  exact hleaves hloop

/-- A stage that has left the loop after a loop that is left is at its end. -/
theorem Follows.after_of_left {own : pipeline.StageState} {memory : Region → Content}
    {channels : pipeline.Queue → Channel Value} (h : pipeline.Follows stage own memory channels)
    {exit : Block} (hposition : own.position = .left exit) {k : Nat}
    (hleaves : pipeline.LeavesAt k) :
    ∃ n, pipeline.LeavesAt n ∧ pipeline.After stage own memory channels exit n := by
  cases h with
  | before pred B n hposition' | inside B code n hposition' =>
      rw [hposition] at hposition'
      cases hposition'
  | after exit' n hposition' hexit h =>
      rw [hposition] at hposition'
      cases hposition'
      refine ⟨n, ?_, h⟩
      unfold LoopProgram.LeavesAt
      rw [h.block]
      exact hexit
  | lost n h => exact absurd hleaves h.not_leaves

namespace Invariant

/-- If all stages have left the loop, then the loop is left: a block that it does not leave is one
of a stage. -/
theorem leaves (h : pipeline.Invariant state) (hclosed : pipeline.Closed) (hleft : AllLeft state) :
    ∃ n, pipeline.LeavesAt n := by
  by_contra hnever
  push Not at hnever
  have hlost : ∀ stage < pipeline.numTaskInstances, ∃ n, pipeline.Lost stage state.channels n := by
    intro stage hstage
    obtain ⟨exit, hposition⟩ := hleft stage hstage
    cases h.follows stage hstage with
    | before pred B n hposition' | inside B code n hposition' =>
        rw [hposition] at hposition'
        cases hposition'
    | after exit' n hposition' hexit hafter =>
        refine absurd ?_ (hnever n)
        unfold LoopProgram.LeavesAt
        rw [hafter.block]
        exact hexit
    | lost n hlost => exact ⟨n, hlost⟩
  choose! lostAt hlost using hlost
  let bound := (Finset.range pipeline.numTaskInstances).sup lostAt
  have hloop : (pipeline.sequential bound).block ∈ pipeline.basicBlocks := not_not.mp (hnever bound)
  obtain ⟨stage, hstage, hsubset⟩ := hclosed.complete _ hloop
    (pipeline.terminator (pipeline.sequential bound).block) (by simp)
  have hle : lostAt stage ≤ bound := Finset.le_sup (Finset.mem_range.mpr hstage)
  refine ((hlost stage hstage).skipped bound hle).2 (.inl ?_)
  exact LoopCFG.holds_of_keeps (LoopCFG.keeps_iff.mpr hsubset)

/-- What was pushed into a queue is the start of what its producer had in a loop that is left. -/
theorem pushed_start (h : pipeline.Invariant state) (hwired : pipeline.Wired) {n : Nat}
    (hleaves : pipeline.LeavesAt n) (queue : pipeline.Queue) :
    (state.channels queue).pushed <+: pipeline.executions (pipeline.producer queue) n := by
  have hstart : ∀ {code k}, pipeline.Histories (pipeline.queues.get queue).fromStage
      state.channels code k →
        (state.channels queue).pushed <+: pipeline.executions (pipeline.producer queue) n :=
    fun {_ k} hhistories => List.IsPrefix.trans
      (hhistories.pushed queue (mem_push_queues.mpr rfl) ▸ List.prefix_append _ _)
      (LoopProgram.executions_prefix_of_leaves hleaves k)
  cases h.follows _ (hwired.stages queue).1 with
  | before pred B k hposition hB h => exact hstart h.histories
  | inside B code k hposition hB h => exact hstart h.histories
  | after exit k hposition hexit h => exact hstart h.histories
  | lost k h => exact absurd hleaves h.not_leaves

/-- The queues are empty when all stages have left a loop that is left. -/
theorem empty_of_leaves (h : pipeline.Invariant state) (hwired : pipeline.Wired) {n : Nat}
    (hleaves : pipeline.LeavesAt n) (hleft : AllLeft state) (queue : pipeline.Queue) :
    (state.channels queue).contents = [] := by
  obtain ⟨hfrom, hto⟩ := hwired.stages queue
  obtain ⟨exit, hposition⟩ := hleft _ hfrom
  obtain ⟨other, hotherPosition⟩ := hleft _ hto
  obtain ⟨k, hk, hafter⟩ := (h.follows _ hfrom).after_of_left hposition hleaves
  obtain ⟨m, hm, hotherAfter⟩ := (h.follows _ hto).after_of_left hotherPosition hleaves
  have hpushed : (state.channels queue).pushed = pipeline.executions (pipeline.producer queue) k :=
    (List.append_nil _).symm.trans (hafter.histories.pushed queue (mem_push_queues.mpr rfl))
  have hpopped : (state.channels queue).popped = pipeline.executions (pipeline.producer queue) m :=
    (List.append_nil _).symm.trans (hotherAfter.histories.popped queue (mem_pop_queues.mpr rfl))
  unfold Channel.pushed at hpushed
  rw [LoopProgram.executions_eq_of_leaves hk hm, ← hpopped] at hpushed
  exact List.append_right_eq_self.mp hpushed

/-- The queues are empty when all stages have left the loop. -/
theorem empty (h : pipeline.Invariant state) (hclosed : pipeline.Closed) (hleft : AllLeft state)
    (queue : pipeline.Queue) : (state.channels queue).contents = [] := by
  obtain ⟨n, hleaves⟩ := h.leaves hclosed hleft
  exact h.empty_of_leaves hclosed hleaves hleft queue

end Invariant

/-- In every reachable state a closed pipeline has computed what the sequential loop computes. -/
theorem computes_sequential (hclosed : pipeline.Closed) (h : pipeline.system.Reachable state) :
    ComputesSequential state := by
  have hinvariant := invariant_reachable hclosed h
  refine ⟨fun queue i value n sequentialValue hvalue hsequential => ?_,
    fun n hleaves queue i value hvalue => ?_, hinvariant.leaves hclosed, hinvariant.empty hclosed,
    fun n hleaves stage hstage exit hposition => ?_,
    fun hleft n hleaves stage hstage region howns => ?_⟩
  · exact ((hinvariant.pushed_agree hclosed queue n).of_start
      Channel.popped_prefix_pushed).get_eq hvalue hsequential
  · obtain ⟨rest, hrest⟩ := Channel.popped_prefix_pushed.trans
      (hinvariant.pushed_start hclosed hleaves queue)
    rw [← hrest, List.getElem?_append_left (List.getElem?_eq_some_iff.mp hvalue).1, hvalue]
  · obtain ⟨k, hk, hafter⟩ := (hinvariant.follows stage hstage).after_of_left hposition hleaves
    rw [LoopProgram.sequential_eq_of_leaves hleaves hk]
    exact ⟨hafter.block.symm, hafter.stored⟩
  · obtain ⟨exit, hposition⟩ := hleft stage hstage
    obtain ⟨k, hk, hafter⟩ := (hinvariant.follows stage hstage).after_of_left hposition hleaves
    rw [LoopProgram.sequential_eq_of_leaves hleaves hk]
    exact hafter.agrees.memory region howns

variable (pipeline) in
/-- Let stages move in an order. Those that cannot move wait. -/
def runStages (schedule : List Nat) (state : pipeline.PipelineState) : pipeline.PipelineState :=
  schedule.foldl (fun state stage => (pipeline.stepStage stage state).getD state) state

/-- What comes of an order is reachable. -/
theorem run_stages_reachable {schedule : List Nat}
    (hschedule : ∀ stage ∈ schedule, stage < pipeline.numTaskInstances)
    (h : pipeline.system.Reachable state) :
    pipeline.system.Reachable (pipeline.runStages schedule state) := by
  induction schedule generalizing state with
  | nil => exact h
  | cons stage schedule ih =>
      refine ih (fun other hother => hschedule other (List.mem_cons_of_mem _ hother)) ?_
      dsimp only
      cases hstep : pipeline.stepStage stage state with
      | none => exact h
      | some next => exact h.step ⟨hschedule stage List.mem_cons_self, hstep⟩

variable (pipeline) in
/-- Every value that is popped is one of the sequential loop. -/
def PopsSequential : Prop :=
  ∀ state, pipeline.system.Reachable state → ∀ (queue : pipeline.Queue) (i : Nat) (value : Value),
    (state.channels queue).popped[i]? = some value →
      ∃ n, (pipeline.executions (pipeline.producer queue) n)[i]? = some value

end Runs

/-! ## A stage that jumps over an inner loop

Stages that need nothing of an inner loop jump over it. Where the inner loop terminates this is as
in the sequential loop, and where it does not they go on to instructions that the sequential loop
never comes to (`nested_pops_beyond`).
-/

/-- The blocks of a loop `for (i = 0; i == 0; i = 1) { while (d) {} x = 7; y = x + 1; }` and the
block after it. -/
inductive NestedBlock where
  | header | inner | work | after
  deriving DecidableEq

/-- The instructions of the loop. -/
inductive NestedInst where
  | terminator (B : NestedBlock)
  | i | x | y
  deriving DecidableEq

/-- The control flow of the loop. -/
def nestedCFG : LoopCFG NestedInst NestedBlock where
  functionBlocks := [.header, .inner, .work, .after]
  successors
    | .header => [.inner, .after]
    | .inner => [.inner, .work]
    | .work => [.header]
    | .after => []
  isFinal B := B = .after
  basicBlocks := [.header, .inner, .work]
  header := .header
  parent
    | .terminator B => B
    | .i => .header
    | .x | .y => .work
  terminator := .terminator
  functionBlocks_complete B := by cases B <;> decide
  header_mem := by decide
  parent_terminator _ := rfl
  not_final := by decide
  reaches_final := by
    have hblocks : ∀ B : NestedBlock,
        B ∈ ([.header, .inner, .work, .after] : List NestedBlock) := by
      intro B
      cases B <;> decide
    simp only [reaches_final_iff hblocks]
    decide

/-- The loop, for a condition `d` that does not change in it. -/
def nestedProgram (d : Bool) : LoopProgram NestedInst NestedBlock Nat Unit Unit where
  toLoopCFG := nestedCFG
  phis
    | .header => [.i]
    | _ => []
  body
    | .work => [.x, .y]
    | _ => []
  operands
    | .terminator .header => [.i]
    | .y => [.x]
    | _ => []
  incoming _ pred := .inr (if pred = some .work then 1 else 0)
  region _ := none
  result
    | .x, _, _ => 7
    | _, arguments, _ => arguments.sum + 1
  update _ _ content := content
  branch
    | .header, arguments => if arguments = [0] then .inner else .after
    | .inner, _ => if d then .inner else .work
    | .work, _ => .header
    | .after, _ => .after
  undefined := 0
  initialMemory _ := ()
  parent_phi B := by cases B <;> decide
  parent_body B := by cases B <;> decide
  not_phi B := by cases B <;> decide
  nodup_phis B := by cases B <;> decide
  nodup_body B := by cases B <;> decide
  defined_before B before I after hbody P hP := by
    cases B with
    | work =>
        match before, hbody with
        | [], hbody =>
            obtain ⟨rfl, -⟩ := List.cons_eq_cons.mp hbody
            simp at hP
        | [_], hbody =>
            obtain ⟨-, hrest⟩ := List.cons_eq_cons.mp hbody
            obtain ⟨rfl, rfl⟩ := List.cons_eq_cons.mp hrest
            obtain rfl : P = .x := by simpa using hP
            decide
        | _ :: _ :: before, hbody => simp at hbody
    | header | inner | after => simp at hbody
  branch_mem B hB arguments := by
    cases B with
    | header =>
        dsimp only
        split <;> decide
    | inner => cases d <;> (dsimp only; decide)
    | work =>
        dsimp only
        decide
    | after => exact absurd hB (by decide)

/-- A pipeline for the loop. The last stage has the inner loop, and the others only count. -/
def nestedLoop (d : Bool) : Pipeline NestedInst NestedBlock Nat Unit Unit where
  toLoopProgram := nestedProgram d
  numTaskInstances := 3
  subset
    | 0 => [.terminator .header, .i, .x]
    | 1 => [.terminator .header, .i, .y]
    | _ => [.terminator .header, .i, .terminator .inner, .terminator .work]
  queues := [⟨.x, [.y], 0, 1⟩]
  liveOuts
    | 1 => [.y]
    | _ => []

/-- The header and the block after the inner loop depend on branches that every stage has. -/
theorem nested_controlled (d : Bool) : ∀ stage < 3, ∀ B ∈ [NestedBlock.header, .work],
    nestedCFG.Controlled ((nestedLoop d).subset stage) B := by
  unfold LoopCFG.Controlled LoopCFG.ControlDependent
  simp only [control_dependent_iff nestedCFG.functionBlocks_complete]
  decide +revert

/-- The subsets of the stages are closed. -/
theorem nested_subset_closed (d : Bool) : ∀ stage < 3,
    nestedCFG.Closed ((nestedLoop d).subset stage) := by
  have hinside : ∀ stage < 3, ∀ inst ∈ (nestedLoop d).subset stage,
      nestedCFG.parent inst ∈ nestedCFG.basicBlocks := by decide +revert
  have hexits : ∀ stage < 3, ∀ B ∈ nestedCFG.basicBlocks, ∀ exit ∈ nestedCFG.successors B,
      exit ∉ nestedCFG.basicBlocks → nestedCFG.terminator B ∈ (nestedLoop d).subset stage := by
    decide +revert
  have hcontrols : ∀ stage < 3, ∀ inst ∈ (nestedLoop d).subset stage,
      ∀ B ∈ nestedCFG.basicBlocks, nestedCFG.ControlDependent B (nestedCFG.parent inst) →
        nestedCFG.terminator B ∈ (nestedLoop d).subset stage := by
    unfold LoopCFG.ControlDependent
    simp only [control_dependent_iff nestedCFG.functionBlocks_complete]
    decide +revert
  exact fun stage hstage => ⟨hinside stage hstage, hexits stage hstage, hcontrols stage hstage⟩

/-- The pipeline is closed. -/
theorem nested_closed (d : Bool) : (nestedLoop d).Closed where
  subset := nested_subset_closed d
  operands := by
    unfold Holds
    decide +revert
  incoming _ _ _ _ _ _ h := by cases h
  phis stage hstage B I hI _ pred hpred hstep := by
    refine nested_controlled d stage hstage pred ?_
    cases B with
    | header => decide +revert
    | inner | work | after => cases hI
  pops := by
    intro stage hstage queue _
    refine nested_controlled d stage hstage _ ?_
    decide +revert
  pushes := by
    intro stage _ queue hqueue
    rw [← mem_push_queues.mp hqueue]
    refine .inl ?_
    decide +revert
  liveOuts := by
    unfold Holds
    decide +revert
  producers := by decide +revert
  stages := by decide +revert
  regions _ _ _ _ _ _ _ _ _ h := by cases h
  complete := by decide +revert

/-- An order in which the stages go on as far as they can. -/
def nestedSchedule : List Nat := [0, 0, 0, 0, 0, 0, 0, 0, 0, 0, 0, 1, 1, 1, 1, 1, 1, 1, 1, 1, 1, 2,
  2, 2, 2, 2, 2, 2, 2]

/-- The state after it. -/
def nestedState (d : Bool) : (nestedLoop d).PipelineState :=
  (nestedLoop d).runStages nestedSchedule (nestedLoop d).initialState

/-- The state is reachable. -/
theorem nested_reachable (d : Bool) : (nestedLoop d).system.Reachable (nestedState d) :=
  run_stages_reachable (by decide +revert) (.initial rfl)

/-- When the inner loop ends the live-out variable has the value of the loop. -/
theorem nested_computes_sequential :
    ((nestedState false).stages 1).stored .y = some 8 ∧ ComputesSequential (nestedState false) :=
  ⟨by decide, computes_sequential (nested_closed false) (nested_reachable false)⟩

/-- A loop that stays in its inner loop does not come to the block after that. -/
theorem nested_stays (n : Nat) : ((nestedLoop true).sequential (n + 1)).block = .inner := by
  induction n with
  | zero => decide
  | succ n ih =>
      have hloop :
          ((nestedLoop true).sequential (n + 1)).block ∈ (nestedLoop true).basicBlocks := by
        rw [ih]
        decide
      refine (LoopProgram.block_of_visit hloop).trans ?_
      rw [ih]
      rfl

/-- It executes nothing there. -/
theorem nested_executions (n : Nat) : (nestedLoop true).executions .x n = [] := by
  refine LoopProgram.executions_of_not_visited (Nat.zero_le n) fun i _ _ _ heq => ?_
  cases i with
  | zero => exact absurd heq (by decide)
  | succ i =>
      rw [nested_stays] at heq
      exact absurd heq (by decide)

/-- When the inner loop does not end, a value is popped that the sequential loop does not have. -/
theorem nested_pops_beyond : (nestedLoop true).Closed ∧ ¬ (nestedLoop true).PopsSequential := by
  refine ⟨nested_closed true, fun h => ?_⟩
  have hpopped : ((nestedState true).channels ⟨0, by decide⟩).popped[0]? = some 7 := by decide
  obtain ⟨n, hn⟩ := h _ (nested_reachable true) _ 0 7 hpopped
  have hproducer : (nestedLoop true).producer ⟨0, by decide⟩ = .x := rfl
  rw [hproducer, nested_executions] at hn
  cases hn

end Gino.Dswp.Pipeline
