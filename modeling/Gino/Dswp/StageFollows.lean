import Gino.Dswp.StageVisit
import Gino.Dswp.NextVisit

/-!
# A stage follows the sequential loop

A stage of a wired pipeline is at a visit of the sequential loop: what it has is what the loop has
there, and it has pushed and popped what the loop computed until then (`Follows`). When it jumps
over blocks that the loop never leaves it is lost, and then the loop computes nothing more that the
stage needs or pushes. Each step of a stage keeps this, provided that it pops the right values.
-/

namespace Gino.Dswp.Pipeline

open Relation Graph Machine

variable {Inst Block Value Region Content : Type*}
  (pipeline : Pipeline Inst Block Value Region Content)

section Relevant

variable [DecidableEq Block] (stage : Nat)

/-- A block with an instruction of the stage or the producer of what it pops. -/
def Relevant (B : Block) : Prop :=
  pipeline.holds (pipeline.subset stage) B = true ∨
    ∃ queue ∈ pipeline.popQueues stage, pipeline.parent (pipeline.producer queue) = B

variable {pipeline} {stage : Nat}

/-- The block of an instruction whose value the stage has. -/
theorem Holds.relevant {P : Inst} (h : pipeline.Holds stage P) :
    pipeline.Relevant stage (pipeline.parent P) := by
  rcases h with hsubset | ⟨queue, hqueue, rfl⟩
  · exact .inl (LoopCFG.holds_iff.mpr ⟨P, hsubset, rfl⟩)
  · exact .inr ⟨queue, hqueue, rfl⟩

/-- The branches that such a block depends on are in the stage. -/
theorem Wired.controlled_of_relevant [DecidableEq Inst] (hwired : pipeline.Wired)
    (hstage : stage < pipeline.numTaskInstances) {B : Block} (h : pipeline.Relevant stage B) :
    pipeline.Controlled (pipeline.subset stage) B := by
  rcases h with hholds | ⟨queue, hqueue, rfl⟩
  · exact (hwired.subset stage hstage).controlled hholds
  · exact hwired.pops stage hstage queue hqueue

end Relevant

variable [DecidableEq Inst] [DecidableEq Block] [DecidableEq Region] (stage : Nat)

/-- What a stage has pushed and popped, with what the rest of its block pushes and pops, is what the
loop computed in some visits. -/
structure Histories (channels : pipeline.Queue → Channel Value)
    (code : List pipeline.StageInstruction) (n : Nat) : Prop where
  pushed : ∀ queue ∈ pipeline.pushQueues stage, (channels queue).pushed ++
    List.replicate (code.count (.push queue))
      ((pipeline.sequential n).values (pipeline.producer queue)) =
        pipeline.executions (pipeline.producer queue) n
  popped : ∀ queue ∈ pipeline.popQueues stage, (channels queue).popped ++
    List.replicate (code.count (.pop queue))
      ((pipeline.sequential n).values (pipeline.producer queue)) =
        pipeline.executions (pipeline.producer queue) n

/-- A live-out variable that a stage stores whenever it has executed its producer. -/
def StoresInLoop (P : Inst) : Prop := P ∈ pipeline.liveOuts stage ∧
  pipeline.determineLatestPointsToInsertLiveOutStore stage P = [pipeline.parent P]

/-- A stage before the block of a visit. -/
structure Before (own : pipeline.StageState) (memory : Region → Content)
    (channels : pipeline.Queue → Channel Value) (pred : Option Block) (B : Block) (n : Nat) :
    Prop where
  block : (pipeline.sequential n).block = B
  pred : ∀ I ∈ pipeline.phis B, I ∈ pipeline.subset stage → pred = (pipeline.sequential n).pred
  agrees : pipeline.Agrees stage own.values memory (pipeline.sequential n)
  histories : pipeline.Histories stage channels [] n
  stored : ∀ P value, own.stored P = some value → pipeline.StoresInLoop stage P ∧
    value = (pipeline.sequential n).values P

/-- A stage in the code of the block of a visit. -/
structure Inside (own : pipeline.StageState) (memory : Region → Content)
    (channels : pipeline.Queue → Channel Value) (B : Block)
    (code : List pipeline.StageInstruction) (n : Nat) : Prop where
  block : (pipeline.sequential n).block = B
  completes : pipeline.Completes stage (pipeline.sequential (n + 1)) code own.values memory
  histories : pipeline.Histories stage channels code (n + 1)
  stored : ∀ P value, own.stored P = some value → pipeline.StoresInLoop stage P ∧
    (pipeline.parent P ≠ B → value = (pipeline.sequential (n + 1)).values P)

/-- A stage that has left the loop. -/
structure After (own : pipeline.StageState) (memory : Region → Content)
    (channels : pipeline.Queue → Channel Value) (exit : Block) (n : Nat) : Prop where
  block : (pipeline.sequential n).block = exit
  agrees : pipeline.Agrees stage own.values memory (pipeline.sequential n)
  histories : pipeline.Histories stage channels [] n
  stored : ∀ P value, own.stored P = some value → value = (pipeline.sequential n).values P

/-- A stage that is past a part of the loop that the loop does not leave. -/
structure Lost (channels : pipeline.Queue → Channel Value) (n : Nat) : Prop where
  skipped : ∀ k, n ≤ k → (pipeline.sequential k).block ∈ pipeline.basicBlocks ∧
    ¬ pipeline.Relevant stage (pipeline.sequential k).block
  pushed : ∀ queue ∈ pipeline.pushQueues stage,
    pipeline.executions (pipeline.producer queue) n <+: (channels queue).pushed
  popped : ∀ queue ∈ pipeline.popQueues stage,
    pipeline.executions (pipeline.producer queue) n <+: (channels queue).popped

/-- A stage is at a visit of the loop, or it is lost. -/
inductive Follows (own : pipeline.StageState) (memory : Region → Content)
    (channels : pipeline.Queue → Channel Value) : Prop where
  | before (pred : Option Block) (B : Block) (n : Nat) (hposition : own.position = .entering pred B)
      (hB : B ∈ pipeline.basicBlocks) (h : pipeline.Before stage own memory channels pred B n)
  | inside (B : Block) (code : List pipeline.StageInstruction) (n : Nat)
      (hposition : own.position = .running B code) (hB : B ∈ pipeline.basicBlocks)
      (h : pipeline.Inside stage own memory channels B code n)
  | after (exit : Block) (n : Nat) (hposition : own.position = .left exit)
      (hexit : exit ∉ pipeline.basicBlocks)
      (h : pipeline.After stage own memory channels exit n)
  | lost (n : Nat) (h : pipeline.Lost stage channels n)

variable {pipeline} {stage} {own : pipeline.StageState} {memory : Region → Content}
  {channels : pipeline.Queue → Channel Value} {B : Block}

/-! ## Blocks that the stage jumps over -/

namespace Wired

/-- A visit of a block without anything of the stage changes nothing that the stage needs. -/
theorem visit_of_not_relevant (hwired : pipeline.Wired)
    (hstage : stage < pipeline.numTaskInstances)
    {state : LoopState Inst Block Value Region Content}
    (h : ¬ pipeline.Relevant stage state.block) :
    (∀ P, pipeline.Holds stage P → (pipeline.visit state).values P = state.values P) ∧
      ∀ region, pipeline.Owns stage region →
        (pipeline.visit state).memory region = state.memory region := by
  refine ⟨fun P hholds => LoopProgram.visit_values fun heq => h (heq ▸ hholds.relevant),
    fun region howns => LoopProgram.visit_memory fun hB I hI hregion => h (.inl ?_)⟩
  exact LoopCFG.holds_iff.mpr ⟨I, hwired.owners stage hstage region howns _ hB I hI hregion,
    pipeline.parent_body _ I hI⟩

/-- Such visits change nothing that the stage needs. -/
theorem sequential_skip (hwired : pipeline.Wired) (hstage : stage < pipeline.numTaskInstances)
    {n m : Nat} (hle : n ≤ m)
    (hskip : ∀ i, n ≤ i → i < m → ¬ pipeline.Relevant stage (pipeline.sequential i).block) :
    (∀ P, pipeline.Holds stage P →
      (pipeline.sequential m).values P = (pipeline.sequential n).values P) ∧
      ∀ region, pipeline.Owns stage region →
        (pipeline.sequential m).memory region = (pipeline.sequential n).memory region := by
  induction m, hle using Nat.le_induction with
  | base => exact ⟨fun _ _ => rfl, fun _ _ => rfl⟩
  | succ m hle ih =>
      obtain ⟨hvalues, hmemory⟩ := ih fun i hi hlt => hskip i hi (hlt.trans m.lt_succ_self)
      obtain ⟨hvisit, hvisitMemory⟩ :=
        hwired.visit_of_not_relevant hstage (hskip m hle m.lt_succ_self)
      exact ⟨fun P hholds => (hvisit P hholds).trans (hvalues P hholds),
        fun region howns => (hvisitMemory region howns).trans (hmemory region howns)⟩

/-- Nothing of the stage is executed in such visits. -/
theorem executions_skip {P : Inst} (hholds : pipeline.Holds stage P) {n m : Nat} (hle : n ≤ m)
    (hskip : ∀ i, n ≤ i → i < m → ¬ pipeline.Relevant stage (pipeline.sequential i).block) :
    pipeline.executions P m = pipeline.executions P n :=
  LoopProgram.executions_of_not_visited hle fun i hi hlt _ heq =>
    hskip i hi hlt (heq ▸ hholds.relevant)

end Wired

/-- Histories without code do not change in visits of blocks without anything of the stage. -/
theorem Histories.skip {n m : Nat} (h : pipeline.Histories stage channels [] n)
    (hwired : pipeline.Wired) (hstage : stage < pipeline.numTaskInstances) (hle : n ≤ m)
    (hskip : ∀ i, n ≤ i → i < m → ¬ pipeline.Relevant stage (pipeline.sequential i).block) :
    pipeline.Histories stage channels [] m where
  pushed queue hqueue :=
    (h.pushed queue hqueue).trans (Wired.executions_skip
      (hwired.pushes stage hstage queue hqueue) hle hskip).symm
  popped queue hqueue :=
    (h.popped queue hqueue).trans (Wired.executions_skip
      (.inr ⟨queue, hqueue, rfl⟩) hle hskip).symm

/-! ## Steps in a block -/

/-- The values of an instruction until after a block of the loop. -/
theorem executions_visit (P : Inst) {n : Nat}
    (hB : (pipeline.sequential n).block ∈ pipeline.basicBlocks) :
    pipeline.executions P n ++ List.replicate
      (if pipeline.parent P = (pipeline.sequential n).block then 1 else 0)
        ((pipeline.sequential (n + 1)).values P) = pipeline.executions P (n + 1) := by
  rw [LoopProgram.executions]
  by_cases heq : pipeline.parent P = (pipeline.sequential n).block
  · rw [if_pos heq, if_pos ⟨hB, heq.symm⟩]
    rfl
  · rw [if_neg heq, if_neg fun hand => heq hand.2.symm]
    exact List.append_nil _

/-- The stage enters a block. -/
theorem Before.enter {pred : Option Block} {n : Nat}
    (h : pipeline.Before stage own memory channels pred B n) (hwired : pipeline.Wired)
    (hstage : stage < pipeline.numTaskInstances) (hB : B ∈ pipeline.basicBlocks) :
    pipeline.Inside stage { own with
      values := pipeline.enterStageBlock stage pred B own.values
      position := .running B (pipeline.stageCode stage B) } memory channels B
        (pipeline.stageCode stage B) n := by
  obtain rfl := h.block
  obtain ⟨-, hplaced, hcount⟩ :=
    hwired.placed_stage_code hstage (pipeline.sequential n).block
  refine ⟨rfl, h.agrees.completes_stage_code hwired hstage hB h.pred, ⟨?_, ?_⟩, ?_⟩
  · intro queue hqueue
    have hpushed : (channels queue).pushed = pipeline.executions (pipeline.producer queue) n :=
      (List.append_nil _).symm.trans (h.histories.pushed queue hqueue)
    rw [hpushed, hcount, ← executions_visit _ hB]
    simp only [hqueue, true_and]
  · intro queue hqueue
    have hpopped : (channels queue).popped = pipeline.executions (pipeline.producer queue) n :=
      (List.append_nil _).symm.trans (h.histories.popped queue hqueue)
    rw [hpopped, hplaced.count_pop, ← executions_visit _ hB]
    simp only [hqueue, true_and]
  · intro P value hstored
    obtain ⟨hpoints, hvalue⟩ := h.stored P value hstored
    exact ⟨hpoints, fun hne => hvalue.trans (LoopProgram.visit_values hne).symm⟩

namespace Inside

variable {code : List pipeline.StageInstruction} {n : Nat}

/-- The stage executes an instruction. -/
theorem execute {I : Inst}
    (h : pipeline.Inside stage own memory channels B (.original I :: code) n) :
    pipeline.Inside stage { own with
      values := Function.update own.values (.original I)
        (pipeline.value I (pipeline.arguments stage own.values I) memory)
      position := .running B code }
        (pipeline.effect I (pipeline.arguments stage own.values I) memory) channels B code n where
  block := h.block
  completes := h.completes
  histories :=
    { pushed := fun queue hqueue => by
        rw [← h.histories.pushed queue hqueue, List.count_cons_of_ne (by simp)]
      popped := fun queue hqueue => by
        rw [← h.histories.popped queue hqueue, List.count_cons_of_ne (by simp)] }
  stored := h.stored

/-- The stage pops the value of the loop. -/
theorem pop {queue : pipeline.Queue} {channel : Channel Value}
    (h : pipeline.Inside stage own memory channels B (.pop queue :: code) n)
    (hpop : (channels queue).pop = some
      ((pipeline.sequential (n + 1)).values (pipeline.producer queue), channel)) :
    pipeline.Inside stage { own with
      values := Function.update own.values (.pop queue)
        ((pipeline.sequential (n + 1)).values (pipeline.producer queue))
      position := .running B code } memory (Function.update channels queue channel) B code n where
  block := h.block
  completes := h.completes
  histories := by
    obtain ⟨hpopped, hpushed⟩ := Channel.pop_eq_some hpop
    refine ⟨fun other hother => ?_, fun other hother => ?_⟩
    · have hsame : (Function.update channels queue channel other).pushed =
          (channels other).pushed := by
        by_cases heq : other = queue
        · rw [heq, Function.update_self, hpushed]
        · rw [Function.update_of_ne heq]
      rw [hsame, ← h.histories.pushed other hother, List.count_cons_of_ne (by simp)]
    · rw [← h.histories.popped other hother]
      by_cases heq : other = queue
      · subst heq
        rw [Function.update_self, hpopped, List.count_cons_self, List.replicate_succ,
          List.append_assoc]
        rfl
      · rw [Function.update_of_ne heq, List.count_cons_of_ne (by simpa using Ne.symm heq)]
  stored := h.stored

/-- The stage pushes the value of the loop. -/
theorem push {queue : pipeline.Queue}
    (h : pipeline.Inside stage own memory channels B (.push queue :: code) n) :
    pipeline.Inside stage { own with position := .running B code } memory
      (Function.update channels queue ((channels queue).push
        (pipeline.clonedValues stage own.values (pipeline.producer queue)))) B code n where
  block := h.block
  completes := h.completes.2
  histories := by
    rw [h.completes.1]
    refine ⟨fun other hother => ?_, fun other hother => ?_⟩
    · rw [← h.histories.pushed other hother]
      by_cases heq : other = queue
      · subst heq
        rw [Function.update_self, Channel.pushed_push, List.count_cons_self, List.replicate_succ,
          List.append_assoc]
        rfl
      · rw [Function.update_of_ne heq, List.count_cons_of_ne (by simpa using Ne.symm heq)]
    · have hsame : (Function.update channels queue ((channels queue).push
          ((pipeline.sequential (n + 1)).values (pipeline.producer queue))) other).popped =
            (channels other).popped := by
        by_cases heq : other = queue
        · rw [heq, Function.update_self, Channel.popped_push]
        · rw [Function.update_of_ne heq]
      rw [hsame, ← h.histories.popped other hother, List.count_cons_of_ne (by simp)]
  stored := h.stored

end Inside

/-! ## From a block to the next one -/

omit [DecidableEq Region] in
/-- The jumps of a stage lead to the immediate post-dominators. -/
theorem Wired.post_dominator_of_jump (hwired : pipeline.Wired)
    (hstage : stage < pipeline.numTaskInstances) {next : Block}
    (h : (pipeline.stageJumps stage).lookup B = some next) :
    pipeline.postDominatingBB B = some next ∧ next ∈ pipeline.basicBlocks := by
  obtain ⟨jumps, visited, hjumps, hfound⟩ :=
    LoopCFG.exists_generate_loop_subset (hwired.subset stage hstage) (Nat.le_refl _)
  unfold stageJumps at h
  rw [hjumps] at h
  obtain ⟨before, after, hsplit, -⟩ := List.lookup_eq_some_iff.mp h
  have hmem : (B, next) ∈ jumps := by
    rw [show jumps = before ++ (B, next) :: after from hsplit]
    simp
  exact ⟨(hfound.jumps _ hmem).2.2.2.1, (hfound.jumps _ hmem).2.2.2.2⟩

namespace Inside

variable {n : Nat}

/-- The live-out variables after the end of a block. -/
theorem stored_at_end (h : pipeline.Inside stage own memory channels B [] n)
    (hwired : pipeline.Wired) (hstage : stage < pipeline.numTaskInstances)
    (hB : B ∈ pipeline.basicBlocks) {P : Inst} {value : Value}
    (hstored : pipeline.storeLiveOuts stage B own P = some value) :
    pipeline.StoresInLoop stage P ∧ value = (pipeline.sequential (n + 1)).values P := by
  unfold storeLiveOuts at hstored
  split at hstored
  · case _ hpoint =>
      obtain ⟨hliveOut, hmem⟩ := hpoint
      refine ⟨⟨hliveOut, ?_⟩, ?_⟩
      · -- A block of the loop is not one of the exits.
        unfold determineLatestPointsToInsertLiveOutStore at hmem ⊢
        dsimp only at hmem ⊢
        split at hmem
        · case _ hnone => exact if_pos hnone
        · exact absurd hB (LoopCFG.mem_loop_exit_basic_blocks.mp (List.mem_of_mem_filter hmem)).1
      · rw [← Option.some.inj hstored]
        exact h.completes.cloned_values (hwired.liveOuts stage hstage P hliveOut)
  · case _ hpoint =>
      obtain ⟨⟨hliveOut, hpoints⟩, hvalue⟩ := h.stored P value hstored
      refine ⟨⟨hliveOut, hpoints⟩, hvalue fun hparent => hpoint ⟨hliveOut, ?_⟩⟩
      rw [hpoints, hparent]
      exact List.mem_singleton_self B

end Inside

/-- What a stage that comes to a block has to agree on with a visit of the block. -/
structure Arrives (stage : Nat) (own : pipeline.StageState) (memory : Region → Content)
    (channels : pipeline.Queue → Channel Value) (B next : Block) (m : Nat) : Prop where
  block : (pipeline.sequential m).block = next
  pred : ∀ I ∈ pipeline.phis next, I ∈ pipeline.subset stage →
    some B = (pipeline.sequential m).pred
  agrees : pipeline.Agrees stage own.values memory (pipeline.sequential m)
  histories : pipeline.Histories stage channels [] m
  stored : ∀ P value, pipeline.storeLiveOuts stage B own P = some value →
    pipeline.StoresInLoop stage P ∧ value = (pipeline.sequential m).values P

/-- A stage that comes to a block follows the loop. -/
theorem Arrives.follows {next : Block} {m : Nat}
    (h : Arrives stage own memory channels B next m) (hwired : pipeline.Wired)
    (hstage : stage < pipeline.numTaskInstances) :
    pipeline.Follows stage (pipeline.goTo stage B next own) memory channels := by
  unfold goTo
  dsimp only
  by_cases hnext : next ∈ pipeline.basicBlocks
  · rw [if_pos hnext]
    exact .before (some B) next m rfl hnext ⟨h.block, h.pred, h.agrees, h.histories, h.stored⟩
  · rw [if_neg hnext]
    refine .after next m rfl hnext ⟨h.block, h.agrees, h.histories, fun P value hstored => ?_⟩
    dsimp only [storeLiveOuts] at hstored
    split at hstored
    · case _ hpoint =>
        rw [← Option.some.inj hstored]
        exact h.agrees.cloned_values (hwired.liveOuts stage hstage P hpoint.1)
    · exact (h.stored P value hstored).2

namespace Inside

variable {n : Nat}

/-- After a block the stage can go on where the loop goes. -/
theorem arrives (h : pipeline.Inside stage own memory channels B [] n) (hwired : pipeline.Wired)
    (hstage : stage < pipeline.numTaskInstances) (hB : B ∈ pipeline.basicBlocks) {m : Nat}
    (hlt : n < m) (hskip : ∀ i, n < i → i < m →
      ¬ pipeline.Controlled (pipeline.subset stage) (pipeline.sequential i).block) :
    Arrives stage own memory channels B (pipeline.sequential m).block m := by
  have hskip' : ∀ i, n + 1 ≤ i → i < m →
      ¬ pipeline.Relevant stage (pipeline.sequential i).block := fun i hi hlt hrelevant =>
    hskip i hi hlt (hwired.controlled_of_relevant hstage hrelevant)
  obtain ⟨hvalues, hmemory⟩ := hwired.sequential_skip hstage hlt hskip'
  refine ⟨rfl, fun I hphi hI => ?_, Agrees.congr h.completes hvalues hmemory,
    h.histories.skip hwired hstage hlt hskip', fun P value hstored => ?_⟩
  · -- A PHI depends on the blocks before it, so none of them was jumped over.
    obtain ⟨j, rfl⟩ := Nat.exists_eq_add_of_lt hlt
    have hloop : (pipeline.sequential (n + j)).block ∈ pipeline.basicBlocks := by
      refine LoopProgram.mem_basic_blocks_of_le ?_ (Nat.le_succ (n + j))
      rw [← pipeline.parent_phi _ I hphi]
      exact (hwired.subset stage hstage).inside I hI
    obtain ⟨hsuccessor, hpred⟩ := LoopProgram.successor_of_visit hloop
    have hcontrolled := hwired.phis stage hstage _ I hphi hI _ hloop hsuccessor
    rcases Nat.eq_zero_or_pos j with rfl | hpos
    · rw [← h.block]
      exact hpred.symm
    · exact absurd hcontrolled (hskip (n + j) (by omega) (by omega))
  · obtain ⟨hstores, hvalue⟩ := h.stored_at_end hwired hstage hB hstored
    exact ⟨hstores, hvalue.trans (hvalues P (hwired.liveOuts stage hstage P hstores.1)).symm⟩

/-- A stage that goes on after a block follows the loop. -/
theorem go_to (h : pipeline.Inside stage own memory channels B [] n) (hwired : pipeline.Wired)
    (hstage : stage < pipeline.numTaskInstances) (hB : B ∈ pipeline.basicBlocks) {next : Block}
    (hnext : pipeline.nextBlock stage B own.values = some next) :
    pipeline.Follows stage (pipeline.goTo stage B next own) memory channels := by
  unfold nextBlock at hnext
  have hblock := h.block
  cases hkeeps : pipeline.keeps (pipeline.subset stage) B with
  | true =>
      have hterminator := LoopCFG.keeps_iff.mp hkeeps
      have harguments : pipeline.arguments stage own.values (pipeline.terminator B) =
          (pipeline.operands (pipeline.terminator B)).map (pipeline.sequential (n + 1)).values :=
        List.map_congr_left fun P hP =>
          h.completes.cloned_values (hwired.operands stage hstage _ hterminator P hP)
      rw [hkeeps, if_pos rfl, harguments, Option.some.injEq] at hnext
      have hsame : (pipeline.sequential (n + 1)).block = next := by
        rw [← hnext, ← hblock]
        exact LoopProgram.block_of_visit (hblock ▸ hB)
      rw [← hsame]
      exact (h.arrives hwired hstage hB (Nat.lt_succ_self n) fun i hi hlt => by omega).follows
        hwired hstage
  | false =>
      rw [hkeeps, if_neg Bool.false_ne_true] at hnext
      obtain ⟨hpost, hinside⟩ := hwired.post_dominator_of_jump hstage hnext
      subst hblock
      -- The loop comes to the post-dominator later, or it goes on without the stage for ever.
      rcases LoopProgram.next_visit (hwired.subset stage hstage) hB hkeeps hpost hinside with
        ⟨m, hlt, rfl, hskip⟩ | hnever
      · exact (h.arrives hwired hstage hB hlt hskip).follows hwired hstage
      · refine .lost (n + 1) ⟨fun k hk => ⟨(hnever k hk).1, fun hrelevant => (hnever k hk).2
          (hwired.controlled_of_relevant hstage hrelevant)⟩, fun queue hqueue => ?_,
          fun queue hqueue => ?_⟩
        · rw [← h.histories.pushed queue hqueue, List.count_nil, List.replicate_zero,
            List.append_nil]
        · rw [← h.histories.popped queue hqueue, List.count_nil, List.replicate_zero,
            List.append_nil]

end Inside

end Gino.Dswp.Pipeline
