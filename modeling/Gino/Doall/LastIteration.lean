import Gino.Doall.WrapAround
import Mathlib.Algebra.Ring.Prod

/-!
# The live-out that the last iteration stores

A live-out that is not reduced is stored by the task that executed the last iteration of the loop.
A task decides that alone when it leaves its loop: the governing variable minus one step must not be
at or past the exit value. `last_iteration_iff` says when this singles out one task, and that its
value is the sequential one: always if the loop runs an iteration, and else only if the value one
step before the start is not at or past the exit value.
-/

namespace Gino.Doall

open Machine

/-! ## Two variables in one task -/

section Pair

variable {V W : Type*}

/-- The code of the compiler library on the values of two variables. -/
def IVUtility.pair (left : IVUtility V) (right : IVUtility W) : IVUtility (V × W) where
  createChunkPHI := left.createChunkPHI
  scaleInductionVariableStep stepOfIV factor :=
    (left.scaleInductionVariableStep stepOfIV.1 factor,
      right.scaleInductionVariableStep stepOfIV.2 factor)
  offsetIVPHI startOfIV offsetValue :=
    (left.offsetIVPHI startOfIV.1 offsetValue.1, right.offsetIVPHI startOfIV.2 offsetValue.2)
  chunkInductionVariablePHI isChunkCompleted value chunkStepSize :=
    (left.chunkInductionVariablePHI isChunkCompleted value.1 chunkStepSize.1,
      right.chunkInductionVariablePHI isChunkCompleted value.2 chunkStepSize.2)
  generateCodeToComputeValueToUseForAnIterationAgo value stepSize :=
    (left.generateCodeToComputeValueToUseForAnIterationAgo value.1 stepSize.1,
      right.generateCodeToComputeValueToUseForAnIterationAgo value.2 stepSize.2)
  generateCodeToComputePreviousValueUsedToCompareAgainstExitConditionValue value stepSize :=
    (left.generateCodeToComputePreviousValueUsedToCompareAgainstExitConditionValue value.1
        stepSize.1,
      right.generateCodeToComputePreviousValueUsedToCompareAgainstExitConditionValue value.2
        stepSize.2)

/-- On two variables the code does what it does on each of them. -/
theorem IVUtility.Documented.pair [Ring V] [Ring W] {left : IVUtility V} {right : IVUtility W}
    (hleft : left.Documented) (hright : right.Documented) : (left.pair right).Documented where
  chunk := hleft.chunk
  scale stepOfIV factor := Prod.ext (hleft.scale _ _) (hright.scale _ _)
  offset startOfIV offsetValue := Prod.ext (hleft.offset _ _) (hright.offset _ _)
  jump isChunkCompleted value chunkStepSize := by
    refine Prod.ext ((hleft.jump _ _ _).trans ?_) ((hright.jump _ _ _).trans ?_)
    · cases isChunkCompleted <;> rfl
    · cases isChunkCompleted <;> rfl
  ago value stepSize := Prod.ext (hleft.ago _ _) (hright.ago _ _)
  previous value stepSize := Prod.ext (hleft.previous _ _) (hright.previous _ _)

end Pair

/-! ## The task and its last block -/

/-- An induction variable that is live after the loop, with a width of its own. -/
structure LiveOutIV where
  width : Nat
  startValue : BitVec width
  stepValue : BitVec width

/-- The value of the live-out after an iteration count of the sequential loop. -/
def LiveOutIV.sequential (liveOut : LiveOutIV) (iteration : Nat) : BitVec liveOut.width :=
  liveOut.startValue + liveOut.stepValue * BitVec.ofNat liveOut.width iteration

section Task

variable (iv : WordIV) (liveOut : LiveOutIV)

/-- The loop with its governing variable and the live-out. It is left from its header. -/
def WordIV.loopWith : ChunkedLoop Unit (BitVec iv.width × BitVec liveOut.width) where
  startValue _ := (iv.word iv.startValue, liveOut.startValue)
  stepValue _ := (iv.word iv.stepValue, liveOut.stepValue)
  governing := ()
  exitCondition values := iv.exitTest values.1
  requiresConditionBeforeEnteringHeader := false

/-- `DOALL::getBasicBlockExecutedOnlyByLastIterationBeforeExitingTask`: whether a task that leaves
its loop takes the block. `generateCodeToDetermineLastIterationValue` is given the governing
variable where the task left, whether it left after skipping to the next chunk, and the step. -/
def executesLastIterationBlock {σ : Type*}
    (generateCodeToDetermineLastIterationValue :
      BitVec iv.width → Bool → BitVec iv.width → BitVec iv.width)
    (leave : Leave Unit (BitVec iv.width × BitVec liveOut.width) σ) : Bool :=
  let loopGoverningExitPHI := (leave.state.ivs ()).1
  let lastIterationPHI := decide (leave.point ≠ .header)
  let prevIterationValue := generateCodeToDetermineLastIterationValue loopGoverningExitPHI
    lastIterationPHI (iv.word iv.stepValue)
  !iv.exitTest prevIterationValue

/-- What a task stores to the live-out, if it leaves its loop with the fuel and stores anything. -/
def storedLiveOut {σ : Type*}
    (generateCodeToDetermineLastIterationValue :
      BitVec iv.width → Bool → BitVec iv.width → BitVec iv.width)
    (utility : ∀ width, IVUtility (BitVec width))
    (code : LoopCode Unit (BitVec iv.width × BitVec liveOut.width) σ) (initial : σ)
    (args : TaskArgs) (fuel : Nat) : Option (Option (BitVec liveOut.width)) :=
  (run ((utility iv.width).pair (utility liveOut.width)) (iv.loopWith liveOut) args code fuel
    initial).map fun leave =>
      if executesLastIterationBlock iv liveOut generateCodeToDetermineLastIterationValue leave
      then some (leave.state.ivs ()).2 else none

/-- One task stores the sequential value of the live-out, and the others store nothing. -/
def StoredOnce {σ : Type*}
    (generateCodeToDetermineLastIterationValue :
      BitVec iv.width → Bool → BitVec iv.width → BitVec iv.width)
    (utility : ∀ width, IVUtility (BitVec width))
    (code : LoopCode Unit (BitVec iv.width × BitVec liveOut.width) σ) (initial : σ)
    (tripCount numTaskInstances chunkSize : Nat) : Prop :=
  ∃ last < numTaskInstances, ∀ taskInstanceID < numTaskInstances, ∀ fuel > tripCount,
    storedLiveOut iv liveOut generateCodeToDetermineLastIterationValue utility code initial
      ⟨taskInstanceID, numTaskInstances, chunkSize⟩ fuel =
        some (if taskInstanceID = last then some (liveOut.sequential tripCount) else none)

/-- No task computes a value of the governing variable that wraps. -/
def ChunksWithoutWrapping (tripCount numTaskInstances chunkSize : Nat) : Prop :=
  ∀ taskInstanceID < numTaskInstances, ∀ count,
    (∀ earlier < count,
      iterationAt ⟨taskInstanceID, numTaskInstances, chunkSize⟩ earlier < tripCount) →
    let iteration := iterationAt ⟨taskInstanceID, numTaskInstances, chunkSize⟩ count
    iv.value (iv.word (iv.sequential iteration)) = iv.sequential iteration

end Task

/-! ## Values that do not wrap -/

section Values

variable {iv : WordIV} {tripCount : Nat}

/-- Between two values that do not wrap none does. -/
theorem value_word_between {low high value : ℤ} (hlow : iv.value (iv.word low) = low)
    (hhigh : iv.value (iv.word high) = high) (hge : low ≤ value) (hle : value ≤ high) :
    iv.value (iv.word value) = value := by
  unfold WordIV.value WordIV.word at *
  by_cases hsigned : iv.signed = true
  · rw [if_pos hsigned] at *
    have hleast := @BitVec.le_two_mul_toInt _ (BitVec.ofInt iv.width low)
    have hmost := @BitVec.two_mul_toInt_lt _ (BitVec.ofInt iv.width high)
    rw [hlow] at hleast
    rw [hhigh] at hmost
    rw [BitVec.toInt_ofInt]
    apply Int.bmod_eq_of_le_mul_two
    · push_cast
      omega
    · push_cast
      omega
  · rw [if_neg hsigned] at *
    have hmost := (BitVec.ofInt iv.width high).isLt
    rw [BitVec.toNat_ofInt] at *
    have hpos : (0 : ℤ) < ((2 ^ iv.width : Nat) : ℤ) := by positivity
    have hnonneg := Int.emod_nonneg value hpos.ne'
    have hhighLt := Int.emod_lt_of_pos high hpos
    rw [Int.toNat_of_nonneg (Int.emod_nonneg _ hpos.ne')] at *
    have hlowNonneg := Int.emod_nonneg low hpos.ne'
    exact Int.emod_eq_of_lt (by omega) (by omega)

namespace WordIV.RunsWithoutWrapping

variable (h : iv.RunsWithoutWrapping tripCount)

include h

/-- Over the integers the variable is at or past the exit value from the trip count on. -/
theorem at_or_past {iteration : Nat} (hge : tripCount ≤ iteration) :
    atOrPast iv.stepValue iv.exitValue (iv.sequential iteration) = true := by
  have hlast := h.last
  have hfar : (tripCount : ℤ) ≤ iteration := by exact_mod_cast hge
  unfold atOrPast WordIV.sequential at *
  split_ifs at hlast ⊢ with hpos
  · simp only [decide_eq_true_eq] at hlast ⊢
    nlinarith
  · simp only [decide_eq_true_eq] at hlast ⊢
    nlinarith

/-- From the trip count up to an iteration whose value does not wrap, the exit test holds. -/
theorem header_test_beyond {iteration last : Nat} (hge : tripCount ≤ iteration)
    (hle : iteration ≤ last)
    (hlast : iv.value (iv.word (iv.sequential last)) = iv.sequential last) :
    iv.headerTest iteration = true := by
  have hfrom : (tripCount : ℤ) ≤ iteration := by exact_mod_cast hge
  have hto : (iteration : ℤ) ≤ last := by exact_mod_cast hle
  have hvalue : iv.value (iv.word (iv.sequential iteration)) = iv.sequential iteration := by
    have htrip := h.noWrap tripCount le_rfl
    rcases lt_or_ge 0 iv.stepValue with hpos | hneg
    · refine value_word_between htrip hlast ?_ ?_
      · unfold WordIV.sequential
        nlinarith
      · unfold WordIV.sequential
        nlinarith
    · refine value_word_between hlast htrip ?_ ?_
      · unfold WordIV.sequential
        nlinarith
      · unfold WordIV.sequential
        nlinarith
  unfold WordIV.headerTest WordIV.exitTest
  rw [hvalue]
  exact h.at_or_past hge

end WordIV.RunsWithoutWrapping

end Values

/-! ## What a task stores -/

section Stores

variable {iv : WordIV} {liveOut : LiveOutIV} {σ : Type*}
  {generateCodeToDetermineLastIterationValue :
    BitVec iv.width → Bool → BitVec iv.width → BitVec iv.width}
  {utility : ∀ width, IVUtility (BitVec width)}
  {code : LoopCode Unit (BitVec iv.width × BitVec liveOut.width) σ} {initial : σ}
  {tripCount count fuel : Nat} {args : TaskArgs}

/-- The variables of a task at an iteration. -/
theorem loop_with_iv_at (iteration : Nat) :
    ivAt (iv.loopWith liveOut) () iteration =
      (iv.word (iv.sequential iteration), liveOut.sequential iteration) :=
  Prod.ext (word_iv_at iteration) rfl

/-- No guard stops a task. -/
theorem loop_with_guard_stops (count : Nat) :
    guardStops ((utility iv.width).pair (utility liveOut.width)) (iv.loopWith liveOut) args
      count = false := by
  unfold guardStops
  exact Bool.false_and _

/-- A task leaves from the header at the first iteration dealt to it beyond the loop. -/
theorem loop_with_stops_after (utility : ∀ width, IVUtility (BitVec width))
    (liveOut : LiveOutIV) (h : iv.RunsWithoutWrapping tripCount)
    (hbefore : ∀ earlier < count, iterationAt args earlier < tripCount)
    (hafter : tripCount ≤ iterationAt args count)
    (hvalue : iv.value (iv.word (iv.sequential (iterationAt args count))) =
      iv.sequential (iterationAt args count)) :
    StopsAfter ((utility iv.width).pair (utility liveOut.width)) (iv.loopWith liveOut) args
      count := by
  have hheader : ∀ other, headerStops (iv.loopWith liveOut) args other =
      iv.headerTest (iterationAt args other) := by
    intro other
    show iv.exitTest (ivAt (iv.loopWith liveOut) () (iterationAt args other)).1 = _
    rw [loop_with_iv_at]
    rfl
  refine ⟨fun earlier hearlier => ⟨loop_with_guard_stops earlier, ?_⟩, .inr ?_⟩
  · have hlt := hbefore earlier hearlier
    rw [hheader, h.header_test hlt.le, decide_eq_false (by omega)]
  · rw [hheader]
    exact h.header_test_beyond hafter le_rfl hvalue

/-- A task that leaves at an iteration stores the value of the live-out there, if the governing
variable one step before is not at or past the exit value. -/
theorem stored_live_out_eq (args : TaskArgs) (hutility : ∀ width, (utility width).Documented)
    (hdetermine : ∀ value stepSize,
      generateCodeToDetermineLastIterationValue value false stepSize = value - stepSize)
    (h : iv.RunsWithoutWrapping tripCount) (hchunk : 0 < args.chunkSize)
    (hinstances : 0 < args.numTaskInstances)
    (hbefore : ∀ earlier < count, iterationAt args earlier < tripCount)
    (hafter : tripCount ≤ iterationAt args count)
    (hvalue : iv.value (iv.word (iv.sequential (iterationAt args count))) =
      iv.sequential (iterationAt args count)) (hfuel : count < fuel) :
    storedLiveOut iv liveOut generateCodeToDetermineLastIterationValue utility code initial args
        fuel =
      some (if iv.exitTest (iv.word (iv.sequential (iterationAt args count)) -
          iv.word iv.stepValue) then none
        else some (liveOut.sequential (iterationAt args count))) := by
  have hstops := loop_with_stops_after utility liveOut h hbefore hafter hvalue
  have hpair := (hutility iv.width).pair (hutility liveOut.width)
  unfold storedLiveOut
  rw [run_eq args hpair hchunk hinstances code initial hstops hfuel,
    leave_at_header code initial (loop_with_guard_stops count), Option.map_some]
  show some (if (!iv.exitTest (generateCodeToDetermineLastIterationValue
    (ivAt (iv.loopWith liveOut) () (iterationAt args count)).1 false (iv.word iv.stepValue))) then
      some (ivAt (iv.loopWith liveOut) () (iterationAt args count)).2 else none) = _
  rw [loop_with_iv_at, hdetermine]
  dsimp only
  cases iv.exitTest (iv.word (iv.sequential (iterationAt args count)) - iv.word iv.stepValue) <;>
    rfl

/-- A task that leaves beyond the iteration after the loop stores nothing. -/
theorem stores_nothing (h : iv.RunsWithoutWrapping tripCount)
    {iteration : Nat} (hbeyond : tripCount < iteration)
    (hvalue : iv.value (iv.word (iv.sequential iteration)) = iv.sequential iteration) :
    iv.exitTest (iv.word (iv.sequential iteration) - iv.word iv.stepValue) = true := by
  rw [word_sub_step (Nat.zero_lt_of_lt hbeyond)]
  exact h.header_test_beyond (by omega) (by omega) hvalue

/-- Exactly when the loop runs an iteration, or the value one step before the start is not at or
past the exit value, one task stores the live-out, and it stores the sequential value. -/
theorem last_iteration_iff (hutility : ∀ width, (utility width).Documented)
    (hdetermine : ∀ value stepSize,
      generateCodeToDetermineLastIterationValue value false stepSize = value - stepSize)
    (h : iv.RunsWithoutWrapping tripCount) {numTaskInstances chunkSize : Nat}
    (hinstances : 1 ≤ numTaskInstances) (hchunk : 1 ≤ chunkSize)
    (hchunks : ChunksWithoutWrapping iv tripCount numTaskInstances chunkSize) :
    StoredOnce iv liveOut generateCodeToDetermineLastIterationValue utility code initial tripCount
        numTaskInstances chunkSize ↔
      1 ≤ tripCount ∨ iv.exitTest (iv.word (iv.startValue - iv.stepValue)) = false := by
  obtain ⟨last, hlast⟩ : ∃ last, last = dealer numTaskInstances chunkSize tripCount := ⟨_, rfl⟩
  have hlast_lt : last < numTaskInstances := hlast ▸ Nat.mod_lt _ hinstances
  -- What each task stores, by the iteration at which it leaves.
  have hstored : ∀ taskInstanceID < numTaskInstances, ∀ fuel > tripCount,
      storedLiveOut iv liveOut generateCodeToDetermineLastIterationValue utility code initial
        ⟨taskInstanceID, numTaskInstances, chunkSize⟩ fuel =
          some (if taskInstanceID = last then
            if iv.exitTest (iv.word (iv.sequential tripCount) - iv.word iv.stepValue) then none
            else some (liveOut.sequential tripCount)
          else none) := by
    intro taskInstanceID hinstance fuel hfuel
    obtain ⟨count, hcount, hafter, hbefore⟩ :=
      exists_first_dealt taskInstanceID hchunk hinstances tripCount
    have hvalue := hchunks taskInstanceID hinstance count hbefore
    rw [stored_live_out_eq ⟨taskInstanceID, numTaskInstances, chunkSize⟩ hutility hdetermine h
      hchunk hinstances hbefore hafter hvalue (by omega)]
    by_cases hmine : taskInstanceID = last
    · have hfirst := first_dealt_le hchunk hinstance hbefore le_rfl (hlast.symm.trans hmine.symm)
      have heq : iterationAt ⟨taskInstanceID, numTaskInstances, chunkSize⟩ count = tripCount :=
        le_antisymm hfirst hafter
      rw [if_pos hmine, heq]
    · have hne : dealt numTaskInstances chunkSize taskInstanceID count ≠ tripCount := fun heq =>
        hmine (by rw [hlast, ← heq, dealer_dealt count hchunk hinstance])
      have hnothing := stores_nothing h (lt_of_le_of_ne hafter hne.symm) hvalue
      unfold iterationAt
      rw [if_neg hmine, hnothing, if_pos rfl]
  -- The task that leaves at the end of the loop decides by the value before.
  have hprevious : (iv.exitTest (iv.word (iv.sequential tripCount) - iv.word iv.stepValue) =
      false) ↔ 1 ≤ tripCount ∨ iv.exitTest (iv.word (iv.startValue - iv.stepValue)) = false := by
    rcases Nat.eq_zero_or_pos tripCount with hzero | hpos
    · have hstart : iv.word (iv.sequential tripCount) - iv.word iv.stepValue =
          iv.word (iv.startValue - iv.stepValue) := by
        unfold WordIV.sequential WordIV.word
        rw [hzero, Nat.cast_zero, mul_zero, add_zero, sub_eq_iff_eq_add, ← BitVec.ofInt_add,
          sub_add_cancel]
      rw [hstart, hzero]
      simp
    · have hbefore := h.header_test (Nat.sub_le tripCount 1)
      rw [word_sub_step hpos]
      exact iff_of_true (hbefore.trans (decide_eq_false (by omega))) (.inl hpos)
  rw [← hprevious]
  constructor
  · intro ⟨chosen, hchosen, htasks⟩
    by_contra hpast
    have hnothing := htasks chosen hchosen (tripCount + 1) (Nat.lt_succ_self _)
    rw [Bool.not_eq_false] at hpast
    rw [hstored chosen hchosen _ (Nat.lt_succ_self _), hpast] at hnothing
    simp at hnothing
  · intro hnot
    refine ⟨last, hlast_lt, fun taskInstanceID hinstance fuel hfuel => ?_⟩
    rw [hstored taskInstanceID hinstance fuel hfuel, hnot]
    rfl

end Stores

/-- The code of a loop that computes nothing else. -/
def emptyCode (V : Type*) : LoopCode Unit V Unit := ⟨fun _ value => value, fun _ value => value⟩

/-- Two tasks with chunks of two iterations count 32-bit words from 0 to 5 without wrapping. -/
theorem counting_up_chunks : ChunksWithoutWrapping ⟨32, false, 0, 1, 5, false⟩ 5 2 2 := by
  intro taskInstanceID hinstance count hbefore iteration
  have hcount : count ≤ 5 := by
    by_contra hlong
    have hle : 5 ≤ dealt 2 2 taskInstanceID 5 :=
      (dealt_strict_mono taskInstanceID Nat.two_pos Nat.two_pos).le_apply
    exact absurd (hbefore 5 (by omega)) (Nat.not_lt.mpr hle)
  have hle : iteration ≤ 100 := by
    have hdiv : count / 2 ≤ 2 := by omega
    show (count / 2 * 2 + taskInstanceID) * 2 + count % 2 ≤ 100
    omega
  have hcast : (iteration : ℤ) ≤ 100 := by exact_mod_cast hle
  have hlow : (⟨32, false, 0, 1, 5, false⟩ : WordIV).value (WordIV.word _ 0) = 0 := by decide
  have hhigh : (⟨32, false, 0, 1, 5, false⟩ : WordIV).value (WordIV.word _ 100) = 100 := by decide
  exact value_word_between hlow hhigh (by show (0 : ℤ) ≤ 0 + 1 * iteration; omega)
    (by show (0 : ℤ) + 1 * iteration ≤ 100; omega)

/-- Two tasks count from 0 to 5, and one of them stores the pointer that moves along. -/
theorem last_iteration_counting_up :
    StoredOnce ⟨32, false, 0, 1, 5, false⟩ ⟨64, 1000, 4⟩ (fun value _ stepSize => value - stepSize)
      (fun _ => IVUtility.arithmetic) (emptyCode _) () 5 2 2 :=
  (last_iteration_iff (fun _ => IVUtility.arithmetic_documented) (fun _ _ => rfl) counting_up_runs
    (by decide) (by decide) counting_up_chunks).mpr (.inl (by decide))

/-- A loop that counts signed words from 10 up to 5 runs no iteration, nothing wraps, and no task
stores its variable. -/
theorem zero_trip_stores_nothing :
    (⟨32, true, 10, 1, 5, false⟩ : WordIV).RunsWithoutWrapping 0 ∧
      ChunksWithoutWrapping ⟨32, true, 10, 1, 5, false⟩ 0 1 1 ∧
      ¬ StoredOnce ⟨32, true, 10, 1, 5, false⟩ ⟨32, 10, 1⟩
        (fun value _ stepSize => value - stepSize) (fun _ => IVUtility.arithmetic) (emptyCode _) ()
        0 1 1 := by
  have hruns : (⟨32, true, 10, 1, 5, false⟩ : WordIV).RunsWithoutWrapping 0 :=
    ⟨by decide, by decide, by decide, by decide, by decide⟩
  refine ⟨hruns, fun taskInstanceID hinstance count hbefore => ?_, fun hstored => ?_⟩
  · have hzero : count = 0 := by
      by_contra hlater
      exact absurd (hbefore 0 (by omega)) (Nat.not_lt_zero _)
    obtain rfl : taskInstanceID = 0 := by omega
    subst hzero
    decide
  · obtain ⟨last, hlast, htasks⟩ := hstored
    obtain rfl : last = 0 := by omega
    have hnothing := htasks 0 (by decide) 1 (by decide)
    rw [stored_live_out_eq ⟨0, 1, 1⟩ (fun _ => IVUtility.arithmetic_documented) (fun _ _ => rfl)
      hruns (by decide) (by decide) (fun earlier hearlier => absurd hearlier (Nat.not_lt_zero _))
      (Nat.zero_le _) (by decide) (by decide : 0 < 1)] at hnothing
    revert hnothing
    decide

end Gino.Doall
