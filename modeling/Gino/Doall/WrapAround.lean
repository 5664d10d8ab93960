import Gino.Doall.Coverage
import Mathlib.Data.BitVec

/-!
# The exit test of a chunked loop over machine words

A task computes its induction variables modulo a power of two and leaves its loop when the
governing one is at or past the exit value, in the signed or unsigned order. The sequential loop
only promises that its own iterations do not wrap. `wrap_around_iff` says when that is enough: a
task looks at the word of the first iteration dealt to it beyond the loop, which starts one of the
chunks after the last one, and this word has to be at or past the exit value.
-/

namespace Gino.Doall

open Machine

/-- A governing induction variable of some width: the values of the source, as integers, whether
the exit test is signed, and whether the loop tests it before its header as well. -/
structure WordIV where
  width : Nat
  signed : Bool
  startValue : ℤ
  stepValue : ℤ
  exitValue : ℤ
  requiresConditionBeforeEnteringHeader : Bool

namespace WordIV

variable (iv : WordIV)

/-- The integer a word stands for in the order of the exit test. -/
def value (word : BitVec iv.width) : ℤ := if iv.signed then word.toInt else word.toNat

/-- The word of an integer. -/
def word (value : ℤ) : BitVec iv.width := BitVec.ofInt iv.width value

/-- The value at an iteration of the source loop. -/
def sequential (iteration : Nat) : ℤ := iv.startValue + iv.stepValue * iteration

/-- The exit test of the task on a word. -/
def exitTest (word : BitVec iv.width) : Bool :=
  atOrPast iv.stepValue iv.exitValue (iv.value word)

/-- The loop over words. -/
def loop : ChunkedLoop Unit (BitVec iv.width) where
  startValue _ := iv.word iv.startValue
  stepValue _ := iv.word iv.stepValue
  governing := ()
  exitCondition := iv.exitTest
  requiresConditionBeforeEnteringHeader := iv.requiresConditionBeforeEnteringHeader

/-- The exit test on the word at an iteration of the source loop. -/
def headerTest (iteration : Nat) : Bool := iv.exitTest (iv.word (iv.sequential iteration))

/-- The test before the header on the word at the iteration before. A task that enters the loop
skips it when its variable has the start value. -/
def guardTest (enters : Bool) (iteration : Nat) : Bool :=
  iv.requiresConditionBeforeEnteringHeader &&
    (!enters || decide (iv.word (iv.sequential iteration) ≠ iv.word iv.startValue)) &&
    iv.headerTest (iteration - 1)

/-- The sequential loop runs `tripCount` iterations, and its variable does not wrap. -/
structure RunsWithoutWrapping (tripCount : Nat) : Prop where
  step : iv.stepValue ≠ 0
  exit : iv.value (iv.word iv.exitValue) = iv.exitValue
  noWrap : ∀ iteration ≤ tripCount,
    iv.value (iv.word (iv.sequential iteration)) = iv.sequential iteration
  before : ∀ iteration < tripCount,
    atOrPast iv.stepValue iv.exitValue (iv.sequential iteration) = false
  last : atOrPast iv.stepValue iv.exitValue (iv.sequential tripCount) = true

end WordIV

/-- A task executes no body from iteration `tripCount` on, and leaves its loop at the first
iteration from there on that is dealt to it. -/
def LeavesInTime (utility : ∀ width, IVUtility (BitVec width)) (iv : WordIV) (tripCount : Nat)
    (args : TaskArgs) : Prop :=
  ∃ leave, (∀ fuel > tripCount,
      run (utility iv.width) iv.loop args visit fuel ⟨[], []⟩ = some leave) ∧
    (∀ execution ∈ leave.value.bodies, execution.1 < tripCount) ∧
    tripCount ≤ leave.state.iterCounter ∧
    dealer args.numTaskInstances args.chunkSize leave.state.iterCounter = args.taskInstanceID ∧
    ∀ iteration ≥ tripCount,
      dealer args.numTaskInstances args.chunkSize iteration = args.taskInstanceID →
        leave.state.iterCounter ≤ iteration

section Words

variable {iv : WordIV} {tripCount count : Nat} {args : TaskArgs}
  {utility : ∀ width, IVUtility (BitVec width)}

/-- The variable of a task is the word of the sequential value. -/
theorem word_iv_at (iteration : Nat) :
    ivAt iv.loop () iteration = iv.word (iv.sequential iteration) := by
  show iv.word iv.startValue + iv.word iv.stepValue * (iteration : BitVec iv.width) = _
  unfold WordIV.sequential WordIV.word
  rw [BitVec.ofInt_add, BitVec.ofInt_mul, BitVec.ofInt_natCast]
  rfl

/-- The exit test of the header is the one on the word of the sequential value. -/
theorem word_header_stops (args : TaskArgs) (count : Nat) :
    headerStops iv.loop args count = iv.headerTest (iterationAt args count) := by
  unfold headerStops WordIV.headerTest
  rw [← word_iv_at]
  rfl

/-- The value a step before the word of an iteration. -/
theorem word_sub_step {iteration : Nat} (hpos : 0 < iteration) :
    iv.word (iv.sequential iteration) - iv.word iv.stepValue =
      iv.word (iv.sequential (iteration - 1)) := by
  obtain ⟨before, rfl⟩ : ∃ before, iteration = before + 1 := ⟨iteration - 1, by omega⟩
  unfold WordIV.sequential WordIV.word
  rw [Nat.add_sub_cancel, Nat.cast_succ, sub_eq_iff_eq_add, ← BitVec.ofInt_add]
  congr 1
  ring

/-- The guard of the pre-header is the test on entering the loop. -/
theorem word_preheader_guard {utility : IVUtility (BitVec iv.width)}
    (hutility : utility.Documented) (args : TaskArgs) :
    (iv.requiresConditionBeforeEnteringHeader && preheaderGuard utility iv.loop args) =
      iv.guardTest true (iterationAt args 0) := by
  have hvalue : (entry utility iv.loop args).ivs () =
      iv.word (iv.sequential (iterationAt args 0)) := by
    rw [entry_eq hutility]
    exact word_iv_at _
  have hguard : preheaderGuard utility iv.loop args =
      (decide (iv.word (iv.sequential (iterationAt args 0)) ≠ iv.word iv.startValue) &&
        iv.exitTest (iv.word (iv.sequential (iterationAt args 0)) - iv.word iv.stepValue)) := by
    show (decide ((entry utility iv.loop args).ivs () ≠ iv.word iv.startValue) && iv.exitTest
      (utility.generateCodeToComputeValueToUseForAnIterationAgo
        ((entry utility iv.loop args).ivs ()) (iv.word iv.stepValue))) = _
    rw [hvalue, hutility.ago]
  unfold WordIV.guardTest
  rw [hguard, Bool.not_true, Bool.false_or, Bool.and_assoc]
  rcases Nat.eq_zero_or_pos (iterationAt args 0) with hzero | hpos
  · have hstart : iv.word (iv.sequential (iterationAt args 0)) = iv.word iv.startValue := by
      simp [hzero, WordIV.sequential]
    rw [decide_eq_false (not_not.mpr hstart), Bool.false_and, Bool.false_and]
  · rw [word_sub_step hpos]
    rfl

/-- The guard of the latch is the test on going round. -/
theorem word_latch_guard {utility : IVUtility (BitVec iv.width)} (hutility : utility.Documented)
    {count : Nat} (hpos : 0 < iterationAt args count) :
    (iv.requiresConditionBeforeEnteringHeader &&
        latchGuard utility iv.loop (stateAt iv.loop args count)) =
      iv.guardTest false (iterationAt args count) := by
  have hguard : latchGuard utility iv.loop (stateAt iv.loop args count) =
      iv.exitTest (utility.generateCodeToComputePreviousValueUsedToCompareAgainstExitConditionValue
        (ivAt iv.loop () (iterationAt args count)) (iv.word iv.stepValue)) := rfl
  unfold WordIV.guardTest
  rw [hguard, word_iv_at, hutility.previous, word_sub_step hpos, Bool.not_false, Bool.true_or,
    Bool.and_true]
  rfl

/-- The guards are the test on the word of the iteration before. -/
theorem word_guard_stops {utility : IVUtility (BitVec iv.width)} (hutility : utility.Documented)
    (args : TaskArgs) (hchunk : 0 < args.chunkSize) (hinstances : 0 < args.numTaskInstances)
    (count : Nat) :
    guardStops utility iv.loop args count =
      iv.guardTest (decide (count = 0)) (iterationAt args count) := by
  unfold guardStops
  show (iv.requiresConditionBeforeEnteringHeader && _) = _
  rcases Nat.eq_zero_or_pos count with rfl | hpos
  · exact word_preheader_guard hutility args
  · rw [if_neg hpos.ne', decide_eq_false hpos.ne']
    have hle : count ≤ dealt _ _ _ count :=
      (dealt_strict_mono args.taskInstanceID hchunk hinstances).le_apply
    exact word_latch_guard hutility (hpos.trans_le hle)

namespace WordIV.RunsWithoutWrapping

variable (h : iv.RunsWithoutWrapping tripCount)

include h

/-- Up to the trip count the exit test on words is the exit test of the source. -/
theorem header_test {iteration : Nat} (hle : iteration ≤ tripCount) :
    iv.headerTest iteration = decide (iteration = tripCount) := by
  unfold headerTest exitTest
  rw [h.noWrap iteration hle]
  rcases Nat.lt_or_eq_of_le hle with hlt | rfl
  · rw [h.before iteration hlt, decide_eq_false (by omega)]
  · rw [h.last, decide_eq_true rfl]

/-- Up to the trip count the test before the header does not hold. -/
theorem guard_test {enters : Bool} {iteration : Nat} (hle : iteration ≤ tripCount)
    (hpos : enters = false → 0 < iteration) : iv.guardTest enters iteration = false := by
  unfold guardTest
  rcases Nat.eq_zero_or_pos iteration with rfl | hlater
  · have henters : enters = true := by
      by_contra hne
      have := hpos (Bool.eq_false_iff.mpr hne)
      omega
    have hstart : iv.word (iv.sequential 0) = iv.word iv.startValue := by simp [sequential]
    rw [henters, decide_eq_false (not_not.mpr hstart)]
    simp
  · have hbefore : iv.headerTest (iteration - 1) = false := by
      rw [h.header_test (by omega), decide_eq_false (by omega)]
    rw [hbefore, Bool.and_false]

end WordIV.RunsWithoutWrapping

/-- When a task stops, in the tests on words. -/
theorem word_stops_after_iff {utility : IVUtility (BitVec iv.width)}
    (hutility : utility.Documented) (args : TaskArgs) (hchunk : 0 < args.chunkSize)
    (hinstances : 0 < args.numTaskInstances) (count : Nat) :
    StopsAfter utility iv.loop args count ↔
      (∀ earlier < count, iv.guardTest (decide (earlier = 0)) (iterationAt args earlier) = false ∧
        iv.headerTest (iterationAt args earlier) = false) ∧
      (iv.guardTest (decide (count = 0)) (iterationAt args count) = true ∨
        iv.headerTest (iterationAt args count) = true) := by
  constructor
  · intro h
    refine ⟨fun earlier hearlier => ?_, ?_⟩
    · rw [← word_guard_stops hutility args hchunk hinstances, ← word_header_stops]
      exact h.before earlier hearlier
    · rw [← word_guard_stops hutility args hchunk hinstances, ← word_header_stops]
      exact h.stops
  · rintro ⟨hbefore, hstops⟩
    refine ⟨fun earlier hearlier => ?_, ?_⟩
    · rw [word_guard_stops hutility args hchunk hinstances, word_header_stops]
      exact hbefore earlier hearlier
    · rw [word_guard_stops hutility args hchunk hinstances, word_header_stops]
      exact hstops

/-- However a task leaves, it is at its iteration after the ones it has run. -/
theorem leave_at_state {utility : IVUtility (BitVec iv.width)} :
    (leaveAt utility iv.loop args visit ⟨[], []⟩ count).state = stateAt iv.loop args count := by
  unfold leaveAt
  split_ifs <;> rfl

/-- However a task leaves, it has run the bodies of its iterations before. -/
theorem leave_at_bodies {utility : IVUtility (BitVec iv.width)}
    {execution : Nat × (Unit → BitVec iv.width)}
    (hexecution : execution ∈ (leaveAt utility iv.loop args visit ⟨[], []⟩ count).value.bodies) :
    ∃ earlier < count, execution.1 = iterationAt args earlier := by
  have hbodies : (leaveAt utility iv.loop args visit ⟨[], []⟩ count).value.bodies =
      ((List.range count).map (iterationAt args)).map (visitAt iv.loop) := by
    cases hguard : guardStops utility iv.loop args count with
    | true => rw [leave_at_guard _ _ hguard, value_at_visit]
    | false => rw [leave_at_header _ _ hguard, value_at_visit]; rfl
  rw [hbodies] at hexecution
  obtain ⟨iteration, hiteration, rfl⟩ := List.mem_map.mp hexecution
  obtain ⟨earlier, hearlier, rfl⟩ := List.mem_map.mp hiteration
  exact ⟨earlier, List.mem_range.mp hearlier, rfl⟩

/-- A task leaves in time exactly when a test holds at the first iteration dealt to it beyond the
loop. -/
theorem leaves_in_time_iff (args : TaskArgs) (hutility : ∀ width, (utility width).Documented)
    (h : iv.RunsWithoutWrapping tripCount) (hchunk : 0 < args.chunkSize)
    (hinstance : args.taskInstanceID < args.numTaskInstances)
    (hbefore : ∀ earlier < count, iterationAt args earlier < tripCount)
    (hafter : tripCount ≤ iterationAt args count) (hcount : count ≤ tripCount) :
    LeavesInTime utility iv tripCount args ↔
      (iv.guardTest (decide (count = 0)) (iterationAt args count) = true ∨
        iv.headerTest (iterationAt args count) = true) := by
  have hinstances := Nat.zero_lt_of_lt hinstance
  have hmono := dealt_strict_mono args.taskInstanceID hchunk hinstances
  -- No iteration beyond the loop is dealt to the task before the one it reaches first.
  have hfirst : ∀ iteration ≥ tripCount,
      dealer args.numTaskInstances args.chunkSize iteration = args.taskInstanceID →
        iterationAt args count ≤ iteration := by
    intro iteration hge hdealer
    obtain ⟨other, rfl⟩ := exists_dealt hchunk hdealer
    refine hmono.monotone (Nat.le_of_not_lt fun hlt => ?_)
    have : dealt _ _ _ other < tripCount := hbefore other hlt
    omega
  constructor
  · rintro ⟨leave, hrun, -, hbeyond, hown, hleast⟩
    obtain ⟨last, hstops, rfl⟩ := run_eq_some (hutility iv.width) hchunk hinstances visit
      (hrun (tripCount + 1) (Nat.lt_succ_self _))
    rw [leave_at_state] at hbeyond hown hleast
    have heq : iterationAt args last = iterationAt args count := le_antisymm
      (hleast _ hafter (dealer_dealt _ hchunk hinstance)) (hfirst _ hbeyond hown)
    have hlast : last = count := hmono.injective heq
    rw [← hlast]
    exact ((word_stops_after_iff (hutility iv.width) args hchunk hinstances last).mp hstops).2
  · intro htest
    have hearlier : ∀ earlier < count,
        iv.guardTest (decide (earlier = 0)) (iterationAt args earlier) = false ∧
          iv.headerTest (iterationAt args earlier) = false := by
      intro earlier hearlier
      have hlt := hbefore earlier hearlier
      refine ⟨h.guard_test hlt.le fun hlater => ?_, ?_⟩
      · have hle : earlier ≤ dealt _ _ _ earlier := hmono.le_apply
        have hpos : 0 < earlier := Nat.pos_of_ne_zero (of_decide_eq_false hlater)
        exact hpos.trans_le hle
      · rw [h.header_test hlt.le, decide_eq_false (by omega)]
    have hstops : StopsAfter (utility iv.width) iv.loop args count :=
      (word_stops_after_iff (hutility iv.width) args hchunk hinstances count).mpr
        ⟨hearlier, htest⟩
    refine ⟨leaveAt (utility iv.width) iv.loop args visit ⟨[], []⟩ count, fun fuel hfuel =>
      run_eq args (hutility iv.width) hchunk hinstances visit _ hstops (by omega), ?_⟩
    rw [leave_at_state]
    refine ⟨fun execution hexecution => ?_, hafter, dealer_dealt _ hchunk hinstance, hfirst⟩
    obtain ⟨earlier, hlt, heq⟩ := leave_at_bodies hexecution
    rw [heq]
    exact hbefore earlier hlt

/-- The exit test is not fooled by wrap-around exactly when a test holds at the start of each of
the next `numTaskInstances - 1` chunks after the one the loop ends in. -/
theorem wrap_around_iff (hutility : ∀ width, (utility width).Documented)
    (h : iv.RunsWithoutWrapping tripCount) {numTaskInstances chunkSize : Nat}
    (hinstances : 1 ≤ numTaskInstances) (hchunk : 1 ≤ chunkSize) :
    (∀ taskInstanceID < numTaskInstances,
      LeavesInTime utility iv tripCount ⟨taskInstanceID, numTaskInstances, chunkSize⟩) ↔
    ∀ chunk, tripCount / chunkSize < chunk → chunk < tripCount / chunkSize + numTaskInstances →
      (iv.guardTest (decide (chunk < numTaskInstances)) (chunk * chunkSize) = true ∨
        iv.headerTest (chunk * chunkSize) = true) := by
  constructor
  · intro htasks chunk hpos hlt
    obtain ⟨owner, howner⟩ : ∃ owner, owner = dealer numTaskInstances chunkSize
        (chunk * chunkSize) := ⟨_, rfl⟩
    have howner_lt : owner < numTaskInstances := howner ▸ Nat.mod_lt _ hinstances
    obtain ⟨count, hcount, hafter, hbefore⟩ :=
      exists_first_dealt owner hchunk hinstances tripCount
    have hfirst := first_dealt_eq_start hchunk hinstances howner hbefore hafter hpos hlt
    have htest := (leaves_in_time_iff ⟨owner, numTaskInstances, chunkSize⟩ hutility h hchunk
      howner_lt hbefore hafter hcount).mp (htasks owner howner_lt)
    unfold iterationAt at htest
    rwa [hfirst, decide_eq_decide.mpr (dealt_eq_start hchunk howner_lt hfirst)] at htest
  · intro htests taskInstanceID hinstance
    obtain ⟨count, hcount, hafter, hbefore⟩ :=
      exists_first_dealt taskInstanceID hchunk hinstances tripCount
    -- The task gets the end of the loop itself, or the start of one of the chunks after it.
    refine (leaves_in_time_iff ⟨taskInstanceID, numTaskInstances, chunkSize⟩ hutility h hchunk
      hinstance hbefore hafter hcount).mpr ?_
    unfold iterationAt
    rcases first_dealt_eq hchunk hinstance hbefore hafter with heq | ⟨chunk, hpos, hlt, heq⟩
    · right
      rw [heq, h.header_test le_rfl, decide_eq_true rfl]
    · rw [heq, decide_eq_decide.mpr (dealt_eq_start hchunk hinstance heq)]
      exact htests chunk hpos hlt

end Words

/-- Counting 32-bit words from 0 to 5. -/
theorem counting_up_runs :
    (⟨32, false, 0, 1, 5, false⟩ : WordIV).RunsWithoutWrapping 5 := by
  refine ⟨by decide, by decide, ?_, ?_, by decide⟩
  · decide
  · decide

/-- Two tasks with chunks of two iterations count from 0 to 5. -/
theorem wrap_around_counting_up :
    LeavesInTime (fun _ => IVUtility.arithmetic) ⟨32, false, 0, 1, 5, false⟩ 5 ⟨0, 2, 2⟩ ∧
      LeavesInTime (fun _ => IVUtility.arithmetic) ⟨32, false, 0, 1, 5, false⟩ 5 ⟨1, 2, 2⟩ := by
  have htasks : ∀ taskInstanceID < 2, LeavesInTime (fun _ => IVUtility.arithmetic)
      ⟨32, false, 0, 1, 5, false⟩ 5 ⟨taskInstanceID, 2, 2⟩ := by
    refine (wrap_around_iff (fun _ => IVUtility.arithmetic_documented) counting_up_runs (by decide)
      (by decide)).mpr fun chunk hpos hlt => ?_
    obtain rfl : chunk = 3 := by omega
    decide
  exact ⟨htasks 0 (by decide), htasks 1 (by decide)⟩

/-- Counting unsigned words from 5 down to 3 takes two iterations, but the second of two tasks
with chunks of eight starts at the word of `5 - 8` and does not leave. -/
theorem wrap_around_counting_down :
    (⟨32, false, 5, -1, 3, false⟩ : WordIV).RunsWithoutWrapping 2 ∧
      ¬ ∀ taskInstanceID < 2, LeavesInTime (fun _ => IVUtility.arithmetic)
        ⟨32, false, 5, -1, 3, false⟩ 2 ⟨taskInstanceID, 2, 8⟩ := by
  have hruns : (⟨32, false, 5, -1, 3, false⟩ : WordIV).RunsWithoutWrapping 2 := by
    refine ⟨by decide, by decide, ?_, ?_, by decide⟩
    · decide
    · decide
  refine ⟨hruns, fun htasks => ?_⟩
  have hbefore : ∀ earlier < 0, iterationAt ⟨1, 2, 8⟩ earlier < 2 := by decide
  have htest := (leaves_in_time_iff ⟨1, 2, 8⟩ (fun _ => IVUtility.arithmetic_documented) hruns
    (by decide) (by decide) hbefore (by decide) (by decide)).mp (htasks 1 (by decide))
  revert htest
  decide

end Gino.Doall
