import Gino.Doall.LastIteration
import Gino.Doall.Reduction
import Mathlib.Algebra.BigOperators.GroupWithZero.Finset
import Mathlib.Algebra.BigOperators.Ring.List

/-!
# When a reduction gives the sequential result

Over machine words a test beyond the last iteration can be fooled by wrap-around. Then some task
executes an iteration that the loop does not have, or stores what a header beyond the last one
accumulated. `reduces_as_sequential_iff` says for the values of any commutative ring, so for words
of any width, that every reduction gives the sequential result exactly when the tests at the starts
of the next chunks hold. They do where no task computes a value that wraps
(`word_reduction_eq_sequential`).
-/

namespace Gino.Doall

open Machine

variable {ι V M : Type*}

section Ring

variable [CommRing V] [DecidableEq V] {utility : IVUtility V} {loop : ChunkedLoop ι V}
  {args : TaskArgs} {tripCount count : Nat}

/-- Every task leaves its loop, and reducing the private slots into the initial value gives the
sequential result, whatever the loop accumulates. -/
def ReducesAsSequential (utility : IVUtility V) (loop : ChunkedLoop ι V)
    (tripCount numTaskInstances chunkSize : Nat) : Prop :=
  ∀ (M : Type) [CommMonoid M] (contributions : Contributions M) (initial : M),
    ∃ slots : Nat → M,
      (∀ taskInstanceID < numTaskInstances, ∃ enough, ∀ fuel ≥ enough,
        (run utility loop ⟨taskInstanceID, numTaskInstances, chunkSize⟩ contributions.code fuel
          1).map (privateSlot utility loop) = some (slots taskInstanceID)) ∧
      reduceSlots initial slots numTaskInstances = contributions.sequential initial tripCount

/-- Factors that are zero in every header and body that the loop does not execute. -/
def zeroBeyond (tripCount : Nat) : Contributions ℕ where
  header iteration := if tripCount < iteration then 0 else 1
  body iteration := if tripCount ≤ iteration then 0 else 1

/-- The loop itself executes none of these. -/
theorem sequential_zero_beyond (tripCount : Nat) :
    (zeroBeyond tripCount).sequential 1 tripCount = 1 := by
  rw [sequential_eq, one_mul]
  have hheader : (zeroBeyond tripCount).header tripCount = 1 := if_neg (lt_irrefl _)
  rw [hheader, mul_one]
  refine Finset.prod_eq_one fun iteration hmem => ?_
  have hlt := Finset.mem_range.mp hmem
  show (if tripCount < iteration then 0 else 1) * (if tripCount ≤ iteration then 0 else 1) = 1
  rw [if_neg (by omega), if_neg (by omega), one_mul]

omit [DecidableEq V] in
/-- A task that executes the body of an iteration beyond the loop has the value zero. -/
theorem value_at_zero_beyond {last : Nat} (hlast : count < last)
    (hafter : tripCount ≤ iterationAt args count) :
    valueAt loop args (zeroBeyond tripCount).code 1 last = 0 := by
  rw [value_at_contributions]
  refine List.prod_eq_zero (List.mem_map.mpr ⟨iterationAt args count,
    List.mem_map.mpr ⟨count, List.mem_range.mpr hlast, rfl⟩, ?_⟩)
  have hbody : (zeroBeyond tripCount).body (iterationAt args count) = 0 := if_pos hafter
  rw [hbody, mul_zero]

/-- A slot in which zero was accumulated before the header that the task leaves from is zero. -/
theorem private_slot_of_value_zero {last : Nat} (hpos : 0 < last)
    (hvalue : valueAt loop args (zeroBeyond tripCount).code 1 last = 0) :
    privateSlot utility loop (leaveAt utility loop args (zeroBeyond tripCount).code 1 last) =
      0 := by
  cases hguard : guardStops utility loop args last with
  | true =>
      unfold leaveAt
      rw [if_pos hguard, if_neg hpos.ne', hvalue]
      simp [privateSlot]
  | false =>
      rw [leave_at_header _ _ hguard, hvalue]
      simp [privateSlot, Contributions.code]

/-- A task that leaves with a slot that is not zero leaves at the first iteration dealt to it beyond
the loop, at the guard if the loop has guards, and else with a select that picks the header PHI. -/
theorem tests_of_slot (hutility : utility.Documented) (hchunk : 0 < args.chunkSize)
    (hinstance : args.taskInstanceID < args.numTaskInstances)
    (hwithin : ∀ iteration < tripCount,
      loop.exitCondition (ivAt loop loop.governing iteration) = false)
    (hbefore : ∀ earlier < count, iterationAt args earlier < tripCount)
    (hbeyond : tripCount < iterationAt args count) {fuel : Nat} {leave : Leave ι V ℕ}
    (hrun : run utility loop args (zeroBeyond tripCount).code fuel 1 = some leave)
    (hslot : privateSlot utility loop leave ≠ 0) :
    (loop.requiresConditionBeforeEnteringHeader = true →
      guardStops utility loop args count = true) ∧
    (loop.requiresConditionBeforeEnteringHeader = false →
      headerStops loop args count = true ∧
        skipLastHeader utility loop (stateAt loop args count) = true) := by
  have hinstances := Nat.zero_lt_of_lt hinstance
  obtain ⟨last, hstops, rfl⟩ := run_eq_some hutility hchunk hinstances _ hrun
  have hle : last ≤ count := by
    by_contra hlong
    exact hslot (private_slot_of_value_zero (by omega)
      (value_at_zero_beyond (Nat.lt_of_not_le hlong) hbeyond.le))
  have hge : count ≤ last := by
    -- Within the loop neither the guards nor the exit test stop a task.
    by_contra hshort
    have hlt := hbefore last (by omega)
    rcases hstops.stops with hguard | hheader
    · rw [guard_stops_within hutility hchunk hinstances hwithin hlt.le] at hguard
      cases hguard
    · rw [show headerStops loop args last = false from hwithin _ hlt] at hheader
      cases hheader
  obtain rfl : last = count := le_antisymm hle hge
  have hheaderZero : (zeroBeyond tripCount).header (iterationAt args last) = 0 := if_pos hbeyond
  have hvalue : ∀ value, (zeroBeyond tripCount).code.header (stateAt loop args last) value = 0 := by
    intro value
    show value * (zeroBeyond tripCount).header (iterationAt args last) = 0
    rw [hheaderZero, mul_zero]
  refine ⟨fun hguarded => ?_, fun hguarded => ?_⟩
  · by_contra hguard
    rw [Bool.not_eq_true] at hguard
    refine hslot ?_
    rw [leave_at_header _ _ hguard, hvalue]
    simp [privateSlot, hguarded]
  · have hguard : guardStops utility loop args last = false := by
      unfold guardStops
      rw [hguarded, Bool.false_and]
    have hheader : headerStops loop args last = true := by simpa [hguard] using hstops.stops
    refine ⟨hheader, ?_⟩
    by_contra hskip
    rw [Bool.not_eq_true] at hskip
    refine hslot ?_
    rw [leave_at_header _ _ hguard, hvalue]
    simp [privateSlot, hguarded, hskip]

/-- If every reduction gives the sequential result, no slot of these factors is zero. -/
theorem ReducesAsSequential.slot_ne_zero {numTaskInstances chunkSize : Nat}
    (h : ReducesAsSequential utility loop tripCount numTaskInstances chunkSize)
    {taskInstanceID : Nat} (hinstance : taskInstanceID < numTaskInstances) :
    ∃ fuel leave, run utility loop ⟨taskInstanceID, numTaskInstances, chunkSize⟩
      (zeroBeyond tripCount).code fuel 1 = some leave ∧ privateSlot utility loop leave ≠ 0 := by
  obtain ⟨slots, hslots, hreduce⟩ := h ℕ (zeroBeyond tripCount) 1
  obtain ⟨enough, hrun⟩ := hslots taskInstanceID hinstance
  obtain ⟨leave, hleave, hslot⟩ := Option.map_eq_some_iff.mp (hrun enough le_rfl)
  refine ⟨enough, leave, hleave, fun hzero => ?_⟩
  unfold reduceSlots at hreduce
  rw [foldl_mul_eq, one_mul, sequential_zero_beyond] at hreduce
  have hprod : ∏ other ∈ Finset.range numTaskInstances, slots other = 0 :=
    Finset.prod_eq_zero (Finset.mem_range.mpr hinstance) (hslot.symm.trans hzero)
  rw [hprod] at hreduce
  cases hreduce

/-- A task is at the start of each of the next chunks when it first comes beyond the loop. -/
theorem exists_task_at_chunk {numTaskInstances chunkSize chunk : Nat}
    (hinstances : 1 ≤ numTaskInstances) (hchunk : 1 ≤ chunkSize)
    (hpos : tripCount / chunkSize < chunk)
    (hlt : chunk < tripCount / chunkSize + numTaskInstances) :
    ∃ args count, args.numTaskInstances = numTaskInstances ∧ args.chunkSize = chunkSize ∧
      args.taskInstanceID < numTaskInstances ∧
      (∀ earlier < count, iterationAt args earlier < tripCount) ∧
      iterationAt args count = chunk * chunkSize ∧ (count = 0 ↔ chunk < numTaskInstances) := by
  obtain ⟨owner, howner⟩ : ∃ owner, owner = dealer numTaskInstances chunkSize
      (chunk * chunkSize) := ⟨_, rfl⟩
  have howner_lt : owner < numTaskInstances := howner ▸ Nat.mod_lt _ hinstances
  obtain ⟨count, -, hafter, hbefore⟩ := exists_first_dealt owner hchunk hinstances tripCount
  have hfirst := first_dealt_eq_start hchunk hinstances howner hbefore hafter hpos hlt
  exact ⟨⟨owner, numTaskInstances, chunkSize⟩, count, rfl, rfl, howner_lt, hbefore, hfirst,
    dealt_eq_start hchunk howner_lt hfirst⟩

/-- Every reduction of a loop gives the sequential result exactly when the tests of the tasks hold
at the start of each of the next `numTaskInstances - 1` chunks after the one the loop ends in: the
exit test one step before it, and with guards the test against the start value in the tasks that
enter the loop there, without guards the same test in the select and the exit test of the header. -/
theorem reduces_as_sequential_iff (hutility : utility.Documented)
    (hbefore : ∀ iteration < tripCount,
      loop.exitCondition (ivAt loop loop.governing iteration) = false)
    (hlast : loop.exitCondition (ivAt loop loop.governing tripCount) = true)
    {numTaskInstances chunkSize : Nat} (hinstances : 1 ≤ numTaskInstances)
    (hchunk : 1 ≤ chunkSize) :
    ReducesAsSequential utility loop tripCount numTaskInstances chunkSize ↔
    ∀ chunk, tripCount / chunkSize < chunk → chunk < tripCount / chunkSize + numTaskInstances →
      loop.exitCondition (ivAt loop loop.governing (chunk * chunkSize - 1)) = true ∧
      (loop.requiresConditionBeforeEnteringHeader = true → chunk < numTaskInstances →
        ivAt loop loop.governing (chunk * chunkSize) ≠ loop.startValue loop.governing) ∧
      (loop.requiresConditionBeforeEnteringHeader = false →
        ivAt loop loop.governing (chunk * chunkSize) ≠ loop.startValue loop.governing ∧
        loop.exitCondition (ivAt loop loop.governing (chunk * chunkSize)) = true) := by
  constructor
  · intro hreduces chunk hpos hlt
    obtain ⟨args, count, rfl, rfl, hinstance, hearlier, heq, hstart⟩ :=
      exists_task_at_chunk hinstances hchunk hpos hlt
    have hbeyond : tripCount < iterationAt args count := heq ▸ lt_next_chunk hchunk hpos
    have hpositive := Nat.zero_lt_of_lt hbeyond
    obtain ⟨fuel, leave, hrun, hslot⟩ := hreduces.slot_ne_zero hinstance
    obtain ⟨hguards, hheaders⟩ :=
      tests_of_slot hutility hchunk hinstance hbefore hearlier hbeyond hrun hslot
    rw [← heq]
    cases hguarded : loop.requiresConditionBeforeEnteringHeader with
    | true =>
        have hguard := hguards hguarded
        rw [guard_stops_eq hutility hpositive, hguarded, Bool.true_and, Bool.and_eq_true,
          decide_eq_true_eq] at hguard
        exact ⟨hguard.2, fun _ hfirst => hguard.1 (hstart.mpr hfirst), nofun⟩
    | false =>
        obtain ⟨hheader, hskip⟩ := hheaders hguarded
        rw [skip_last_header_eq hutility hpositive, Bool.and_eq_true, decide_eq_true_eq] at hskip
        exact ⟨hskip.2, nofun, fun _ => ⟨hskip.1, hheader⟩⟩
  · intro htests M _ contributions initial
    have hsound : SoundReduction loop tripCount numTaskInstances chunkSize := {
      before := hbefore
      last := hlast
      guards := fun hguarded chunk hpos hlt =>
        ⟨(htests chunk hpos hlt).1, (htests chunk hpos hlt).2.1 hguarded⟩
      headers := fun hguarded chunk hpos hlt => ((htests chunk hpos hlt).2.2 hguarded).2
      select := fun hguarded chunk hpos hlt =>
        ⟨((htests chunk hpos hlt).2.2 hguarded).1, (htests chunk hpos hlt).1⟩ }
    obtain ⟨slots, hslots, hreduce⟩ := hsound.slots hutility hinstances hchunk contributions
    exact ⟨slots, fun taskInstanceID hinstance => ⟨tripCount + 1, hslots taskInstanceID hinstance⟩,
      hreduce initial⟩

end Ring

/-- Two tasks with chunks of two iterations count 32-bit words from 0 to 5. -/
theorem reduction_counting_up :
    ReducesAsSequential IVUtility.arithmetic (⟨32, false, 0, 1, 5, false⟩ : WordIV).loop 5 2 2 :=
  (reduces_as_sequential_iff IVUtility.arithmetic_documented (by decide) (by decide) (by decide)
    (by decide)).mpr fun chunk hpos hlt => by
      have hpos' : 2 < chunk := hpos
      have hlt' : chunk < 4 := hlt
      obtain rfl : chunk = 3 := by omega
      decide

/-- A loop over unsigned words that runs two iterations, `0` and `1431655766`. The value at
iteration 3 is `2`. -/
def wrappingLoop : WordIV := ⟨32, false, 0, 1431655766, 2000000000, false⟩

/-- A product of two factors 2 in two tasks: the second task takes iteration 3 for one of the loop
and multiplies by 2 once too often. -/
theorem wrapping_reduction_fails :
    wrappingLoop.RunsWithoutWrapping 2 ∧
    ((List.range 2).map fun taskInstanceID =>
      (run IVUtility.arithmetic wrappingLoop.loop ⟨taskInstanceID, 2, 1⟩
        (⟨fun _ => 1, fun _ => 2⟩ : Contributions ℕ).code 3 1).map
          (privateSlot IVUtility.arithmetic wrappingLoop.loop)) = [some 2, some 4] ∧
    (⟨fun _ => 1, fun _ => 2⟩ : Contributions ℕ).sequential 1 2 = 4 ∧
    ¬ ReducesAsSequential IVUtility.arithmetic wrappingLoop.loop 2 2 1 := by
  have hstored : ∀ taskInstanceID < 2,
      (run IVUtility.arithmetic wrappingLoop.loop ⟨taskInstanceID, 2, 1⟩
        (⟨fun _ => 1, fun _ => 2⟩ : Contributions ℕ).code 3 1).map
          (privateSlot IVUtility.arithmetic wrappingLoop.loop) =
        some (2 ^ (taskInstanceID + 1)) := by decide
  refine ⟨⟨by decide, by decide, by decide, by decide, by decide⟩, by decide, by decide, ?_⟩
  intro hreduces
  obtain ⟨slots, hslots, hreduce⟩ := hreduces ℕ ⟨fun _ => 1, fun _ => 2⟩ 1
  -- More fuel does not change what is stored.
  have hslot : ∀ taskInstanceID < 2, slots taskInstanceID = 2 ^ (taskInstanceID + 1) := by
    intro taskInstanceID hinstance
    obtain ⟨enough, hrun⟩ := hslots taskInstanceID hinstance
    obtain ⟨leave, hleave, hvalue⟩ := Option.map_eq_some_iff.mp (hstored taskInstanceID hinstance)
    have hmore := hrun (enough + 3) (Nat.le_add_right _ _)
    rw [run_mono _ hleave (Nat.le_add_left _ _), Option.map_some, hvalue] at hmore
    exact (Option.some.inj hmore).symm
  have hproduct : reduceSlots 1 slots 2 = 1 * slots 0 * slots 1 := rfl
  rw [hproduct, hslot 0 (by decide), hslot 1 (by decide)] at hreduce
  revert hreduce
  decide

/-! ## Words that do not wrap -/

section Words

variable {iv : WordIV} {tripCount numTaskInstances chunkSize : Nat}

/-- Where no task computes a value that wraps, the tests of the tasks are sound. -/
theorem WordIV.RunsWithoutWrapping.sound_reduction (h : iv.RunsWithoutWrapping tripCount)
    (hinstances : 1 ≤ numTaskInstances) (hchunk : 1 ≤ chunkSize)
    (hchunks : ChunksWithoutWrapping iv tripCount numTaskInstances chunkSize) :
    SoundReduction iv.loop tripCount numTaskInstances chunkSize := by
  have hexit : ∀ iteration, iv.loop.exitCondition (ivAt iv.loop iv.loop.governing iteration) =
      iv.headerTest iteration := fun iteration => congrArg iv.exitTest (word_iv_at iteration)
  have hnoWrap : ∀ chunk, tripCount / chunkSize < chunk →
      chunk < tripCount / chunkSize + numTaskInstances →
      iv.value (iv.word (iv.sequential (chunk * chunkSize))) =
        iv.sequential (chunk * chunkSize) := by
    intro chunk hpos hlt
    obtain ⟨args, count, rfl, rfl, hinstance, hbefore, heq, -⟩ :=
      exists_task_at_chunk hinstances hchunk hpos hlt
    have hvalue := hchunks args.taskInstanceID hinstance count hbefore
    rwa [← heq]
  have htest : ∀ chunk, tripCount / chunkSize < chunk →
      chunk < tripCount / chunkSize + numTaskInstances →
      iv.headerTest (chunk * chunkSize - 1) = true ∧ iv.headerTest (chunk * chunkSize) = true := by
    intro chunk hpos hlt
    have hbeyond := lt_next_chunk hchunk hpos
    have hvalue := hnoWrap chunk hpos hlt
    exact ⟨h.header_test_beyond (by omega) (by omega) hvalue,
      h.header_test_beyond hbeyond.le le_rfl hvalue⟩
  have hne : ∀ chunk, tripCount / chunkSize < chunk →
      chunk < tripCount / chunkSize + numTaskInstances →
      ivAt iv.loop iv.loop.governing (chunk * chunkSize) ≠
        iv.loop.startValue iv.loop.governing := by
    intro chunk hpos hlt hsame
    have hbeyond := lt_next_chunk hchunk hpos
    have hword : iv.word (iv.sequential (chunk * chunkSize)) = iv.word iv.startValue :=
      (word_iv_at _).symm.trans hsame
    have hstart := h.noWrap 0 (Nat.zero_le _)
    have hvalue := hnoWrap chunk hpos hlt
    have hzero : iv.sequential 0 = iv.startValue := by simp [WordIV.sequential]
    rw [hword, ← hzero, hstart] at hvalue
    unfold WordIV.sequential at hvalue
    have hmul : iv.stepValue * ((chunk * chunkSize : Nat) : ℤ) = 0 := by
      rw [Nat.cast_zero, mul_zero, add_zero] at hvalue
      omega
    rcases mul_eq_zero.mp hmul with hstep | hiteration
    · exact h.step hstep
    · have : chunk * chunkSize = 0 := by exact_mod_cast hiteration
      omega
  exact {
    before := fun iteration hlt => by
      rw [hexit, h.header_test hlt.le, decide_eq_false (by omega)]
    last := by rw [hexit, h.header_test le_rfl, decide_eq_true rfl]
    guards := fun _ chunk hpos hlt =>
      ⟨(hexit _).trans (htest chunk hpos hlt).1, fun _ => hne chunk hpos hlt⟩
    headers := fun _ chunk hpos hlt => (hexit _).trans (htest chunk hpos hlt).2
    select := fun _ chunk hpos hlt =>
      ⟨hne chunk hpos hlt, (hexit _).trans (htest chunk hpos hlt).1⟩ }

/-- Where no task computes a value that wraps, a reduction over machine words gives the sequential
result. -/
theorem word_reduction_eq_sequential [CommMonoid M] {utility : IVUtility (BitVec iv.width)}
    (hutility : utility.Documented) (h : iv.RunsWithoutWrapping tripCount)
    (hinstances : 1 ≤ numTaskInstances) (hchunk : 1 ≤ chunkSize)
    (hchunks : ChunksWithoutWrapping iv tripCount numTaskInstances chunkSize)
    (contributions : Contributions M) :
    ∃ slots : Nat → M,
      (∀ taskInstanceID < numTaskInstances, ∀ fuel > tripCount,
        (run utility iv.loop ⟨taskInstanceID, numTaskInstances, chunkSize⟩ contributions.code fuel
          1).map (privateSlot utility iv.loop) = some (slots taskInstanceID)) ∧
      ∀ initial, reduceSlots initial slots numTaskInstances =
        contributions.sequential initial tripCount :=
  (h.sound_reduction hinstances hchunk hchunks).slots hutility hinstances hchunk contributions

end Words

end Gino.Doall
