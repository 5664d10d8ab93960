import Gino.Doall.Coverage
import Mathlib.Algebra.BigOperators.Group.Finset.Piecewise

/-!
# Reductions of a chunked DOALL loop

The accumulator of a reduction starts at the identity in every task, and each task stores what it
accumulated in a private slot. A header that needs no guard is executed once too often by the tasks
that stop beyond the last iteration, and a select picks the header PHI there. Where these tests are
sound the slots together with the initial value give the sequential result
(`SoundReduction.slots`), and over the integers they are (`reduction_eq_sequential`).
-/

namespace Gino.Doall

open Machine

variable {ι V M : Type*}

/-- What a loop accumulates in each header and each body. A part without accumulation contributes
the identity. -/
structure Contributions (M : Type*) where
  header : Nat → M
  body : Nat → M

section Task

variable [CommMonoid M] (contributions : Contributions M)

/-- The accumulator in the sequential loop, header by header and body by body. -/
def Contributions.sequential (initial : M) (tripCount : Nat) : M :=
  (List.range tripCount).foldl (fun value iteration =>
    value * contributions.header iteration * contributions.body iteration) initial *
    contributions.header tripCount

/-- The code of the accumulator. -/
def Contributions.code : LoopCode ι V M where
  header state value := value * contributions.header state.iterCounter
  body state value := value * contributions.body state.iterCounter

variable [Ring V] [DecidableEq V] (utility : IVUtility V) (loop : ChunkedLoop ι V)

/-- The condition of the select in the block that leaves the task: the header that left the loop
was not one of the loop's. -/
def skipLastHeader (state : TaskState ι V) : Bool :=
  decide (state.ivs loop.governing ≠ loop.startValue loop.governing) &&
    loop.exitCondition (utility.generateCodeToComputeValueToUseForAnIterationAgo
      (state.ivs loop.governing) (loop.stepValue loop.governing))

/-- The private slot of a task that has left its loop. A task that skips the loop leaves the
identity there, and without guards the stored value is the select. -/
def privateSlot (leave : Leave ι V M) : M :=
  match leave.point with
  | .preheader => 1
  | .header | .latch =>
      if loop.requiresConditionBeforeEnteringHeader then leave.value
      else if skipLastHeader utility loop leave.state then leave.phi else leave.value

/-- The accumulator after all slots have been reduced into the initial value. -/
def reduceSlots (initial : M) (slots : Nat → M) (numTaskInstances : Nat) : M :=
  (List.range numTaskInstances).foldl (fun value taskInstanceID =>
    value * slots taskInstanceID) initial

end Task

/-- The tests of the task instances tell the iterations of the loop from those beyond it, and
without guards the select of a task that leaves at the start of one of the next chunks picks the
header PHI. -/
structure SoundReduction [CommRing V] (loop : ChunkedLoop ι V)
    (tripCount numTaskInstances chunkSize : Nat) : Prop
    extends SoundExit loop tripCount numTaskInstances chunkSize where
  select : loop.requiresConditionBeforeEnteringHeader = false →
    ∀ chunk, tripCount / chunkSize < chunk → chunk < tripCount / chunkSize + numTaskInstances →
      ivAt loop loop.governing (chunk * chunkSize) ≠ loop.startValue loop.governing ∧
      loop.exitCondition (ivAt loop loop.governing (chunk * chunkSize - 1)) = true

/-- Over the integers they do. -/
theorem sound_reduction_int {loop : ChunkedLoop ι ℤ} {exitValue : ℤ}
    {tripCount numTaskInstances chunkSize : Nat}
    (hexit : loop.exitCondition = atOrPast (loop.stepValue loop.governing) exitValue)
    (hstep : loop.stepValue loop.governing ≠ 0)
    (hbefore : ∀ iteration < tripCount,
      loop.exitCondition (ivAt loop loop.governing iteration) = false)
    (hlast : loop.exitCondition (ivAt loop loop.governing tripCount) = true)
    (hchunk : 0 < chunkSize) : SoundReduction loop tripCount numTaskInstances chunkSize where
  toSoundExit := sound_exit_int hexit hstep hbefore hlast hchunk
  select _ chunk hpos _ := by
    have hbeyond := lt_next_chunk hchunk hpos
    exact ⟨iv_at_ne_start_int hstep (Nat.zero_lt_of_lt hbeyond),
      exit_beyond_int hexit hlast (by omega)⟩

section Slots

variable [CommMonoid M] {contributions : Contributions M}

/-- A fold that multiplies is the initial value times the product. -/
theorem foldl_mul_eq (initial : M) (factor : Nat → M) (count : Nat) :
    (List.range count).foldl (fun value i => value * factor i) initial =
      initial * ∏ i ∈ Finset.range count, factor i := by
  induction count with
  | zero => simp
  | succ count ih =>
      rw [List.range_succ, List.foldl_append, ih, List.foldl_cons, List.foldl_nil,
        Finset.prod_range_succ, mul_assoc]

/-- The sequential result as a product. -/
theorem sequential_eq (initial : M) (tripCount : Nat) :
    contributions.sequential initial tripCount =
      initial * (∏ iteration ∈ Finset.range tripCount,
        contributions.header iteration * contributions.body iteration) *
          contributions.header tripCount := by
  unfold Contributions.sequential
  simp only [mul_assoc _ (contributions.header _) (contributions.body _)]
  rw [foldl_mul_eq]

variable [CommRing V] [DecidableEq V] {utility : IVUtility V} {loop : ChunkedLoop ι V}
  {args : TaskArgs} {tripCount count : Nat}

omit [DecidableEq V] in
/-- The accumulator of a task before it stops. -/
theorem value_at_contributions (loop : ChunkedLoop ι V) (args : TaskArgs) (count : Nat) :
    valueAt loop args contributions.code 1 count =
      (((List.range count).map (iterationAt args)).map fun iteration =>
        contributions.header iteration * contributions.body iteration).prod := by
  induction count with
  | zero => rfl
  | succ count ih =>
      rw [value_at_succ, ih, List.range_succ]
      simp [Contributions.code, stateAt, mul_assoc]

omit [CommMonoid M] in
/-- The condition of the select, by the value one step before. The start value does not meet it. -/
theorem skip_last_header_eq (hutility : utility.Documented)
    (hpos : 0 < iterationAt args count) :
    skipLastHeader utility loop (stateAt loop args count) =
      (decide (ivAt loop loop.governing (iterationAt args count) ≠
          loop.startValue loop.governing) &&
        loop.exitCondition (ivAt loop loop.governing (iterationAt args count - 1))) := by
  unfold skipLastHeader
  rw [hutility.ago, ← iv_at_sub_step _ hpos]
  rfl

/-- At the end of the loop the condition of the select holds exactly beyond its last header. -/
theorem SoundReduction.skip_last_header
    (h : SoundReduction loop tripCount args.numTaskInstances args.chunkSize)
    (hutility : utility.Documented) (hchunk : 0 < args.chunkSize)
    (hinstance : args.taskInstanceID < args.numTaskInstances)
    (hbefore : ∀ earlier < count, iterationAt args earlier < tripCount)
    (hguarded : loop.requiresConditionBeforeEnteringHeader = false) :
    skipLastHeader utility loop (stateAt loop args count) =
      decide (tripCount < iterationAt args count) := by
  by_cases hbeyond : tripCount < iterationAt args count
  · rw [skip_last_header_eq hutility (Nat.zero_lt_of_lt hbeyond), decide_eq_true hbeyond]
    obtain ⟨chunk, hpos, hlt, heq, -⟩ := iteration_beyond hchunk hinstance hbefore hbeyond
    obtain ⟨hne, hexit⟩ := h.select hguarded chunk hpos hlt
    rw [heq, hexit, decide_eq_true hne]
    rfl
  · rw [decide_eq_false hbeyond]
    rcases Nat.eq_zero_or_pos (iterationAt args count) with hstart | hpos
    · unfold skipLastHeader
      simp [stateAt, hstart, ivAt]
    · rw [skip_last_header_eq hutility hpos, h.before _ (by omega), Bool.and_false]

/-- The slot of a task: the contributions of its iterations, and that of the last header if it is
dealt to the task. -/
theorem SoundReduction.private_slot (args : TaskArgs)
    (h : SoundReduction loop tripCount args.numTaskInstances args.chunkSize)
    (contributions : Contributions M) (hutility : utility.Documented)
    (hchunk : 0 < args.chunkSize) (hinstance : args.taskInstanceID < args.numTaskInstances)
    (hbefore : ∀ earlier < count, iterationAt args earlier < tripCount)
    (hafter : tripCount ≤ iterationAt args count) :
    privateSlot utility loop (leaveAt utility loop args contributions.code 1 count) =
      valueAt loop args contributions.code 1 count *
        if iterationAt args count = tripCount then contributions.header tripCount else 1 := by
  have hguard := h.guard_stops args hutility hchunk hinstance hbefore
  have hskip := h.skip_last_header hutility hchunk hinstance hbefore
  -- The last header of the loop is dealt to another task, or this task leaves at it.
  by_cases hbeyond : tripCount < iterationAt args count
  · rw [if_neg (by omega), mul_one]
    rw [decide_eq_true hbeyond] at hguard hskip
    cases hguarded : loop.requiresConditionBeforeEnteringHeader with
    | true =>
        rw [hguarded, Bool.true_and] at hguard
        by_cases hzero : count = 0
        · subst hzero
          simp [leaveAt, hguard, privateSlot, valueAt]
        · simp [leaveAt, hguard, privateSlot, hzero, hguarded]
    | false =>
        rw [hguarded, Bool.false_and] at hguard
        rw [leave_at_header _ _ hguard]
        simp [privateSlot, hguarded, hskip hguarded]
  · have hlast : iterationAt args count = tripCount := by omega
    rw [decide_eq_false hbeyond, Bool.and_false] at hguard
    rw [decide_eq_false hbeyond] at hskip
    rw [if_pos hlast, leave_at_header _ _ hguard]
    cases hguarded : loop.requiresConditionBeforeEnteringHeader with
    | true => simp [privateSlot, hguarded, Contributions.code, stateAt, hlast]
    | false =>
        simp only [privateSlot, hguarded, hskip hguarded, Bool.false_eq_true, if_false]
        show _ * contributions.header (iterationAt args count) = _
        rw [hlast]

omit [DecidableEq V] in
/-- The accumulator of a task that stops beyond the loop, as a product over its iterations. -/
theorem value_at_eq_prod (hchunk : 0 < args.chunkSize)
    (hinstance : args.taskInstanceID < args.numTaskInstances)
    (hbefore : ∀ earlier < count, iterationAt args earlier < tripCount)
    (hafter : tripCount ≤ iterationAt args count) :
    valueAt loop args contributions.code 1 count =
      ∏ iteration ∈ (Finset.range tripCount).filter fun iteration =>
          dealer args.numTaskInstances args.chunkSize iteration = args.taskInstanceID,
        contributions.header iteration * contributions.body iteration := by
  have hlist : (List.range count).map (iterationAt args) =
      (List.range tripCount).filter fun iteration =>
        dealer args.numTaskInstances args.chunkSize iteration = args.taskInstanceID :=
    (filter_dealer_eq_map hchunk hinstance hbefore hafter).symm
  rw [value_at_contributions, hlist, ← List.prod_toFinset _ (List.nodup_range.filter _)]
  exact Finset.prod_congr (by ext; simp) fun _ _ => rfl

/-- The last header of the loop is dealt to the task that stops exactly there. -/
theorem dealer_trip_count_iff (args : TaskArgs) (hchunk : 0 < args.chunkSize)
    (hinstance : args.taskInstanceID < args.numTaskInstances)
    (hafter : tripCount ≤ iterationAt args count)
    (hbefore : ∀ earlier < count, iterationAt args earlier < tripCount) :
    dealer args.numTaskInstances args.chunkSize tripCount = args.taskInstanceID ↔
      iterationAt args count = tripCount := by
  constructor
  · intro hdealer
    obtain ⟨other, hother⟩ := exists_dealt hchunk hdealer
    have hnot : ¬ other < count := fun hlt => absurd (hbefore other hlt) (by
      show ¬ dealt _ _ _ other < tripCount
      omega)
    have hmono := (dealt_strict_mono args.taskInstanceID hchunk
      (Nat.zero_lt_of_lt hinstance)).monotone (Nat.le_of_not_lt hnot)
    exact le_antisymm (hmono.trans hother.le) hafter
  · intro hlast
    rw [← hlast]
    exact dealer_dealt _ hchunk hinstance

/-- The slots of all tasks together hold every contribution once. -/
theorem prod_slots {numTaskInstances : Nat} (chunkSize : Nat) (hinstances : 1 ≤ numTaskInstances)
    (initial : M) (slots : Nat → M)
    (hslots : ∀ taskInstanceID < numTaskInstances, slots taskInstanceID =
      (∏ iteration ∈ (Finset.range tripCount).filter fun iteration =>
          dealer numTaskInstances chunkSize iteration = taskInstanceID,
        contributions.header iteration * contributions.body iteration) *
      if dealer numTaskInstances chunkSize tripCount = taskInstanceID
      then contributions.header tripCount else 1) :
    reduceSlots initial slots numTaskInstances = contributions.sequential initial tripCount := by
  have hdealer : ∀ iteration, dealer numTaskInstances chunkSize iteration ∈
      Finset.range numTaskInstances := fun iteration =>
    Finset.mem_range.mpr (Nat.mod_lt _ hinstances)
  unfold reduceSlots
  rw [foldl_mul_eq, sequential_eq, mul_assoc]
  congr 1
  calc ∏ taskInstanceID ∈ Finset.range numTaskInstances, slots taskInstanceID
      = ∏ taskInstanceID ∈ Finset.range numTaskInstances,
          ((∏ iteration ∈ (Finset.range tripCount).filter fun iteration =>
              dealer numTaskInstances chunkSize iteration = taskInstanceID,
            contributions.header iteration * contributions.body iteration) *
          if dealer numTaskInstances chunkSize tripCount = taskInstanceID
          then contributions.header tripCount else 1) :=
        Finset.prod_congr rfl fun taskInstanceID hmem =>
          hslots taskInstanceID (Finset.mem_range.mp hmem)
    _ = _ := by
        rw [Finset.prod_mul_distrib, Finset.prod_fiberwise_of_maps_to fun iteration _ =>
          hdealer iteration, Finset.prod_ite_eq, if_pos (hdealer tripCount)]

/-- Every task of a loop leaves it with some slot, and the slots reduce to the sequential result. -/
theorem SoundReduction.slots {numTaskInstances chunkSize : Nat}
    (h : SoundReduction loop tripCount numTaskInstances chunkSize) (hutility : utility.Documented)
    (hinstances : 1 ≤ numTaskInstances) (hchunk : 1 ≤ chunkSize)
    (contributions : Contributions M) :
    ∃ slots : Nat → M,
      (∀ taskInstanceID < numTaskInstances, ∀ fuel > tripCount,
        (run utility loop ⟨taskInstanceID, numTaskInstances, chunkSize⟩ contributions.code fuel
          1).map (privateSlot utility loop) = some (slots taskInstanceID)) ∧
      ∀ initial, reduceSlots initial slots numTaskInstances =
        contributions.sequential initial tripCount := by
  choose count hcount hafter hbefore using fun taskInstanceID =>
    exists_first_dealt taskInstanceID hchunk hinstances tripCount
  let args : Nat → TaskArgs := fun taskInstanceID => ⟨taskInstanceID, numTaskInstances, chunkSize⟩
  let leave : Nat → Leave ι V M := fun taskInstanceID =>
    leaveAt utility loop (args taskInstanceID) contributions.code 1 (count taskInstanceID)
  refine ⟨fun taskInstanceID => privateSlot utility loop (leave taskInstanceID),
    fun taskInstanceID hinstance fuel hfuel => ?_, fun initial =>
      prod_slots chunkSize hinstances initial _ fun taskInstanceID hinstance => ?_⟩
  · have hstops : StopsAfter utility loop (args taskInstanceID) (count taskInstanceID) :=
      SoundExit.stops_after (args taskInstanceID) h.toSoundExit hutility hchunk hinstance
        (hbefore taskInstanceID) (hafter taskInstanceID)
    have hrun : run utility loop (args taskInstanceID) contributions.code fuel 1 =
        some (leave taskInstanceID) := by
      refine run_eq (args taskInstanceID) hutility hchunk hinstances _ _ hstops ?_
      have := hcount taskInstanceID
      omega
    show (run utility loop (args taskInstanceID) contributions.code fuel 1).map _ = _
    rw [hrun]
    rfl
  · have howner : dealer numTaskInstances chunkSize tripCount = taskInstanceID ↔
        iterationAt (args taskInstanceID) (count taskInstanceID) = tripCount :=
      dealer_trip_count_iff (args taskInstanceID) hchunk hinstance (hafter taskInstanceID)
        (hbefore taskInstanceID)
    have hvalue : valueAt loop (args taskInstanceID) contributions.code 1 (count taskInstanceID) =
        ∏ iteration ∈ (Finset.range tripCount).filter fun iteration =>
            dealer numTaskInstances chunkSize iteration = taskInstanceID,
          contributions.header iteration * contributions.body iteration :=
      value_at_eq_prod hchunk hinstance (hbefore taskInstanceID) (hafter taskInstanceID)
    have hslot := SoundReduction.private_slot (args taskInstanceID) h contributions hutility hchunk
      hinstance (hbefore taskInstanceID) (hafter taskInstanceID)
    rw [hslot, hvalue]
    simp only [howner]

end Slots

/-- Over the integers a DOALL reduction gives the sequential result: with or without guards, every
task leaves its loop, and reducing the private slots into the initial value is the sequential
fold. -/
theorem reduction_eq_sequential [CommMonoid M] {utility : IVUtility ℤ}
    (hutility : utility.Documented) (loop : ChunkedLoop ι ℤ) {exitValue : ℤ}
    {tripCount numTaskInstances chunkSize : Nat}
    (hexit : loop.exitCondition = atOrPast (loop.stepValue loop.governing) exitValue)
    (hstep : loop.stepValue loop.governing ≠ 0)
    (hbefore : ∀ iteration < tripCount,
      loop.exitCondition (ivAt loop loop.governing iteration) = false)
    (hlast : loop.exitCondition (ivAt loop loop.governing tripCount) = true)
    (hinstances : 1 ≤ numTaskInstances) (hchunk : 1 ≤ chunkSize)
    (contributions : Contributions M) (initial : M) :
    ∃ slots : Nat → M,
      (∀ taskInstanceID < numTaskInstances, ∀ fuel > tripCount,
        (run utility loop ⟨taskInstanceID, numTaskInstances, chunkSize⟩ contributions.code fuel
          1).map (privateSlot utility loop) = some (slots taskInstanceID)) ∧
      reduceSlots initial slots numTaskInstances =
        contributions.sequential initial tripCount := by
  have hsound : SoundReduction loop tripCount numTaskInstances chunkSize :=
    sound_reduction_int hexit hstep hbefore hlast hchunk
  obtain ⟨slots, hslots, hreduce⟩ := hsound.slots hutility hinstances hchunk contributions
  exact ⟨slots, hslots, hreduce initial⟩

end Gino.Doall
