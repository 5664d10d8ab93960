import Gino.Doall.Chunking
import Mathlib.Tactic.Linarith

/-!
# The chunks partition the iterations

When the tests that the tasks make tell the iterations of the sequential loop from those beyond it,
a task stops at the first iteration dealt to it that is not one of the loop's. Over the integers
the tests do, and `chunks_partition_iterations` says what each task visits.
-/

namespace Gino.Doall

open Machine

variable {ι V : Type*}

/-- The tests that the task instances make tell the iterations of the loop from those beyond it. A
task that is past the last iteration tests at the start of one of the next chunks: with guards the
value one step before it, unless it enters the loop there with the start value, and else the value
in the header. -/
structure SoundExit [CommRing V] (loop : ChunkedLoop ι V)
    (tripCount numTaskInstances chunkSize : Nat) : Prop where
  before : ∀ iteration < tripCount,
    loop.exitCondition (ivAt loop loop.governing iteration) = false
  last : loop.exitCondition (ivAt loop loop.governing tripCount) = true
  guards : loop.requiresConditionBeforeEnteringHeader = true →
    ∀ chunk, tripCount / chunkSize < chunk → chunk < tripCount / chunkSize + numTaskInstances →
      loop.exitCondition (ivAt loop loop.governing (chunk * chunkSize - 1)) = true ∧
      (chunk < numTaskInstances →
        ivAt loop loop.governing (chunk * chunkSize) ≠ loop.startValue loop.governing)
  headers : loop.requiresConditionBeforeEnteringHeader = false →
    ∀ chunk, tripCount / chunkSize < chunk → chunk < tripCount / chunkSize + numTaskInstances →
      loop.exitCondition (ivAt loop loop.governing (chunk * chunkSize)) = true

section Sound

variable [CommRing V] {utility : IVUtility V} {loop : ChunkedLoop ι V} {args : TaskArgs}
  {tripCount count : Nat}

/-- One step before an iteration is the iteration before. -/
theorem iv_at_sub_step (i : ι) {iteration : Nat} (hpos : 0 < iteration) :
    ivAt loop i iteration - loop.stepValue i = ivAt loop i (iteration - 1) := by
  obtain ⟨earlier, rfl⟩ : ∃ earlier, iteration = earlier + 1 := ⟨iteration - 1, by omega⟩
  unfold ivAt
  rw [Nat.add_sub_cancel]
  push_cast
  ring

/-- The first iteration dealt to a task beyond the last header starts one of the next chunks. -/
theorem iteration_beyond (hchunk : 0 < args.chunkSize)
    (hinstance : args.taskInstanceID < args.numTaskInstances)
    (hbefore : ∀ earlier < count, iterationAt args earlier < tripCount)
    (hbeyond : tripCount < iterationAt args count) :
    ∃ chunk, tripCount / args.chunkSize < chunk ∧
      chunk < tripCount / args.chunkSize + args.numTaskInstances ∧
      iterationAt args count = chunk * args.chunkSize ∧
      (count = 0 ↔ chunk < args.numTaskInstances) := by
  rcases first_dealt_eq hchunk hinstance hbefore hbeyond.le with heq | ⟨chunk, hpos, hlt, heq⟩
  · exact absurd (show iterationAt args count = tripCount from heq) hbeyond.ne'
  · exact ⟨chunk, hpos, hlt, heq, dealt_eq_start hchunk hinstance heq⟩

variable [DecidableEq V]

/-- The guard of a task, by the value one step before. A task that enters the loop does not test the
start value. -/
theorem guard_stops_eq (hutility : utility.Documented) (hpos : 0 < iterationAt args count) :
    guardStops utility loop args count =
      (loop.requiresConditionBeforeEnteringHeader &&
        (decide (count = 0 →
            ivAt loop loop.governing (iterationAt args count) ≠ loop.startValue loop.governing) &&
          loop.exitCondition (ivAt loop loop.governing (iterationAt args count - 1)))) := by
  unfold guardStops
  congr 1
  by_cases hzero : count = 0
  · subst hzero
    rw [if_pos rfl]
    unfold preheaderGuard
    dsimp only
    rw [entry_eq hutility, hutility.ago, ← iv_at_sub_step _ hpos]
    exact congrArg (· && _) (decide_eq_decide.mpr (by simp [stateAt]))
  · rw [if_neg hzero]
    unfold latchGuard
    rw [hutility.previous, ← iv_at_sub_step _ hpos]
    simp [hzero, stateAt]

/-- Before an iteration of the loop and before its last header no guard stops a task. -/
theorem guard_stops_within (hutility : utility.Documented) (hchunk : 0 < args.chunkSize)
    (hinstances : 0 < args.numTaskInstances)
    (hwithin : ∀ iteration < tripCount,
      loop.exitCondition (ivAt loop loop.governing iteration) = false)
    (hle : iterationAt args count ≤ tripCount) : guardStops utility loop args count = false := by
  rcases Nat.eq_zero_or_pos (iterationAt args count) with hstart | hpos
  · have hzero : count = 0 := by
      have hmono : count ≤ dealt _ _ _ count :=
        (dealt_strict_mono args.taskInstanceID hchunk hinstances).le_apply
      exact Nat.eq_zero_of_le_zero (hmono.trans hstart.le)
    subst hzero
    unfold guardStops preheaderGuard
    dsimp only
    rw [entry_eq hutility]
    simp [stateAt, hstart, ivAt]
  · rw [guard_stops_eq hutility hpos, hwithin _ (by omega), Bool.and_false,
      Bool.and_false]

/-- The guards stop a task that comes to the end of the loop exactly before a header that the loop
does not run. -/
theorem SoundExit.guard_stops (args : TaskArgs)
    (h : SoundExit loop tripCount args.numTaskInstances args.chunkSize)
    (hutility : utility.Documented) (hchunk : 0 < args.chunkSize)
    (hinstance : args.taskInstanceID < args.numTaskInstances)
    (hbefore : ∀ earlier < count, iterationAt args earlier < tripCount) :
    guardStops utility loop args count =
      (loop.requiresConditionBeforeEnteringHeader &&
        decide (tripCount < iterationAt args count)) := by
  have hinstances := Nat.zero_lt_of_lt hinstance
  by_cases hbeyond : tripCount < iterationAt args count
  · rw [decide_eq_true hbeyond, guard_stops_eq hutility (Nat.zero_lt_of_lt hbeyond)]
    cases hguarded : loop.requiresConditionBeforeEnteringHeader with
    | false => rfl
    | true =>
        obtain ⟨chunk, hpos, hlt, heq, hstart⟩ :=
          iteration_beyond hchunk hinstance hbefore hbeyond
        obtain ⟨hexit, hnew⟩ := h.guards hguarded chunk hpos hlt
        rw [heq, hexit, decide_eq_true fun hzero => hnew (hstart.mp hzero)]
        rfl
  · rw [decide_eq_false hbeyond, Bool.and_false]
    exact guard_stops_within hutility hchunk hinstances h.before (Nat.le_of_not_lt hbeyond)

/-- A task stops at the first iteration dealt to it that the loop does not run. -/
theorem SoundExit.stops_after (args : TaskArgs)
    (h : SoundExit loop tripCount args.numTaskInstances args.chunkSize)
    (hutility : utility.Documented) (hchunk : 0 < args.chunkSize)
    (hinstance : args.taskInstanceID < args.numTaskInstances)
    (hbefore : ∀ earlier < count, iterationAt args earlier < tripCount)
    (hafter : tripCount ≤ iterationAt args count) : StopsAfter utility loop args count where
  before earlier hearlier := by
    have hlt := hbefore earlier hearlier
    exact ⟨guard_stops_within hutility hchunk (Nat.zero_lt_of_lt hinstance) h.before hlt.le,
      h.before _ hlt⟩
  stops := by
    have hguard := h.guard_stops args hutility hchunk hinstance hbefore
    rcases Nat.lt_or_eq_of_le hafter with hbeyond | hlast
    · cases hguarded : loop.requiresConditionBeforeEnteringHeader with
      | true =>
          rw [hguarded, decide_eq_true hbeyond] at hguard
          exact .inl hguard
      | false =>
          obtain ⟨chunk, hpos, hlt, heq, -⟩ := iteration_beyond hchunk hinstance hbefore hbeyond
          refine .inr ?_
          unfold headerStops
          rw [heq]
          exact h.headers hguarded chunk hpos hlt
    · refine .inr ?_
      unfold headerStops
      rw [← hlast]
      exact h.last

end Sound

/-! ## What a task visits -/

/-- The header and body executions of a task, each with the iteration counter and the induction
variables. -/
structure Visits (ι V : Type*) where
  headers : List (Nat × (ι → V))
  bodies : List (Nat × (ι → V))

/-- The code that logs its executions. -/
def visit : LoopCode ι V (Visits ι V) where
  header state visits :=
    { visits with headers := visits.headers ++ [(state.iterCounter, state.ivs)] }
  body state visits := { visits with bodies := visits.bodies ++ [(state.iterCounter, state.ivs)] }

/-- An execution that finds every induction variable as in the sequential loop. -/
def visitAt [CommRing V] (loop : ChunkedLoop ι V) (iteration : Nat) : Nat × (ι → V) :=
  (iteration, fun i => ivAt loop i iteration)

/-- The executions of a task before it stops. -/
theorem value_at_visit [CommRing V] (loop : ChunkedLoop ι V) (args : TaskArgs) (count : Nat) :
    valueAt loop args visit ⟨[], []⟩ count =
      ⟨((List.range count).map (iterationAt args)).map (visitAt loop),
        ((List.range count).map (iterationAt args)).map (visitAt loop)⟩ := by
  induction count with
  | zero => rfl
  | succ count ih =>
      rw [value_at_succ, ih]
      simp [visit, visitAt, stateAt, List.range_succ]

/-- The executions of a task when its exit test is sound: the bodies of its own iterations, and
with the guards the headers of its own iterations, the last one of the loop included. -/
theorem SoundExit.visits [CommRing V] [DecidableEq V] {utility : IVUtility V}
    {loop : ChunkedLoop ι V} {tripCount : Nat} (args : TaskArgs)
    (h : SoundExit loop tripCount args.numTaskInstances args.chunkSize)
    (hutility : utility.Documented) (hchunk : 0 < args.chunkSize)
    (hinstance : args.taskInstanceID < args.numTaskInstances) :
    ∃ leave, (∀ fuel > tripCount, run utility loop args visit fuel ⟨[], []⟩ = some leave) ∧
      leave.value.bodies = ((List.range tripCount).filter fun iteration =>
        dealer args.numTaskInstances args.chunkSize iteration = args.taskInstanceID).map
          (visitAt loop) ∧
      (loop.requiresConditionBeforeEnteringHeader = true →
        leave.value.headers = ((List.range (tripCount + 1)).filter fun iteration =>
          dealer args.numTaskInstances args.chunkSize iteration = args.taskInstanceID).map
            (visitAt loop)) := by
  have hinstances : 0 < args.numTaskInstances := Nat.zero_lt_of_lt hinstance
  have hmono := dealt_strict_mono args.taskInstanceID hchunk hinstances
  obtain ⟨count, hcount, hafter, hbefore⟩ :=
    exists_first_dealt args.taskInstanceID hchunk hinstances tripCount
  -- The task leaves at the first iteration dealt to it that is not one of the loop.
  have hstops := h.stops_after args hutility hchunk hinstance hbefore hafter
  refine ⟨leaveAt utility loop args visit ⟨[], []⟩ count, fun fuel hfuel =>
    run_eq args hutility hchunk hinstances visit _ hstops (by omega), ?_, fun hguarded => ?_⟩
  · rw [filter_dealer_eq_map hchunk hinstance hbefore hafter]
    cases hguard : guardStops utility loop args count with
    | true => rw [leave_at_guard _ _ hguard, value_at_visit]; rfl
    | false => rw [leave_at_header _ _ hguard, value_at_visit]; rfl
  · have hguard := h.guard_stops args hutility hchunk hinstance hbefore
    rw [hguarded, Bool.true_and] at hguard
    by_cases hbeyond : tripCount < iterationAt args count
    · rw [decide_eq_true hbeyond] at hguard
      rw [leave_at_guard _ _ hguard, value_at_visit, filter_dealer_eq_map hchunk hinstance
        (fun earlier hearlier => Nat.lt_succ_of_lt (hbefore earlier hearlier)) hbeyond]
      rfl
    · -- The task that owns the last header of the loop executes it and leaves there.
      rw [decide_eq_false hbeyond] at hguard
      have hlast : iterationAt args count = tripCount := by
        have : tripCount ≤ iterationAt args count := hafter
        omega
      have hnext : tripCount + 1 ≤ dealt args.numTaskInstances args.chunkSize
          args.taskInstanceID (count + 1) := hlast ▸ hmono (Nat.lt_succ_self count)
      have hupto : ∀ earlier < count + 1, dealt args.numTaskInstances args.chunkSize
          args.taskInstanceID earlier < tripCount + 1 := by
        intro earlier hearlier
        have := hmono.monotone (Nat.le_of_lt_succ hearlier)
        have : dealt args.numTaskInstances args.chunkSize args.taskInstanceID count =
          tripCount := hlast
        omega
      rw [leave_at_header _ _ hguard, value_at_visit,
        filter_dealer_eq_map hchunk hinstance hupto hnext, List.range_succ, List.map_append,
        List.map_append]
      rfl

/-! ## Loops over the integers -/

/-- The governing variable is at or past the exit value, in the direction of its step. -/
def atOrPast (stepValue exitValue iv : ℤ) : Bool :=
  if 0 < stepValue then decide (exitValue ≤ iv) else decide (iv ≤ exitValue)

/-- Over the integers the test holds from the trip count on. -/
theorem exit_beyond_int {loop : ChunkedLoop ι ℤ} {exitValue : ℤ} {tripCount iteration : Nat}
    (hexit : loop.exitCondition = atOrPast (loop.stepValue loop.governing) exitValue)
    (hlast : loop.exitCondition (ivAt loop loop.governing tripCount) = true)
    (hge : tripCount ≤ iteration) :
    loop.exitCondition (ivAt loop loop.governing iteration) = true := by
  have hfar : (tripCount : ℤ) ≤ iteration := by exact_mod_cast hge
  rw [hexit] at hlast ⊢
  unfold atOrPast ivAt at *
  split_ifs at hlast ⊢ with hpos
  · simp only [decide_eq_true_eq] at hlast ⊢
    nlinarith
  · simp only [decide_eq_true_eq] at hlast ⊢
    nlinarith

/-- Over the integers only the first iteration has the start value. -/
theorem iv_at_ne_start_int {loop : ChunkedLoop ι ℤ} (hstep : loop.stepValue loop.governing ≠ 0)
    {iteration : Nat} (hpos : 0 < iteration) :
    ivAt loop loop.governing iteration ≠ loop.startValue loop.governing := by
  intro hfirst
  unfold ivAt at hfirst
  have hzero : loop.stepValue loop.governing * (iteration : ℤ) = 0 := by
    simpa using hfirst
  rcases mul_eq_zero.mp hzero with hstep' | hiteration
  · exact hstep hstep'
  · have : iteration = 0 := by exact_mod_cast hiteration
    omega

/-- The start of a later chunk is beyond the end of the loop. -/
theorem lt_next_chunk {tripCount chunkSize chunk : Nat} (hchunk : 0 < chunkSize)
    (hpos : tripCount / chunkSize < chunk) : tripCount < chunk * chunkSize :=
  (Nat.div_lt_iff_lt_mul hchunk).mp hpos

/-- Over the integers the tests of the tasks are sound. -/
theorem sound_exit_int {loop : ChunkedLoop ι ℤ} {exitValue : ℤ}
    {tripCount numTaskInstances chunkSize : Nat}
    (hexit : loop.exitCondition = atOrPast (loop.stepValue loop.governing) exitValue)
    (hstep : loop.stepValue loop.governing ≠ 0)
    (hbefore : ∀ iteration < tripCount,
      loop.exitCondition (ivAt loop loop.governing iteration) = false)
    (hlast : loop.exitCondition (ivAt loop loop.governing tripCount) = true)
    (hchunk : 0 < chunkSize) : SoundExit loop tripCount numTaskInstances chunkSize where
  before := hbefore
  last := hlast
  guards _ chunk hpos _ := by
    have hbeyond := lt_next_chunk hchunk hpos
    exact ⟨exit_beyond_int hexit hlast (by omega),
      fun _ => iv_at_ne_start_int hstep (Nat.zero_lt_of_lt hbeyond)⟩
  headers _ chunk hpos _ := exit_beyond_int hexit hlast (lt_next_chunk hchunk hpos).le

/-- The chunks partition the iteration space: every instance executes the bodies of the iterations
dealt to it, and with the guards their headers, in increasing order and with every induction
variable as in the sequential loop. -/
theorem chunks_partition_iterations {utility : IVUtility ℤ} (hutility : utility.Documented)
    (loop : ChunkedLoop ι ℤ) {exitValue : ℤ} {tripCount numTaskInstances chunkSize : Nat}
    (hexit : loop.exitCondition = atOrPast (loop.stepValue loop.governing) exitValue)
    (hstep : loop.stepValue loop.governing ≠ 0)
    (hbefore : ∀ iteration < tripCount,
      loop.exitCondition (ivAt loop loop.governing iteration) = false)
    (hlast : loop.exitCondition (ivAt loop loop.governing tripCount) = true)
    (hinstances : 1 ≤ numTaskInstances) (hchunk : 1 ≤ chunkSize) :
    (∀ iteration, dealer numTaskInstances chunkSize iteration < numTaskInstances) ∧
    ∀ taskInstanceID < numTaskInstances, ∃ leave,
      (∀ fuel > tripCount,
        run utility loop ⟨taskInstanceID, numTaskInstances, chunkSize⟩ visit fuel ⟨[], []⟩ =
          some leave) ∧
      leave.value.bodies = ((List.range tripCount).filter fun iteration =>
        dealer numTaskInstances chunkSize iteration = taskInstanceID).map (visitAt loop) ∧
      (loop.requiresConditionBeforeEnteringHeader = true →
        leave.value.headers = ((List.range (tripCount + 1)).filter fun iteration =>
          dealer numTaskInstances chunkSize iteration = taskInstanceID).map (visitAt loop)) := by
  refine ⟨fun iteration => Nat.mod_lt _ hinstances, fun taskInstanceID hinstance => ?_⟩
  exact SoundExit.visits ⟨taskInstanceID, numTaskInstances, chunkSize⟩
    (sound_exit_int hexit hstep hbefore hlast hchunk) hutility hchunk hinstance

/-- A guarded loop of five iterations in chunks of two: the second of two instances runs iterations
2 and 3. -/
theorem chunks_of_five_iterations :
    ∃ leave, run IVUtility.arithmetic
        (⟨fun _ => 0, fun _ => 1, (), atOrPast 1 5, true⟩ : ChunkedLoop Unit ℤ) ⟨1, 2, 2⟩ visit 6
          ⟨[], []⟩ = some leave ∧
      leave.value.bodies.map Prod.fst = [2, 3] ∧ leave.value.headers.map Prod.fst = [2, 3] := by
  obtain ⟨-, htasks⟩ := chunks_partition_iterations (IVUtility.arithmetic_documented)
    (⟨fun _ => 0, fun _ => 1, (), atOrPast 1 5, true⟩ : ChunkedLoop Unit ℤ) rfl (by decide)
    (show ∀ iteration < 5, _ by decide) (by decide) (show 1 ≤ 2 by decide)
    (show 1 ≤ 2 by decide)
  obtain ⟨leave, hrun, hbodies, hheaders⟩ := htasks 1 (by decide)
  refine ⟨leave, hrun 6 (by decide), ?_, ?_⟩
  · rw [hbodies]
    decide
  · rw [hheaders rfl]
    decide

end Gino.Doall
