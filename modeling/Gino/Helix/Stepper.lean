import Gino.Doall.Coverage

/-!
# The iterations of the HELIX cores

`HELIX::rewireLoopForIVsToIterateNthIterations` lets every core run each n-th iteration of a loop
that is governed by an induction variable. Header instructions that must move are executed at the
start of the body, and once more in the block `last_iteration`, which a core enters after the loop
unless its guard says that another core has the last iteration. The guard is strict, so that two
cores enter the block when the variable meets the exit value exactly (`header_executed_iff`).
-/

namespace Gino.Helix

open Machine Doall

/-- The functions of the compiler library that the stepper calls, on the values of the instructions
that they generate. The two conditions are those of the header and of the guard of
`last_iteration`. -/
structure StepperUtility where
  computeInductionVariableValueForIteration : ℤ → ℤ → Nat → ℤ
  scaleInductionVariableStep : ℤ → Nat → ℤ
  stepInductionVariablePHI : ℤ → ℤ → ℤ
  updateConditionAndBranchToCatchIteratingPastExitValue : ℤ → ℤ → ℤ → Bool
  updateConditionToCheckIfWeHavePastExitValue : ℤ → ℤ → ℤ → Bool
  generateCodeToComputeValueToUseForAnIterationAgo : ℤ → ℤ → ℤ

/-- The variable is past the exit value, in the direction of its step. -/
def past (stepSize exitValue iv : ℤ) : Bool :=
  if 0 < stepSize then decide (exitValue < iv) else decide (iv < exitValue)

/-- What the stepper relies on: the value of an iteration, scaled steps, a non-strict condition in
the header and a strict one in the guard, and the value one step earlier. -/
structure StepperUtility.Documented (utility : StepperUtility) : Prop where
  start : ∀ startOfIV stepOfIV iteration,
    utility.computeInductionVariableValueForIteration startOfIV stepOfIV iteration =
      startOfIV + stepOfIV * iteration
  scale : ∀ stepOfIV factor,
    utility.scaleInductionVariableStep stepOfIV factor = stepOfIV * factor
  step : ∀ value jumpStepSize,
    utility.stepInductionVariablePHI value jumpStepSize = value + jumpStepSize
  catchPast : ∀ stepSize exitValue,
    utility.updateConditionAndBranchToCatchIteratingPastExitValue stepSize exitValue =
      atOrPast stepSize exitValue
  checkPast : ∀ stepSize exitValue,
    utility.updateConditionToCheckIfWeHavePastExitValue stepSize exitValue =
      past stepSize exitValue
  ago : ∀ value stepSize,
    utility.generateCodeToComputeValueToUseForAnIterationAgo value stepSize = value - stepSize

/-- The arithmetic the library generates. -/
def StepperUtility.arithmetic : StepperUtility where
  computeInductionVariableValueForIteration startOfIV stepOfIV iteration :=
    startOfIV + stepOfIV * iteration
  scaleInductionVariableStep stepOfIV factor := stepOfIV * factor
  stepInductionVariablePHI value jumpStepSize := value + jumpStepSize
  updateConditionAndBranchToCatchIteratingPastExitValue := atOrPast
  updateConditionToCheckIfWeHavePastExitValue := past
  generateCodeToComputeValueToUseForAnIterationAgo value stepSize := value - stepSize

/-- The arithmetic is as documented. -/
theorem StepperUtility.arithmetic_documented : StepperUtility.arithmetic.Documented :=
  ⟨fun _ _ _ => rfl, fun _ _ => rfl, fun _ _ => rfl, fun _ _ => rfl, fun _ _ => rfl, fun _ _ => rfl⟩

/-- A loop that an induction variable governs. The header compares the variable itself with the exit
value, or a value computed from it. -/
structure GovernedLoop where
  startValue : ℤ
  stepSize : ℤ
  exitValue : ℤ
  comparedOffset : ℤ

/-- What a core executes, as the values of the variable: the moved header instructions at the start
of the body, the rest of the body, and the block `last_iteration` if it is entered. -/
structure CoreRun where
  moved : List ℤ
  bodies : List ℤ
  lastIteration : Option ℤ
  deriving DecidableEq

/-- Every execution of the moved header instructions by a core. -/
def CoreRun.headers (run : CoreRun) : List ℤ := run.moved ++ run.lastIteration.toList

section Core

variable (utility : StepperUtility) (loop : GovernedLoop) (numCores : Nat)

/-- The loop of a core from a value of the variable on. It gives nothing where the fuel does not
suffice. -/
def coreLoop : Nat → ℤ → Option CoreRun
  | 0, _ => none
  | fuel + 1, iv =>
      let valueUsedToCompare := iv + loop.comparedOffset
      if utility.updateConditionAndBranchToCatchIteratingPastExitValue loop.stepSize loop.exitValue
        valueUsedToCompare
      then
        let prevIterationValue :=
          utility.generateCodeToComputeValueToUseForAnIterationAgo iv loop.stepSize
        let prevIterGuard := utility.updateConditionToCheckIfWeHavePastExitValue loop.stepSize
          loop.exitValue prevIterationValue
        some ⟨[], [], if prevIterGuard then none else some iv⟩
      else
        let jumpStepSize := utility.scaleInductionVariableStep loop.stepSize (numCores - 1)
        (coreLoop fuel (utility.stepInductionVariablePHI (iv + loop.stepSize) jumpStepSize)).map
          fun run => ⟨iv :: run.moved, iv :: run.bodies, run.lastIteration⟩

/-- The task of a core. -/
def coreTask (fuel core : Nat) : Option CoreRun :=
  coreLoop utility loop numCores fuel (utility.computeInductionVariableValueForIteration
    loop.startValue loop.stepSize core)

end Core

namespace GovernedLoop

variable (loop : GovernedLoop)

/-- The value of the variable in an iteration. -/
def ivAt (iteration : Nat) : ℤ := loop.startValue + loop.stepSize * iteration

/-- The non-strict exit condition holds first in an iteration, whose header is the last one that
the sequential loop executes. -/
structure RunsUntil (N : Nat) : Prop where
  step : loop.stepSize ≠ 0
  before : ∀ iteration < N,
    atOrPast loop.stepSize loop.exitValue (loop.ivAt iteration + loop.comparedOffset) = false
  last : atOrPast loop.stepSize loop.exitValue (loop.ivAt N + loop.comparedOffset) = true

/-- The iterations of a core from one on, before the last header. -/
def iterationsFrom (numCores N iteration : Nat) : List ℤ :=
  ((List.range N).filter fun other =>
    iteration ≤ other ∧ other % numCores = iteration % numCores).map loop.ivAt

end GovernedLoop

/-- A value is executed once, by one core. -/
def ExecutedOnce (executions : Nat → List ℤ) (numCores : Nat) (iv : ℤ) : Prop :=
  ∃ core < numCores, (executions core).count iv = 1 ∧
    ∀ other < numCores, other ≠ core → (executions other).count iv = 0

/-- The cores execute what the sequential loop executes: every body on its core, every header once,
the last one by the only core that enters `last_iteration`. -/
structure ExecutesAsSequential (loop : GovernedLoop) (numCores N : Nat) (runs : Nat → CoreRun) :
    Prop where
  bodies : ∀ core < numCores, (runs core).bodies =
    ((List.range N).filter fun iteration => iteration % numCores = core).map loop.ivAt
  headers : ∀ iteration ≤ N,
    ExecutedOnce (fun core => (runs core).headers) numCores (loop.ivAt iteration)
  lastIteration : ∃! core, core < numCores ∧ (runs core).lastIteration ≠ none

/-! ## The loop of a core -/

section Runs

variable {utility : StepperUtility} {loop : GovernedLoop} {numCores N : Nat}

/-- Different iterations have different values. -/
theorem GovernedLoop.RunsUntil.iv_injective (h : loop.RunsUntil N) :
    Function.Injective loop.ivAt := by
  intro iteration other heq
  have hprod : loop.stepSize * (iteration : ℤ) = loop.stepSize * other := by
    unfold GovernedLoop.ivAt at heq
    omega
  exact_mod_cast mul_left_cancel₀ h.step hprod

/-- The header condition holds from the last iteration on. -/
theorem GovernedLoop.RunsUntil.at_or_past_iff (h : loop.RunsUntil N) (iteration : Nat) :
    atOrPast loop.stepSize loop.exitValue (loop.ivAt iteration + loop.comparedOffset) = true ↔
      N ≤ iteration := by
  refine ⟨fun hexit => ?_, fun hle => ?_⟩
  · by_contra hlt
    rw [h.before iteration (by omega)] at hexit
    cases hexit
  · have hlast := h.last
    have hstep := h.step
    have hfar : (N : ℤ) ≤ iteration := by exact_mod_cast hle
    unfold atOrPast GovernedLoop.ivAt at *
    split_ifs at hlast ⊢ with hpos
    · simp only [decide_eq_true_eq] at hlast ⊢
      nlinarith
    · simp only [decide_eq_true_eq] at hlast ⊢
      have hneg : loop.stepSize < 0 := by omega
      nlinarith

/-- The iterations from one before the last header are that one and those from the next turn on. -/
theorem GovernedLoop.iterations_from_of_lt {iteration : Nat} (hlt : iteration < N)
    (hcores : 0 < numCores) : loop.iterationsFrom numCores N iteration =
      loop.ivAt iteration :: loop.iterationsFrom numCores N (iteration + numCores) := by
  unfold iterationsFrom
  rw [← List.map_cons]
  congr 1
  refine List.Pairwise.eq_of_mem_iff (r := (· < ·)) (List.pairwise_lt_range.filter _) ?_ ?_
  · refine List.pairwise_cons.mpr ⟨fun other hother => ?_, List.pairwise_lt_range.filter _⟩
    have hle := (of_decide_eq_true (List.mem_filter.mp hother).2).1
    omega
  · intro other
    simp only [List.mem_filter, List.mem_range, decide_eq_true_eq, List.mem_cons,
      Nat.add_mod_right]
    constructor
    · intro ⟨hother, hle, hmod⟩
      rcases Nat.eq_or_lt_of_le hle with heq | hnext
      · exact .inl heq.symm
      · exact .inr ⟨hother, add_le_of_mod_eq hmod.symm hnext, hmod⟩
    · rintro (rfl | ⟨hother, hle, hmod⟩)
      · exact ⟨hlt, Nat.le_refl _, rfl⟩
      · exact ⟨hother, by omega, hmod⟩

/-- From the last header on a core has no iterations. -/
theorem GovernedLoop.iterations_from_of_le {iteration : Nat} (hle : N ≤ iteration) :
    loop.iterationsFrom numCores N iteration = [] := by
  unfold iterationsFrom
  rw [List.map_eq_nil_iff, List.filter_eq_nil_iff]
  intro other hother
  have hlt := List.mem_range.mp hother
  simp only [decide_eq_true_eq, not_and]
  omega

/-- Whether a core that leaves the loop in an iteration enters `last_iteration`. -/
def GovernedLoop.Enters (loop : GovernedLoop) (exit : Nat) : Prop :=
  past loop.stepSize loop.exitValue (loop.ivAt exit - loop.stepSize) = false

instance GovernedLoop.decidableEnters (exit : Nat) : Decidable (loop.Enters exit) :=
  inferInstanceAs (Decidable (_ = _))

/-- A core that comes to an iteration past the last header leaves the loop. -/
theorem core_loop_of_le (hutility : utility.Documented) (h : loop.RunsUntil N) {iteration : Nat}
    (hle : N ≤ iteration) (fuel : Nat) :
    coreLoop utility loop numCores (fuel + 1) (loop.ivAt iteration) =
      some ⟨[], [], if loop.Enters iteration then some (loop.ivAt iteration) else none⟩ := by
  unfold coreLoop
  rw [hutility.catchPast, hutility.checkPast, hutility.ago,
    if_pos ((h.at_or_past_iff iteration).mpr hle)]
  dsimp only
  cases hguard : past loop.stepSize loop.exitValue (loop.ivAt iteration - loop.stepSize) with
  | false =>
      have henters : loop.Enters iteration := hguard
      rw [if_neg Bool.false_ne_true, if_pos henters]
  | true =>
      have houtside : ¬ loop.Enters iteration := by
        unfold GovernedLoop.Enters
        rw [hguard]
        exact Bool.noConfusion
      rw [if_pos rfl, if_neg houtside]

/-- A core that comes to an iteration before the last header executes it and goes on with its next
one. -/
theorem core_loop_of_lt (hutility : utility.Documented) (h : loop.RunsUntil N)
    (hcores : 0 < numCores) {iteration : Nat} (hlt : iteration < N) (fuel : Nat) :
    coreLoop utility loop numCores (fuel + 1) (loop.ivAt iteration) =
      (coreLoop utility loop numCores fuel (loop.ivAt (iteration + numCores))).map fun run =>
        ⟨loop.ivAt iteration :: run.moved, loop.ivAt iteration :: run.bodies,
          run.lastIteration⟩ := by
  have hnext : loop.ivAt iteration + loop.stepSize + loop.stepSize * ((numCores - 1 : Nat) : ℤ) =
      loop.ivAt (iteration + numCores) := by
    unfold GovernedLoop.ivAt
    rw [Nat.cast_sub hcores]
    push_cast
    ring
  rw [coreLoop]
  dsimp only
  rw [hutility.catchPast, h.before iteration hlt, if_neg Bool.false_ne_true, hutility.scale,
    hutility.step, hnext]

/-- A core that comes to an iteration executes its iterations from there on, and leaves the loop in
the first one past the last header. -/
theorem core_loop_eq (hutility : utility.Documented) (h : loop.RunsUntil N) (hcores : 0 < numCores)
    {fuel iteration : Nat} (hfuel : N ≤ fuel + iteration) (hturn : iteration < N + numCores) :
    ∃ exit, N ≤ exit ∧ exit < N + numCores ∧ exit % numCores = iteration % numCores ∧
      coreLoop utility loop numCores (fuel + 1) (loop.ivAt iteration) =
        some ⟨loop.iterationsFrom numCores N iteration, loop.iterationsFrom numCores N iteration,
          if loop.Enters exit then some (loop.ivAt exit) else none⟩ := by
  induction fuel generalizing iteration with
  | zero =>
      have hle : N ≤ iteration := by omega
      refine ⟨iteration, hle, hturn, rfl, ?_⟩
      rw [core_loop_of_le hutility h hle, GovernedLoop.iterations_from_of_le hle]
  | succ fuel ih =>
      rcases Nat.lt_or_ge iteration N with hlt | hle
      · obtain ⟨exit, hexit, hnear, hmod, hrun⟩ :=
          @ih (iteration + numCores) (by omega) (by omega)
        refine ⟨exit, hexit, hnear, by rw [hmod, Nat.add_mod_right], ?_⟩
        rw [core_loop_of_lt hutility h hcores hlt, hrun,
          GovernedLoop.iterations_from_of_lt hlt hcores]
        rfl
      · refine ⟨iteration, hle, hturn, rfl, ?_⟩
        rw [core_loop_of_le hutility h hle, GovernedLoop.iterations_from_of_le hle]

/-! ## Which cores enter the block -/

/-- The value one step before an iteration other than the first is that of the iteration before. -/
theorem GovernedLoop.iv_at_succ_sub (iteration : Nat) :
    loop.ivAt (iteration + 1) - loop.stepSize = loop.ivAt iteration := by
  unfold ivAt
  push_cast
  ring

namespace GovernedLoop.RunsUntil

/-- Once the variable is past the exit value it stays so. -/
theorem past_of_le (h : loop.RunsUntil N) {iteration other : Nat} (hle : iteration ≤ other)
    (hpast : past loop.stepSize loop.exitValue (loop.ivAt iteration) = true) :
    past loop.stepSize loop.exitValue (loop.ivAt other) = true := by
  have hstep := h.step
  have hfar : (iteration : ℤ) ≤ other := by exact_mod_cast hle
  unfold past GovernedLoop.ivAt at *
  split_ifs at hpast ⊢ with hpos
  · simp only [decide_eq_true_eq] at hpast ⊢
    nlinarith
  · simp only [decide_eq_true_eq] at hpast ⊢
    have hneg : loop.stepSize < 0 := by omega
    nlinarith

/-- Only the core that executes the last header enters the block, if it does and there is one core
or the variable is past the exit value then. -/
theorem enters_iff (h : loop.RunsUntil N) (hlast : loop.Enters N)
    (hstrict : numCores = 1 ∨ past loop.stepSize loop.exitValue (loop.ivAt N) = true) {exit : Nat}
    (hexit : N ≤ exit) (hnear : exit < N + numCores) : loop.Enters exit ↔ exit = N := by
  refine ⟨fun henters => ?_, fun heq => heq ▸ hlast⟩
  by_contra hne
  obtain ⟨before, rfl⟩ : ∃ before, exit = before + 1 := ⟨exit - 1, by omega⟩
  unfold GovernedLoop.Enters at henters
  rw [GovernedLoop.iv_at_succ_sub] at henters
  rcases hstrict with rfl | hstrict
  · omega
  · rw [h.past_of_le (by omega) hstrict] at henters
    cases henters

/-- How often a value is among those of the iterations of a core. -/
theorem count_iterations_from (h : loop.RunsUntil N) {core : Nat} (hcore : core < numCores)
    (iteration : Nat) : (loop.iterationsFrom numCores N core).count (loop.ivAt iteration) =
      if iteration < N ∧ iteration % numCores = core then 1 else 0 := by
  have hmem : loop.ivAt iteration ∈ loop.iterationsFrom numCores N core ↔
      iteration < N ∧ iteration % numCores = core := by
    unfold GovernedLoop.iterationsFrom
    rw [List.mem_map_of_injective h.iv_injective, List.mem_filter, List.mem_range,
      decide_eq_true_eq, Nat.mod_eq_of_lt hcore]
    exact ⟨fun ⟨hlt, _, hmod⟩ => ⟨hlt, hmod⟩, fun ⟨hlt, hmod⟩ =>
      ⟨hlt, hmod ▸ Nat.mod_le _ _, hmod⟩⟩
  have hnodup : (loop.iterationsFrom numCores N core).Nodup :=
    (List.nodup_range.filter _).map h.iv_injective
  split
  · case _ hin => exact List.count_eq_one_of_mem hnodup (hmem.mpr hin)
  · case _ hout => exact List.count_eq_zero_of_not_mem fun hin => hout (hmem.mp hin)

end GovernedLoop.RunsUntil

/-- The cores with the iterations in which they leave the loop. -/
structure LeavesIn (loop : GovernedLoop) (numCores N : Nat) (runs : Nat → CoreRun)
    (exits : Nat → Nat) : Prop where
  last : ∀ core < numCores, N ≤ exits core ∧ exits core < N + numCores
  turn : ∀ core < numCores, exits core % numCores = core
  run : ∀ core < numCores, runs core = ⟨loop.iterationsFrom numCores N core,
    loop.iterationsFrom numCores N core,
    if loop.Enters (exits core) then some (loop.ivAt (exits core)) else none⟩

namespace LeavesIn

variable {runs : Nat → CoreRun} {exits : Nat → Nat}

/-- Every iteration of the turn after the last header is that of a core. -/
theorem exit_eq (h : LeavesIn loop numCores N runs exits) {exit : Nat} (hexit : N ≤ exit)
    (hnear : exit < N + numCores) : exits (exit % numCores) = exit := by
  have hcore : exit % numCores < numCores := Nat.mod_lt _ (by omega)
  obtain ⟨hle, hlt⟩ := h.last _ hcore
  have hmod := h.turn _ hcore
  rcases Nat.le_total (exits (exit % numCores)) exit with horder | horder
  · exact eq_of_mod_eq hmod horder (by omega)
  · exact (eq_of_mod_eq hmod.symm horder (by omega)).symm

/-- A core enters the block as its exit says. -/
theorem last_iteration_ne_none (h : LeavesIn loop numCores N runs exits) {core : Nat}
    (hcore : core < numCores) :
    (runs core).lastIteration ≠ none ↔ loop.Enters (exits core) := by
  rw [h.run core hcore]
  dsimp only
  split
  · case _ henters => simp [henters]
  · case _ henters => simp [henters]

/-- How often a core executes the header of an iteration. -/
theorem count_headers (h : LeavesIn loop numCores N runs exits) (hruns : loop.RunsUntil N)
    {core : Nat} (hcore : core < numCores) (iteration : Nat) :
    (runs core).headers.count (loop.ivAt iteration) =
      (if iteration < N ∧ iteration % numCores = core then 1 else 0) +
        if loop.Enters (exits core) ∧ exits core = iteration then 1 else 0 := by
  unfold CoreRun.headers
  rw [h.run core hcore, List.count_append]
  dsimp only
  rw [hruns.count_iterations_from hcore]
  congr 1
  split
  · case _ henters =>
      rw [Option.toList_some, List.count_singleton]
      simp only [henters, true_and, beq_iff_eq, hruns.iv_injective.eq_iff]
  · case _ henters => simp [henters]

/-- If the cores execute what the sequential loop executes, the core with the last header enters the
block, and the next core does not. -/
theorem enters_of_sequential (h : LeavesIn loop numCores N runs exits) (hcores : 0 < numCores)
    (hruns : loop.RunsUntil N) (hsequential : ExecutesAsSequential loop numCores N runs) :
    loop.Enters N ∧
      (numCores = 1 ∨ past loop.stepSize loop.exitValue (loop.ivAt N) = true) := by
  have hN : N % numCores < numCores := Nat.mod_lt _ hcores
  have hexitN : exits (N % numCores) = N := h.exit_eq (Nat.le_refl N) (by omega)
  obtain ⟨core, hcore, hcount, -⟩ := hsequential.headers N (Nat.le_refl N)
  rw [h.count_headers hruns hcore, if_neg fun hand => Nat.lt_irrefl N hand.1] at hcount
  have henters : loop.Enters N := by
    by_contra hnot
    have hout : ¬ (loop.Enters (exits core) ∧ exits core = N) := fun hand =>
      hnot (hand.2 ▸ hand.1)
    rw [if_neg hout] at hcount
    cases hcount
  refine ⟨henters, ?_⟩
  by_contra hboth
  push Not at hboth
  obtain ⟨hmany, hmeets⟩ := hboth
  -- The next core enters the block too.
  have hnext : (N + 1) % numCores < numCores := Nat.mod_lt _ hcores
  have hexitNext : exits ((N + 1) % numCores) = N + 1 := h.exit_eq (by omega) (by omega)
  have hentersNext : loop.Enters (exits ((N + 1) % numCores)) := by
    rw [hexitNext]
    unfold GovernedLoop.Enters
    rw [GovernedLoop.iv_at_succ_sub]
    exact Bool.eq_false_of_not_eq_true hmeets
  have hsame := hsequential.lastIteration.unique
    ⟨hN, (h.last_iteration_ne_none hN).mpr (hexitN.symm ▸ henters)⟩
    ⟨hnext, (h.last_iteration_ne_none hnext).mpr hentersNext⟩
  have := eq_of_mod_eq hsame (Nat.le_succ N) (by omega)
  omega

/-- If the core with the last header enters the block and no other core can, the cores execute what
the sequential loop executes. -/
theorem sequential_of_enters (h : LeavesIn loop numCores N runs exits) (hcores : 0 < numCores)
    (hruns : loop.RunsUntil N) (henters : loop.Enters N)
    (hstrict : numCores = 1 ∨ past loop.stepSize loop.exitValue (loop.ivAt N) = true) :
    ExecutesAsSequential loop numCores N runs := by
  have hN : N % numCores < numCores := Nat.mod_lt _ hcores
  have hexitN : exits (N % numCores) = N := h.exit_eq (Nat.le_refl N) (by omega)
  have hentersIff : ∀ core < numCores, loop.Enters (exits core) ↔ exits core = N :=
    fun core hcore => hruns.enters_iff henters hstrict (h.last core hcore).1 (h.last core hcore).2
  refine ⟨fun core hcore => ?_, fun iteration hle => ?_, N % numCores, ⟨hN, ?_⟩, ?_⟩
  · rw [h.run core hcore]
    refine congrArg (List.map loop.ivAt) (List.filter_congr fun iteration _ => ?_)
    rw [Nat.mod_eq_of_lt hcore, decide_eq_decide]
    exact ⟨fun hand => hand.2, fun hmod => ⟨hmod ▸ Nat.mod_le _ _, hmod⟩⟩
  · refine ⟨iteration % numCores, Nat.mod_lt _ hcores, ?_, fun other hother hne => ?_⟩
    · rw [h.count_headers hruns (Nat.mod_lt _ hcores)]
      rcases Nat.lt_or_eq_of_le hle with hlt | rfl
      · have hout : ¬ (loop.Enters (exits (iteration % numCores)) ∧
            exits (iteration % numCores) = iteration) := by
          have := (h.last _ (Nat.mod_lt iteration hcores)).1
          omega
        rw [if_pos ⟨hlt, rfl⟩, if_neg hout]
      · rw [if_neg fun hand => Nat.lt_irrefl _ hand.1, if_pos ⟨hexitN.symm ▸ henters, hexitN⟩]
    · have hout : ¬ (loop.Enters (exits other) ∧ exits other = iteration) := fun hand =>
        hne (by rw [← hand.2, h.turn other hother])
      rw [h.count_headers hruns hother, if_neg fun hand => hne hand.2.symm, if_neg hout]
  · exact (h.last_iteration_ne_none hN).mpr (hexitN.symm ▸ henters)
  · intro core ⟨hcore, hlast⟩
    have hexit := (hentersIff core hcore).mp ((h.last_iteration_ne_none hcore).mp hlast)
    rw [← hexit, h.turn core hcore]

/-- The cores execute what the sequential loop executes exactly when the core with the last header
enters the block, and no other does. -/
theorem executes_as_sequential_iff (h : LeavesIn loop numCores N runs exits)
    (hruns : loop.RunsUntil N) (hcores : 0 < numCores) :
    ExecutesAsSequential loop numCores N runs ↔
      loop.Enters N ∧
        (numCores = 1 ∨ past loop.stepSize loop.exitValue (loop.ivAt N) = true) :=
  ⟨h.enters_of_sequential hcores hruns, fun ⟨henters, hstrict⟩ =>
    h.sequential_of_enters hcores hruns henters hstrict⟩

end LeavesIn

end Runs

/-- The task of a core executes the iterations of its turn, and leaves the loop in the first of them
past the last header. -/
theorem core_task_eq {utility : StepperUtility} (hutility : utility.Documented)
    {loop : GovernedLoop} {numCores N : Nat} (hruns : loop.RunsUntil N) {core : Nat}
    (hcore : core < numCores) :
    ∃ exit, (N ≤ exit ∧ exit < N + numCores) ∧ exit % numCores = core ∧
      ∀ fuel > N, coreTask utility loop numCores fuel core =
        some ⟨loop.iterationsFrom numCores N core, loop.iterationsFrom numCores N core,
          if loop.Enters exit then some (loop.ivAt exit) else none⟩ := by
  have hcores : 0 < numCores := by omega
  have hstart : ∀ fuel, coreTask utility loop numCores fuel core =
      coreLoop utility loop numCores fuel (loop.ivAt core) := by
    intro fuel
    unfold coreTask
    rw [hutility.start]
    rfl
  obtain ⟨exit, hexit, hnear, hmod, -⟩ :=
    @core_loop_eq _ _ _ _ hutility hruns hcores N core (Nat.le_add_right N core) (by omega)
  rw [Nat.mod_eq_of_lt hcore] at hmod
  refine ⟨exit, ⟨hexit, hnear⟩, hmod, fun fuel hfuel => ?_⟩
  -- Whatever the fuel, the core leaves the loop in the one iteration of its turn past the last.
  obtain ⟨before, rfl⟩ : ∃ before, fuel = before + 1 := ⟨fuel - 1, by omega⟩
  obtain ⟨other, hother, hnearOther, hmodOther, hrun⟩ :=
    @core_loop_eq _ _ _ _ hutility hruns hcores before core (by omega) (by omega)
  rw [Nat.mod_eq_of_lt hcore, ← hmod] at hmodOther
  have hsame : other = exit := by
    rcases Nat.le_total other exit with horder | horder
    · exact eq_of_mod_eq hmodOther horder (by omega)
    · exact (eq_of_mod_eq hmodOther.symm horder (by omega)).symm
  rw [hstart, hrun, hsame]

/-- The cores execute the header as often as the sequential loop exactly when the variable is not
past the exit value one step before the last header, and there is one core or it is past it in the
last header. -/
theorem header_executed_iff {utility : StepperUtility} (hutility : utility.Documented)
    {loop : GovernedLoop} {numCores N : Nat} (hruns : loop.RunsUntil N) (hcores : 1 ≤ numCores) :
    ∃ runs : Nat → CoreRun,
      (∀ core < numCores, ∀ fuel > N,
        coreTask utility loop numCores fuel core = some (runs core)) ∧
      (ExecutesAsSequential loop numCores N runs ↔
        past loop.stepSize loop.exitValue (loop.ivAt N - loop.stepSize) = false ∧
          (numCores = 1 ∨ past loop.stepSize loop.exitValue (loop.ivAt N) = true)) := by
  choose! exits hwindow hturn hrun using
    fun core (hcore : core < numCores) => core_task_eq hutility hruns hcore
  let runs : Nat → CoreRun := fun core => ⟨loop.iterationsFrom numCores N core,
    loop.iterationsFrom numCores N core,
    if loop.Enters (exits core) then some (loop.ivAt (exits core)) else none⟩
  have hleaves : LeavesIn loop numCores N runs exits := ⟨hwindow, hturn, fun _ _ => rfl⟩
  exact ⟨runs, hrun, hleaves.executes_as_sequential_iff hruns hcores⟩

/-- A loop that steps over its exit value: `for (i = 0; i < 5; i += 2)`. -/
def steppingOver : GovernedLoop := ⟨0, 2, 5, 0⟩

/-- Its last header is that of iteration 3. -/
theorem stepping_over_runs : steppingOver.RunsUntil 3 := ⟨by decide, by decide, by decide⟩

/-- Two cores execute it as the sequential loop. -/
theorem stepping_over_executed : ∃ runs : Nat → CoreRun,
    (∀ core < 2, ∀ fuel > 3,
      coreTask StepperUtility.arithmetic steppingOver 2 fuel core = some (runs core)) ∧
    ExecutesAsSequential steppingOver 2 3 runs := by
  obtain ⟨runs, hrun, hiff⟩ := header_executed_iff StepperUtility.arithmetic_documented
    stepping_over_runs (by decide : 1 ≤ 2)
  exact ⟨runs, hrun, hiff.mpr (by decide)⟩

/-- A loop that meets its exit value: `for (i = 0; i < 1; i++)`. -/
def meetingExit : GovernedLoop := ⟨0, 1, 1, 0⟩

/-- Its last header is that of iteration 1. Two cores do not execute it as the sequential loop: both
enter `last_iteration`. -/
theorem meeting_exit_entered_twice : meetingExit.RunsUntil 1 ∧
    ∀ runs : Nat → CoreRun,
      (∀ core < 2, ∀ fuel > 1,
        coreTask StepperUtility.arithmetic meetingExit 2 fuel core = some (runs core)) →
      ¬ ExecutesAsSequential meetingExit 2 1 runs := by
  refine ⟨⟨by decide, by decide, by decide⟩, fun runs hrun h => ?_⟩
  have hzero : some ⟨[0], [0], some 2⟩ = some (runs 0) := hrun 0 (by decide) 2 (by decide)
  have hone : some ⟨[], [], some 1⟩ = some (runs 1) := hrun 1 (by decide) 2 (by decide)
  have hsame := @ExistsUnique.unique _ _ h.lastIteration 0 1
    ⟨by decide, by rw [← Option.some.inj hzero]; decide⟩
    ⟨by decide, by rw [← Option.some.inj hone]; decide⟩
  cases hsame

end Gino.Helix
