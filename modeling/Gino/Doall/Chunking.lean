import Gino.Machine.ChunkDeal
import Gino.Machine.Residue
import Mathlib.Algebra.Ring.Defs
import Mathlib.Data.Nat.Cast.Basic
import Mathlib.Tactic.Ring

/-!
# The tasks of a chunked DOALL loop

`DOALL::rewireLoopToIterateChunks` turns a loop into a task that runs the chunks of one task
instance. The machine below runs such a task over the values of any ring, so that the same code is
read over the integers and over machine words. `run_eq` says when a task leaves its loop and with
what: it visits the iterations dealt to it, up to the first at which a guard or the exit test holds.
-/

namespace Gino.Doall

open Machine

variable {ι V σ : Type*}

/-- The functions of the compiler library's `IVUtility` that the chunking calls, as functions on
the values of the instructions they generate. `createChunkPHI` gives, for the chunk size and the
counter, whether a latch completes the chunk and the counter after it. -/
structure IVUtility (V : Type*) where
  createChunkPHI : Nat → Nat → Bool × Nat
  scaleInductionVariableStep : V → Nat → V
  offsetIVPHI : V → V → V
  chunkInductionVariablePHI : Bool → V → V → V
  generateCodeToComputeValueToUseForAnIterationAgo : V → V → V
  generateCodeToComputePreviousValueUsedToCompareAgainstExitConditionValue : V → V → V

/-- What the chunking relies on: the chunk counter restarts at the chunk size, steps scale and
offset the value, the value jumps when the chunk is completed, and an iteration ago it was one step
less. -/
structure IVUtility.Documented [Ring V] (utility : IVUtility V) : Prop where
  chunk : ∀ chunkSize counter, utility.createChunkPHI chunkSize counter =
    (decide (counter + 1 = chunkSize), if counter + 1 = chunkSize then 0 else counter + 1)
  scale : ∀ stepOfIV factor, utility.scaleInductionVariableStep stepOfIV factor =
    stepOfIV * (factor : V)
  offset : ∀ startOfIV offsetValue, utility.offsetIVPHI startOfIV offsetValue =
    startOfIV + offsetValue
  jump : ∀ isChunkCompleted value chunkStepSize,
    utility.chunkInductionVariablePHI isChunkCompleted value chunkStepSize =
      if isChunkCompleted then value + chunkStepSize else value
  ago : ∀ value stepSize,
    utility.generateCodeToComputeValueToUseForAnIterationAgo value stepSize = value - stepSize
  previous : ∀ value stepSize,
    utility.generateCodeToComputePreviousValueUsedToCompareAgainstExitConditionValue value
      stepSize = value - stepSize

/-- The arithmetic the library generates. -/
def IVUtility.arithmetic [Ring V] : IVUtility V where
  createChunkPHI chunkSize counter :=
    (decide (counter + 1 = chunkSize), if counter + 1 = chunkSize then 0 else counter + 1)
  scaleInductionVariableStep stepOfIV factor := stepOfIV * (factor : V)
  offsetIVPHI startOfIV offsetValue := startOfIV + offsetValue
  chunkInductionVariablePHI isChunkCompleted value chunkStepSize :=
    if isChunkCompleted then value + chunkStepSize else value
  generateCodeToComputeValueToUseForAnIterationAgo value stepSize := value - stepSize
  generateCodeToComputePreviousValueUsedToCompareAgainstExitConditionValue value stepSize :=
    value - stepSize

/-- The arithmetic is as documented. -/
theorem IVUtility.arithmetic_documented [Ring V] :
    (IVUtility.arithmetic : IVUtility V).Documented :=
  ⟨fun _ _ => rfl, fun _ _ => rfl, fun _ _ => rfl, fun _ _ _ => rfl, fun _ _ => rfl,
    fun _ _ => rfl⟩

/-- A loop with its induction variables, the exit condition on the governing one, made non-strict
to catch iterating past the exit value, and whether its header holds instructions that must not be
repeated. -/
structure ChunkedLoop (ι V : Type*) where
  startValue : ι → V
  stepValue : ι → V
  governing : ι
  exitCondition : V → Bool
  requiresConditionBeforeEnteringHeader : Bool

/-- The arguments of a task instance. -/
structure TaskArgs where
  taskInstanceID : Nat
  numTaskInstances : Nat
  chunkSize : Nat

/-- The header PHIs of a task: the absolute iteration counter, the induction variables and the
chunk counter. -/
structure TaskState (ι V : Type*) where
  iterCounter : Nat
  ivs : ι → V
  chunkCounter : Nat

/-- The code of a loop, as what it does to the other variables of a task. -/
structure LoopCode (ι V σ : Type*) where
  header : TaskState ι V → σ → σ
  body : TaskState ι V → σ → σ

/-- Where a task leaves its loop. -/
inductive LeavePoint where
  | preheader
  | header
  | latch
  deriving DecidableEq

/-- How a task leaves its loop: the induction variables, the header PHI of the other variables and
their last value. -/
structure Leave (ι V σ : Type*) where
  point : LeavePoint
  state : TaskState ι V
  phi : σ
  value : σ

section Task

variable [Ring V] (utility : IVUtility V) (loop : ChunkedLoop ι V) (args : TaskArgs)

/-- The values from the pre-header: each variable starts at the first iteration of the instance. -/
def entry : TaskState ι V where
  iterCounter := args.taskInstanceID * args.chunkSize
  ivs i := utility.offsetIVPHI (loop.startValue i)
    (utility.scaleInductionVariableStep (loop.stepValue i)
      (args.taskInstanceID * args.chunkSize))
  chunkCounter := 0

/-- The values from the latch: at the end of a chunk each variable skips the chunks of the other
instances. -/
def latch (state : TaskState ι V) : TaskState ι V :=
  let (isChunkCompleted, chunkCounter) :=
    utility.createChunkPHI args.chunkSize state.chunkCounter
  { iterCounter :=
      if isChunkCompleted
      then state.iterCounter + 1 + (args.numTaskInstances - 1) * args.chunkSize
      else state.iterCounter + 1
    ivs := fun i =>
      utility.chunkInductionVariablePHI isChunkCompleted (state.ivs i + loop.stepValue i)
        (utility.scaleInductionVariableStep (loop.stepValue i)
          ((args.numTaskInstances - 1) * args.chunkSize))
    chunkCounter := chunkCounter }

/-- The governing variable one iteration ago is at or past the exit value, tested in the
pre-header. The first iteration has none before it. -/
def preheaderGuard [DecidableEq V] : Bool :=
  let offsetStartValue := (entry utility loop args).ivs loop.governing
  decide (offsetStartValue ≠ loop.startValue loop.governing) &&
    loop.exitCondition (utility.generateCodeToComputeValueToUseForAnIterationAgo offsetStartValue
      (loop.stepValue loop.governing))

/-- The governing variable one iteration ago is at or past the exit value, tested in the latch. -/
def latchGuard (state : TaskState ι V) : Bool :=
  loop.exitCondition
    (utility.generateCodeToComputePreviousValueUsedToCompareAgainstExitConditionValue
      (state.ivs loop.governing) (loop.stepValue loop.governing))

/-- The loop of a task from its header on. It gives nothing when the fuel does not suffice. -/
def iterate (code : LoopCode ι V σ) : Nat → TaskState ι V → σ → Option (Leave ι V σ)
  | 0, _, _ => none
  | fuel + 1, state, phi =>
      let value := code.header state phi
      if loop.exitCondition (state.ivs loop.governing) then some ⟨.header, state, phi, value⟩
      else
        let value := code.body state value
        let next := latch utility loop args state
        if loop.requiresConditionBeforeEnteringHeader && latchGuard utility loop next
        then some ⟨.latch, next, value, value⟩
        else iterate code fuel next value

/-- A task, given the initial value of its other variables. -/
def run [DecidableEq V] (code : LoopCode ι V σ) (fuel : Nat) (initial : σ) :
    Option (Leave ι V σ) :=
  if loop.requiresConditionBeforeEnteringHeader && preheaderGuard utility loop args
  then some ⟨.preheader, entry utility loop args, initial, initial⟩
  else iterate utility loop args code fuel (entry utility loop args) initial

end Task

/-! ## The iterations of a task -/

section Iterations

variable [CommRing V] (utility : IVUtility V) (loop : ChunkedLoop ι V) (args : TaskArgs)

/-- The value of an induction variable at an iteration of the sequential loop. -/
def ivAt (i : ι) (iteration : Nat) : V := loop.startValue i + loop.stepValue i * (iteration : V)

/-- The iteration a task runs after `count` others. -/
def iterationAt (count : Nat) : Nat :=
  dealt args.numTaskInstances args.chunkSize args.taskInstanceID count

/-- The state of a task after `count` of its iterations. -/
def stateAt (count : Nat) : TaskState ι V where
  iterCounter := iterationAt args count
  ivs i := ivAt loop i (iterationAt args count)
  chunkCounter := count % args.chunkSize

/-- The exit test of the header after `count` iterations. -/
def headerStops (count : Nat) : Bool :=
  loop.exitCondition (ivAt loop loop.governing (iterationAt args count))

/-- The guard on the way to the header after `count` iterations. -/
def guardStops [DecidableEq V] (count : Nat) : Bool :=
  loop.requiresConditionBeforeEnteringHeader &&
    if count = 0 then preheaderGuard utility loop args
    else latchGuard utility loop (stateAt loop args count)

/-- The other variables of a task after `count` of its iterations. -/
def valueAt (code : LoopCode ι V σ) (initial : σ) (count : Nat) : σ :=
  (List.range count).foldl (fun value earlier =>
    code.body (stateAt loop args earlier) (code.header (stateAt loop args earlier) value)) initial

/-- How a task leaves after `count` iterations. -/
def leaveAt [DecidableEq V] (code : LoopCode ι V σ) (initial : σ) (count : Nat) :
    Leave ι V σ :=
  let value := valueAt loop args code initial count
  if guardStops utility loop args count
  then ⟨if count = 0 then .preheader else .latch, stateAt loop args count, value, value⟩
  else ⟨.header, stateAt loop args count, value, code.header (stateAt loop args count) value⟩

/-- A task stops after `count` iterations, at a guard or at the exit test, and not before. -/
structure StopsAfter [DecidableEq V] (count : Nat) : Prop where
  before : ∀ earlier < count, guardStops utility loop args earlier = false ∧
    headerStops loop args earlier = false
  stops : guardStops utility loop args count = true ∨ headerStops loop args count = true

variable {utility loop args}

/-- A task starts at its first iteration. -/
theorem entry_eq (hutility : utility.Documented) :
    entry utility loop args = stateAt loop args 0 := by
  simp [entry, stateAt, ivAt, iterationAt, dealt_zero, hutility.offset, hutility.scale]

/-- The latch takes a task to its next iteration. -/
theorem latch_eq (hutility : utility.Documented) (hchunk : 0 < args.chunkSize)
    (hinstances : 0 < args.numTaskInstances) (count : Nat) :
    latch utility loop args (stateAt loop args count) = stateAt loop args (count + 1) := by
  have hnext := dealt_succ args.taskInstanceID count hchunk hinstances
  have hlt := Nat.mod_lt count hchunk
  simp only [latch, stateAt, ivAt, iterationAt, hutility.chunk, hutility.jump, hutility.scale]
  -- At the end of a chunk the induction variables jump over the chunks of the other tasks.
  by_cases hend : count % args.chunkSize + 1 = args.chunkSize
  · rw [if_pos hend] at hnext
    have hcounter : (count + 1) % args.chunkSize = 0 := by
      rw [succ_mod_eq hchunk, if_neg (by omega)]
    simp only [hend, decide_true, if_true, hnext, hcounter]
    congr 1
    funext i
    push_cast
    ring
  · rw [if_neg hend] at hnext
    have hcounter : (count + 1) % args.chunkSize = count % args.chunkSize + 1 := by
      rw [succ_mod_eq hchunk, if_pos (by omega)]
    simp only [hend, decide_false, if_false, hnext, hcounter, Bool.false_eq_true]
    congr 1
    funext i
    push_cast
    ring

/-- One more iteration of the other variables. -/
theorem value_at_succ (code : LoopCode ι V σ) (initial : σ) (count : Nat) :
    valueAt loop args code initial (count + 1) =
      code.body (stateAt loop args count) (code.header (stateAt loop args count)
        (valueAt loop args code initial count)) := by
  simp [valueAt, List.range_succ]

variable [DecidableEq V]

/-- A guard leaves the other variables as they are. -/
theorem leave_at_guard (code : LoopCode ι V σ) (initial : σ) {count : Nat}
    (hguard : guardStops utility loop args count = true) :
    (leaveAt utility loop args code initial count).value =
      valueAt loop args code initial count := by
  simp [leaveAt, hguard]

/-- The exit test comes after the code of the header. -/
theorem leave_at_header (code : LoopCode ι V σ) (initial : σ) {count : Nat}
    (hguard : guardStops utility loop args count = false) :
    leaveAt utility loop args code initial count =
      ⟨.header, stateAt loop args count, valueAt loop args code initial count,
        code.header (stateAt loop args count) (valueAt loop args code initial count)⟩ := by
  simp [leaveAt, hguard]

/-- One iteration of a task, from the header it enters after `count` iterations. -/
theorem iterate_succ (hutility : utility.Documented) (hchunk : 0 < args.chunkSize)
    (hinstances : 0 < args.numTaskInstances) (code : LoopCode ι V σ) (fuel count : Nat)
    (phi : σ) :
    iterate utility loop args code (fuel + 1) (stateAt loop args count) phi =
      let value := code.header (stateAt loop args count) phi
      if headerStops loop args count then some ⟨.header, stateAt loop args count, phi, value⟩
      else
        let value := code.body (stateAt loop args count) value
        if guardStops utility loop args (count + 1)
        then some ⟨.latch, stateAt loop args (count + 1), value, value⟩
        else iterate utility loop args code fuel (stateAt loop args (count + 1)) value := by
  show (if headerStops loop args count then _ else _) = _
  rw [latch_eq hutility hchunk hinstances]
  rfl

/-- The loop of a task that has entered the header after `count` iterations and stops `more`
iterations later. -/
theorem iterate_eq (hutility : utility.Documented) (hchunk : 0 < args.chunkSize)
    (hinstances : 0 < args.numTaskInstances) (code : LoopCode ι V σ) (initial : σ)
    {count more fuel : Nat} (hentered : guardStops utility loop args count = false)
    (hbefore : ∀ earlier, count ≤ earlier → earlier < count + more →
      guardStops utility loop args earlier = false ∧ headerStops loop args earlier = false)
    (hstops : guardStops utility loop args (count + more) = true ∨
      headerStops loop args (count + more) = true) (hfuel : more < fuel) :
    iterate utility loop args code fuel (stateAt loop args count)
      (valueAt loop args code initial count) =
        some (leaveAt utility loop args code initial (count + more)) := by
  induction more generalizing count fuel with
  | zero =>
      obtain ⟨fuel, rfl⟩ : ∃ rest, fuel = rest + 1 := ⟨fuel - 1, by omega⟩
      have hheader : headerStops loop args count = true := by simpa [hentered] using hstops
      rw [iterate_succ hutility hchunk hinstances]
      simp [leaveAt, hentered, hheader]
  | succ more ih =>
      obtain ⟨fuel, rfl⟩ : ∃ rest, fuel = rest + 1 := ⟨fuel - 1, by omega⟩
      have hheader := (hbefore count le_rfl (by omega)).2
      have hshift : count + (more + 1) = count + 1 + more := by omega
      rw [iterate_succ hutility hchunk hinstances]
      simp only [hheader, Bool.false_eq_true, if_false, ← value_at_succ]
      by_cases hleave : guardStops utility loop args (count + 1) = true
      · -- A guard on the way to the next header can only hold at the last iteration.
        have hlast : more = 0 := by
          by_contra hmore
          have := (hbefore (count + 1) (by omega) (by omega)).1
          rw [hleave] at this
          cases this
        subst hlast
        simp [leaveAt, hleave]
      · rw [if_neg hleave, hshift]
        exact ih (by simpa using hleave)
          (fun earlier hle hlt => hbefore earlier (by omega) (by omega)) (hshift ▸ hstops)
          (by omega)

variable (args) in
/-- A task leaves its loop where it stops. -/
theorem run_eq (hutility : utility.Documented) (hchunk : 0 < args.chunkSize)
    (hinstances : 0 < args.numTaskInstances) (code : LoopCode ι V σ) (initial : σ)
    {count fuel : Nat} (hstops : StopsAfter utility loop args count) (hfuel : count < fuel) :
    run utility loop args code fuel initial =
      some (leaveAt utility loop args code initial count) := by
  show (if guardStops utility loop args 0 then _ else _) = _
  rw [entry_eq hutility]
  by_cases hleave : guardStops utility loop args 0 = true
  · have hfirst : count = 0 := by
      by_contra hne
      have := (hstops.before 0 (by omega)).1
      rw [hleave] at this
      cases this
    subst hfirst
    simp [leaveAt, hleave, valueAt]
  · have hiterate := iterate_eq hutility hchunk hinstances code initial (by simpa using hleave)
      (fun earlier _ hlt => hstops.before earlier (by omega)) (by simpa using hstops.stops) hfuel
    rw [if_neg hleave]
    simpa [valueAt] using hiterate

/-- A task that leaves its loop after it has entered the header stops at that or a later
iteration. -/
theorem iterate_stops (hutility : utility.Documented) (hchunk : 0 < args.chunkSize)
    (hinstances : 0 < args.numTaskInstances) (code : LoopCode ι V σ) {count fuel : Nat}
    {value : σ} {leave : Leave ι V σ}
    (h : iterate utility loop args code fuel (stateAt loop args count) value = some leave) :
    ∃ last, guardStops utility loop args last = true ∨ headerStops loop args last = true := by
  induction fuel generalizing count value with
  | zero => cases h
  | succ fuel ih =>
      rw [iterate_succ hutility hchunk hinstances] at h
      by_cases hheader : headerStops loop args count = true
      · exact ⟨count, .inr hheader⟩
      · by_cases hguard : guardStops utility loop args (count + 1) = true
        · exact ⟨count + 1, .inl hguard⟩
        · simp only [hheader, hguard, Bool.false_eq_true, if_false] at h
          exact ih h

/-- A task that leaves its loop stops after some number of iterations. -/
theorem run_stops (hutility : utility.Documented) (hchunk : 0 < args.chunkSize)
    (hinstances : 0 < args.numTaskInstances) (code : LoopCode ι V σ) {fuel : Nat} {initial : σ}
    {leave : Leave ι V σ} (h : run utility loop args code fuel initial = some leave) :
    ∃ count, StopsAfter utility loop args count := by
  have hsome : ∃ last, guardStops utility loop args last = true ∨
      headerStops loop args last = true := by
    by_cases hguard : guardStops utility loop args 0 = true
    · exact ⟨0, .inl hguard⟩
    · change (if guardStops utility loop args 0 then _ else _) = _ at h
      rw [if_neg hguard, entry_eq hutility] at h
      exact iterate_stops hutility hchunk hinstances code h
  refine ⟨Nat.find hsome, fun earlier hearlier => ?_, Nat.find_spec hsome⟩
  simpa using Nat.find_min hsome hearlier

omit [DecidableEq V] in
/-- More fuel does not change how a task leaves. -/
theorem iterate_mono (code : LoopCode ι V σ) {fuel more : Nat} {state : TaskState ι V} {value : σ}
    {leave : Leave ι V σ} (h : iterate utility loop args code fuel state value = some leave)
    (hle : fuel ≤ more) : iterate utility loop args code more state value = some leave := by
  induction fuel generalizing state value more with
  | zero => cases h
  | succ fuel ih =>
      obtain ⟨more, rfl⟩ : ∃ rest, more = rest + 1 := ⟨more - 1, by omega⟩
      unfold iterate at h ⊢
      dsimp only at h ⊢
      split_ifs at h ⊢ with hheader hguard
      · exact h
      · exact h
      · exact ih h (by omega)

/-- More fuel does not change how a whole task leaves. -/
theorem run_mono (code : LoopCode ι V σ) {fuel more : Nat} {initial : σ} {leave : Leave ι V σ}
    (h : run utility loop args code fuel initial = some leave) (hle : fuel ≤ more) :
    run utility loop args code more initial = some leave := by
  unfold run at h ⊢
  split_ifs at h ⊢ with hguard
  · exact h
  · exact iterate_mono code h hle

/-- A task leaves where it stops, whatever fuel made it leave. -/
theorem run_eq_some (hutility : utility.Documented) (hchunk : 0 < args.chunkSize)
    (hinstances : 0 < args.numTaskInstances) (code : LoopCode ι V σ) {fuel : Nat} {initial : σ}
    {leave : Leave ι V σ} (h : run utility loop args code fuel initial = some leave) :
    ∃ count, StopsAfter utility loop args count ∧
      leave = leaveAt utility loop args code initial count := by
  obtain ⟨count, hstops⟩ := run_stops hutility hchunk hinstances code h
  have hmore : run utility loop args code (fuel + (count + 1)) initial = some leave :=
    run_mono code h (by omega)
  rw [run_eq args hutility hchunk hinstances code initial hstops (by omega)] at hmore
  exact ⟨count, hstops, (Option.some.inj hmore).symm⟩

end Iterations

end Gino.Doall
