import Gino.Doall.Chunking
import Mathlib.Data.BitVec

/-!
# Periodic variables

A periodic variable adds its step in each iteration and starts again after a period. DOALL and
HELIX do not keep it: at every header they compute it from a counter of 64 bits that holds the
absolute iteration. The period is sign-extended to that width, and `periodic_variable_iff` says for
which variables the computed value is the sequential one.
-/

namespace Gino.Technique

open Machine Doall

/-- A periodic variable: the constants that the compiler library's analysis finds for it. -/
structure PeriodicVariable (width : Nat) where
  initialValue : BitVec width
  stepValue : BitVec width
  period : BitVec width

variable {width : Nat}

/-- The value of the variable at an iteration of the sequential loop. -/
def PeriodicVariable.sequential (pv : PeriodicVariable width) : Nat → BitVec width
  | 0 => pv.initialValue
  | iteration + 1 =>
      if (iteration + 1) % pv.period.toNat = 0 then pv.initialValue
      else pv.sequential iteration + pv.stepValue

/-- The value the code in the header computes from the counter. It gives nothing where the
remainder is undefined: by zero, and of the least value by minus one. -/
def pvCurr (pv : PeriodicVariable width) (iterCounter : BitVec 64) : Option (BitVec width) :=
  let period64 := pv.period.signExtend 64
  if period64 = 0 ∨ iterCounter = BitVec.intMin 64 ∧ period64 = -1 then none
  else
    let pvIter := iterCounter.srem period64
    let step64 := pv.stepValue.signExtend 64
    let pvStepXpvIter := step64 * pvIter
    let pvSITrunc := pvStepXpvIter.setWidth width
    some (pvSITrunc + pv.initialValue)

/-- The counter of a DOALL task in the header after `count` latches, with the chunk counter. -/
def doallIterCounter (createChunkPHI : Nat → Nat → Bool × Nat) (args : TaskArgs) :
    Nat → BitVec 64 × Nat
  | 0 => (BitVec.ofNat 64 args.taskInstanceID * BitVec.ofNat 64 args.chunkSize, 0)
  | count + 1 =>
      let (iterCounter, chunkCounter) := doallIterCounter createChunkPHI args count
      let (isChunkCompleted, chunkCounter) := createChunkPHI args.chunkSize chunkCounter
      let chunkStepSize := (BitVec.ofNat 64 args.numTaskInstances - 1) *
        BitVec.ofNat 64 args.chunkSize
      let iterIncrement := iterCounter + 1
      let iterChunkStep := iterIncrement + chunkStepSize
      (if isChunkCompleted then iterChunkStep else iterIncrement, chunkCounter)

/-- The counter of a HELIX task in the header after `count` latches. -/
def helixIterCounter (coreArg numCoresArg : Nat) : Nat → BitVec 64
  | 0 => BitVec.ofNat 64 coreArg
  | count + 1 => helixIterCounter coreArg numCoresArg count + BitVec.ofNat 64 numCoresArg

/-- The task computes the sequential value at the header it is in, whose iteration is the one
given. Iterations from `2 ^ 63` on are left out. -/
def ComputesSequential (pv : PeriodicVariable width) (iterCounter : BitVec 64)
    (iteration : Nat) : Prop :=
  iteration < 2 ^ 63 → pvCurr pv iterCounter = some (pv.sequential iteration)

/-- The period is positive as a signed constant, or the least one, or the sums of the steps over
whole periods are zero anyway. -/
def PeriodFits (pv : PeriodicVariable width) : Prop :=
  2 * pv.period.toNat ≤ 2 ^ width ∨ pv.stepValue * pv.period = 0

/-! ## The counters -/

section Counters

variable {createChunkPHI : Nat → Nat → Bool × Nat} {args : TaskArgs}

/-- The counter of a DOALL task is its iteration, as a word. -/
theorem doall_iter_counter_eq
    (hchunkPHI : ∀ chunkSize counter, createChunkPHI chunkSize counter =
      (decide (counter + 1 = chunkSize), if counter + 1 = chunkSize then 0 else counter + 1))
    (hchunk : 0 < args.chunkSize) (hinstances : 0 < args.numTaskInstances) (count : Nat) :
    doallIterCounter createChunkPHI args count =
      (BitVec.ofNat 64 (iterationAt args count), count % args.chunkSize) := by
  induction count with
  | zero =>
      show (_, 0) = (BitVec.ofNat 64 (dealt _ _ _ 0), 0 % args.chunkSize)
      rw [dealt_zero, BitVec.ofNat_mul, Nat.zero_mod]
  | succ count ih =>
      have hnext := dealt_succ args.taskInstanceID count hchunk hinstances
      have hothers : BitVec.ofNat 64 args.numTaskInstances - 1 =
          BitVec.ofNat 64 (args.numTaskInstances - 1) := by
        obtain ⟨others, hsucc⟩ : ∃ others, args.numTaskInstances = others + 1 :=
          ⟨args.numTaskInstances - 1, by omega⟩
        rw [hsucc, BitVec.ofNat_add, Nat.add_sub_cancel]
        exact BitVec.add_sub_cancel _ _
      rw [doallIterCounter, ih, hothers]
      dsimp only
      rw [hchunkPHI, ← BitVec.ofNat_mul]
      unfold iterationAt
      by_cases hend : count % args.chunkSize + 1 = args.chunkSize
      · rw [if_pos hend] at hnext
        simp only [hend, decide_true, if_true, hnext, succ_mod_eq hchunk, lt_irrefl, if_false,
          BitVec.ofNat_add]
        rfl
      · rw [if_neg hend] at hnext
        have hlt := Nat.mod_lt count hchunk
        simp only [hend, decide_false, Bool.false_eq_true, if_false, hnext,
          succ_mod_eq hchunk, if_pos (show count % args.chunkSize + 1 < args.chunkSize by omega),
          BitVec.ofNat_add]
        rfl

/-- The counter of a HELIX task is its iteration, as a word. -/
theorem helix_iter_counter_eq (coreArg numCoresArg count : Nat) :
    helixIterCounter coreArg numCoresArg count =
      BitVec.ofNat 64 (coreArg + count * numCoresArg) := by
  induction count with
  | zero => rw [Nat.zero_mul, Nat.add_zero, helixIterCounter]
  | succ count ih =>
      rw [helixIterCounter, ih, ← BitVec.ofNat_add, Nat.succ_mul, Nat.add_assoc]

end Counters

/-! ## The value -/

section Value

variable {pv : PeriodicVariable width} {iteration : Nat}

/-- The sequential value adds the steps since the last whole period. -/
theorem sequential_eq (hperiod : pv.period ≠ 0) (iteration : Nat) :
    pv.sequential iteration =
      pv.initialValue + pv.stepValue * BitVec.ofNat width (iteration % pv.period.toNat) := by
  have hpos : 0 < pv.period.toNat := Nat.pos_of_ne_zero fun h =>
    hperiod (BitVec.eq_of_toNat_eq h)
  induction iteration with
  | zero => simp [PeriodicVariable.sequential]
  | succ iteration ih =>
      rw [PeriodicVariable.sequential, ih, succ_mod_eq hpos]
      by_cases hend : iteration % pv.period.toNat + 1 < pv.period.toNat
      · rw [if_pos hend, if_neg (Nat.succ_ne_zero _), BitVec.ofNat_add, BitVec.mul_add,
          BitVec.add_assoc]
        congr 2
        exact (BitVec.mul_one _).symm
      · rw [if_neg hend, if_pos rfl]
        simp

/-- A word extended by its sign and cut again is the word. -/
theorem set_width_sign_extend (hwidth : width ≤ 64) (word : BitVec width) :
    (word.signExtend 64).setWidth width = word := by
  apply BitVec.eq_of_toInt_eq
  rw [← BitVec.signExtend_eq_setWidth_of_le _ hwidth,
    BitVec.toInt_signExtend_eq_toInt_bmod_of_le _ hwidth, BitVec.toInt_signExtend_of_le hwidth,
    BitVec.toInt_bmod_cancel]

/-- The code computes no undefined remainder, and takes the remainder by the absolute value of the
period as a signed constant. -/
theorem pv_curr_eq (hwidth : width ≤ 64) (hperiod : pv.period ≠ 0)
    (hiteration : iteration < 2 ^ 63) :
    pvCurr pv (BitVec.ofNat 64 iteration) = some (pv.initialValue +
      pv.stepValue * BitVec.ofNat width (iteration % pv.period.toInt.natAbs)) := by
  have hcounter : (BitVec.ofNat 64 iteration).toInt = iteration := by
    rw [BitVec.toInt_ofNat']
    exact Int.bmod_eq_of_le (by omega) (by omega)
  have hzero : pv.period.signExtend 64 ≠ 0 := fun h => hperiod (by
    rw [← set_width_sign_extend hwidth pv.period, h]
    exact BitVec.setWidth_zero _ _)
  have hleast : BitVec.ofNat 64 iteration ≠ BitVec.intMin 64 := fun h => by
    rw [h] at hcounter
    have hneg : (BitVec.intMin 64).toInt = -2 ^ 63 := by decide
    omega
  have hsrem : (BitVec.ofNat 64 iteration).srem (pv.period.signExtend 64) =
      BitVec.ofNat 64 (iteration % pv.period.toInt.natAbs) := by
    apply BitVec.eq_of_toInt_eq
    rw [BitVec.toInt_srem, hcounter, BitVec.toInt_signExtend_of_le hwidth,
      Int.tmod_eq_emod_of_nonneg (by omega), BitVec.toInt_ofNat']
    have hle : iteration % pv.period.toInt.natAbs ≤ iteration := Nat.mod_le _ _
    rw [Int.bmod_eq_of_le (by omega) (by omega), Int.natCast_mod, Int.natCast_natAbs,
      Int.emod_abs]
  unfold pvCurr
  dsimp only
  rw [if_neg (by simp only [hzero, hleast, false_and, or_self, not_false_eq_true]), hsrem,
    BitVec.setWidth_mul _ _ hwidth, set_width_sign_extend hwidth,
    BitVec.setWidth_ofNat_of_le hwidth, BitVec.add_comm]

/-- Whole periods whose steps sum to zero can be left out. -/
theorem mul_of_nat_mod {stepValue : BitVec width} {period : Nat}
    (h : stepValue * BitVec.ofNat width period = 0) (iteration : Nat) :
    stepValue * BitVec.ofNat width (iteration % period) =
      stepValue * BitVec.ofNat width iteration := by
  conv_rhs => rw [← Nat.div_add_mod iteration period]
  rw [BitVec.ofNat_add, BitVec.ofNat_mul, BitVec.mul_add, ← BitVec.mul_assoc, h]
  simp

/-- The absolute value of the period as a signed constant. -/
theorem nat_abs_period (period : BitVec width) :
    period.toInt.natAbs =
      if 2 * period.toNat ≤ 2 ^ width then period.toNat else 2 ^ width - period.toNat := by
  have hlt := period.isLt
  rw [BitVec.toInt_eq_toNat_cond]
  have hcast : ((2 ^ width : Nat) : Int) = (2 : Int) ^ width := by push_cast; rfl
  split_ifs <;> omega

/-- The two remainders of all iterations give the same values exactly when the period fits. -/
theorem remainders_agree_iff (hwidth : width ≤ 64) (hperiod : pv.period ≠ 0) :
    (∀ iteration < 2 ^ 63, pvCurr pv (BitVec.ofNat 64 iteration) =
      some (pv.sequential iteration)) ↔ PeriodFits pv := by
  have hcomplement : BitVec.ofNat width (2 ^ width - pv.period.toNat) = -pv.period := by
    apply BitVec.eq_of_toNat_eq
    rw [BitVec.toNat_ofNat, BitVec.toNat_neg]
  have hvalues : ∀ iteration < 2 ^ 63, (pvCurr pv (BitVec.ofNat 64 iteration) =
      some (pv.sequential iteration) ↔
        pv.stepValue * BitVec.ofNat width (iteration % pv.period.toInt.natAbs) =
          pv.stepValue * BitVec.ofNat width (iteration % pv.period.toNat)) := by
    intro iteration hiteration
    rw [pv_curr_eq hwidth hperiod hiteration, sequential_eq hperiod, Option.some.injEq,
      BitVec.add_right_inj]
  rw [nat_abs_period] at hvalues
  constructor
  · intro h
    by_cases hsmall : 2 * pv.period.toNat ≤ 2 ^ width
    · exact .inl hsmall
    · right
      rw [if_neg hsmall] at hvalues
      have hlt := pv.period.isLt
      have hpow : 2 ^ width ≤ 2 ^ 64 := Nat.pow_le_pow_right (by decide) hwidth
      -- The iteration at which the shorter period would end.
      have hend := (hvalues (2 ^ width - pv.period.toNat) (by omega)).mp (h _ (by omega))
      rw [Nat.mod_self, Nat.mod_eq_of_lt (by omega), hcomplement, BitVec.mul_neg] at hend
      have hzero : -(pv.stepValue * pv.period) = 0 := by
        rw [← hend]
        exact BitVec.mul_zero
      exact neg_eq_zero.mp hzero
  · intro hfits iteration hiteration
    rw [hvalues iteration hiteration]
    by_cases hsmall : 2 * pv.period.toNat ≤ 2 ^ width
    · rw [if_pos hsmall]
    · have hzero : pv.stepValue * pv.period = 0 := hfits.resolve_left hsmall
      rw [if_neg hsmall, mul_of_nat_mod, mul_of_nat_mod]
      · rw [BitVec.ofNat_toNat, BitVec.setWidth_eq]
        exact hzero
      · rw [hcomplement, BitVec.mul_neg, hzero]
        exact BitVec.neg_zero _

end Value

/-! ## Both techniques -/

/-- For every variable, and every number of instances, chunk size and number of cores, no code
computes an undefined remainder, and the tasks compute the sequential value at every header exactly
when the period fits. The chunk counter is documented to restart at the chunk size. -/
theorem periodic_variable_iff {createChunkPHI : Nat → Nat → Bool × Nat}
    (hchunkPHI : ∀ chunkSize counter, createChunkPHI chunkSize counter =
      (decide (counter + 1 = chunkSize), if counter + 1 = chunkSize then 0 else counter + 1))
    (hwidth : width ≤ 64) (pv : PeriodicVariable width) (hperiod : pv.period ≠ 0)
    {numTaskInstances chunkSize numCores : Nat} (hinstances : 0 < numTaskInstances)
    (hchunk : 0 < chunkSize) (hcores : 0 < numCores) :
    (∀ iteration < 2 ^ 63, (pvCurr pv (BitVec.ofNat 64 iteration)).isSome) ∧
    ((∀ taskInstanceID < numTaskInstances, ∀ count,
      ComputesSequential pv
        (doallIterCounter createChunkPHI ⟨taskInstanceID, numTaskInstances, chunkSize⟩ count).1
        (iterationAt ⟨taskInstanceID, numTaskInstances, chunkSize⟩ count)) ↔ PeriodFits pv) ∧
    ((∀ coreArg < numCores, ∀ count,
      ComputesSequential pv (helixIterCounter coreArg numCores count)
        (coreArg + count * numCores)) ↔ PeriodFits pv) := by
  refine ⟨fun iteration hiteration => ?_, ?_, ?_⟩
  · rw [pv_curr_eq hwidth hperiod hiteration]
    rfl
  · rw [← remainders_agree_iff hwidth hperiod]
    constructor
    · intro h iteration hiteration
      -- Every iteration is dealt to an instance.
      have hdealer : dealer numTaskInstances chunkSize iteration < numTaskInstances :=
        Nat.mod_lt _ hinstances
      obtain ⟨count, hcount⟩ := exists_dealt hchunk
        (Eq.refl (dealer numTaskInstances chunkSize iteration))
      have hcomputes := h _ hdealer count
      rw [doall_iter_counter_eq hchunkPHI hchunk hinstances] at hcomputes
      unfold iterationAt at hcomputes
      rw [hcount] at hcomputes
      exact hcomputes hiteration
    · intro h taskInstanceID _ count hiteration
      rw [doall_iter_counter_eq hchunkPHI hchunk hinstances]
      exact h _ hiteration
  · rw [← remainders_agree_iff hwidth hperiod]
    constructor
    · intro h iteration hiteration
      have hcomputes := h (iteration % numCores) (Nat.mod_lt _ hcores) (iteration / numCores)
      rw [helix_iter_counter_eq, Nat.mul_comm, Nat.mod_add_div] at hcomputes
      exact hcomputes hiteration
    · intro h coreArg _ count hiteration
      rw [helix_iter_counter_eq]
      exact h _ hiteration

/-- A variable of 8 bits that counts by one through a period of 200 does not fit. -/
theorem periodic_variable_iff_byte :
    ¬ PeriodFits (⟨0, 1, 200⟩ : PeriodicVariable 8) ∧
      ((∀ taskInstanceID < 2, ∀ count,
        ComputesSequential (⟨0, 1, 200⟩ : PeriodicVariable 8)
          (doallIterCounter (IVUtility.arithmetic : IVUtility Int).createChunkPHI
            ⟨taskInstanceID, 2, 8⟩ count).1
          (iterationAt ⟨taskInstanceID, 2, 8⟩ count)) ↔
        PeriodFits (⟨0, 1, 200⟩ : PeriodicVariable 8)) :=
  ⟨by unfold PeriodFits; decide,
    (periodic_variable_iff (fun _ _ => rfl) (by decide) ⟨0, 1, 200⟩ (by decide) (by decide)
      (by decide) (Nat.one_pos)).2.1⟩

/-- HELIX on one core: at iteration 56 the byte that counts through 200 is back at zero. -/
theorem periodic_variable_sign_fails :
    ¬ ∀ coreArg < 1, ∀ count, ComputesSequential (⟨0, 1, 200⟩ : PeriodicVariable 8)
      (helixIterCounter coreArg 1 count) (coreArg + count * 1) := by
  intro h
  have hcomputes := h 0 (by decide) 56
  rw [helix_iter_counter_eq] at hcomputes
  have hcurr : pvCurr (⟨0, 1, 200⟩ : PeriodicVariable 8) (BitVec.ofNat 64 56) = some 0 := by decide
  have hsequential : (⟨0, 1, 200⟩ : PeriodicVariable 8).sequential 56 = 56 := by
    rw [sequential_eq (by decide)]
    rfl
  have hvalue := hcomputes (by decide)
  rw [Nat.zero_add, Nat.mul_one, hcurr, hsequential] at hvalue
  exact absurd hvalue (by decide)

end Gino.Technique
