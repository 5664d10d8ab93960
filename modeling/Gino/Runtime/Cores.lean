import Gino.Machine.System
import Mathlib.Algebra.BigOperators.Group.List.Basic
import Mathlib.Data.BitVec

/-!
# Core accounting of the runtime

`reserveCores`, `releaseCores` and `getAvailableCores` of `NoelleRuntime`, at the level of the
machine integers of the source: the idle count is an `int32_t`, and requests and grants are
`uint32_t`. Each of the first two runs under `spinLock`, so an interleaving is a sequence of whole
calls. `cores_law_iff` says in which runs the accounting law holds throughout: those in which a
reservation made while the idle count is negative asks for a single core.
-/

namespace Gino.Runtime

open Machine

/-- The field of `NoelleRuntime` that accounts for cores, `int32_t NOELLE_idleCores`. -/
structure NoelleRuntime where
  idleCores : BitVec 32
  deriving DecidableEq

namespace NoelleRuntime

/-- `NoelleRuntime::NoelleRuntime`: every core starts idle. -/
def init (maxCores : BitVec 32) : NoelleRuntime := ⟨maxCores⟩

/-- `NoelleRuntime::reserveCores`, the number of cores granted and the runtime afterwards. The
request is a `uint32_t`, so the comparison and the conditional read the idle count unsigned. -/
def reserveCores (runtime : NoelleRuntime) (coresRequested : BitVec 32) :
    BitVec 32 × NoelleRuntime :=
  let numCores :=
    if runtime.idleCores ≥ coresRequested then coresRequested else runtime.idleCores
  let numCores := if numCores < 1 then 1 else numCores
  (numCores, { runtime with idleCores := runtime.idleCores - numCores })

/-- `NoelleRuntime::releaseCores`. -/
def releaseCores (runtime : NoelleRuntime) (coresReleased : BitVec 32) : NoelleRuntime :=
  { runtime with idleCores := runtime.idleCores + coresReleased }

/-- `NoelleRuntime::getAvailableCores`. The local copy of the idle count is an `int32_t`, so this
comparison is signed. -/
def getAvailableCores (runtime : NoelleRuntime) : BitVec 32 :=
  if runtime.idleCores.slt 1 then 1 else runtime.idleCores

end NoelleRuntime

/-- The tasks `NOELLE_DOALLDispatcher` and `NOELLE_HELIX_dispatcher` submit to the thread pool when
granted `numCores`: the bound of `for (i = 0; i < numCores - 1; ++i)`. -/
def helperTasks (numCores : BitVec 32) : Nat := (numCores - 1).toNat

/-- The runtime together with the grants not released yet. -/
structure Accounting where
  runtime : NoelleRuntime
  outstanding : List (BitVec 32)
  deriving DecidableEq

/-- The calls of dispatchers. A dispatcher releases what it was granted. -/
inductive CoreEvent where
  | reserve (coresRequested : BitVec 32)
  | release (coresReleased : BitVec 32)
  deriving DecidableEq

/-- The effect of one call. -/
inductive CoreStep : Accounting → CoreEvent → Accounting → Prop where
  | reserve (state : Accounting) (coresRequested : BitVec 32) (hrequest : 1 ≤ coresRequested) :
      CoreStep state (.reserve coresRequested)
        ⟨(state.runtime.reserveCores coresRequested).2,
          (state.runtime.reserveCores coresRequested).1 :: state.outstanding⟩
  | release (state : Accounting) (grant : BitVec 32) (hgrant : grant ∈ state.outstanding) :
      CoreStep state (.release grant)
        ⟨state.runtime.releaseCores grant, state.outstanding.erase grant⟩

/-- All interleavings of `reserveCores` and matching `releaseCores` calls on `maxCores` cores. -/
def coreSystem (maxCores : BitVec 32) : System Accounting CoreEvent where
  Initial state := state = ⟨.init maxCores, []⟩
  Step := CoreStep

/-- The law of a state: the idle count is what the outstanding grants leave, and the helper tasks
of the outstanding grants fit the workers that are not running a dispatcher. -/
structure CoresLaw (maxCores : BitVec 32) (state : Accounting) : Prop where
  idle : state.runtime.idleCores.toInt =
    maxCores.toInt - ((state.outstanding.map BitVec.toNat).sum : Nat)
  helpers : ((state.outstanding.map helperTasks).sum : Nat) ≤ maxCores.toInt - 1

/-- The law of a reservation: a positive idle count grants the smaller of the request and the idle
count, and otherwise the grant is the single core that `getAvailableCores` reports. -/
def GrantLaw (runtime : NoelleRuntime) (coresRequested : BitVec 32) : Prop :=
  (1 ≤ runtime.idleCores.toInt →
    ((runtime.reserveCores coresRequested).1.toNat : Int) =
      min (coresRequested.toNat : Int) runtime.idleCores.toInt) ∧
  (runtime.idleCores.toInt ≤ 0 →
    (runtime.reserveCores coresRequested).1 = 1 ∧ runtime.getAvailableCores = 1)

/-- The law of an event: a reservation obeys `GrantLaw`. -/
def EventLaw (state : Accounting) : CoreEvent → Prop
  | .reserve coresRequested => GrantLaw state.runtime coresRequested
  | .release _ => True

/-- A call the accounting survives: a reservation finds a nonnegative idle count or asks for one
core, and does not find the least `int32_t`. -/
def Accountable (state : Accounting) : CoreEvent → Prop
  | .reserve coresRequested =>
      (0 ≤ state.runtime.idleCores.toInt ∨ coresRequested = 1) ∧
        -(2 ^ 31) < state.runtime.idleCores.toInt
  | .release _ => True

/-- `Accountable` compares the idle count and the request. -/
instance (state : Accounting) : (event : CoreEvent) → Decidable (Accountable state event)
  | .reserve _ => inferInstanceAs (Decidable (_ ∧ _))
  | .release _ => inferInstanceAs (Decidable True)

/-! ## What one call does -/

section Calls

variable (runtime : NoelleRuntime) (coresRequested : BitVec 32)

/-- Read as unsigned numbers, a grant is the smaller of request and idle count, and at least one
core. -/
theorem reserve_cores_to_nat :
    (runtime.reserveCores coresRequested).1.toNat =
      max 1 (min coresRequested.toNat runtime.idleCores.toNat) := by
  simp only [NoelleRuntime.reserveCores, ge_iff_le, BitVec.le_def, BitVec.lt_def]
  split_ifs with hrequest hsmall hsmall <;>
    simp only [BitVec.ofNat_eq_ofNat, BitVec.toNat_ofNat] at hsmall ⊢ <;> omega

/-- Every grant is at least one core. -/
theorem one_le_grant : 1 ≤ (runtime.reserveCores coresRequested).1.toNat := by
  rw [reserve_cores_to_nat]
  exact Nat.le_max_left _ _

/-- A nonnegative idle count reads the same signed and unsigned. -/
theorem idle_to_nat (hidle : 0 ≤ runtime.idleCores.toInt) :
    (runtime.idleCores.toNat : Int) = runtime.idleCores.toInt := by
  have hbound := runtime.idleCores.isLt
  simp only [BitVec.toInt_eq_toNat_cond] at hidle ⊢
  split_ifs at hidle ⊢ <;> omega

/-- A negative idle count reads as a number from `2 ^ 31` on. -/
theorem idle_to_nat_of_neg (hidle : runtime.idleCores.toInt < 0) :
    2 ^ 31 ≤ runtime.idleCores.toNat := by
  have hbound := runtime.idleCores.isLt
  simp only [BitVec.toInt_eq_toNat_cond] at hidle
  split_ifs at hidle <;> omega

/-- A grant is subtracted without wrapping while the difference is an `int32_t`. -/
theorem reserve_idle (hrange : -(2 ^ 31) ≤ runtime.idleCores.toInt -
      (runtime.reserveCores coresRequested).1.toNat) :
    (runtime.reserveCores coresRequested).2.idleCores.toInt =
      runtime.idleCores.toInt - (runtime.reserveCores coresRequested).1.toNat := by
  have hidle := runtime.idleCores.isLt
  have hgrant := (runtime.reserveCores coresRequested).1.isLt
  show (runtime.idleCores - (runtime.reserveCores coresRequested).1).toInt = _
  simp only [BitVec.toInt_eq_toNat_cond, BitVec.toNat_sub] at hrange ⊢
  split_ifs at hrange ⊢ <;> omega

/-- The least `int32_t` loses the core it is asked for: the idle count wraps to the greatest. -/
theorem reserve_wraps (hidle : runtime.idleCores.toInt = -(2 ^ 31)) :
    (runtime.reserveCores coresRequested).2.idleCores.toInt ≠
      runtime.idleCores.toInt - (runtime.reserveCores coresRequested).1.toNat := by
  have hbound := (runtime.reserveCores coresRequested).2.idleCores.le_toInt
  have hgrant := one_le_grant runtime coresRequested
  omega

/-- A release is added without wrapping while the sum is an `int32_t`. -/
theorem release_idle (grant : BitVec 32)
    (hrange : runtime.idleCores.toInt + grant.toNat < 2 ^ 31) :
    (runtime.releaseCores grant).idleCores.toInt = runtime.idleCores.toInt + grant.toNat := by
  have hidle := runtime.idleCores.isLt
  have hgrant := grant.isLt
  show (runtime.idleCores + grant).toInt = _
  simp only [BitVec.toInt_eq_toNat_cond, BitVec.toNat_add] at hrange ⊢
  split_ifs at hrange ⊢ <;> omega

/-- A reservation obeys the law exactly when the idle count is nonnegative or one core is asked
for. -/
theorem grant_law_iff (hrequest : 1 ≤ coresRequested) :
    GrantLaw runtime coresRequested ↔ 0 ≤ runtime.idleCores.toInt ∨ coresRequested = 1 := by
  have hgrant := reserve_cores_to_nat runtime coresRequested
  have hone : 1 ≤ coresRequested.toNat := by simpa [BitVec.le_def] using hrequest
  have havailable : runtime.idleCores.toInt ≤ 0 → runtime.getAvailableCores = 1 := by
    intro hidle
    simp [NoelleRuntime.getAvailableCores, BitVec.slt, Int.lt_iff_add_one_le, hidle]
  constructor
  · intro hlaw
    by_contra hne
    obtain ⟨hidle, hrequest⟩ := not_or.mp hne
    have hhuge := idle_to_nat_of_neg runtime (by omega)
    have hgranted := congrArg BitVec.toNat (hlaw.2 (by omega)).1
    have hmore : coresRequested.toNat ≠ 1 := fun h => hrequest (BitVec.eq_of_toNat_eq h)
    simp only [hgrant, BitVec.ofNat_eq_ofNat, BitVec.toNat_ofNat] at hgranted
    omega
  · intro hmeets
    refine ⟨fun hidle => ?_, fun hidle => ⟨BitVec.eq_of_toNat_eq ?_, havailable hidle⟩⟩
    · have := idle_to_nat runtime (by omega)
      omega
    · rw [hgrant]
      rcases hmeets with hzero | rfl
      · have := idle_to_nat runtime hzero
        simp only [BitVec.ofNat_eq_ofNat, BitVec.toNat_ofNat]
        omega
      · simp only [BitVec.ofNat_eq_ofNat, BitVec.toNat_ofNat]
        omega

end Calls

/-! ## Runs -/

variable {maxCores : BitVec 32}

/-- A grant of at least one core is that core and its helper tasks. -/
theorem helper_tasks_add_one {grant : BitVec 32} (hgrant : 1 ≤ grant.toNat) :
    helperTasks grant + 1 = grant.toNat := by
  have hbound := grant.isLt
  simp only [helperTasks, BitVec.toNat_sub, BitVec.ofNat_eq_ofNat, BitVec.toNat_ofNat]
  omega

/-- The helper tasks of some grants are their cores, less one core for each grant. -/
theorem helper_tasks_add_length {grants : List (BitVec 32)}
    (hgrants : ∀ grant ∈ grants, 1 ≤ grant.toNat) :
    (grants.map helperTasks).sum + grants.length = (grants.map BitVec.toNat).sum := by
  induction grants with
  | nil => rfl
  | cons grant rest ih =>
      have hgrant := helper_tasks_add_one (hgrants grant (by simp))
      have hrest := ih fun other hother => hgrants other (by simp [hother])
      simp only [List.map_cons, List.sum_cons, List.length_cons]
      omega

/-- Every outstanding grant has at least one core, in every run. -/
theorem outstanding_pos {state : Accounting} (h : (coreSystem maxCores).Reachable state) :
    ∀ grant ∈ state.outstanding, 1 ≤ grant.toNat := by
  refine h.invariant (fun state => ∀ grant ∈ state.outstanding, 1 ≤ grant.toNat) ?_ ?_
  · rintro _ rfl
    simp
  · intro state event next hpos hstep
    cases hstep with
    | reserve coresRequested _ =>
        intro grant hgrant
        rcases List.mem_cons.mp hgrant with rfl | hgrant
        · exact one_le_grant _ _
        · exact hpos grant hgrant
    | release _ _ => exact fun grant hgrant => hpos grant (List.mem_of_mem_erase hgrant)

/-- An accountable call keeps the law. -/
theorem CoresLaw.step {state next : Accounting} {event : CoreEvent} (hcores : 0 < maxCores.toInt)
    (hlaw : CoresLaw maxCores state) (hpos : ∀ grant ∈ state.outstanding, 1 ≤ grant.toNat)
    (hmeets : Accountable state event) (hstep : CoreStep state event next) :
    CoresLaw maxCores next := by
  obtain ⟨hidle, hhelpers⟩ := hlaw
  have hsum := helper_tasks_add_length hpos
  cases hstep with
  | reserve coresRequested hrequest =>
      obtain ⟨hasked, hrange⟩ := hmeets
      have hgrant := (grant_law_iff _ _ hrequest).mpr hasked
      have hhelper := helper_tasks_add_one
        (one_le_grant state.runtime coresRequested)
      have hnowrap := reserve_idle state.runtime coresRequested
      -- A positive idle count bounds the grant; otherwise the grant is one core, with no helper.
      rcases lt_or_ge 0 state.runtime.idleCores.toInt with hpositive | hnone
      · have hmin := hgrant.1 hpositive
        constructor <;> simp only [List.map_cons, List.sum_cons] <;> omega
      · have hsingle := congrArg BitVec.toNat (hgrant.2 hnone).1
        simp only [BitVec.ofNat_eq_ofNat, BitVec.toNat_ofNat] at hsingle
        constructor <;> simp only [List.map_cons, List.sum_cons] <;> omega
  | release grant hgrant =>
      -- Releasing a grant takes its share out of both sums.
      have hcoresSum := List.sum_map_erase BitVec.toNat hgrant
      have hhelperSum := List.sum_map_erase helperTasks hgrant
      have hmax := maxCores.toInt_lt
      have hnowrap := release_idle state.runtime grant
      constructor <;> simp only <;> omega

/-- A call between two states of the law that obeys its own law is accountable. -/
theorem Accountable.of_law {state next : Accounting} {event : CoreEvent}
    (hlaw : CoresLaw maxCores state) (hnext : CoresLaw maxCores next)
    (hevent : EventLaw state event) (hstep : CoreStep state event next) :
    Accountable state event := by
  cases hstep with
  | reserve coresRequested hrequest =>
      refine ⟨(grant_law_iff _ _ hrequest).mp hevent,
        lt_of_le_of_ne state.runtime.idleCores.le_toInt ?_⟩
      intro hleast
      apply reserve_wraps state.runtime coresRequested hleast.symm
      have hidle := hnext.idle
      simp only [List.map_cons, List.sum_cons] at hidle
      have := hlaw.idle
      omega
  | release => trivial

/-- The accounting law holds in every state and every call of a run exactly when every call of the
run is accountable. -/
theorem cores_law_iff (hcores : 0 < maxCores.toInt) {past : List (Accounting × CoreEvent)}
    {state : Accounting} (hrun : (coreSystem maxCores).Run past state) :
    (∀ entry ∈ past, Accountable entry.1 entry.2) ↔
      CoresLaw maxCores state ∧
        ∀ entry ∈ past, CoresLaw maxCores entry.1 ∧ EventLaw entry.1 entry.2 := by
  induction hrun with
  | initial hinitial =>
      obtain rfl := hinitial
      refine ⟨fun _ => ⟨⟨by simp [NoelleRuntime.init], by simp; omega⟩, by simp⟩, by simp⟩
  | @step past state event next hrun hstep ih =>
      simp only [List.forall_mem_cons]
      constructor
      · rintro ⟨hmeets, hpast⟩
        obtain ⟨hlaw, hbefore⟩ := ih.mp hpast
        refine ⟨hlaw.step hcores (outstanding_pos hrun.reachable) hmeets hstep, ⟨hlaw, ?_⟩, hbefore⟩
        cases hstep with
        | reserve _ hrequest => exact (grant_law_iff _ _ hrequest).mpr hmeets.1
        | release => trivial
      · rintro ⟨hnext, ⟨hlaw, hevent⟩, hbefore⟩
        exact ⟨.of_law hlaw hnext hevent hstep, ih.mpr ⟨hlaw, hbefore⟩⟩

/-- Four cores: a dispatcher takes all of them and a nested one runs alone, then both finish. -/
theorem cores_law_nested : CoresLaw 4 ⟨⟨4⟩, []⟩ := by
  have hrun : (coreSystem 4).Run
      [(⟨⟨3⟩, [1]⟩, .release 1), (⟨⟨-1⟩, [1, 4]⟩, .release 4), (⟨⟨0⟩, [4]⟩, .reserve 2),
        (⟨⟨4⟩, []⟩, .reserve 4)] ⟨⟨4⟩, []⟩ :=
    .step (.step (.step (.step (.initial rfl) (.reserve _ 4 (by decide)))
      (.reserve _ 2 (by decide))) (.release _ 4 (by decide))) (.release _ 1 (by decide))
  refine ((cores_law_iff (by decide) hrun).mp ?_).1
  decide

/-- One core and three overlapping dispatches of four: the third finds the idle count at `-1` and
is granted four cores, so three helper tasks have no worker. -/
theorem cores_law_overlapping_fails :
    ∃ past state, (coreSystem 1).Run past state ∧ ¬ CoresLaw 1 state ∧
      ∃ entry ∈ past, ¬ EventLaw entry.1 entry.2 := by
  refine ⟨[(⟨⟨-1⟩, [1, 1]⟩, .reserve 4), (⟨⟨0⟩, [1]⟩, .reserve 4), (⟨⟨1⟩, []⟩, .reserve 4)],
    ⟨⟨-5⟩, [4, 1, 1]⟩, ?_, ?_, (⟨⟨-1⟩, [1, 1]⟩, .reserve 4), by simp, ?_⟩
  · exact .step (.step (.step (.initial rfl) (.reserve _ 4 (by decide)))
      (.reserve _ 4 (by decide))) (.reserve _ 4 (by decide))
  · intro hlaw
    exact absurd hlaw.helpers (by decide)
  · intro hlaw
    exact absurd (hlaw.2 (by decide)).1 (by decide)

end Gino.Runtime
