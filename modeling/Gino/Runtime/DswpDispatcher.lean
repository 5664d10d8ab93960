import Gino.Runtime.Cores
import Mathlib.Algebra.Order.BigOperators.Group.List
import Mathlib.Algebra.Order.Ring.Nat

/-!
# Dispatching pipelines

`NOELLE_DSWPDispatcher` reserves as many cores as the pipeline has stages, submits a task for each
stage to the thread pool, and releases the cores when all of them have finished. The linked code
calls it when `NOELLE_getAvailableCores` reports enough cores, but other calls can come between
that check and the reservation, and the dispatcher submits all stages whatever it is granted.
`stages_have_cores` says that every stage has a worker in the runs in which each reservation finds
the cores it asks for.
-/

namespace Gino.Runtime

open Machine

/-- A call of `NOELLE_DSWPDispatcher` from the check of the available cores on: the number of
stages, the cores granted once they are reserved, and how many of the stage tasks were submitted
and have finished. -/
structure StageDispatch where
  numberOfStages : BitVec 32
  numCores : Option (BitVec 32)
  submitted : Nat
  finished : Nat
  deriving DecidableEq

namespace StageDispatch

variable (dispatch : StageDispatch)

/-- The number of cores held. -/
def granted : Nat := (dispatch.numCores.map BitVec.toNat).getD 0

/-- The stage tasks that are in the thread pool. -/
def unfinished : Nat := dispatch.submitted - dispatch.finished

/-- A dispatch that holds a core for each task it has submitted. -/
structure HasCores : Prop where
  finished : dispatch.finished ≤ dispatch.submitted
  submitted : dispatch.submitted ≤ dispatch.granted
  granted : ∀ numCores, dispatch.numCores = some numCores → numCores = dispatch.numberOfStages

end StageDispatch

/-- The runtime together with the dispatches that have not returned. -/
structure DispatcherState where
  runtime : NoelleRuntime
  dispatches : List StageDispatch
  deriving DecidableEq

namespace DispatcherState

variable (state : DispatcherState)

/-- The submitted stage tasks that have not finished. -/
def stageTasks : Nat := (state.dispatches.map StageDispatch.unfinished).sum

/-- The cores of the dispatches. -/
def grants : Nat := (state.dispatches.map StageDispatch.granted).sum

/-- The state with a dispatch changed. -/
def update (runtime : NoelleRuntime) (dispatch next : StageDispatch) : DispatcherState :=
  ⟨runtime, next :: state.dispatches.erase dispatch⟩

end DispatcherState

/-- What the dispatches do: the linked code checks the available cores, the dispatcher reserves
cores, submits a stage task, a stage task finishes, and the dispatcher releases the cores. -/
inductive DispatchEvent where
  | check (numberOfStages : BitVec 32)
  | reserve (dispatch : StageDispatch)
  | submit (dispatch : StageDispatch)
  | finish (dispatch : StageDispatch)
  | release (dispatch : StageDispatch)
  deriving DecidableEq

/-- One step of a dispatch. -/
inductive DispatchStep : DispatcherState → DispatchEvent → DispatcherState → Prop where
  | check (state : DispatcherState) (numberOfStages : BitVec 32) (hstages : 1 ≤ numberOfStages)
      (havailable : numberOfStages ≤ state.runtime.getAvailableCores) :
      DispatchStep state (.check numberOfStages)
        ⟨state.runtime, ⟨numberOfStages, none, 0, 0⟩ :: state.dispatches⟩
  | reserve (state : DispatcherState) (dispatch : StageDispatch)
      (hmem : dispatch ∈ state.dispatches) (hnone : dispatch.numCores = none) :
      DispatchStep state (.reserve dispatch)
        (state.update (state.runtime.reserveCores dispatch.numberOfStages).2 dispatch
          { dispatch with
            numCores := some (state.runtime.reserveCores dispatch.numberOfStages).1 })
  | submit (state : DispatcherState) (dispatch : StageDispatch)
      (hmem : dispatch ∈ state.dispatches) (hsome : dispatch.numCores.isSome)
      (hmore : dispatch.submitted < dispatch.numberOfStages.toNat) :
      DispatchStep state (.submit dispatch)
        (state.update state.runtime dispatch
          { dispatch with submitted := dispatch.submitted + 1 })
  | finish (state : DispatcherState) (dispatch : StageDispatch)
      (hmem : dispatch ∈ state.dispatches) (hmore : dispatch.finished < dispatch.submitted) :
      DispatchStep state (.finish dispatch)
        (state.update state.runtime dispatch { dispatch with finished := dispatch.finished + 1 })
  | release (state : DispatcherState) (dispatch : StageDispatch) (numCores : BitVec 32)
      (hmem : dispatch ∈ state.dispatches) (hsome : dispatch.numCores = some numCores)
      (hfinished : dispatch.finished = dispatch.numberOfStages.toNat) :
      DispatchStep state (.release dispatch)
        ⟨state.runtime.releaseCores numCores, state.dispatches.erase dispatch⟩

/-- All interleavings of `NOELLE_DSWPDispatcher` calls on `maxCores` cores. -/
def dispatcherSystem (maxCores : BitVec 32) : System DispatcherState DispatchEvent where
  Initial state := state = ⟨.init maxCores, []⟩
  Step := DispatchStep

/-- Whoever submits stage tasks was granted a core for each, and the tasks fit the workers. -/
def StagesHaveCores (maxCores : BitVec 32) (state : DispatcherState) : Prop :=
  (∀ dispatch ∈ state.dispatches, ∀ numCores, dispatch.numCores = some numCores →
    numCores = dispatch.numberOfStages) ∧
  (state.stageTasks : Int) ≤ maxCores.toInt

/-- A reservation finds as many idle cores as it asks for. -/
def FindsCores (state : DispatcherState) : DispatchEvent → Prop
  | .reserve dispatch => (dispatch.numberOfStages.toNat : Int) ≤ state.runtime.idleCores.toInt
  | _ => True

/-- `FindsCores` compares the idle count and the request. -/
instance (state : DispatcherState) : (event : DispatchEvent) → Decidable (FindsCores state event)
  | .reserve _ => inferInstanceAs (Decidable (_ ≤ _))
  | .check _ | .submit _ | .finish _ | .release _ => inferInstanceAs (Decidable True)

/-- The accounting of the dispatches. -/
structure DispatchesInv (maxCores : BitVec 32) (state : DispatcherState) : Prop where
  idle : state.runtime.idleCores.toInt = maxCores.toInt - state.grants
  idle_nonneg : 0 ≤ state.runtime.idleCores.toInt
  stages : ∀ dispatch ∈ state.dispatches, 1 ≤ dispatch.numberOfStages.toNat
  cores : ∀ dispatch ∈ state.dispatches, dispatch.HasCores

/-! ## Steps -/

variable {maxCores : BitVec 32} {state next : DispatcherState}

/-- A reservation of at most the idle cores is granted in full. -/
theorem reserve_in_full {runtime : NoelleRuntime} {coresRequested : BitVec 32}
    (hrequest : 1 ≤ coresRequested.toNat)
    (hidle : (coresRequested.toNat : Int) ≤ runtime.idleCores.toInt) :
    (runtime.reserveCores coresRequested).1 = coresRequested := by
  have hgrant := reserve_cores_to_nat runtime coresRequested
  have hsame := idle_to_nat runtime (by omega)
  exact BitVec.eq_of_toNat_eq (by omega)

/-- The cores of the dispatches after one of them changed. -/
theorem update_grants (runtime : NoelleRuntime) {dispatch : StageDispatch}
    (changed : StageDispatch) (hmem : dispatch ∈ state.dispatches) :
    (state.update runtime dispatch changed).grants + dispatch.granted =
      state.grants + changed.granted := by
  have hsum := List.sum_map_erase StageDispatch.granted hmem
  unfold DispatcherState.update DispatcherState.grants
  rw [List.map_cons, List.sum_cons]
  omega

/-- The dispatches after one of them changed. -/
theorem forall_mem_update {P : StageDispatch → Prop} {dispatches : List StageDispatch}
    {dispatch changed : StageDispatch} (h : ∀ other ∈ dispatches, P other) (hchanged : P changed) :
    ∀ other ∈ changed :: dispatches.erase dispatch, P other := by
  intro other hother
  rcases List.mem_cons.mp hother with rfl | hother
  · exact hchanged
  · exact h other (List.mem_of_mem_erase hother)

/-- Tasks that have a core each are at most the cores granted. -/
theorem unfinished_le_granted {dispatches : List StageDispatch}
    (h : ∀ dispatch ∈ dispatches, dispatch.HasCores) :
    (dispatches.map StageDispatch.unfinished).sum ≤
      (dispatches.map StageDispatch.granted).sum := by
  refine List.sum_le_sum fun dispatch hmem => ?_
  exact (Nat.sub_le _ _).trans (h dispatch hmem).submitted

/-- A change of a dispatch that keeps its cores keeps the accounting. -/
theorem DispatchesInv.update_same (hinv : DispatchesInv maxCores state) {dispatch : StageDispatch}
    (changed : StageDispatch) (hmem : dispatch ∈ state.dispatches)
    (hsame : changed.granted = dispatch.granted)
    (hstages : changed.numberOfStages = dispatch.numberOfStages) (hcores : changed.HasCores) :
    DispatchesInv maxCores (state.update state.runtime dispatch changed) := by
  have hsum := update_grants state.runtime changed hmem
  refine ⟨?_, hinv.idle_nonneg, forall_mem_update hinv.stages ?_,
    forall_mem_update hinv.cores hcores⟩
  · have hgrants : (state.update state.runtime dispatch changed).grants = state.grants := by omega
    rw [hgrants]
    exact hinv.idle
  · rw [hstages]
    exact hinv.stages dispatch hmem

/-- A step whose reservation finds its cores keeps the accounting. -/
theorem DispatchesInv.step {event : DispatchEvent} (hmax : 0 ≤ maxCores.toInt)
    (hinv : DispatchesInv maxCores state) (hfinds : FindsCores state event)
    (hstep : DispatchStep state event next) : DispatchesInv maxCores next := by
  have hidle := hinv.idle
  cases hstep with
  | check numberOfStages hone _ =>
      refine ⟨?_, hinv.idle_nonneg, ?_, ?_⟩
      · have hgrants : DispatcherState.grants
            ⟨state.runtime, ⟨numberOfStages, none, 0, 0⟩ :: state.dispatches⟩ = state.grants :=
          Nat.zero_add _
        rw [hgrants]
        exact hidle
      · exact List.forall_mem_cons.mpr ⟨by simpa [BitVec.le_def] using hone, hinv.stages⟩
      · refine List.forall_mem_cons.mpr ⟨⟨Nat.le_refl _, Nat.zero_le _, ?_⟩, hinv.cores⟩
        intro numCores hsome
        cases hsome
  | reserve dispatch hmem hnone =>
      -- The dispatch had no cores before, and gets as many as it has stages.
      have hfull := reserve_in_full (hinv.stages dispatch hmem) hfinds
      have hafter := reserve_idle state.runtime dispatch.numberOfStages
      have hfinds : (dispatch.numberOfStages.toNat : Int) ≤ state.runtime.idleCores.toInt := hfinds
      rw [hfull] at hafter ⊢
      have hafter := hafter (by omega)
      have hsum := update_grants (state.runtime.reserveCores dispatch.numberOfStages).2
        { dispatch with numCores := some dispatch.numberOfStages } hmem
      have hnothing : dispatch.granted = 0 := by simp [StageDispatch.granted, hnone]
      have hbefore := hinv.cores dispatch hmem
      have hchanged : StageDispatch.HasCores
          { dispatch with numCores := some dispatch.numberOfStages } := by
        refine ⟨hbefore.finished, hbefore.submitted.trans (hnothing ▸ Nat.zero_le _), ?_⟩
        exact fun numCores hsome => (Option.some.inj hsome).symm
      have hgranted : StageDispatch.granted
          { dispatch with numCores := some dispatch.numberOfStages } =
            dispatch.numberOfStages.toNat := rfl
      refine ⟨?_, ?_, forall_mem_update hinv.stages (hinv.stages dispatch hmem),
        forall_mem_update hinv.cores hchanged⟩
      · show (state.runtime.reserveCores dispatch.numberOfStages).2.idleCores.toInt = _
        omega
      · show 0 ≤ (state.runtime.reserveCores dispatch.numberOfStages).2.idleCores.toInt
        omega
  | submit dispatch hmem hsome hmore =>
      have hbefore := hinv.cores dispatch hmem
      obtain ⟨numCores, hnumCores⟩ := Option.isSome_iff_exists.mp hsome
      have hgranted : dispatch.granted = dispatch.numberOfStages.toNat := by
        rw [← hbefore.granted numCores hnumCores, StageDispatch.granted, hnumCores]
        rfl
      refine hinv.update_same _ hmem rfl rfl ⟨hbefore.finished.trans (Nat.le_succ _), ?_,
        hbefore.granted⟩
      exact hmore.trans_eq hgranted.symm
  | finish dispatch hmem hmore =>
      have hbefore := hinv.cores dispatch hmem
      exact hinv.update_same _ hmem rfl rfl ⟨hmore, hbefore.submitted, hbefore.granted⟩
  | release dispatch numCores hmem hsome hfinished =>
      have hsum := List.sum_map_erase StageDispatch.granted hmem
      have hgranted : dispatch.granted = numCores.toNat := by
        rw [StageDispatch.granted, hsome]
        rfl
      have hmaxBound := maxCores.toInt_lt
      -- What goes back was granted, so that the idle count stays at most the maximum.
      have hnowrap := release_idle state.runtime numCores
      unfold DispatcherState.grants at hidle
      refine ⟨?_, ?_, fun other hother => hinv.stages other (List.mem_of_mem_erase hother),
        fun other hother => hinv.cores other (List.mem_of_mem_erase hother)⟩
      · show (state.runtime.releaseCores numCores).idleCores.toInt =
          maxCores.toInt - ((state.dispatches.erase dispatch).map StageDispatch.granted).sum
        omega
      · have hnonneg := hinv.idle_nonneg
        show 0 ≤ (state.runtime.releaseCores numCores).idleCores.toInt
        omega

/-- The accounting gives every stage task a core. -/
theorem DispatchesInv.cores_reserved (hinv : DispatchesInv maxCores state) :
    StagesHaveCores maxCores state := by
  refine ⟨fun dispatch hmem => (hinv.cores dispatch hmem).granted, ?_⟩
  have htasks : state.stageTasks ≤ state.grants := unfinished_le_granted hinv.cores
  have hidle := hinv.idle
  have hnonneg := hinv.idle_nonneg
  omega

/-! ## Runs -/

/-- In every run whose reservations find the cores they ask for, every dispatch is granted a core
for each stage, and the submitted stage tasks fit the workers, in every state of the run. -/
theorem stages_have_cores (hmax : 0 ≤ maxCores.toInt)
    {past : List (DispatcherState × DispatchEvent)} {state : DispatcherState}
    (hrun : (dispatcherSystem maxCores).Run past state)
    (hfinds : ∀ entry ∈ past, FindsCores entry.1 entry.2) :
    StagesHaveCores maxCores state ∧ ∀ entry ∈ past, StagesHaveCores maxCores entry.1 := by
  have hinv : ∀ {past state}, (dispatcherSystem maxCores).Run past state →
      (∀ entry ∈ past, FindsCores entry.1 entry.2) → DispatchesInv maxCores state := by
    intro past state hrun hfinds
    refine hrun.invariant _ ?_ (fun state event next hinv hfinds hstep =>
      hinv.step hmax hfinds hstep) hfinds
    rintro _ rfl
    refine ⟨?_, hmax, by simp, by simp⟩
    simp [NoelleRuntime.init, DispatcherState.grants]
  refine ⟨(hinv hrun hfinds).cores_reserved, fun entry hentry => ?_⟩
  obtain ⟨earlier, hsuffix, hearlier⟩ := hrun.earlier hentry
  have hfinds' : ∀ entry ∈ earlier, FindsCores entry.1 entry.2 :=
    fun entry hmem => hfinds entry (hsuffix.subset hmem)
  exact (hinv hearlier hfinds').cores_reserved

/-- Two cores and one pipeline of two stages, which runs and returns. -/
theorem stages_have_cores_alone : StagesHaveCores 2 ⟨⟨2⟩, []⟩ := by
  have hrun : (dispatcherSystem 2).Run
      [(⟨⟨0⟩, [⟨2, some 2, 2, 2⟩]⟩, .release ⟨2, some 2, 2, 2⟩),
        (⟨⟨0⟩, [⟨2, some 2, 2, 1⟩]⟩, .finish ⟨2, some 2, 2, 1⟩),
        (⟨⟨0⟩, [⟨2, some 2, 2, 0⟩]⟩, .finish ⟨2, some 2, 2, 0⟩),
        (⟨⟨0⟩, [⟨2, some 2, 1, 0⟩]⟩, .submit ⟨2, some 2, 1, 0⟩),
        (⟨⟨0⟩, [⟨2, some 2, 0, 0⟩]⟩, .submit ⟨2, some 2, 0, 0⟩),
        (⟨⟨2⟩, [⟨2, none, 0, 0⟩]⟩, .reserve ⟨2, none, 0, 0⟩), (⟨⟨2⟩, []⟩, .check 2)]
      ⟨⟨2⟩, []⟩ :=
    .step (.step (.step (.step (.step (.step (.step (.initial rfl)
      (.check _ 2 (by decide) (by decide))) (.reserve _ ⟨2, none, 0, 0⟩ (by decide) (by decide)))
      (.submit _ ⟨2, some 2, 0, 0⟩ (by decide) (by decide) (by decide)))
      (.submit _ ⟨2, some 2, 1, 0⟩ (by decide) (by decide) (by decide)))
      (.finish _ ⟨2, some 2, 2, 0⟩ (by decide) (by decide)))
      (.finish _ ⟨2, some 2, 2, 1⟩ (by decide) (by decide)))
      (.release _ ⟨2, some 2, 2, 2⟩ 2 (by decide) (by decide) (by decide))
  exact (stages_have_cores (by decide) hrun (by decide)).1

/-- Two cores and two pipelines of two stages that both see two cores available: the second is
granted one core and submits both its stages, so four stage tasks share two workers. -/
theorem stages_have_cores_racing_fails :
    ∃ past state, (dispatcherSystem 2).Run past state ∧ ¬ StagesHaveCores 2 state ∧
      2 < (state.stageTasks : Int) := by
  refine ⟨_, ⟨⟨-1⟩, [⟨2, some 2, 2, 0⟩, ⟨2, some 1, 2, 0⟩]⟩,
    .step (.step (.step (.step (.step (.step (.step (.step (.initial rfl)
      (.check _ 2 (by decide) (by decide))) (.check _ 2 (by decide) (by decide)))
      (.reserve _ ⟨2, none, 0, 0⟩ (by decide) (by decide)))
      (.reserve _ ⟨2, none, 0, 0⟩ (by decide) (by decide)))
      (.submit _ ⟨2, some 1, 0, 0⟩ (by decide) (by decide) (by decide)))
      (.submit _ ⟨2, some 1, 1, 0⟩ (by decide) (by decide) (by decide)))
      (.submit _ ⟨2, some 2, 0, 0⟩ (by decide) (by decide) (by decide)))
      (.submit _ ⟨2, some 2, 1, 0⟩ (by decide) (by decide) (by decide)), ?_, by decide⟩
  intro hcores
  exact absurd hcores.2 (by decide)

end Gino.Runtime
