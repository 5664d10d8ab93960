import Gino.Runtime.DoallFrame
import Gino.Runtime.DoallJoin
import Mathlib.Algebra.BigOperators.Group.Finset.Basic
import Mathlib.Algebra.Order.BigOperators.Group.Finset
import Mathlib.Tactic.Ring

/-!
# The cores and the workers of the DOALL dispatcher

Every dispatch gives back the cores it was granted, so the steps of the dispatcher are calls of
`reserveCores` and matching calls of `releaseCores`: `doall_refines_cores`. What follows is that the
idle count is the number of cores less the grants still held (`idle_cores_balance`), modulo the
width of the counter, and that in a run whose reservations find no negative idle count the submitted
tasks that have not finished leave a worker of the thread pool free (`tasks_have_workers`).
-/

namespace Gino.Runtime

open Machine

variable {Loop Env : Type*}

/-- The dispatch has cores to give back. -/
def DispatchPoint.HoldsCores : DispatchPoint → Prop
  | .releaseArgs | .returned => False
  | _ => True

/-- The cores a dispatch was granted. -/
def DoallState.grant (state : DoallState Loop Env) (id : Nat) : BitVec 32 :=
  ((state.dispatches id).map DoallDispatch.numCores).getD 0

/-- The dispatches that have cores to give back, and the calls of the runtime they stand for. -/
structure CoreAccount (state : DoallState Loop Env) (holding : List Nat)
    (accounting : Accounting) : Prop where
  nodup : holding.Nodup
  mem : ∀ id, id ∈ holding ↔
    ∃ dispatch, state.dispatches id = some dispatch ∧ dispatch.point.HoldsCores
  runtime : accounting.runtime = state.runtime
  outstanding : accounting.outstanding.Perm (holding.map state.grant)

/-- A step that reserves cores finds the idle count nonnegative. -/
def Provident (state : DoallState Loop Env) (id : Nat) : Prop :=
  state.dispatches id = none → 0 ≤ state.runtime.idleCores.toInt

variable {state next : DoallState Loop Env} {id : Nat} {dispatch : DoallDispatch Loop Env}
  {holding : List Nat} {accounting : Accounting} {maxCores : BitVec 32}

/-! ## The dispatcher as calls of the runtime -/

/-- A request for no core is granted one core, as a request for one is. -/
theorem reserve_cores_zero (runtime : NoelleRuntime) :
    runtime.reserveCores 0 = runtime.reserveCores 1 := by
  have hgrant : (runtime.reserveCores 0).1 = (runtime.reserveCores 1).1 := by
    refine BitVec.eq_of_toNat_eq ?_
    rw [reserve_cores_to_nat, reserve_cores_to_nat]
    show max 1 (min 0 runtime.idleCores.toNat) = max 1 (min 1 runtime.idleCores.toNat)
    omega
  refine Prod.ext hgrant ?_
  show NoelleRuntime.mk (runtime.idleCores - (runtime.reserveCores 0).1) =
    ⟨runtime.idleCores - (runtime.reserveCores 1).1⟩
  rw [hgrant]

/-- Only the dispatches that hold cores and what they hold matter. -/
theorem CoreAccount.congr (h : CoreAccount state holding accounting)
    (hruntime : next.runtime = state.runtime)
    (hholds : ∀ id, (∃ dispatch, next.dispatches id = some dispatch ∧ dispatch.point.HoldsCores) ↔
      ∃ dispatch, state.dispatches id = some dispatch ∧ dispatch.point.HoldsCores)
    (hgrant : ∀ id, next.grant id = state.grant id) : CoreAccount next holding accounting where
  nodup := h.nodup
  mem id := (h.mem id).trans (hholds id).symm
  runtime := h.runtime.trans hruntime.symm
  outstanding := by
    have hsame : next.grant = state.grant := funext hgrant
    rw [hsame]
    exact h.outstanding

/-- A dispatch that moves on and neither reserves nor releases cores. -/
theorem CoreAccount.moved (h : CoreAccount state holding accounting)
    (hid : state.dispatches id = some dispatch) {moved : DoallDispatch Loop Env}
    (hnext : next.dispatches = Function.update state.dispatches id (some moved))
    (hcores : moved.numCores = dispatch.numCores)
    (hholds : moved.point.HoldsCores ↔ dispatch.point.HoldsCores)
    (hruntime : next.runtime = state.runtime) : CoreAccount next holding accounting := by
  refine h.congr hruntime (fun other => ?_) fun other => ?_
  · by_cases hsame : other = id
    · subst hsame
      simp [hnext, hid, hholds]
    · simp [hnext, hsame]
  · by_cases hsame : other = id
    · subst hsame
      simp [DoallState.grant, hnext, hid, hcores]
    · simp [DoallState.grant, hnext, hsame]

/-- The dispatches that do not move keep their grants. -/
theorem grant_map_other {dispatch : DoallDispatch Loop Env}
    (hnext : next.dispatches = Function.update state.dispatches id (some dispatch))
    {others : List Nat} (hothers : id ∉ others) :
    others.map next.grant = others.map state.grant := by
  refine List.map_congr_left fun other hother => ?_
  have hne : other ≠ id := fun heq => hothers (heq ▸ hother)
  simp [DoallState.grant, hnext, hne]

/-- A reservation is held by the dispatch that makes it. -/
theorem CoreAccount.reserve (h : CoreAccount state holding accounting)
    (hnew : state.dispatches id = none) (coresRequested : BitVec 32)
    (hnext : next.dispatches = Function.update state.dispatches id (some dispatch))
    (hcores : dispatch.numCores = (state.runtime.reserveCores coresRequested).1)
    (hholds : dispatch.point.HoldsCores)
    (hruntime : next.runtime = (state.runtime.reserveCores coresRequested).2) :
    CoreAccount next (id :: holding)
      ⟨(accounting.runtime.reserveCores coresRequested).2,
        (accounting.runtime.reserveCores coresRequested).1 :: accounting.outstanding⟩ := by
  have hfresh : id ∉ holding := by
    rw [h.mem]
    simp [hnew]
  constructor
  · exact List.nodup_cons.mpr ⟨hfresh, h.nodup⟩
  · intro other
    by_cases hsame : other = id
    · subst hsame
      simp [hnext, hholds]
    · simpa [hnext, hsame] using h.mem other
  · rw [hruntime, h.runtime]
  · rw [List.map_cons, grant_map_other hnext hfresh, h.runtime, ← hcores]
    have hgrant : next.grant id = dispatch.numCores := by simp [DoallState.grant, hnext]
    rw [hgrant]
    exact h.outstanding.cons _

/-- The grant of a dispatch that holds cores is outstanding, beside those of the others. -/
theorem CoreAccount.split (h : CoreAccount state holding accounting)
    (hid : state.dispatches id = some dispatch) (hholds : dispatch.point.HoldsCores) :
    accounting.outstanding.Perm
      (dispatch.numCores :: (holding.erase id).map state.grant) := by
  have hmem : id ∈ holding := (h.mem id).mpr ⟨dispatch, hid, hholds⟩
  have hgrant : state.grant id = dispatch.numCores := by simp [DoallState.grant, hid]
  rw [← hgrant, ← List.map_cons]
  exact h.outstanding.trans ((List.perm_cons_erase hmem).map _)

/-- A release gives back what its dispatch was granted. -/
theorem CoreAccount.release (h : CoreAccount state holding accounting)
    (hid : state.dispatches id = some dispatch) (hholds : dispatch.point.HoldsCores)
    {moved : DoallDispatch Loop Env}
    (hnext : next.dispatches = Function.update state.dispatches id (some moved))
    (hreleased : ¬ moved.point.HoldsCores)
    (hruntime : next.runtime = state.runtime.releaseCores dispatch.numCores) :
    CoreAccount next (holding.erase id)
      ⟨accounting.runtime.releaseCores dispatch.numCores,
        accounting.outstanding.erase dispatch.numCores⟩ := by
  refine ⟨h.nodup.erase id, fun other => ?_, ?_, ?_⟩
  · rw [h.nodup.mem_erase_iff, h.mem]
    by_cases hsame : other = id
    · subst hsame
      simp [hnext, hreleased]
    · simp [hnext, hsame]
  · rw [hruntime, h.runtime]
  · rw [grant_map_other hnext h.nodup.not_mem_erase]
    simpa using (h.split hid hholds).erase dispatch.numCores

/-- Every step of the dispatcher is one call of the runtime or none. A reservation that finds the
idle count nonnegative is accountable. -/
theorem CoreAccount.step (h : CoreAccount state holding accounting)
    (hstep : DoallStep state id next) :
    ∃ holding' accounting', CoreAccount next holding' accounting' ∧
      (accounting' = accounting ∨ ∃ event, CoreStep accounting event accounting' ∧
        (Provident state id → Accountable accounting event)) := by
  cases hstep with
  | reserve parallelizedLoop env maxNumberOfCores chunkSize hnew =>
      have hrequest : ∃ coresRequested, 1 ≤ coresRequested ∧
          state.runtime.reserveCores maxNumberOfCores =
            state.runtime.reserveCores coresRequested := by
        by_cases hzero : maxNumberOfCores = 0
        · subst hzero
          exact ⟨1, by decide, reserve_cores_zero _⟩
        · have hpos : maxNumberOfCores.toNat ≠ 0 := fun heq => hzero (BitVec.eq_of_toNat_eq heq)
          exact ⟨maxNumberOfCores, by
            simpa [BitVec.le_def] using Nat.one_le_iff_ne_zero.mpr hpos, rfl⟩
      obtain ⟨coresRequested, hpos, hsame⟩ := hrequest
      refine ⟨_, _, h.reserve hnew coresRequested rfl (by rw [hsame]) trivial (by rw [hsame]),
        .inr ⟨.reserve coresRequested, .reserve accounting coresRequested hpos, fun hidle => ?_⟩⟩
      have hnonneg := hidle hnew
      rw [← h.runtime] at hnonneg
      exact ⟨.inl hnonneg, by omega⟩
  | releaseCores dispatch hid hpoint =>
      have hholds : dispatch.point.HoldsCores := by simp [hpoint, DispatchPoint.HoldsCores]
      have hgrant := (h.split hid hholds).mem_iff.mpr List.mem_cons_self
      exact ⟨_, _, h.release hid hholds rfl (by simp [DoallDispatch.goto,
        DispatchPoint.HoldsCores]) rfl, .inr ⟨_, .release accounting _ hgrant, fun _ => trivial⟩⟩
  | reuseBlock _ dispatch hid hpoint | allocateBlock dispatch hid hpoint
  | initArgs _ dispatch hid hpoint | gotArgs dispatch hid hpoint | prepare _ dispatch hid hpoint
  | submit _ dispatch hid hpoint | submitted dispatch hid hpoint | ownCall dispatch hid hpoint
  | join _ dispatch hid hpoint | joined dispatch hid hpoint | releaseArgs dispatch hid hpoint =>
      exact ⟨holding, accounting, h.moved hid rfl rfl
        (by simp [hpoint, DoallDispatch.goto, DispatchPoint.HoldsCores]) rfl, .inl rfl⟩
  | start _ dispatch hid | call | unlock _ dispatch hid =>
      exact ⟨holding, accounting, h.congr rfl (fun _ => Iff.rfl) fun _ => rfl, .inl rfl⟩

/-- No dispatch holds cores at first. -/
theorem core_account_initial (h : (doallSystem maxCores).Initial state) :
    CoreAccount state [] ⟨.init maxCores, []⟩ := by
  obtain ⟨hruntime, -, hdispatches, -⟩ := h
  exact ⟨List.nodup_nil, fun id => by simp [hdispatches], hruntime.symm, .nil⟩

/-- The dispatcher refines the accounting of the runtime: what the dispatches did to it is a run of
reservations and matching releases, and what is outstanding are the grants of the dispatches that
have not released their cores. -/
theorem doall_refines_cores (h : (doallSystem maxCores).Reachable state) :
    ∃ holding accounting, (coreSystem maxCores).Reachable accounting ∧
      CoreAccount state holding accounting := by
  induction h with
  | initial hinitial => exact ⟨_, _, .initial rfl, core_account_initial hinitial⟩
  | step _ hstep ih =>
      obtain ⟨holding, accounting, hreach, haccount⟩ := ih
      obtain ⟨holding', accounting', hnext, rfl | ⟨event, hcall, -⟩⟩ := haccount.step hstep
      · exact ⟨_, _, hreach, hnext⟩
      · exact ⟨_, _, .step hreach hcall, hnext⟩

/-! ## The idle count -/

/-- The idle count is the number of cores less the outstanding grants, modulo its width. -/
theorem idle_cores_eq (h : (coreSystem maxCores).Reachable accounting) :
    accounting.runtime.idleCores = maxCores - accounting.outstanding.sum := by
  refine h.invariant (fun accounting =>
    accounting.runtime.idleCores = maxCores - accounting.outstanding.sum) ?_ ?_
  · intro accounting hstart
    obtain rfl := hstart
    simp [NoelleRuntime.init]
  · intro accounting event next hidle hstep
    cases hstep with
    | reserve coresRequested hrequest =>
        show accounting.runtime.idleCores - (accounting.runtime.reserveCores coresRequested).1 = _
        rw [hidle, List.sum_cons, BitVec.sub_sub, BitVec.add_comm accounting.outstanding.sum]
    | release grant hgrant =>
        have hsum := List.sum_erase hgrant
        show accounting.runtime.idleCores + grant =
          maxCores - (accounting.outstanding.erase grant).sum
        rw [hidle, ← hsum]
        ring

/-- In every reachable state the idle count is the number of cores less the grants of the dispatches
that have not released theirs, modulo the width of the counter; in particular every core is idle
when all of them have. -/
theorem idle_cores_balance (h : (doallSystem maxCores).Reachable state) :
    ∃ holding : List Nat, holding.Nodup ∧
      (∀ id, id ∈ holding ↔
        ∃ dispatch, state.dispatches id = some dispatch ∧ dispatch.point.HoldsCores) ∧
      state.runtime.idleCores = maxCores - (holding.map state.grant).sum := by
  obtain ⟨holding, accounting, hreach, haccount⟩ := doall_refines_cores h
  refine ⟨holding, haccount.nodup, haccount.mem, ?_⟩
  rw [← haccount.runtime, idle_cores_eq hreach, haccount.outstanding.sum_eq]

/-- A dispatch on four cores that has just reserved three of them. -/
theorem reserved_idle_cores :
    ∃ state : DoallState Unit Unit, (doallSystem 4).Reachable state ∧
      state.runtime.idleCores = 1 ∧ ∃ holding : List Nat,
        (∀ id, id ∈ holding ↔
          ∃ dispatch, state.dispatches id = some dispatch ∧ dispatch.point.HoldsCores) ∧
        state.runtime.idleCores = 4 - (holding.map state.grant).sum := by
  have hinitial : (doallSystem 4).Reachable (⟨.init 4, 0,
      fun _ => ⟨fun _ => ⟨⟨(), (), 0, 0, 0⟩, none⟩, 0, false⟩, fun _ => none,
      fun _ _ => .notSubmitted, fun _ => []⟩ : DoallState Unit Unit) :=
    .initial ⟨rfl, rfl, rfl, rfl, rfl⟩
  have hreserve := hinitial.step (.reserve _ 0 () () 3 1 rfl)
  obtain ⟨holding, -, hmem, hidle⟩ := idle_cores_balance hreserve
  exact ⟨_, hreserve, by decide, holding, hmem, hidle⟩

/-! ## The workers -/

/-- The law of the accounting holds as long as no reservation finds a negative idle count. -/
theorem cores_law_of_provident (hcores : 0 < maxCores.toInt)
    {past : List (DoallState Loop Env × Nat)} (h : (doallSystem maxCores).Run past state)
    (hprovident : ∀ entry ∈ past, Provident entry.1 entry.2) :
    ∃ holding accounting, (coreSystem maxCores).Reachable accounting ∧
      CoreAccount state holding accounting ∧ CoresLaw maxCores accounting := by
  induction h with
  | initial hinitial =>
      refine ⟨_, _, .initial rfl, core_account_initial hinitial, ?_, ?_⟩
      · simp [NoelleRuntime.init]
      · simp
        omega
  | @step past state event next hrun hstep ih =>
      obtain ⟨holding, accounting, hreach, haccount, hlaw⟩ :=
        ih fun entry hentry => hprovident entry (List.mem_cons_of_mem _ hentry)
      obtain ⟨holding', accounting', hnext, rfl | ⟨call, hcall, hmeets⟩⟩ := haccount.step hstep
      · exact ⟨_, _, hreach, hnext, hlaw⟩
      · have hevent := hmeets (hprovident _ List.mem_cons_self)
        exact ⟨_, _, .step hreach hcall, hnext,
          hlaw.step hcores (outstanding_pos hreach) hevent hcall⟩

/-- A submitted task that has not finished belongs to a dispatch that has not released its cores,
and is one of its helper tasks. -/
theorem pending_task_holds (h : DoallInv state) {i : Nat}
    (hsubmitted : state.tasks id i ≠ .notSubmitted) (hrunning : ¬ (state.tasks id i).Finished) :
    ∃ dispatch, state.dispatches id = some dispatch ∧ dispatch.point.HoldsCores ∧
      i < helperTasks (state.grant id) := by
  cases hid : state.dispatches id with
  | none => exact absurd ((h.idle id hid).1 i) hsubmitted
  | some dispatch =>
      obtain ⟨hi, -, hopen, -⟩ := (h.dispatches id dispatch hid).pending hsubmitted hrunning
      refine ⟨dispatch, rfl, ?_, ?_⟩
      · cases hpoint : dispatch.point <;>
          simp_all [DispatchPoint.HoldsCores, DispatchPoint.Joined]
      · simpa [DoallState.grant, hid, DoallDispatch.cores] using hi

/-- The submitted tasks that have not finished are no more than the helper tasks that the
outstanding grants were made for. -/
theorem CoreAccount.pending_le (h : CoreAccount state holding accounting) (hinv : DoallInv state)
    (pending : Finset (Nat × Nat))
    (hpending : ∀ task ∈ pending, state.tasks task.1 task.2 ≠ .notSubmitted ∧
      ¬ (state.tasks task.1 task.2).Finished) :
    pending.card ≤ (accounting.outstanding.map helperTasks).sum := by
  have hsub : pending ⊆ holding.toFinset.biUnion fun id =>
      (Finset.range (helperTasks (state.grant id))).image (Prod.mk id) := by
    intro task htask
    obtain ⟨hsubmitted, hrunning⟩ := hpending task htask
    obtain ⟨dispatch, hid, hholds, hi⟩ := pending_task_holds hinv hsubmitted hrunning
    have hmem := (h.mem task.1).mpr ⟨dispatch, hid, hholds⟩
    exact Finset.mem_biUnion.mpr ⟨task.1, List.mem_toFinset.mpr hmem,
      Finset.mem_image.mpr ⟨task.2, Finset.mem_range.mpr hi, rfl⟩⟩
  calc pending.card
      ≤ ∑ id ∈ holding.toFinset,
          ((Finset.range (helperTasks (state.grant id))).image (Prod.mk id)).card :=
        (Finset.card_le_card hsub).trans Finset.card_biUnion_le
    _ ≤ ∑ id ∈ holding.toFinset, helperTasks (state.grant id) :=
        Finset.sum_le_sum fun id _ => Finset.card_image_le.trans_eq (Finset.card_range _)
    _ = (holding.map fun id => helperTasks (state.grant id)).sum := List.sum_toFinset _ h.nodup
    _ = (accounting.outstanding.map helperTasks).sum := by
        rw [(h.outstanding.map helperTasks).sum_eq, List.map_map]
        rfl

/-- In a run whose reservations find no negative idle count, the submitted tasks that have not
finished leave at least one of the workers of the thread pool free. -/
theorem tasks_have_workers (hcores : 0 < maxCores.toInt)
    {past : List (DoallState Loop Env × Nat)} (h : (doallSystem maxCores).Run past state)
    (hprovident : ∀ entry ∈ past, Provident entry.1 entry.2) (pending : Finset (Nat × Nat))
    (hpending : ∀ task ∈ pending, state.tasks task.1 task.2 ≠ .notSubmitted ∧
      ¬ (state.tasks task.1 task.2).Finished) :
    pending.card < maxCores.toInt := by
  obtain ⟨holding, accounting, hreach, haccount, hlaw⟩ :=
    cores_law_of_provident hcores h hprovident
  have hcard := haccount.pending_le (doall_invariant h.reachable) pending hpending
  have hhelpers := hlaw.helpers
  omega

/-- Two cores and one dispatch whose only helper task waits for a worker. -/
theorem queued_task_has_worker :
    ∃ state : DoallState Unit Unit, (doallSystem 2).Reachable state ∧
      state.tasks 0 0 = .queued ∧
      (({(0, 0)} : Finset (Nat × Nat)).card : Int) < (2 : BitVec 32).toInt := by
  have hinitial : (doallSystem 2).Run [] (⟨.init 2, 0,
      fun _ => ⟨fun _ => ⟨⟨(), (), 0, 0, 0⟩, none⟩, 0, false⟩, fun _ => none,
      fun _ _ => .notSubmitted, fun _ => []⟩ : DoallState Unit Unit) :=
    .initial ⟨rfl, rfl, rfl, rfl, rfl⟩
  have hreserve := hinitial.step (.reserve _ 0 () () 2 1 rfl)
  have hblock := hreserve.step (.allocateBlock _ 0 _ rfl rfl rfl)
  have hinit := hblock.step (.initArgs _ 0 0 _ rfl rfl (by decide))
  have hargs := hinit.step (.gotArgs _ 0 _ rfl rfl)
  have hprepare := hargs.step (.prepare _ 0 0 _ rfl rfl (by decide))
  have hsubmit := hprepare.step (.submit _ 0 0 _ rfl rfl)
  refine ⟨_, hsubmit.reachable, rfl, tasks_have_workers (by decide) hsubmit ?_ {(0, 0)} ?_⟩
  · -- Only the first step is a reservation.
    have hknown : ∀ (state : DoallState Unit Unit) dispatch,
        state.dispatches 0 = some dispatch → Provident state 0 :=
      fun state dispatch hid hnone => by simp [hid] at hnone
    refine List.forall_mem_cons.mpr ⟨hknown _ _ rfl, List.forall_mem_cons.mpr ⟨hknown _ _ rfl,
      List.forall_mem_cons.mpr ⟨hknown _ _ rfl, List.forall_mem_cons.mpr ⟨hknown _ _ rfl,
        List.forall_mem_cons.mpr ⟨hknown _ _ rfl, List.forall_mem_cons.mpr ⟨fun _ => ?_,
          by simp⟩⟩⟩⟩⟩⟩
    decide
  · intro task htask
    obtain rfl := Finset.mem_singleton.mp htask
    exact ⟨fun hnone => (by cases hnone), fun hdone => hdone⟩

end Gino.Runtime
