import Gino.Runtime.DoallCores
import Gino.Runtime.DoallProgress
import Mathlib.Logic.Relation

/-!
# The DOALL dispatcher on its thread pool

The thread pool has as many workers as there are cores. A task that waits in its queue starts when
a worker is free, whichever of the tasks that is, and stays on the worker until it has finished. A
call of a loop body may call the dispatcher in turn and waits then for the dispatch that it called,
so it ends when all of them have returned. In a run whose reservations find no negative idle count a
dispatch that has not returned can move, or a dispatch called in it can (`dispatch_returns`).
-/

namespace Gino.Runtime

open Machine Relation

variable {Loop Env : Type*}

/-- A call of a loop body: that of a task, or for the last core that of the dispatch itself. -/
structure CallSite where
  dispatch : Nat
  coreID : Nat
  deriving DecidableEq

/-- The dispatches, and where each of them is called: in a call of a loop body, or outside of all
dispatches. -/
structure PoolState (Loop Env : Type*) where
  doall : DoallState Loop Env
  caller : Nat → Option CallSite

/-- The task has been started and has not finished. -/
def TaskPoint.OnWorker : TaskPoint Loop Env → Prop
  | .running _ | .called => True
  | _ => False

namespace DoallState

variable (state : DoallState Loop Env)

/-- The call of the loop body is being made. -/
def InCall (site : CallSite) : Prop :=
  (∃ call, state.tasks site.dispatch site.coreID = .running call) ∨
    ∃ dispatch, state.dispatches site.dispatch = some dispatch ∧ dispatch.point = .ownCall ∧
      site.coreID = dispatch.cores

/-- Not all of the workers have a task. -/
def HasFreeWorker (workers : Int) : Prop :=
  ∀ busy : Finset (Nat × Nat), (∀ task ∈ busy, (state.tasks task.1 task.2).OnWorker) →
    busy.card < workers

end DoallState

namespace PoolState

variable (state : PoolState Loop Env)

/-- One dispatch is called in a call of the loop body of the other. -/
def CalledIn (id other : Nat) : Prop :=
  ∃ coreID, state.caller id = some ⟨other, coreID⟩

/-- The dispatches that are called in a call of a loop body have returned. -/
def NestedReturned (site : CallSite) : Prop :=
  ∀ id dispatch, state.caller id = some site → state.doall.dispatches id = some dispatch →
    dispatch.point = .returned

end PoolState

/-- The steps of the dispatches and of their tasks on the thread pool. -/
structure PoolStep (maxCores : BitVec 32) (state : PoolState Loop Env) (id : Nat)
    (next : PoolState Loop Env) : Prop where
  step : DoallStep state.doall id next.doall
  /-- A dispatch is called where no other dispatch is waited for. -/
  called : state.doall.dispatches id = none →
    (∀ site, next.caller id = some site →
      state.doall.InCall site ∧ state.NestedReturned site) ∧
    ∀ other ≠ id, next.caller other = state.caller other
  kept : state.doall.dispatches id ≠ none → next.caller = state.caller
  /-- A task starts on a free worker. -/
  worker : ∀ coreID, state.doall.tasks id coreID = .queued →
    next.doall.tasks id coreID ≠ .queued → state.doall.HasFreeWorker maxCores.toInt
  /-- A call of a loop body ends after the dispatches that it calls. -/
  nested : ∀ coreID, state.doall.InCall ⟨id, coreID⟩ → ¬ next.doall.InCall ⟨id, coreID⟩ →
    state.NestedReturned ⟨id, coreID⟩

/-- Any number of dispatches on a thread pool, called by the program or by each other. -/
def poolSystem (maxCores : BitVec 32) : System (PoolState Loop Env) Nat where
  Initial state := (doallSystem maxCores).Initial state.doall ∧ state.caller = fun _ => none
  Step := PoolStep maxCores

variable {maxCores : BitVec 32} {state next : PoolState Loop Env} {id : Nat}
  {dispatch : DoallDispatch Loop Env}

/-! ## The dispatches of a run on the thread pool -/

/-- A run on the thread pool is a run of the dispatcher. -/
theorem pool_refines_doall {past : List (PoolState Loop Env × Nat)}
    (h : (poolSystem maxCores).Run past state) :
    (doallSystem maxCores).Run (past.map fun entry => (entry.1.doall, entry.2)) state.doall := by
  induction h with
  | initial hinitial => exact .initial hinitial.1
  | step _ hstep ih => exact ih.step hstep.step

/-- A number for each dispatch, larger than that of the dispatch that it is called in. -/
structure CallOrder (state : PoolState Loop Env) (order : Nat → Nat) (bound : Nat) : Prop where
  lt : ∀ id, state.doall.dispatches id ≠ none → order id < bound
  caller : ∀ id site, state.doall.dispatches id ≠ none → state.caller id = some site →
    state.doall.dispatches site.dispatch ≠ none ∧ order site.dispatch < order id

/-- A call of a loop body is made by a dispatch or for it. -/
theorem DoallInv.dispatched_of_in_call {state : DoallState Loop Env} (h : DoallInv state)
    {site : CallSite} (hcall : state.InCall site) : state.dispatches site.dispatch ≠ none := by
  intro hnone
  rcases hcall with ⟨call, htask⟩ | ⟨dispatch, hid, -⟩
  · rw [(h.idle _ hnone).1] at htask
    cases htask
  · rw [hnone] at hid
    cases hid

/-- A step makes no other dispatch than its own. -/
theorem dispatched_step {state next : DoallState Loop Env} (hstep : DoallStep state id next)
    {other : Nat} (hne : other ≠ id ∨ state.dispatches id ≠ none) :
    next.dispatches other ≠ none ↔ state.dispatches other ≠ none := by
  by_cases hsame : other = id
  · subst hsame
    obtain ⟨dispatch, hid⟩ := Option.ne_none_iff_exists'.mp (hne.resolve_left (not_not.mpr rfl))
    obtain ⟨kept, hnext, -⟩ := dispatch_kept hid hstep
    simp [hid, hnext]
  · rw [dispatches_other hstep hsame]

/-- The dispatches are numbered in the order in which they are called. -/
theorem exists_call_order (h : (poolSystem maxCores).Reachable state) :
    ∃ order bound, CallOrder state order bound := by
  have hboth : DoallInv state.doall ∧ ∃ order bound, CallOrder state order bound := by
    refine h.invariant (fun state => DoallInv state.doall ∧ ∃ order bound,
      CallOrder state order bound) ?_ ?_
    · intro first hfirst
      refine ⟨doall_invariant (.initial hfirst.1), fun _ => 0, 0, ?_, ?_⟩ <;>
        simp [hfirst.1.2.2.1]
    · intro before id after ⟨hinv, order, bound, horder⟩ hstep
      refine ⟨hinv.step hstep.step, ?_⟩
      by_cases hnew : before.doall.dispatches id = none
      · obtain ⟨hsite, hothers⟩ := hstep.called hnew
        refine ⟨Function.update order id bound, bound + 1, fun other hother => ?_,
          fun other site hother hcaller => ?_⟩
        · by_cases hsame : other = id
          · subst hsame
            simp
          · rw [Function.update_of_ne hsame]
            have hlt := horder.lt other
              ((dispatched_step hstep.step (.inl hsame)).mp hother)
            omega
        · -- The dispatch of the call has been made before.
          have hbefore : before.doall.dispatches site.dispatch ≠ none ∧
              order site.dispatch < Function.update order id bound other := by
            by_cases hsame : other = id
            · subst hsame
              have hdispatched := hinv.dispatched_of_in_call (hsite site hcaller).1
              rw [Function.update_self]
              exact ⟨hdispatched, horder.lt _ hdispatched⟩
            · rw [hothers other hsame] at hcaller
              rw [Function.update_of_ne hsame]
              exact horder.caller other site
                ((dispatched_step hstep.step (.inl hsame)).mp hother) hcaller
          have hne : site.dispatch ≠ id := fun heq => hbefore.1 (heq ▸ hnew)
          rw [Function.update_of_ne hne]
          exact ⟨(dispatched_step hstep.step (.inl hne)).mpr hbefore.1, hbefore.2⟩
      · refine ⟨order, bound, fun other hother => ?_, fun other site hother hcaller => ?_⟩
        · exact horder.lt other ((dispatched_step hstep.step (.inr hnew)).mp hother)
        · rw [hstep.kept hnew] at hcaller
          rw [dispatched_step hstep.step (.inr hnew)] at hother ⊢
          exact horder.caller other site hother hcaller
  exact hboth.2

/-! ## No dispatch gets stuck -/

/-- A dispatch is called outside of all dispatches, or in a call of a loop body that waits for no
other one. -/
theorem pool_step_of_new (hinv : DoallInv state.doall) (hnew : state.doall.dispatches id = none)
    {doall : DoallState Loop Env} (hstep : DoallStep state.doall id doall) (site : Option CallSite)
    (hsite : ∀ called, site = some called →
      state.doall.InCall called ∧ state.NestedReturned called) :
    PoolStep maxCores state id ⟨doall, Function.update state.caller id site⟩ where
  step := hstep
  called _ := by
    refine ⟨fun called hcalled => hsite called ?_, fun other hne => Function.update_of_ne hne ..⟩
    dsimp only at hcalled
    rwa [Function.update_self] at hcalled
  kept hdispatched := absurd hnew hdispatched
  worker coreID hqueued := by
    rw [(hinv.idle id hnew).1] at hqueued
    cases hqueued
  nested coreID hcall := absurd hnew (hinv.dispatched_of_in_call hcall)

/-- A step of a dispatch that has been made. -/
theorem pool_step_of_dispatched (hid : state.doall.dispatches id = some dispatch)
    {doall : DoallState Loop Env} (hstep : DoallStep state.doall id doall)
    (hworker : ∀ coreID, state.doall.tasks id coreID = .queued →
      doall.tasks id coreID ≠ .queued → state.doall.HasFreeWorker maxCores.toInt)
    (hnested : ∀ coreID, state.doall.InCall ⟨id, coreID⟩ → ¬ doall.InCall ⟨id, coreID⟩ →
      state.NestedReturned ⟨id, coreID⟩) :
    PoolStep maxCores state id ⟨doall, state.caller⟩ where
  step := hstep
  called hnone := by
    rw [hid] at hnone
    cases hnone
  kept _ := rfl
  worker := hworker
  nested := hnested

/-- A dispatch moves on and leaves its submitted tasks alone. In its own call it does so when the
dispatches called there have returned. -/
theorem pool_step_of_tasks (hid : state.doall.dispatches id = some dispatch)
    {doall : DoallState Loop Env} (hstep : DoallStep state.doall id doall)
    (htasks : ∀ coreID, state.doall.tasks id coreID ≠ .notSubmitted →
      doall.tasks id coreID = state.doall.tasks id coreID)
    (hreturned : dispatch.point = .ownCall → state.NestedReturned ⟨id, dispatch.cores⟩) :
    PoolStep maxCores state id ⟨doall, state.caller⟩ := by
  refine pool_step_of_dispatched hid hstep (fun coreID hqueued hmoved => ?_)
    fun coreID hcall hended => ?_
  · rw [htasks coreID (by simp [hqueued])] at hmoved
    exact absurd hqueued hmoved
  · rcases hcall with ⟨call, hrunning⟩ | ⟨same, hsame, hpoint, hcore⟩
    · have hrunning' : state.doall.tasks id coreID = .running call := hrunning
      exact absurd (.inl ⟨call, (htasks coreID (by simp [hrunning'])).trans hrunning'⟩) hended
    · obtain rfl : same = dispatch := Option.some.inj (hsame.symm.trans hid)
      obtain rfl : coreID = same.cores := hcore
      exact hreturned hpoint

/-- A task of a dispatch moves on. It starts on a free worker, and its call ends when the dispatches
called there have returned. -/
theorem pool_step_of_task (hid : state.doall.dispatches id = some dispatch)
    {doall : DoallState Loop Env} (hstep : DoallStep state.doall id doall) {coreID : Nat}
    {task : TaskPoint Loop Env} (hdispatches : doall.dispatches = state.doall.dispatches)
    (htasks : doall.tasks id = Function.update (state.doall.tasks id) coreID task)
    (hworker : state.doall.tasks id coreID = .queued →
      state.doall.HasFreeWorker maxCores.toInt)
    (hreturned : (∃ call, state.doall.tasks id coreID = .running call) →
      state.NestedReturned ⟨id, coreID⟩) :
    PoolStep maxCores state id ⟨doall, state.caller⟩ := by
  refine pool_step_of_dispatched hid hstep (fun other hqueued hmoved => ?_)
    fun other hcall hended => ?_
  · by_cases hsame : other = coreID
    · exact hworker (hsame ▸ hqueued)
    · rw [htasks, Function.update_of_ne hsame] at hmoved
      exact absurd hqueued hmoved
  · rcases hcall with hrunning | hown
    · by_cases hsame : other = coreID
      · subst hsame
        exact hreturned hrunning
      · refine absurd (.inl ?_) hended
        dsimp only
        rw [htasks, Function.update_of_ne hsame]
        exact hrunning
    · refine absurd (.inr ?_) hended
      rw [hdispatches]
      exact hown

/-- A worker is free while a task waits in the queue. -/
theorem has_free_worker_of_queued {state : DoallState Loop Env}
    (hpending : ∀ pending : Finset (Nat × Nat),
      (∀ task ∈ pending, state.tasks task.1 task.2 ≠ .notSubmitted ∧
        ¬ (state.tasks task.1 task.2).Finished) → pending.card < maxCores.toInt)
    {coreID : Nat} (hqueued : state.tasks id coreID = .queued) :
    state.HasFreeWorker maxCores.toInt := by
  intro busy hbusy
  have hnew : (id, coreID) ∉ busy := fun hmem => by
    have hworker := hbusy _ hmem
    rw [hqueued] at hworker
    exact hworker
  have hcard := hpending (insert (id, coreID) busy) fun task htask => by
    rcases Finset.mem_insert.mp htask with rfl | hmem
    · rw [hqueued]
      exact ⟨by simp, fun hfinished => hfinished⟩
    · have hworker := hbusy task hmem
      cases hcase : state.tasks task.1 task.2 <;> simp_all [TaskPoint.OnWorker, TaskPoint.Finished]
  rw [Finset.card_insert_of_notMem hnew] at hcard
  push_cast at hcard
  omega

/-- A dispatch that has not returned can move, or one that is called in it can. -/
theorem CallOrder.can_step {order : Nat → Nat} {bound : Nat} (h : CallOrder state order bound)
    (hinv : DoallInv state.doall)
    (hpending : ∀ pending : Finset (Nat × Nat),
      (∀ task ∈ pending, state.doall.tasks task.1 task.2 ≠ .notSubmitted ∧
        ¬ (state.doall.tasks task.1 task.2).Finished) → pending.card < maxCores.toInt)
    (hid : state.doall.dispatches id = some dispatch) (hrunning : dispatch.point ≠ .returned) :
    ∃ other, ReflTransGen state.CalledIn other id ∧ state.doall.dispatches other ≠ none ∧
      ∃ next, PoolStep maxCores state other next := by
  -- A dispatch called in it has a larger number, and there are no numbers from the bound on.
  induction hleft : bound - order id using Nat.strong_induction_on generalizing id dispatch with
  | _ left ih =>
  have hsome : state.doall.dispatches id ≠ none := by simp [hid]
  have hnested : ∀ coreID, state.NestedReturned ⟨id, coreID⟩ ∨
      ∃ other, ReflTransGen state.CalledIn other id ∧ state.doall.dispatches other ≠ none ∧
        ∃ next, PoolStep maxCores state other next := by
    intro coreID
    by_cases hreturned : state.NestedReturned ⟨id, coreID⟩
    · exact .inl hreturned
    · unfold PoolState.NestedReturned at hreturned
      push Not at hreturned
      obtain ⟨other, called, hcaller, hother, hwaiting⟩ := hreturned
      have hdispatched : state.doall.dispatches other ≠ none := by simp [hother]
      have hlater : order id < order other := (h.caller other _ hdispatched hcaller).2
      have hbound := h.lt other hdispatched
      obtain ⟨mover, hfamily, hmover⟩ := ih (bound - order other) (by omega) hother hwaiting rfl
      exact .inr ⟨mover, hfamily.tail ⟨coreID, hcaller⟩, hmover⟩
  by_cases hown : dispatch.point = .ownCall
  · rcases hnested dispatch.cores with hreturned | hmover
    · exact ⟨id, .refl, hsome, _, pool_step_of_tasks hid
        (.ownCall state.doall id dispatch hid hown) (fun _ _ => rfl) fun _ => hreturned⟩
    · exact hmover
  rcases (hinv.dispatches id dispatch hid).moves_or_waits hid hrunning hown with
    ⟨i, hi, hjoin, hsubmitted, hunfinished⟩ | ⟨doall, hstep, htasks⟩
  · cases htask : state.doall.tasks id i with
    | notSubmitted => exact absurd htask hsubmitted
    | queued =>
        exact ⟨id, .refl, hsome, _, pool_step_of_task hid
          (.start state.doall id i dispatch hid htask) rfl (Function.update_self ..)
          (has_free_worker_of_queued hpending) fun ⟨call, hcall⟩ => by simp [htask] at hcall⟩
    | running call =>
        rcases hnested i with hreturned | hmover
        · exact ⟨id, .refl, hsome, _, pool_step_of_task hid (.call state.doall id i call htask) rfl
            (Function.update_self ..) (fun hqueued => by simp [htask] at hqueued)
            fun _ => hreturned⟩
        · exact hmover
    | called =>
        exact ⟨id, .refl, hsome, _, pool_step_of_task hid
          (.unlock state.doall id i dispatch hid htask) rfl (Function.update_self ..)
          (fun hqueued => by simp [htask] at hqueued) fun ⟨call, hcall⟩ => by simp [htask] at hcall⟩
    | finished => exact absurd (by rw [htask]; trivial) hunfinished
  · exact ⟨id, .refl, hsome, _, pool_step_of_tasks hid hstep htasks fun heq => absurd heq hown⟩

/-- In a run whose reservations find no negative idle count, a dispatch that has not returned can
move, one of its tasks can, or a dispatch that is called in it can, and a dispatch and its tasks
make at most seven steps for each helper core and eight more. -/
theorem dispatch_returns (hcores : 0 < maxCores.toInt) {past : List (PoolState Loop Env × Nat)}
    (h : (poolSystem maxCores).Run past state)
    (hprovident : ∀ entry ∈ past, Provident entry.1.doall entry.2)
    (hid : state.doall.dispatches id = some dispatch) :
    (dispatch.point ≠ .returned → ∃ other, ReflTransGen state.CalledIn other id ∧
      state.doall.dispatches other ≠ none ∧ ∃ next, PoolStep maxCores state other next) ∧
      System.occurrences past id ≤ 7 * dispatch.cores + 8 := by
  have hrun := pool_refines_doall h
  have hinv := doall_invariant hrun.reachable
  constructor
  · obtain ⟨order, bound, horder⟩ := exists_call_order h.reachable
    obtain ⟨holding, accounting, hreach, haccount, hlaw⟩ :=
      cores_law_of_provident hcores hrun (List.forall_mem_map.mpr hprovident)
    refine horder.can_step hinv (fun pending hpending => ?_) hid
    have hcard := haccount.pending_le hinv pending hpending
    have hhelpers := hlaw.helpers
    omega
  · have hsteps :=
      (occurrences_le_made hrun id).trans ((hinv.dispatches id dispatch hid).made_le hid)
    unfold System.occurrences at hsteps ⊢
    rw [List.countP_map] at hsteps
    exact hsteps

/-- A dispatch on one of two cores that has called another dispatch in its own call of the loop
body. -/
theorem nested_dispatch_run : ∃ past, ∃ state : PoolState Unit Unit, ∃ dispatch,
    (poolSystem 2).Run past state ∧ (∀ entry ∈ past, Provident entry.1.doall entry.2) ∧
      state.caller 1 = some ⟨0, 0⟩ ∧ state.doall.dispatches 0 = some dispatch ∧
      dispatch.point = .ownCall ∧ dispatch.cores = 0 := by
  have hinitial : (poolSystem 2).Run [] (⟨⟨.init 2, 0,
      fun _ => ⟨fun _ => ⟨⟨(), (), 0, 0, 0⟩, none⟩, 0, false⟩, fun _ => none,
      fun _ _ => .notSubmitted, fun _ => []⟩, fun _ => none⟩ : PoolState Unit Unit) :=
    .initial ⟨⟨rfl, rfl, rfl, rfl, rfl⟩, rfl⟩
  have hinv : ∀ {past : List (PoolState Unit Unit × Nat)} {state : PoolState Unit Unit},
      (poolSystem 2).Run past state → DoallInv state.doall := fun hrun =>
    doall_invariant (pool_refines_doall hrun).reachable
  have hreserve := hinitial.step (pool_step_of_new (hinv hinitial) rfl
    (.reserve _ 0 () () 1 1 rfl) none (by simp))
  have hblock := hreserve.step (pool_step_of_tasks rfl (.allocateBlock _ 0 _ rfl rfl rfl)
    (fun _ _ => rfl) fun hown => by cases hown)
  have hargs := hblock.step (pool_step_of_tasks rfl (.gotArgs _ 0 _ rfl rfl)
    (fun _ _ => rfl) fun hown => by cases hown)
  have hsubmitted := hargs.step (pool_step_of_tasks rfl (.submitted _ 0 _ rfl rfl)
    (fun _ _ => rfl) fun hown => by cases hown)
  have hnested := hsubmitted.step (pool_step_of_new (hinv hsubmitted) rfl
    (.reserve _ 1 () () 1 1 rfl) (some ⟨0, 0⟩) fun called hcalled => by
      obtain rfl := Option.some.inj hcalled
      exact ⟨.inr ⟨_, rfl, rfl, rfl⟩, fun other _ hcaller => by
        simp [Function.update_apply] at hcaller⟩)
  refine ⟨_, _, _, hnested, ?_, rfl, rfl, rfl, rfl⟩
  -- The first step and the last one are reservations.
  have hknown : ∀ (state : DoallState Unit Unit) dispatch,
      state.dispatches 0 = some dispatch → Provident state 0 :=
    fun state dispatch hid hnone => by simp [hid] at hnone
  exact List.forall_mem_cons.mpr ⟨fun _ => by decide,
    List.forall_mem_cons.mpr ⟨hknown _ _ rfl, List.forall_mem_cons.mpr ⟨hknown _ _ rfl,
      List.forall_mem_cons.mpr ⟨hknown _ _ rfl, List.forall_mem_cons.mpr ⟨fun _ => by decide,
        by simp⟩⟩⟩⟩⟩

/-- The dispatch or the one that it waits for can move. -/
theorem nested_dispatch_returns :
    ∃ past, ∃ state : PoolState Unit Unit, (poolSystem 2).Run past state ∧ state.CalledIn 1 0 ∧
      (∃ other, ReflTransGen state.CalledIn other 0 ∧ ∃ next, PoolStep 2 state other next) ∧
      System.occurrences past 0 ≤ 8 := by
  obtain ⟨past, state, dispatch, hrun, hprovident, hcaller, hid, hpoint, hcores⟩ :=
    nested_dispatch_run
  obtain ⟨hmoves, hbound⟩ := dispatch_returns (by decide) hrun hprovident hid
  obtain ⟨other, hfamily, -, hstep⟩ := hmoves (by simp [hpoint])
  rw [hcores] at hbound
  exact ⟨past, state, hrun, ⟨0, hcaller⟩, ⟨other, hfamily, hstep⟩, hbound⟩

end Gino.Runtime
