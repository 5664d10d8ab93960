import Gino.Runtime.DoallFrame
import Gino.Runtime.DoallJoin
import Mathlib.Algebra.BigOperators.Group.Finset.Piecewise
import Mathlib.Algebra.Order.BigOperators.Group.Finset

/-!
# How far a DOALL dispatch is

Between its reservation and its return a dispatch passes each of its points once, and so does each
of its tasks. `made` counts how far they are, and every step makes it larger. A dispatch that has
not returned and is not in its own call of the loop body can move, or it waits for the lock of a
task that has not finished (`DispatchInv.moves_or_waits`).
-/

namespace Gino.Runtime

open Machine

variable {Loop Env : Type*}

/-- The steps a dispatch has behind it at the latest when it comes to a point. -/
def DispatchPoint.made (cores : Nat) : DispatchPoint → Nat
  | .getArgs => 1
  | .initArgs i => i + 2
  | .prepare i => cores + 2 * i + 3
  | .submit i => cores + 2 * i + 4
  | .ownCall => 3 * cores + 4
  | .join i => 3 * cores + i + 5
  | .releaseCores => 4 * cores + 6
  | .releaseArgs => 4 * cores + 7
  | .returned => 4 * cores + 8

/-- The steps a task has behind it. The dispatch makes the submission. -/
def TaskPoint.made : TaskPoint Loop Env → Nat
  | .notSubmitted | .queued => 0
  | .running _ => 1
  | .called => 2
  | .finished => 3

/-- The steps a dispatch and its tasks have behind them. -/
def DoallState.made (state : DoallState Loop Env) (id : Nat) : Nat :=
  match state.dispatches id with
  | none => 0
  | some dispatch => dispatch.point.made dispatch.cores +
      ∑ i ∈ Finset.range dispatch.cores, (state.tasks id i).made

variable {state next : DoallState Loop Env} {id : Nat} {dispatch : DoallDispatch Loop Env}

/-- The steps of a dispatch and of its tasks. -/
theorem made_eq (hid : state.dispatches id = some dispatch) :
    state.made id = dispatch.point.made dispatch.cores +
      ∑ i ∈ Finset.range dispatch.cores, (state.tasks id i).made := by
  simp [DoallState.made, hid]

/-- Another dispatch does not move. -/
theorem made_other {other : Nat} (hdispatches : next.dispatches other = state.dispatches other)
    (htasks : next.tasks other = state.tasks other) : next.made other = state.made other := by
  simp [DoallState.made, hdispatches, htasks]

/-- A dispatch that moves on has more steps behind it. -/
theorem made_moved (hid : state.dispatches id = some dispatch)
    {moved : DoallDispatch Loop Env} (hnext : next.dispatches id = some moved)
    (hcores : moved.cores = dispatch.cores)
    (hpoint : dispatch.point.made dispatch.cores < moved.point.made dispatch.cores)
    (htasks : ∀ i, (next.tasks id i).made = (state.tasks id i).made) :
    state.made id < next.made id := by
  rw [made_eq hid, made_eq hnext, hcores]
  simp only [htasks]
  omega

/-- A task that moves on has more steps behind it. -/
theorem made_task (hid : state.dispatches id = some dispatch) {i : Nat} (hi : i < dispatch.cores)
    {task : TaskPoint Loop Env} (hnext : next.dispatches id = some dispatch)
    (htasks : next.tasks id = Function.update (state.tasks id) i task)
    (htask : (state.tasks id i).made < task.made) : state.made id < next.made id := by
  rw [made_eq hid, made_eq hnext, htasks]
  refine Nat.add_lt_add_left (Finset.sum_lt_sum (fun j _ => ?_)
    ⟨i, Finset.mem_range.mpr hi, by simpa using htask⟩) _
  by_cases hsame : j = i
  · subst hsame
    simpa using htask.le
  · simp [hsame]

/-- Every step of a dispatch or of its tasks puts a step behind them, and leaves the others where
they are. -/
theorem DoallInv.made_step (h : DoallInv state) (hstep : DoallStep state id next) :
    state.made id < next.made id ∧ ∀ other ≠ id, next.made other = state.made other := by
  constructor
  · cases hstep with
    | reserve parallelizedLoop env maxNumberOfCores chunkSize hnew =>
        have hnone : state.made id = 0 := by simp [DoallState.made, hnew]
        rw [hnone, made_eq (Function.update_self ..)]
        exact Nat.lt_of_lt_of_le Nat.one_pos (Nat.le_add_right _ _)
    | reuseBlock block dispatch hid hpoint hfind =>
        refine made_moved hid (Function.update_self ..) rfl ?_ fun _ => rfl
        simp only [hpoint, DispatchPoint.made]
        omega
    | allocateBlock dispatch hid hpoint hfind =>
        refine made_moved hid (Function.update_self ..) rfl ?_ fun _ => rfl
        simp only [hpoint, DispatchPoint.made]
        omega
    | initArgs i dispatch hid hpoint hi =>
        refine made_moved hid (Function.update_self ..) rfl ?_ fun _ => rfl
        simp only [hpoint, DispatchPoint.made, DoallDispatch.goto]
        omega
    | submit i dispatch hid hpoint =>
        have hnone : state.tasks id i = .notSubmitted := by
          refine (h.dispatches id dispatch hid).not_submitted ?_
          simp [hpoint, DispatchPoint.Submitted]
        refine made_moved hid (Function.update_self ..) rfl ?_ fun j => ?_
        · simp only [hpoint, DispatchPoint.made, DoallDispatch.goto]
          omega
        · by_cases hsame : j = i
          · subst hsame
            simp [DoallState.setDispatch, DoallState.setTask, hnone, TaskPoint.made]
          · simp [DoallState.setDispatch, DoallState.setTask, hsame]
    | gotArgs dispatch hid hpoint | prepare i dispatch hid hpoint | submitted dispatch hid hpoint
    | ownCall dispatch hid hpoint | join i dispatch hid hpoint | joined dispatch hid hpoint
    | releaseCores dispatch hid hpoint | releaseArgs dispatch hid hpoint =>
        refine made_moved hid (Function.update_self ..) rfl ?_ fun _ => rfl
        simp only [hpoint, DispatchPoint.made, DoallDispatch.goto]
        omega
    | start i dispatch hid htask =>
        have hi := (((h.dispatches id dispatch hid).tasks i).submitted.mp (by simp [htask])).1
        exact made_task hid hi hid (Function.update_self ..) (by simp [htask, TaskPoint.made])
    | call i call htask =>
        cases hid : state.dispatches id with
        | none => simp [(h.idle id hid).1 i] at htask
        | some dispatch =>
            have hi := (((h.dispatches id dispatch hid).tasks i).submitted.mp (by simp [htask])).1
            exact made_task hid hi hid (Function.update_self ..) (by simp [htask, TaskPoint.made])
    | unlock i dispatch hid htask =>
        have hi := (((h.dispatches id dispatch hid).tasks i).submitted.mp (by simp [htask])).1
        exact made_task hid hi hid (Function.update_self ..) (by simp [htask, TaskPoint.made])
  · intro other hne
    exact made_other (dispatches_other hstep hne) (tasks_other hstep hne)

/-- The steps a dispatch and its tasks have made are behind them. -/
theorem occurrences_le_made {maxCores : BitVec 32} {past : List (DoallState Loop Env × Nat)}
    (h : (doallSystem maxCores).Run past state) (id : Nat) :
    System.occurrences past id ≤ state.made id := by
  induction h with
  | initial => exact Nat.zero_le _
  | @step past state event next hrun hstep ih =>
      obtain ⟨hmore, hothers⟩ := (doall_invariant hrun.reachable).made_step hstep
      rw [System.occurrences_cons]
      by_cases hsame : id = event
      · subst hsame
        rw [Function.update_self]
        omega
      · rw [Function.update_of_ne hsame, hothers id hsame]
        exact ih

/-- A dispatch and its tasks have no more steps than the dispatch at its return and its tasks when
they are finished. -/
theorem DispatchInv.made_le (h : DispatchInv state id dispatch)
    (hid : state.dispatches id = some dispatch) : state.made id ≤ 7 * dispatch.cores + 8 := by
  have hpoint : dispatch.point.made dispatch.cores ≤ 4 * dispatch.cores + 8 := by
    have hbounds := h.bounds
    cases hcase : dispatch.point <;> simp only [hcase, DispatchPoint.InBounds] at hbounds <;>
      simp only [DispatchPoint.made] <;> omega
  have htasks : ∑ i ∈ Finset.range dispatch.cores, (state.tasks id i).made ≤
      dispatch.cores * 3 := by
    refine (Finset.sum_le_card_nsmul _ _ 3 fun i _ => ?_).trans_eq (by simp)
    cases state.tasks id i <;> simp [TaskPoint.made]
  rw [made_eq hid]
  omega

/-- A dispatch that has not returned and is not in its own call of the loop body waits for a task
that has not finished, or can move on and leave its submitted tasks alone. -/
theorem DispatchInv.moves_or_waits (h : DispatchInv state id dispatch)
    (hid : state.dispatches id = some dispatch) (hrunning : dispatch.point ≠ .returned)
    (hown : dispatch.point ≠ .ownCall) :
    (∃ i < dispatch.cores, dispatch.point = .join i ∧ state.tasks id i ≠ .notSubmitted ∧
      ¬ (state.tasks id i).Finished) ∨
    ∃ next, DoallStep state id next ∧ ∀ i, state.tasks id i ≠ .notSubmitted →
      next.tasks id i = state.tasks id i := by
  have hbounds := h.bounds
  cases hpoint : dispatch.point with
  | getArgs =>
      refine .inr ?_
      cases hfind : state.findBlock dispatch.cores with
      | none => exact ⟨_, .allocateBlock state id dispatch hid hpoint hfind, fun _ _ => rfl⟩
      | some block =>
          exact ⟨_, .reuseBlock state id block dispatch hid hpoint hfind, fun _ _ => rfl⟩
  | initArgs i =>
      rw [hpoint] at hbounds
      refine .inr ?_
      rcases Nat.lt_or_eq_of_le hbounds with hi | rfl
      · exact ⟨_, .initArgs state id i dispatch hid hpoint hi, fun _ _ => rfl⟩
      · exact ⟨_, .gotArgs state id dispatch hid hpoint, fun _ _ => rfl⟩
  | prepare i =>
      rw [hpoint] at hbounds
      refine .inr ?_
      rcases Nat.lt_or_eq_of_le hbounds with hi | rfl
      · exact ⟨_, .prepare state id i dispatch hid hpoint hi, fun _ _ => rfl⟩
      · exact ⟨_, .submitted state id dispatch hid hpoint, fun _ _ => rfl⟩
  | submit i =>
      refine .inr ⟨_, .submit state id i dispatch hid hpoint, fun j hj => ?_⟩
      have hnone : state.tasks id i = .notSubmitted :=
        h.not_submitted (by simp [hpoint, DispatchPoint.Submitted])
      have hne : j ≠ i := fun heq => hj (heq ▸ hnone)
      simp [DoallState.setDispatch, DoallState.setTask, hne]
  | ownCall => exact absurd hpoint hown
  | join i =>
      rw [hpoint] at hbounds
      rcases Nat.lt_or_eq_of_le hbounds with hi | rfl
      · have hsubmitted : state.tasks id i ≠ .notSubmitted :=
          (h.tasks i).submitted.mpr ⟨hi, by simp [hpoint, DispatchPoint.Submitted]⟩
        by_cases hfinished : (state.tasks id i).Finished
        · have hholds : dispatch.point.Holds := by simp [hpoint, DispatchPoint.Holds]
          have hentry := h.entries hholds i (hi.trans_le (h.block hholds).2.2)
            (by simp [hpoint, DispatchPoint.Initialised])
          have hlock := hentry.unlocked hfinished (by simp [hpoint, DispatchPoint.Joined])
          exact .inr ⟨_, .join state id i dispatch hid hpoint hi hlock, fun _ _ => rfl⟩
        · exact .inl ⟨i, hi, rfl, hsubmitted, hfinished⟩
      · exact .inr ⟨_, .joined state id dispatch hid hpoint, fun _ _ => rfl⟩
  | releaseCores =>
      exact .inr ⟨_, .releaseCores state id dispatch hid hpoint, fun _ _ => rfl⟩
  | releaseArgs =>
      exact .inr ⟨_, .releaseArgs state id dispatch hid hpoint, fun _ _ => rfl⟩
  | returned => exact absurd hpoint hrunning

end Gino.Runtime
