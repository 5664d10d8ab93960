import Gino.Runtime.Doall
import Mathlib.Data.List.Perm.Basic

/-!
# The DOALL dispatcher joins its own tasks

`DispatchInv` relates a dispatch to its tasks, to the block it holds and to the calls made for it.
A lock of a block is free exactly between the end of a task and its join, so a block that goes
back to the pool has all its locks taken. `doall_joins_own_tasks` is the main theorem.
-/

namespace Gino.Runtime

open Machine

variable {Loop Env : Type*}

namespace DispatchPoint

/-- The dispatch has been handed its block and not given it back. -/
def Holds : DispatchPoint → Prop
  | .getArgs | .returned => False
  | _ => True

/-- The entry has its core ID and its lock. -/
def Initialised (i : Nat) : DispatchPoint → Prop
  | .getArgs => False
  | .initArgs next => i < next
  | _ => True

/-- The entry holds the arguments of the dispatch. -/
def Prepared (i : Nat) : DispatchPoint → Prop
  | .getArgs | .initArgs _ => False
  | .prepare next => i < next
  | .submit next => i ≤ next
  | _ => True

/-- The task of the entry has been submitted. -/
def Submitted (i : Nat) : DispatchPoint → Prop
  | .getArgs | .initArgs _ => False
  | .prepare next | .submit next => i < next
  | _ => True

/-- The dispatch has made its own call of the loop body. -/
def RanOwn : DispatchPoint → Prop
  | .join _ | .releaseCores | .releaseArgs | .returned => True
  | _ => False

/-- The dispatch has taken back the lock of the entry. -/
def Joined (i : Nat) : DispatchPoint → Prop
  | .join next => i < next
  | .releaseCores | .releaseArgs | .returned => True
  | _ => False

/-- The index of the point is within the entries of the dispatch. -/
def InBounds (cores : Nat) : DispatchPoint → Prop
  | .initArgs next | .prepare next | .join next => next ≤ cores
  | .submit i => i < cores
  | _ => True

end DispatchPoint

namespace TaskPoint

/-- The task has made its call of the loop body. -/
def Called : TaskPoint Loop Env → Prop
  | .called | .finished => True
  | _ => False

/-- The task has released its lock. -/
def Finished : TaskPoint Loop Env → Prop
  | .finished => True
  | _ => False

end TaskPoint

/-- An entry of a block while a dispatch holds it. -/
structure EntryInv (dispatch : DoallDispatch Loop Env) (task : TaskPoint Loop Env) (i : Nat)
    (args : DoallArgs Loop Env) : Prop where
  coreID : args.coreID = i
  unlocked : task.Finished → ¬ dispatch.point.Joined i → args.endLock = some .unlocked
  locked : (task.Finished → dispatch.point.Joined i) → args.endLock = some .locked
  prepared : i < dispatch.cores → dispatch.point.Prepared i →
    args.toLoopCall = dispatch.call i

/-- The task of an entry. -/
structure TaskInv (dispatch : DoallDispatch Loop Env) (task : TaskPoint Loop Env) (i : Nat) :
    Prop where
  submitted : task ≠ .notSubmitted ↔ i < dispatch.cores ∧ dispatch.point.Submitted i
  joined : i < dispatch.cores → dispatch.point.Joined i → task.Finished
  running : ∀ call, task = .running call → call = dispatch.call i

/-- A dispatch, its block, its tasks and the calls made for it. -/
structure DispatchInv (state : DoallState Loop Env) (id : Nat)
    (dispatch : DoallDispatch Loop Env) : Prop where
  cores : dispatch.cores + 1 = dispatch.numCores.toNat
  bounds : dispatch.point.InBounds dispatch.cores
  block : dispatch.point.Holds → dispatch.block < state.numberOfChunks ∧
    (state.blocks dispatch.block).available = false ∧
    dispatch.cores ≤ (state.blocks dispatch.block).size
  fresh : ∀ next, dispatch.point = .initArgs next →
    (state.blocks dispatch.block).size = dispatch.cores
  entries : dispatch.point.Holds → ∀ i < (state.blocks dispatch.block).size,
    dispatch.point.Initialised i →
      EntryInv dispatch (state.tasks id i) i ((state.blocks dispatch.block).args i)
  tasks : ∀ i, TaskInv dispatch (state.tasks id i) i
  calls : ∃ order : List Nat, order.Nodup ∧
    (∀ i, i ∈ order ↔ i < dispatch.cores ∧ (state.tasks id i).Called ∨
      i = dispatch.cores ∧ dispatch.point.RanOwn) ∧
    state.calls id = order.map dispatch.call

/-- A block that can be handed out: every lock is taken, and every entry has its core ID. -/
def Block.Ready (block : Block Loop Env) : Prop :=
  ∀ i < block.size, (block.args i).endLock = some .locked ∧ (block.args i).coreID = i

/-- The invariant of the dispatcher. -/
structure DoallInv (state : DoallState Loop Env) : Prop where
  dispatches : ∀ id dispatch, state.dispatches id = some dispatch → DispatchInv state id dispatch
  idle : ∀ id, state.dispatches id = none →
    (∀ i, state.tasks id i = .notSubmitted) ∧ state.calls id = []
  exclusive : ∀ id other dispatch dispatch', state.dispatches id = some dispatch →
    state.dispatches other = some dispatch' → dispatch.point.Holds → dispatch'.point.Holds →
      dispatch.block = dispatch'.block → id = other
  available : ∀ block < state.numberOfChunks, (state.blocks block).available = true →
    (state.blocks block).Ready

section Frame

variable {state next : DoallState Loop Env} {id : Nat} {dispatch : DoallDispatch Loop Env}

/-- A dispatch depends on its own tasks, calls and block alone. -/
theorem DispatchInv.congr (h : DispatchInv state id dispatch)
    (htasks : next.tasks id = state.tasks id) (hcalls : next.calls id = state.calls id)
    (hchunks : state.numberOfChunks ≤ next.numberOfChunks)
    (hblock : dispatch.point.Holds → next.blocks dispatch.block = state.blocks dispatch.block) :
    DispatchInv next id dispatch where
  cores := h.cores
  bounds := h.bounds
  block hholds := by
    obtain ⟨hlt, htaken, hsize⟩ := h.block hholds
    rw [hblock hholds]
    exact ⟨by omega, htaken, hsize⟩
  fresh index hpoint := by
    rw [hblock (by simp [hpoint, DispatchPoint.Holds])]
    exact h.fresh index hpoint
  entries hholds := by
    rw [hblock hholds, htasks]
    exact h.entries hholds
  tasks := by rw [htasks]; exact h.tasks
  calls := by rw [htasks, hcalls]; exact h.calls

/-- A step of one dispatch keeps the invariant if it keeps that dispatch's own part, takes no block
another one holds, and only offers blocks that are ready. -/
theorem DoallInv.update (h : DoallInv state)
    (hdispatches : next.dispatches = Function.update state.dispatches id (some dispatch))
    (htasks : ∀ other, other ≠ id → next.tasks other = state.tasks other)
    (hcalls : ∀ other, other ≠ id → next.calls other = state.calls other)
    (hchunks : state.numberOfChunks ≤ next.numberOfChunks)
    (hblocks : ∀ other dispatch', other ≠ id → state.dispatches other = some dispatch' →
      dispatch'.point.Holds → next.blocks dispatch'.block = state.blocks dispatch'.block)
    (hexclusive : ∀ other dispatch', other ≠ id → state.dispatches other = some dispatch' →
      dispatch'.point.Holds → dispatch.point.Holds → dispatch'.block ≠ dispatch.block)
    (havailable : ∀ block < next.numberOfChunks, (next.blocks block).available = true →
      (next.blocks block).Ready)
    (hself : DispatchInv next id dispatch) : DoallInv next where
  dispatches other dispatch' hother := by
    rw [hdispatches] at hother
    by_cases hsame : other = id
    · subst hsame
      simp only [Function.update_self, Option.some.injEq] at hother
      exact hother ▸ hself
    · rw [Function.update_of_ne hsame] at hother
      exact (h.dispatches other dispatch' hother).congr (htasks other hsame) (hcalls other hsame)
        hchunks (hblocks other dispatch' hsame hother)
  idle other hother := by
    rw [hdispatches] at hother
    have hsame : other ≠ id := by
      rintro rfl
      simp at hother
    rw [Function.update_of_ne hsame] at hother
    rw [htasks other hsame, hcalls other hsame]
    exact h.idle other hother
  exclusive first second firstDispatch secondDispatch hfirst hsecond hholds hholds' hblock := by
    rw [hdispatches] at hfirst hsecond
    by_cases hsame : first = id <;> by_cases hsame' : second = id
    · rw [hsame, hsame']
    · subst hsame
      simp only [Function.update_self, Option.some.injEq] at hfirst
      rw [Function.update_of_ne hsame'] at hsecond
      subst hfirst
      exact absurd hblock.symm (hexclusive second _ hsame' hsecond hholds' hholds)
    · subst hsame'
      simp only [Function.update_self, Option.some.injEq] at hsecond
      rw [Function.update_of_ne hsame] at hfirst
      subst hsecond
      exact absurd hblock (hexclusive first _ hsame hfirst hholds hholds')
    · rw [Function.update_of_ne hsame] at hfirst
      rw [Function.update_of_ne hsame'] at hsecond
      exact h.exclusive first second _ _ hfirst hsecond hholds hholds' hblock
  available := havailable

/-- A step that touches only the block a dispatch holds, its own tasks and calls. -/
theorem DoallInv.update_held (h : DoallInv state) (dispatch' : DoallDispatch Loop Env)
    (hid : state.dispatches id = some dispatch) (hholds : dispatch.point.Holds)
    (hblock : dispatch'.block = dispatch.block)
    (hdispatches : next.dispatches = Function.update state.dispatches id (some dispatch'))
    (htasks : ∀ other, other ≠ id → next.tasks other = state.tasks other)
    (hcalls : ∀ other, other ≠ id → next.calls other = state.calls other)
    (hchunks : next.numberOfChunks = state.numberOfChunks)
    (hblocks : ∀ block, block ≠ dispatch.block → next.blocks block = state.blocks block)
    (hready : (next.blocks dispatch.block).available = true →
      (next.blocks dispatch.block).Ready)
    (hself : DispatchInv next id dispatch') : DoallInv next := by
  have hothers : ∀ other otherDispatch, other ≠ id → state.dispatches other = some otherDispatch →
      otherDispatch.point.Holds → otherDispatch.block ≠ dispatch.block := by
    intro other otherDispatch hne hother hholds' hsame
    exact hne (h.exclusive other id _ _ hother hid hholds' hholds hsame)
  refine h.update hdispatches htasks hcalls hchunks.ge
    (fun other otherDispatch hne hother hholds' =>
      hblocks _ (hothers other otherDispatch hne hother hholds'))
    (fun other otherDispatch hne hother hholds' _ =>
      hblock ▸ hothers other otherDispatch hne hother hholds') ?_ hself
  intro block hlt
  by_cases hsame : block = dispatch.block
  · subst hsame
    exact hready
  · rw [hblocks block hsame]
    exact h.available block (by omega)

end Frame

/-! ## The steps of a dispatch -/

section DispatchSteps

variable {state next : DoallState Loop Env} {id i : Nat} {dispatch : DoallDispatch Loop Env}

/-- An entry that the dispatch does not use has no task. -/
theorem DispatchInv.unused (h : DispatchInv state id dispatch) (hi : dispatch.cores ≤ i) :
    state.tasks id i = .notSubmitted := by
  by_contra hne
  have := ((h.tasks i).submitted.mp hne).1
  omega

/-- An entry that is joined and prepared as before stays as it should be. -/
theorem EntryInv.goto {task : TaskPoint Loop Env} {i : Nat} {args : DoallArgs Loop Env}
    (h : EntryInv dispatch task i args) {point : DispatchPoint}
    (hjoined : task.Finished → (point.Joined i ↔ dispatch.point.Joined i))
    (hprepared : i < dispatch.cores → point.Prepared i → dispatch.point.Prepared i) :
    EntryInv (dispatch.goto point) task i args where
  coreID := h.coreID
  unlocked hfinished hopen :=
    h.unlocked hfinished fun hclosed => hopen ((hjoined hfinished).mpr hclosed)
  locked hclosed := h.locked fun hfinished => (hjoined hfinished).mp (hclosed hfinished)
  prepared hcore hready := h.prepared hcore (hprepared hcore hready)

/-- A dispatch that moves on without touching its block, tasks or calls. -/
theorem DispatchInv.goto (h : DispatchInv state id dispatch) {point : DispatchPoint}
    (hblocks : next.blocks = state.blocks) (hchunks : next.numberOfChunks = state.numberOfChunks)
    (htasks : next.tasks = state.tasks) (hcalls : next.calls = state.calls)
    (hholds : dispatch.point.Holds) (hbounds : point.InBounds dispatch.cores)
    (hfresh : ∀ index, point ≠ .initArgs index)
    (hinitialised : ∀ i < (state.blocks dispatch.block).size, dispatch.point.Initialised i)
    (hprepared : ∀ i < dispatch.cores, point.Prepared i → dispatch.point.Prepared i)
    (hsubmitted : ∀ i < dispatch.cores, point.Submitted i ↔ dispatch.point.Submitted i)
    (hjoined : ∀ i < dispatch.cores, point.Joined i ↔ dispatch.point.Joined i)
    (hown : point.RanOwn ↔ dispatch.point.RanOwn) :
    DispatchInv next id (dispatch.goto point) where
  cores := h.cores
  bounds := hbounds
  block _ := by
    rw [hblocks, hchunks]
    exact h.block hholds
  fresh index hpoint := absurd hpoint (hfresh index)
  entries _ := by
    intro i hi _
    rw [hblocks] at hi ⊢
    rw [htasks]
    refine (h.entries hholds i hi (hinitialised i hi)).goto (fun hfinished => hjoined i ?_)
      (hprepared i)
    by_contra hunused
    rw [h.unused (by omega)] at hfinished
    exact hfinished
  tasks i := by
    rw [htasks]
    exact {
      submitted := (h.tasks i).submitted.trans (and_congr_right fun hcore =>
        (hsubmitted i hcore).symm)
      joined := fun hcore hclosed => (h.tasks i).joined hcore ((hjoined i hcore).mp hclosed)
      running := (h.tasks i).running }
  calls := by
    obtain ⟨order, hnodup, hmem, hcalls'⟩ := h.calls
    refine ⟨order, hnodup, fun i => ?_, by rw [hcalls]; exact hcalls'⟩
    rw [hmem, htasks]
    exact or_congr .rfl (and_congr .rfl hown.symm)

/-- A task that the dispatch has not come to is not submitted. -/
theorem DispatchInv.not_submitted (h : DispatchInv state id dispatch) {i : Nat}
    (hpoint : ¬ dispatch.point.Submitted i) : state.tasks id i = .notSubmitted := by
  by_contra hne
  exact hpoint ((h.tasks i).submitted.mp hne).2

/-- A dispatch writes one entry of its block and moves on. -/
theorem DispatchInv.set_args (h : DispatchInv state id dispatch) {point : DispatchPoint}
    {args : DoallArgs Loop Env} (hholds : dispatch.point.Holds)
    (hbounds : point.InBounds dispatch.cores)
    (hfresh : ∀ index, point = .initArgs index → ∃ index, dispatch.point = .initArgs index)
    (hinitialised : ∀ j, j ≠ i → point.Initialised j → dispatch.point.Initialised j)
    (hprepared : ∀ j < dispatch.cores, j ≠ i → point.Prepared j → dispatch.point.Prepared j)
    (hsubmitted : ∀ j, point.Submitted j ↔ dispatch.point.Submitted j)
    (hjoined : ∀ j, j ≠ i → (point.Joined j ↔ dispatch.point.Joined j))
    (htask : point.Joined i → (state.tasks id i).Finished)
    (hown : point.RanOwn ↔ dispatch.point.RanOwn)
    (hentry : EntryInv (dispatch.goto point) (state.tasks id i) i args) :
    DispatchInv ((state.setArgs dispatch.block i args).setDispatch id (dispatch.goto point)) id
      (dispatch.goto point) where
  cores := h.cores
  bounds := hbounds
  block _ := by simpa [DoallState.setArgs, DoallState.setBlock, DoallState.setDispatch,
    DoallDispatch.goto, DoallDispatch.cores] using h.block hholds
  fresh index hpoint := by
    obtain ⟨index', hpoint'⟩ := hfresh index hpoint
    simpa [DoallState.setArgs, DoallState.setBlock, DoallState.setDispatch, DoallDispatch.goto,
      DoallDispatch.cores] using h.fresh index' hpoint'
  entries _ := by
    intro j hj hready
    simp only [DoallState.setArgs, DoallState.setBlock, DoallState.setDispatch,
      DoallDispatch.goto, Function.update_self] at hj hready ⊢
    by_cases hsame : j = i
    · subst hsame
      rw [Function.update_self]
      exact hentry
    · rw [Function.update_of_ne hsame]
      exact (h.entries hholds j hj (hinitialised j hsame hready)).goto
        (fun _ => hjoined j hsame) fun hcore => hprepared j hcore hsame
  tasks j := {
    submitted := (h.tasks j).submitted.trans (and_congr_right fun _ => (hsubmitted j).symm)
    joined := fun hcore hclosed => by
      by_cases hsame : j = i
      · subst hsame
        exact htask hclosed
      · exact (h.tasks j).joined hcore ((hjoined j hsame).mp hclosed)
    running := (h.tasks j).running }
  calls := by
    obtain ⟨order, hnodup, hmem, hcalls⟩ := h.calls
    exact ⟨order, hnodup, fun j => (hmem j).trans (or_congr .rfl (and_congr .rfl hown.symm)),
      hcalls⟩

/-- A step that writes an entry of the block a dispatch holds. -/
theorem DoallInv.set_args (h : DoallInv state) {dispatch' : DoallDispatch Loop Env}
    {args : DoallArgs Loop Env} (hid : state.dispatches id = some dispatch)
    (hholds : dispatch.point.Holds) (hblock : dispatch'.block = dispatch.block)
    (hself : DispatchInv ((state.setArgs dispatch.block i args).setDispatch id dispatch') id
      dispatch') :
    DoallInv ((state.setArgs dispatch.block i args).setDispatch id dispatch') := by
  have htaken := ((h.dispatches id dispatch hid).block hholds).2.1
  refine h.update_held dispatch' hid hholds hblock rfl (fun _ _ => rfl) (fun _ _ => rfl) rfl
    (fun block hne => ?_) (fun hfree => ?_) hself
  · simp [DoallState.setArgs, DoallState.setBlock, DoallState.setDispatch, hne]
  · simp [DoallState.setArgs, DoallState.setBlock, DoallState.setDispatch, htaken] at hfree

/-- A step that only moves a dispatch that holds a block. -/
theorem DoallInv.goto (h : DoallInv state) {point : DispatchPoint}
    (hid : state.dispatches id = some dispatch) (hholds : dispatch.point.Holds)
    (hdispatches : next.dispatches =
      Function.update state.dispatches id (some (dispatch.goto point)))
    (hblocks : next.blocks = state.blocks) (hchunks : next.numberOfChunks = state.numberOfChunks)
    (htasks : next.tasks = state.tasks) (hcalls : next.calls = state.calls)
    (hself : DispatchInv next id (dispatch.goto point)) : DoallInv next := by
  refine h.update_held (dispatch.goto point) hid hholds rfl hdispatches
    (fun _ _ => by rw [htasks]) (fun _ _ => by rw [hcalls]) hchunks
    (fun _ _ => by rw [hblocks]) (fun hfree => ?_) hself
  rw [hblocks, ((h.dispatches id dispatch hid).block hholds).2.1] at hfree
  cases hfree

/-- Submitting the task of a prepared entry. -/
theorem DispatchInv.submit (h : DispatchInv state id dispatch)
    (hpoint : dispatch.point = .submit i) :
    DispatchInv ((state.setTask id i .queued).setDispatch id (dispatch.goto (.prepare (i + 1))))
      id (dispatch.goto (.prepare (i + 1))) := by
  have hbounds := h.bounds
  rw [hpoint] at hbounds
  have hholds : dispatch.point.Holds := by simp [hpoint, DispatchPoint.Holds]
  have hidle : state.tasks id i = .notSubmitted :=
    h.not_submitted (by simp [hpoint, DispatchPoint.Submitted])
  constructor
  · exact h.cores
  · exact hbounds
  · exact fun _ => h.block hholds
  · intro index hindex
    simp [DoallDispatch.goto] at hindex
  · intro _ j hj _
    have hold := h.entries hholds j hj (by simp [hpoint, DispatchPoint.Initialised])
    simp only [DoallState.setTask, DoallState.setDispatch, Function.update_self]
    -- The task of the entry is the only one that moves, and a queued task is not finished.
    have hfinished : (Function.update (state.tasks id) i .queued j).Finished →
        (state.tasks id j).Finished := by
      by_cases hsame : j = i
      · subst hsame
        simp [TaskPoint.Finished]
      · simp [hsame]
    have hopen : ¬ dispatch.point.Joined j := by simp [hpoint, DispatchPoint.Joined]
    refine ⟨hold.coreID, fun hdone _ => hold.unlocked (hfinished hdone) hopen, ?_, ?_⟩
    · intro hclosed
      refine hold.locked fun hdone => absurd (hclosed ?_) (by
        simp [DoallDispatch.goto, DispatchPoint.Joined])
      have hne : j ≠ i := by
        rintro rfl
        rw [hidle] at hdone
        exact hdone
      simpa [hne] using hdone
    · intro hcore hready
      refine hold.prepared hcore ?_
      simp only [DoallDispatch.goto, DispatchPoint.Prepared, hpoint] at hready ⊢
      omega
  · intro j
    obtain ⟨hsubmitted, hjoined, hrunning⟩ := h.tasks j
    rw [hpoint] at hsubmitted hjoined
    by_cases hsame : j = i
    · subst hsame
      simp only [DoallState.setTask, DoallState.setDispatch, Function.update_self]
      refine ⟨⟨fun _ => ⟨hbounds, Nat.lt_succ_self j⟩, fun _ => by simp⟩, ?_, by simp⟩
      intro _ hclosed
      exact hclosed.elim
    · simp only [DoallState.setTask, DoallState.setDispatch, Function.update_self,
        Function.update_of_ne hsame]
      refine ⟨hsubmitted.trans (and_congr_right fun _ => ?_), ?_, hrunning⟩
      · simp only [DispatchPoint.Submitted, DoallDispatch.goto]
        omega
      · intro _ hclosed
        exact hclosed.elim
  · obtain ⟨order, hnodup, hmem, hcalls⟩ := h.calls
    refine ⟨order, hnodup, fun j => (hmem j).trans ?_, hcalls⟩
    simp only [hpoint, DispatchPoint.RanOwn, DoallDispatch.goto, DoallState.setTask,
      DoallState.setDispatch, Function.update_self]
    by_cases hsame : j = i
    · subst hsame
      simp [hidle, TaskPoint.Called, DoallDispatch.cores]
    · simp [hsame, DoallDispatch.cores]

/-- The dispatch's own call of the loop body. -/
theorem DispatchInv.own_call (h : DispatchInv state id dispatch)
    (hpoint : dispatch.point = .ownCall) :
    DispatchInv ((state.logCall id (dispatch.call dispatch.cores)).setDispatch id
      (dispatch.goto (.join 0))) id (dispatch.goto (.join 0)) := by
  have hholds : dispatch.point.Holds := by simp [hpoint, DispatchPoint.Holds]
  constructor
  · exact h.cores
  · exact Nat.zero_le _
  · exact fun _ => h.block hholds
  · intro index hindex
    simp [DoallDispatch.goto] at hindex
  · intro _ j hj _
    have hold := h.entries hholds j hj (by simp [hpoint, DispatchPoint.Initialised])
    have hopen : ¬ dispatch.point.Joined j := by simp [hpoint, DispatchPoint.Joined]
    refine ⟨hold.coreID, fun hdone _ => hold.unlocked hdone hopen, fun hclosed =>
      hold.locked fun hdone => absurd (hclosed hdone) (by
        simp [DoallDispatch.goto, DispatchPoint.Joined]), fun hcore _ => hold.prepared hcore ?_⟩
    simp [hpoint, DispatchPoint.Prepared]
  · intro j
    obtain ⟨hsubmitted, hjoined, hrunning⟩ := h.tasks j
    rw [hpoint] at hsubmitted hjoined
    refine ⟨hsubmitted, ?_, hrunning⟩
    intro _ hclosed
    simp [DoallDispatch.goto, DispatchPoint.Joined] at hclosed
  · obtain ⟨order, hnodup, hmem, hcalls⟩ := h.calls
    refine ⟨order ++ [dispatch.cores], ?_, fun j => ?_, ?_⟩
    · have hnew : dispatch.cores ∉ order := by
        simp [hmem, hpoint, DispatchPoint.RanOwn]
      rw [← List.concat_eq_append]
      exact List.Nodup.concat hnew hnodup
    · simp [hmem, hpoint, DispatchPoint.RanOwn, DoallDispatch.goto, DoallState.logCall,
        DoallState.setDispatch, DoallDispatch.cores]
    · simp only [DoallState.logCall, DoallState.setDispatch, Function.update_self, hcalls,
        List.map_append, List.map_cons, List.map_nil]
      rfl

/-- Giving the block back: every task has been joined, so every lock is taken. -/
theorem DoallInv.release_args (h : DoallInv state) (hid : state.dispatches id = some dispatch)
    (hpoint : dispatch.point = .releaseArgs) :
    DoallInv ((state.setBlock dispatch.block
      { state.blocks dispatch.block with available := true }).setDispatch id
        (dispatch.goto .returned)) := by
  have hinv := h.dispatches id dispatch hid
  have hholds : dispatch.point.Holds := by simp [hpoint, DispatchPoint.Holds]
  refine h.update_held (dispatch.goto .returned) hid hholds rfl rfl
    (fun _ _ => rfl) (fun _ _ => rfl) rfl (fun block hne => ?_) (fun _ => ?_) ?_
  · simp [DoallState.setBlock, DoallState.setDispatch, hne]
  · intro i hi
    simp only [DoallState.setBlock, DoallState.setDispatch, Function.update_self] at hi ⊢
    have hentry := hinv.entries hholds i hi (by simp [hpoint, DispatchPoint.Initialised])
    exact ⟨hentry.locked fun _ => by simp [hpoint, DispatchPoint.Joined], hentry.coreID⟩
  · constructor
    · exact hinv.cores
    · trivial
    · intro hheld
      simp [DoallDispatch.goto, DispatchPoint.Holds] at hheld
    · intro index hindex
      simp [DoallDispatch.goto] at hindex
    · intro hheld
      simp [DoallDispatch.goto, DispatchPoint.Holds] at hheld
    · intro j
      obtain ⟨hsubmitted, hjoined, hrunning⟩ := hinv.tasks j
      rw [hpoint] at hsubmitted hjoined
      exact ⟨hsubmitted, hjoined, hrunning⟩
    · obtain ⟨order, hnodup, hmem, hcalls⟩ := hinv.calls
      rw [hpoint] at hmem
      exact ⟨order, hnodup, hmem, hcalls⟩

/-- Initialising an entry of a new block. -/
theorem DispatchInv.init_args (h : DispatchInv state id dispatch)
    (hpoint : dispatch.point = .initArgs i) (hi : i < dispatch.cores) :
    DispatchInv ((state.setArgs dispatch.block i
      (((state.blocks dispatch.block).args i).init i)).setDispatch id
        (dispatch.goto (.initArgs (i + 1)))) id (dispatch.goto (.initArgs (i + 1))) := by
  refine h.set_args (by simp [hpoint, DispatchPoint.Holds]) hi (fun _ _ => ⟨i, hpoint⟩) ?_
    (fun _ _ _ hready => hready.elim) ?_ ?_ (fun hclosed => hclosed.elim) ?_ ?_
  · intro j hne hready
    rw [hpoint]
    simp only [DispatchPoint.Initialised] at hready ⊢
    omega
  · simp [hpoint, DispatchPoint.Submitted]
  · simp [hpoint, DispatchPoint.Joined]
  · simp [hpoint, DispatchPoint.RanOwn]
  · rw [h.not_submitted (by simp [hpoint, DispatchPoint.Submitted])]
    exact ⟨rfl, fun hdone => hdone.elim, fun _ => rfl, fun _ hready => hready.elim⟩

/-- Preparing the arguments of an entry. -/
theorem DispatchInv.prepare_args (h : DispatchInv state id dispatch)
    (hpoint : dispatch.point = .prepare i) (hi : i < dispatch.cores) :
    DispatchInv ((state.setArgs dispatch.block i
      (((state.blocks dispatch.block).args i).prepare dispatch)).setDispatch id
        (dispatch.goto (.submit i))) id (dispatch.goto (.submit i)) := by
  have hholds : dispatch.point.Holds := by simp [hpoint, DispatchPoint.Holds]
  have hold := h.entries hholds i (by have := (h.block hholds).2.2; omega)
    (by simp [hpoint, DispatchPoint.Initialised])
  have hopen : ¬ dispatch.point.Joined i := by simp [hpoint, DispatchPoint.Joined]
  refine h.set_args hholds hi (fun _ hindex => by simp at hindex) ?_ ?_ ?_ ?_
    (fun hclosed => hclosed.elim) ?_ ?_
  · simp [hpoint, DispatchPoint.Initialised]
  · intro j _ hne hready
    rw [hpoint]
    simp only [DispatchPoint.Prepared] at hready ⊢
    omega
  · simp [hpoint, DispatchPoint.Submitted]
  · simp [hpoint, DispatchPoint.Joined]
  · simp [hpoint, DispatchPoint.RanOwn]
  · refine ⟨hold.coreID, fun hdone _ => hold.unlocked hdone hopen, fun hclosed =>
      hold.locked fun hdone => (hclosed hdone).elim, fun _ _ => ?_⟩
    have hcoreID := hold.coreID
    simp [DoallArgs.prepare, DoallDispatch.call, DoallDispatch.goto, hcoreID]

/-- Taking back the lock of an entry, which its task has released. -/
theorem DispatchInv.join_args (h : DispatchInv state id dispatch)
    (hpoint : dispatch.point = .join i) (hi : i < dispatch.cores)
    (hlock : ((state.blocks dispatch.block).args i).endLock = some .unlocked) :
    DispatchInv ((state.setArgs dispatch.block i
      { (state.blocks dispatch.block).args i with endLock := some .locked }).setDispatch id
        (dispatch.goto (.join (i + 1)))) id (dispatch.goto (.join (i + 1))) := by
  have hholds : dispatch.point.Holds := by simp [hpoint, DispatchPoint.Holds]
  have hold := h.entries hholds i (by have := (h.block hholds).2.2; omega)
    (by simp [hpoint, DispatchPoint.Initialised])
  refine h.set_args hholds hi (fun _ hindex => by simp at hindex) ?_ ?_ ?_ ?_ ?_ ?_ ?_
  · simp [hpoint, DispatchPoint.Initialised]
  · simp [hpoint, DispatchPoint.Prepared]
  · simp [hpoint, DispatchPoint.Submitted]
  · intro j hne
    rw [hpoint]
    simp only [DispatchPoint.Joined]
    omega
  · intro _
    by_contra hunfinished
    rw [hold.locked fun hdone => absurd hdone hunfinished] at hlock
    cases hlock
  · simp [hpoint, DispatchPoint.RanOwn]
  · exact ⟨hold.coreID, fun _ hopen => absurd (Nat.lt_succ_self i) hopen, fun _ => rfl,
      fun hcore _ => hold.prepared hcore (by simp [hpoint, DispatchPoint.Prepared])⟩

/-- Before it has a block, a dispatch has no task and no call. -/
theorem DispatchInv.get_args (h : DispatchInv state id dispatch)
    (hpoint : dispatch.point = .getArgs) :
    (∀ i, state.tasks id i = .notSubmitted) ∧ state.calls id = [] := by
  have hidle : ∀ i, state.tasks id i = .notSubmitted := fun i =>
    h.not_submitted (by simp [hpoint, DispatchPoint.Submitted])
  obtain ⟨order, -, hmem, hcalls⟩ := h.calls
  have hempty : order = [] := by
    refine List.eq_nil_iff_forall_not_mem.mpr fun i => ?_
    simp [hmem, hidle, hpoint, TaskPoint.Called, DispatchPoint.RanOwn]
  exact ⟨hidle, by rw [hcalls, hempty]; rfl⟩

/-- A dispatch without tasks and calls that has not submitted anything. -/
theorem DispatchInv.of_idle (hcores : dispatch.cores + 1 = dispatch.numCores.toNat)
    (hidle : ∀ i, state.tasks id i = .notSubmitted) (hcalls : state.calls id = [])
    (hpoint : dispatch.point = .getArgs ∨ dispatch.point = .initArgs 0 ∨
      dispatch.point = .prepare 0)
    (hblock : dispatch.point.Holds → dispatch.block < state.numberOfChunks ∧
      (state.blocks dispatch.block).available = false ∧
      dispatch.cores ≤ (state.blocks dispatch.block).size)
    (hfresh : ∀ next, dispatch.point = .initArgs next →
      (state.blocks dispatch.block).size = dispatch.cores)
    (hready : dispatch.point = .prepare 0 → (state.blocks dispatch.block).Ready) :
    DispatchInv state id dispatch where
  cores := hcores
  bounds := by rcases hpoint with h | h | h <;> simp [h, DispatchPoint.InBounds]
  block := hblock
  fresh := hfresh
  entries hholds i hi hinit := by
    have hprepare : dispatch.point = .prepare 0 := by
      rcases hpoint with h | h | h
      · simp [h, DispatchPoint.Holds] at hholds
      · simp [h, DispatchPoint.Initialised] at hinit
      · exact h
    obtain ⟨hlocked, hcoreID⟩ := hready hprepare i hi
    rw [hidle]
    exact ⟨hcoreID, fun hdone => hdone.elim, fun _ => hlocked, fun _ hprepared => by
      simp [hprepare, DispatchPoint.Prepared] at hprepared⟩
  tasks i := by
    rw [hidle]
    refine ⟨⟨fun hne => absurd rfl hne, fun ⟨_, hsubmitted⟩ => ?_⟩, fun _ hjoined => ?_, by simp⟩
    · rcases hpoint with h | h | h <;> simp [h, DispatchPoint.Submitted] at hsubmitted
    · rcases hpoint with h | h | h <;> simp [h, DispatchPoint.Joined] at hjoined
  calls := by
    refine ⟨[], List.nodup_nil, fun i => ?_, by simpa using hcalls⟩
    rcases hpoint with h | h | h <;> simp [h, hidle, TaskPoint.Called, DispatchPoint.RanOwn]

/-- A dispatch starts by reserving its cores. -/
theorem DoallInv.reserve (h : DoallInv state) {parallelizedLoop : Loop} {env : Env}
    {maxNumberOfCores : BitVec 32} {chunkSize : Int} (hnew : state.dispatches id = none) :
    DoallInv { state.setDispatch id ⟨parallelizedLoop, env,
        (state.runtime.reserveCores maxNumberOfCores).1, chunkSize, 0, .getArgs⟩ with
      runtime := (state.runtime.reserveCores maxNumberOfCores).2 } := by
  obtain ⟨hidle, hcalls⟩ := h.idle id hnew
  refine h.update rfl (fun _ _ => rfl) (fun _ _ => rfl) le_rfl (fun _ _ _ _ _ => rfl)
    (fun _ _ _ _ _ hholds => hholds.elim) h.available ?_
  exact .of_idle (helper_tasks_add_one (one_le_grant _ _)) hidle hcalls (.inl rfl)
    (fun hholds => hholds.elim) (fun _ hindex => by simp at hindex) (fun hindex => by
      simp at hindex)

/-- What the search loop finds. -/
theorem find_block_eq_some {cores block : Nat} (hfind : state.findBlock cores = some block) :
    block < state.numberOfChunks ∧ (state.blocks block).available = true ∧
      cores ≤ (state.blocks block).size := by
  have hmem := List.mem_of_find?_eq_some hfind
  have hfound := List.find?_some hfind
  simp only [Bool.and_eq_true, decide_eq_true_eq] at hfound
  exact ⟨List.mem_range.mp hmem, hfound⟩

/-- A block that is available or new is held by no dispatch. -/
theorem DoallInv.not_held (h : DoallInv state) {block : Nat}
    (hfree : (state.blocks block).available = true ∨ state.numberOfChunks ≤ block)
    (hid : state.dispatches id = some dispatch) (hholds : dispatch.point.Holds) :
    dispatch.block ≠ block := by
  obtain ⟨hlt, htaken, -⟩ := (h.dispatches id dispatch hid).block hholds
  rintro rfl
  rcases hfree with havailable | hge
  · simp [htaken] at havailable
  · omega

/-- A block from the pool. -/
theorem DoallInv.reuse_block (h : DoallInv state) {block : Nat}
    (hid : state.dispatches id = some dispatch) (hpoint : dispatch.point = .getArgs)
    (hfind : state.findBlock dispatch.cores = some block) :
    DoallInv ((state.setBlock block { state.blocks block with available := false }).setDispatch id
      { dispatch with block := block, point := .prepare 0 }) := by
  obtain ⟨hlt, havailable, hsize⟩ := find_block_eq_some hfind
  have hinv := h.dispatches id dispatch hid
  obtain ⟨hidle, hcalls⟩ := hinv.get_args hpoint
  refine h.update rfl (fun _ _ => rfl) (fun _ _ => rfl) le_rfl ?_ ?_ ?_ ?_
  · intro other otherDispatch _ hother hholds
    exact Function.update_of_ne (h.not_held (.inl havailable) hother hholds) _ _
  · intro other otherDispatch _ hother hholds _
    exact h.not_held (.inl havailable) hother hholds
  · intro other hother hfree
    simp only [DoallState.setBlock, DoallState.setDispatch] at hfree ⊢
    by_cases hsame : other = block
    · simp [hsame] at hfree
    · rw [Function.update_of_ne hsame] at hfree ⊢
      exact h.available other hother hfree
  · refine .of_idle hinv.cores hidle hcalls (.inr (.inr rfl)) (fun _ => ?_)
      (fun _ hindex => by simp at hindex) (fun _ i hi => ?_)
    · simpa [DoallState.setBlock, DoallState.setDispatch, DoallDispatch.cores] using
        And.intro hlt hsize
    · simp only [DoallState.setBlock, DoallState.setDispatch, Function.update_self] at hi ⊢
      exact h.available block hlt havailable i hi

/-- A new block. -/
theorem DoallInv.allocate_block (h : DoallInv state)
    (hid : state.dispatches id = some dispatch) (hpoint : dispatch.point = .getArgs) :
    DoallInv { (state.setBlock state.numberOfChunks
        { state.blocks state.numberOfChunks with
          size := dispatch.cores, available := false }).setDispatch id
        { dispatch with block := state.numberOfChunks, point := .initArgs 0 } with
      numberOfChunks := state.numberOfChunks + 1 } := by
  have hinv := h.dispatches id dispatch hid
  obtain ⟨hidle, hcalls⟩ := hinv.get_args hpoint
  refine h.update rfl (fun _ _ => rfl) (fun _ _ => rfl) (Nat.le_succ _) ?_ ?_ ?_ ?_
  · intro other otherDispatch _ hother hholds
    exact Function.update_of_ne (h.not_held (.inr le_rfl) hother hholds) _ _
  · intro other otherDispatch _ hother hholds _
    exact h.not_held (.inr le_rfl) hother hholds
  · intro other hother hfree
    simp only [DoallState.setBlock, DoallState.setDispatch] at hother hfree ⊢
    by_cases hsame : other = state.numberOfChunks
    · simp [hsame] at hfree
    · rw [Function.update_of_ne hsame] at hfree ⊢
      exact h.available other (by omega) hfree
  · refine .of_idle hinv.cores hidle hcalls (.inr (.inl rfl)) (fun _ => ?_) (fun _ _ => ?_)
      (fun hindex => by simp at hindex) <;>
      simp [DoallState.setBlock, DoallState.setDispatch, DoallDispatch.cores]

end DispatchSteps

/-! ## The steps of a task -/

section TaskSteps

variable {state next : DoallState Loop Env} {id i : Nat} {dispatch : DoallDispatch Loop Env}

/-- A dispatch that has submitted a task and not joined it holds its block, with the task's entry
prepared. -/
theorem DispatchPoint.holds_of_pending {point : DispatchPoint} (hsubmitted : point.Submitted i)
    (hopen : ¬ point.Joined i) : point.Holds ∧ point.Initialised i ∧ point.Prepared i := by
  cases point <;>
    simp_all [Submitted, Joined, Holds, Initialised, Prepared, Nat.le_of_lt]

/-- A submitted task that has not released its lock belongs to a dispatch that holds its block and
has not joined the task, and finds its lock taken and its arguments in place. -/
theorem DispatchInv.pending (h : DispatchInv state id dispatch)
    (hsubmitted : state.tasks id i ≠ .notSubmitted) (hrunning : ¬ (state.tasks id i).Finished) :
    i < dispatch.cores ∧ dispatch.point.Submitted i ∧ ¬ dispatch.point.Joined i ∧
      dispatch.point.Holds ∧ ((state.blocks dispatch.block).args i).endLock = some .locked ∧
      ((state.blocks dispatch.block).args i).toLoopCall = dispatch.call i := by
  obtain ⟨hi, hpoint⟩ := (h.tasks i).submitted.mp hsubmitted
  have hopen : ¬ dispatch.point.Joined i := fun hjoined =>
    hrunning ((h.tasks i).joined hi hjoined)
  obtain ⟨hholds, hinit, hprepared⟩ := DispatchPoint.holds_of_pending hpoint hopen
  have hentry := h.entries hholds i (by have := (h.block hholds).2.2; omega) hinit
  exact ⟨hi, hpoint, hopen, hholds, hentry.locked fun hdone => absurd hdone hrunning,
    hentry.prepared hi hprepared⟩

/-- A task moves on without releasing its lock. -/
theorem DispatchInv.set_task (h : DispatchInv state id dispatch) (task : TaskPoint Loop Env)
    (hsubmitted : state.tasks id i ≠ .notSubmitted) (hrunning : ¬ (state.tasks id i).Finished)
    (htask : task ≠ .notSubmitted) (hunfinished : ¬ task.Finished)
    (hcall : ∀ call, task = .running call → call = dispatch.call i)
    (hblocks : next.blocks = state.blocks) (hchunks : next.numberOfChunks = state.numberOfChunks)
    (htasks : next.tasks id = Function.update (state.tasks id) i task)
    (hcalls : ∃ order : List Nat, order.Nodup ∧
      (∀ j, j ∈ order ↔ j < dispatch.cores ∧ (Function.update (state.tasks id) i task j).Called ∨
        j = dispatch.cores ∧ dispatch.point.RanOwn) ∧
      next.calls id = order.map dispatch.call) :
    DispatchInv next id dispatch where
  cores := h.cores
  bounds := h.bounds
  block := by rw [hblocks, hchunks]; exact h.block
  fresh := by rw [hblocks]; exact h.fresh
  entries hholds j hj hinit := by
    rw [hblocks] at hj ⊢
    rw [htasks]
    have hold := h.entries hholds j hj hinit
    have hsame : (Function.update (state.tasks id) i task j).Finished ↔
        (state.tasks id j).Finished := by
      by_cases hsame : j = i
      · subst hsame
        simp [hunfinished, hrunning]
      · simp [hsame]
    exact ⟨hold.coreID, fun hdone => hold.unlocked (hsame.mp hdone), fun hclosed =>
      hold.locked fun hdone => hclosed (hsame.mpr hdone), hold.prepared⟩
  tasks j := by
    rw [htasks]
    by_cases hsame : j = i
    · subst hsame
      rw [Function.update_self]
      have hold := h.tasks j
      exact ⟨⟨fun _ => hold.submitted.mp hsubmitted, fun _ => htask⟩, fun hi hjoined =>
        absurd (hold.joined hi hjoined) hrunning, hcall⟩
    · rw [Function.update_of_ne hsame]
      exact h.tasks j
  calls := by rw [htasks]; exact hcalls

/-- A task that moves on without releasing its lock keeps the invariant. -/
theorem DoallInv.set_task (h : DoallInv state) (hid : state.dispatches id = some dispatch)
    (hholds : dispatch.point.Holds) (hdispatches : next.dispatches = state.dispatches)
    (hblocks : next.blocks = state.blocks) (hchunks : next.numberOfChunks = state.numberOfChunks)
    (htasks : ∀ other, other ≠ id → next.tasks other = state.tasks other)
    (hcalls : ∀ other, other ≠ id → next.calls other = state.calls other)
    (hself : DispatchInv next id dispatch) : DoallInv next := by
  refine h.update_held dispatch hid hholds rfl
    (by rw [hdispatches, ← hid, Function.update_eq_self]) htasks
    hcalls hchunks (fun _ _ => by rw [hblocks]) (fun hfree => ?_) hself
  rw [hblocks, ((h.dispatches id dispatch hid).block hholds).2.1] at hfree
  cases hfree

/-- The trampoline reads the arguments of the task's own dispatch. -/
theorem DoallInv.start (h : DoallInv state) (hid : state.dispatches id = some dispatch)
    (htask : state.tasks id i = .queued) :
    DoallInv (state.setTask id i
      (.running ((state.blocks dispatch.block).args i).toLoopCall)) := by
  have hinv := h.dispatches id dispatch hid
  have hsubmitted : state.tasks id i ≠ .notSubmitted := by simp [htask]
  have hrunning : ¬ (state.tasks id i).Finished := by simp [htask, TaskPoint.Finished]
  obtain ⟨-, -, -, hholds, -, hcall⟩ := hinv.pending hsubmitted hrunning
  refine h.set_task hid hholds rfl rfl rfl
    (fun other hne => by simp [DoallState.setTask, hne]) (fun _ _ => rfl) ?_
  refine hinv.set_task (.running ((state.blocks dispatch.block).args i).toLoopCall) hsubmitted
    hrunning (by simp) (fun hdone => hdone.elim) ?_ rfl rfl (by simp [DoallState.setTask]) ?_
  · rintro call hrun
    simp only [TaskPoint.running.injEq] at hrun
    rw [← hrun, hcall]
  · obtain ⟨order, hnodup, hmem, hcalls⟩ := hinv.calls
    refine ⟨order, hnodup, fun j => (hmem j).trans ?_, hcalls⟩
    by_cases hsame : j = i
    · subst hsame
      simp [htask, TaskPoint.Called]
    · simp [hsame]

/-- The task's call of the loop body. -/
theorem DoallInv.call (h : DoallInv state) {call : LoopCall Loop Env}
    (htask : state.tasks id i = .running call) :
    DoallInv ((state.setTask id i .called).logCall id call) := by
  have hsubmitted : state.tasks id i ≠ .notSubmitted := by simp [htask]
  have hrunning : ¬ (state.tasks id i).Finished := by simp [htask, TaskPoint.Finished]
  obtain ⟨dispatch, hid⟩ : ∃ dispatch, state.dispatches id = some dispatch := by
    by_contra hnone
    have := (h.idle id (by simpa [Option.eq_none_iff_forall_ne_some] using hnone)).1 i
    exact hsubmitted this
  have hinv := h.dispatches id dispatch hid
  obtain ⟨hi, -, -, hholds, -, -⟩ := hinv.pending hsubmitted hrunning
  refine h.set_task hid hholds rfl rfl rfl
    (fun other hne => by simp [DoallState.setTask, DoallState.logCall, hne])
    (fun other hne => by simp [DoallState.setTask, DoallState.logCall, hne]) ?_
  refine hinv.set_task .called hsubmitted hrunning (by simp) (fun hdone => hdone.elim) (by simp)
    rfl rfl (by simp [DoallState.setTask, DoallState.logCall]) ?_
  obtain ⟨order, hnodup, hmem, hcalls⟩ := hinv.calls
  refine ⟨order ++ [i], ?_, fun j => ?_, ?_⟩
  · have hnew : i ∉ order := by
      rw [hmem, htask]
      simp only [TaskPoint.Called, and_false, false_or, not_and]
      omega
    rw [← List.concat_eq_append]
    exact List.Nodup.concat hnew hnodup
  · rw [List.mem_append, hmem, List.mem_singleton]
    by_cases hsame : j = i
    · subst hsame
      simp [TaskPoint.Called, hi]
    · simp [hsame]
  · simp only [DoallState.logCall, DoallState.setTask, Function.update_self, hcalls,
      List.map_append, List.map_cons, List.map_nil, (hinv.tasks i).running call htask]

/-- The trampoline releases a lock that is taken, of an entry its dispatch has not joined. -/
theorem DoallInv.unlock (h : DoallInv state) (hid : state.dispatches id = some dispatch)
    (htask : state.tasks id i = .called) :
    DoallInv ((state.setArgs dispatch.block i
      { (state.blocks dispatch.block).args i with endLock := some .unlocked }).setTask id i
        .finished) := by
  have hinv := h.dispatches id dispatch hid
  have hsubmitted : state.tasks id i ≠ .notSubmitted := by simp [htask]
  have hrunning : ¬ (state.tasks id i).Finished := by simp [htask, TaskPoint.Finished]
  obtain ⟨hi, hpoint, hopen, hholds, -, -⟩ := hinv.pending hsubmitted hrunning
  have htaken := (hinv.block hholds).2.1
  -- The block is held, so that no other dispatch reads the entry that is written.
  refine h.update_held dispatch hid hholds rfl
    (by simp [DoallState.setTask, DoallState.setArgs, DoallState.setBlock, ← hid])
    (fun other hne => by
      simp [DoallState.setTask, DoallState.setArgs, DoallState.setBlock, hne])
    (fun _ _ => rfl) rfl (fun block hne => ?_) (fun hfree => ?_) ?_
  · simp [DoallState.setTask, DoallState.setArgs, DoallState.setBlock, hne]
  · simp [DoallState.setTask, DoallState.setArgs, DoallState.setBlock, htaken] at hfree
  · constructor
    · exact hinv.cores
    · exact hinv.bounds
    · simpa [DoallState.setTask, DoallState.setArgs, DoallState.setBlock] using hinv.block
    · simpa [DoallState.setTask, DoallState.setArgs, DoallState.setBlock] using hinv.fresh
    · intro _ j hj hinit
      simp only [DoallState.setTask, DoallState.setArgs, DoallState.setBlock,
        Function.update_self] at hj ⊢
      have hold := hinv.entries hholds j hj hinit
      by_cases hsame : j = i
      · subst hsame
        simp only [Function.update_self]
        exact ⟨hold.coreID, fun _ _ => rfl, fun hclosed => absurd (hclosed trivial) hopen,
          hold.prepared⟩
      · simpa [hsame] using hold
    · intro j
      have hold := hinv.tasks j
      simp only [DoallState.setTask, Function.update_self]
      by_cases hsame : j = i
      · subst hsame
        rw [Function.update_self]
        exact ⟨⟨fun _ => ⟨hi, hpoint⟩, fun _ => by simp⟩, fun _ _ => trivial, by simp⟩
      · rw [Function.update_of_ne hsame]
        exact hold
    · obtain ⟨order, hnodup, hmem, hcalls⟩ := hinv.calls
      refine ⟨order, hnodup, fun j => (hmem j).trans ?_, hcalls⟩
      simp only [DoallState.setTask, DoallState.setArgs, DoallState.setBlock,
        Function.update_self]
      by_cases hsame : j = i
      · subst hsame
        simp [htask, TaskPoint.Called]
      · simp [hsame]

end TaskSteps

/-! ## Runs -/

section Runs

variable {state next : DoallState Loop Env} {id : Nat} {maxCores : BitVec 32}

/-- Every step keeps the invariant. -/
theorem DoallInv.step (h : DoallInv state) (hstep : DoallStep state id next) : DoallInv next := by
  cases hstep with
  | reserve parallelizedLoop env maxNumberOfCores chunkSize hnew => exact h.reserve hnew
  | reuseBlock block dispatch hid hpoint hfind => exact h.reuse_block hid hpoint hfind
  | allocateBlock dispatch hid hpoint hfind => exact h.allocate_block hid hpoint
  | initArgs i dispatch hid hpoint hi =>
      exact h.set_args hid (by simp [hpoint, DispatchPoint.Holds]) rfl
        ((h.dispatches id dispatch hid).init_args hpoint hi)
  | gotArgs dispatch hid hpoint =>
      have hinv := h.dispatches id dispatch hid
      have hholds : dispatch.point.Holds := by simp [hpoint, DispatchPoint.Holds]
      refine h.goto hid hholds rfl rfl rfl rfl rfl
        (hinv.goto rfl rfl rfl rfl hholds (Nat.zero_le _) (by simp) ?_ ?_ ?_ ?_ ?_)
      · intro i hi
        rw [hpoint, DispatchPoint.Initialised, ← hinv.fresh _ hpoint]
        exact hi
      all_goals simp [hpoint, DispatchPoint.Prepared, DispatchPoint.Submitted,
        DispatchPoint.Joined, DispatchPoint.RanOwn]
  | prepare i dispatch hid hpoint hi =>
      exact h.set_args hid (by simp [hpoint, DispatchPoint.Holds]) rfl
        ((h.dispatches id dispatch hid).prepare_args hpoint hi)
  | submit i dispatch hid hpoint =>
      have hholds : dispatch.point.Holds := by simp [hpoint, DispatchPoint.Holds]
      refine h.update_held (dispatch.goto (.prepare (i + 1))) hid hholds rfl rfl
        (fun other hne => by simp [DoallState.setTask, DoallState.setDispatch, hne])
        (fun _ _ => rfl) rfl (fun _ _ => rfl) (fun hfree => ?_)
        ((h.dispatches id dispatch hid).submit hpoint)
      simp [DoallState.setTask, DoallState.setDispatch,
        ((h.dispatches id dispatch hid).block hholds).2.1] at hfree
  | submitted dispatch hid hpoint =>
      have hholds : dispatch.point.Holds := by simp [hpoint, DispatchPoint.Holds]
      refine h.goto hid hholds rfl rfl rfl rfl rfl
        ((h.dispatches id dispatch hid).goto rfl rfl rfl rfl hholds trivial (by simp)
          ?_ ?_ ?_ ?_ ?_)
      all_goals simp +contextual [hpoint, DispatchPoint.Initialised, DispatchPoint.Prepared,
        DispatchPoint.Submitted, DispatchPoint.Joined, DispatchPoint.RanOwn]
  | ownCall dispatch hid hpoint =>
      have hholds : dispatch.point.Holds := by simp [hpoint, DispatchPoint.Holds]
      refine h.update_held (dispatch.goto (.join 0)) hid hholds rfl rfl (fun _ _ => rfl)
        (fun other hne => by simp [DoallState.logCall, DoallState.setDispatch, hne])
        rfl (fun _ _ => rfl) (fun hfree => ?_)
        ((h.dispatches id dispatch hid).own_call hpoint)
      simp [DoallState.logCall, DoallState.setDispatch,
        ((h.dispatches id dispatch hid).block hholds).2.1] at hfree
  | join i dispatch hid hpoint hi hlock =>
      exact h.set_args hid (by simp [hpoint, DispatchPoint.Holds]) rfl
        ((h.dispatches id dispatch hid).join_args hpoint hi hlock)
  | joined dispatch hid hpoint =>
      have hholds : dispatch.point.Holds := by simp [hpoint, DispatchPoint.Holds]
      refine h.goto hid hholds rfl rfl rfl rfl rfl
        ((h.dispatches id dispatch hid).goto rfl rfl rfl rfl hholds trivial (by simp)
          ?_ ?_ ?_ ?_ ?_)
      all_goals simp +contextual [hpoint, DispatchPoint.Initialised, DispatchPoint.Prepared,
        DispatchPoint.Submitted, DispatchPoint.Joined, DispatchPoint.RanOwn]
  | releaseCores dispatch hid hpoint =>
      have hholds : dispatch.point.Holds := by simp [hpoint, DispatchPoint.Holds]
      refine h.goto hid hholds rfl rfl rfl rfl rfl
        ((h.dispatches id dispatch hid).goto rfl rfl rfl rfl hholds trivial (by simp)
          ?_ ?_ ?_ ?_ ?_)
      all_goals simp [hpoint, DispatchPoint.Initialised, DispatchPoint.Prepared,
        DispatchPoint.Submitted, DispatchPoint.Joined, DispatchPoint.RanOwn]
  | releaseArgs dispatch hid hpoint => exact h.release_args hid hpoint
  | start i dispatch hid htask => exact h.start hid htask
  | call i call htask => exact h.call htask
  | unlock i dispatch hid htask => exact h.unlock hid htask

/-- The invariant holds in every reachable state. -/
theorem doall_invariant (h : (doallSystem maxCores).Reachable state) : DoallInv state := by
  refine h.invariant _ ?_ fun _ _ _ hinv hstep => hinv.step hstep
  rintro state ⟨-, hchunks, hdispatches, htasks, hcalls⟩
  exact {
    dispatches := fun _ _ hid => by simp [hdispatches] at hid
    idle := fun _ _ => by simp [htasks, hcalls]
    exclusive := fun _ _ _ _ hid => by simp [hdispatches] at hid
    available := fun _ hlt => by omega }

/-- What the dispatcher guarantees: no block is held twice, available blocks are ready, a block
has the entries its holder uses, a dispatch that has returned made the call of every core once,
and a task that has not released its lock yet has its own dispatch still hold the block, with the
task's lock taken and not joined. -/
structure JoinsOwnTasks (state : DoallState Loop Env) : Prop where
  exclusive : ∀ id other dispatch dispatch', state.dispatches id = some dispatch →
    state.dispatches other = some dispatch' → dispatch.point.Holds → dispatch'.point.Holds →
      dispatch.block = dispatch'.block → id = other
  available : ∀ block < state.numberOfChunks, (state.blocks block).available = true →
    (state.blocks block).Ready
  entries : ∀ id dispatch, state.dispatches id = some dispatch → dispatch.point.Holds →
    dispatch.cores ≤ (state.blocks dispatch.block).size ∧
      (state.blocks dispatch.block).available = false
  returned : ∀ id dispatch, state.dispatches id = some dispatch → dispatch.point = .returned →
    (state.calls id).Perm ((List.range dispatch.numCores.toNat).map dispatch.call)
  pending : ∀ id dispatch i, state.dispatches id = some dispatch →
    state.tasks id i ≠ .notSubmitted → ¬ (state.tasks id i).Finished →
      i < dispatch.cores ∧ dispatch.point.Holds ∧ ¬ dispatch.point.Joined i ∧
        ((state.blocks dispatch.block).args i).endLock = some .locked

/-- A dispatch that has returned made the call of every core once. -/
theorem DispatchInv.returned {dispatch : DoallDispatch Loop Env}
    (h : DispatchInv state id dispatch) (hpoint : dispatch.point = .returned) :
    (state.calls id).Perm ((List.range dispatch.numCores.toNat).map dispatch.call) := by
  obtain ⟨order, hnodup, hmem, hcalls⟩ := h.calls
  rw [hcalls]
  refine List.Perm.map _ ((List.perm_ext_iff_of_nodup hnodup List.nodup_range).mpr fun i => ?_)
  have hcalled : i < dispatch.cores → (state.tasks id i).Called := by
    intro hi
    have hdone := (h.tasks i).joined hi (by simp [hpoint, DispatchPoint.Joined])
    cases htask : state.tasks id i <;> simp_all [TaskPoint.Finished, TaskPoint.Called]
  have hcores := h.cores
  rw [hmem, List.mem_range, hpoint]
  simp only [DispatchPoint.RanOwn, and_true]
  constructor
  · rintro (⟨hi, -⟩ | rfl) <;> omega
  · intro hi
    rcases Nat.lt_or_ge i dispatch.cores with hlt | hge
    · exact .inl ⟨hlt, hcalled hlt⟩
    · exact .inr (by omega)

/-- In every interleaving of dispatches and tasks, each dispatch joins exactly its own tasks. -/
theorem doall_joins_own_tasks (maxCores : BitVec 32) (state : DoallState Loop Env)
    (h : (doallSystem maxCores).Reachable state) : JoinsOwnTasks state := by
  have hinv := doall_invariant h
  exact {
    exclusive := hinv.exclusive
    available := hinv.available
    entries := fun id dispatch hid hholds =>
      ⟨((hinv.dispatches id dispatch hid).block hholds).2.2,
        ((hinv.dispatches id dispatch hid).block hholds).2.1⟩
    returned := fun id dispatch hid hpoint => (hinv.dispatches id dispatch hid).returned hpoint
    pending := fun id dispatch i hid hsubmitted hrunning => by
      obtain ⟨hi, -, hopen, hholds, hlocked, -⟩ :=
        (hinv.dispatches id dispatch hid).pending hsubmitted hrunning
      exact ⟨hi, hholds, hopen, hlocked⟩ }

/-- Two cores and one dispatch, run until it returns: its block is back in the pool and both cores
have been called. -/
theorem doall_two_cores :
    ∃ state : DoallState Unit Unit, (doallSystem 2).Reachable state ∧
      (state.dispatches 0).map DoallDispatch.point = some .returned ∧
      (state.blocks 0).available = true ∧ JoinsOwnTasks state := by
  have hinitial : (doallSystem 2).Reachable (⟨.init 2, 0,
      fun _ => ⟨fun _ => ⟨⟨(), (), 0, 0, 0⟩, none⟩, 0, false⟩, fun _ => none,
      fun _ _ => .notSubmitted, fun _ => []⟩ : DoallState Unit Unit) :=
    .initial ⟨rfl, rfl, rfl, rfl, rfl⟩
  have hreserve := hinitial.step (.reserve _ 0 () () 2 1 rfl)
  have hblock := hreserve.step (.allocateBlock _ 0 _ rfl rfl rfl)
  have hinit := hblock.step (.initArgs _ 0 0 _ rfl rfl (by decide))
  have hargs := hinit.step (.gotArgs _ 0 _ rfl rfl)
  have hprepare := hargs.step (.prepare _ 0 0 _ rfl rfl (by decide))
  have hsubmit := hprepare.step (.submit _ 0 0 _ rfl rfl)
  have hstart := hsubmit.step (.start _ 0 0 _ rfl rfl)
  have hsubmitted := hstart.step (.submitted _ 0 _ rfl rfl)
  have hown := hsubmitted.step (.ownCall _ 0 _ rfl rfl)
  have hcall := hown.step (.call _ 0 0 _ rfl)
  have hunlock := hcall.step (.unlock _ 0 0 _ rfl rfl)
  have hjoin := hunlock.step (.join _ 0 0 _ rfl rfl (by decide) rfl)
  have hjoined := hjoin.step (.joined _ 0 _ rfl rfl)
  have hcores := hjoined.step (.releaseCores _ 0 _ rfl rfl)
  have hreturn := hcores.step (.releaseArgs _ 0 _ rfl rfl)
  exact ⟨_, hreturn, rfl, rfl, doall_joins_own_tasks 2 _ hreturn⟩

end Runs

end Gino.Runtime
