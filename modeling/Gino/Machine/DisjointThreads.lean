import Gino.Machine.System
import Mathlib.Algebra.Order.BigOperators.Group.Finset
import Mathlib.Data.List.Nodup

/-!
# Threads that access different places

Threads share a memory, and none stores to a place that another one accesses. Then in every
interleaving each thread is where it is on its own, and a place has what the one thread that stores
to it left there (`run_progressed`). So all interleavings in which the threads halt end with one
memory, that of running the threads in any order one after another (`memory_of_order`), and no
interleaving is longer than the threads (`run_bounded`). Workers that run threads from their queues
are an instance of this (`workers_memory`, `workers_bounded`).
-/

namespace Gino.Machine

/-- An instruction of a thread. -/
inductive Instruction (Place Value Private : Type*) where
  | compute (next : Private)
  | load (place : Place) (next : Value → Private)
  | store (place : Place) (value : Value) (next : Private)

/-- Where each thread starts, and the instruction at each private state unless the thread has
halted there. -/
structure Threads (Id Place Value Private : Type*) where
  start : Id → Private
  instruction : Private → Option (Instruction Place Value Private)

namespace Threads

variable {Id Place Value Private : Type*} (threads : Threads Id Place Value Private)

/-! ## A thread on its own -/

section Alone

variable [DecidableEq Place]

/-- The next instruction of a thread. There is none once it has halted. -/
def step (own : Private) (memory : Place → Value) : Option (Private × (Place → Value)) :=
  (threads.instruction own).map fun
    | .compute next => (next, memory)
    | .load place next => (next (memory place), memory)
    | .store place value next => (next, Function.update memory place value)

/-- A thread on its own after this many steps. One that has halted stays. -/
def alone (memory : Place → Value) (id : Id) : Nat → Private × (Place → Value)
  | 0 => (threads.start id, memory)
  | steps + 1 =>
      let state := alone memory id steps
      (threads.step state.1 state.2).getD state

/-- A thread on its own halts within this many steps. -/
def HaltsIn (memory : Place → Value) (id : Id) (steps : Nat) : Prop :=
  threads.instruction (threads.alone memory id steps).1 = none

/-- A thread on its own stores to a place. -/
def Stores (memory : Place → Value) (id : Id) (place : Place) : Prop :=
  ∃ steps value next,
    threads.instruction (threads.alone memory id steps).1 = some (.store place value next)

/-- A thread on its own loads from a place. -/
def Loads (memory : Place → Value) (id : Id) (place : Place) : Prop :=
  ∃ steps next, threads.instruction (threads.alone memory id steps).1 = some (.load place next)

/-- No active thread stores to a place that another one stores to or loads from. -/
def Disjoint (active : Id → Prop) (memory : Place → Value) : Prop :=
  ∀ id other, active id → active other → id ≠ other → ∀ place, threads.Stores memory id place →
    ¬ threads.Stores memory other place ∧ ¬ threads.Loads memory other place

variable {threads} {memory : Place → Value} {id : Id} {steps later : Nat} {place : Place}

/-- A step of a thread on its own. -/
theorem alone_of_step {own : Private × (Place → Value)}
    (h : threads.step (threads.alone memory id steps).1 (threads.alone memory id steps).2 =
      some own) : threads.alone memory id (steps + 1) = own := by
  show (threads.step _ _).getD _ = own
  rw [h]
  rfl

/-- A thread that has halted stays. -/
theorem HaltsIn.alone_eq (h : threads.HaltsIn memory id steps) (hle : steps ≤ later) :
    threads.alone memory id later = threads.alone memory id steps := by
  induction later, hle using Nat.le_induction with
  | base => rfl
  | succ later _ ih =>
      show (threads.step _ _).getD _ = _
      unfold step
      rw [ih, show threads.instruction (threads.alone memory id steps).1 = none from h]
      rfl

/-- A thread halts in one state. -/
theorem HaltsIn.unique (h : threads.HaltsIn memory id steps)
    (hlater : threads.HaltsIn memory id later) :
    threads.alone memory id steps = threads.alone memory id later := by
  rcases Nat.le_total steps later with hle | hle
  · exact (h.alone_eq hle).symm
  · exact hlater.alone_eq hle

/-- A place that a thread does not store to keeps its value. -/
theorem alone_of_not_stores (h : ¬ threads.Stores memory id place) (steps : Nat) :
    (threads.alone memory id steps).2 place = memory place := by
  induction steps with
  | zero => rfl
  | succ steps ih =>
      show ((threads.step _ _).getD _).2 place = memory place
      unfold step
      cases hinstruction : threads.instruction (threads.alone memory id steps).1 with
      | none => exact ih
      | some instruction =>
          cases instruction with
          | compute next | load place next => exact ih
          | store stored value next =>
              have hne : place ≠ stored := by
                rintro rfl
                exact h ⟨steps, value, next, hinstruction⟩
              exact (Function.update_of_ne hne _ _).trans ih

end Alone

/-! ## Interleavings -/

/-- The memory and the private states of the threads. -/
structure State (Id Place Value Private : Type*) where
  memory : Place → Value
  own : Id → Private

variable [DecidableEq Place] [DecidableEq Id]

/-- The interleavings of the active threads. -/
def system (active : Id → Prop) (memory : Place → Value) :
    System (State Id Place Value Private) Id where
  Initial state := state = ⟨memory, threads.start⟩
  Step state id next := active id ∧ ∃ own memory,
    threads.step (state.own id) state.memory = some (own, memory) ∧
      next = ⟨memory, Function.update state.own id own⟩

/-- Each thread is where it is on its own after as many steps as it made. -/
structure Progressed (active : Id → Prop) (memory : Place → Value) (steps : Id → Nat)
    (state : State Id Place Value Private) : Prop where
  own : ∀ id, state.own id = (threads.alone memory id (steps id)).1
  stored : ∀ id, active id → ∀ place, threads.Stores memory id place →
    state.memory place = (threads.alone memory id (steps id)).2 place
  others : ∀ place, (∀ id, active id → ¬ threads.Stores memory id place) →
    state.memory place = memory place

variable {threads} {active : Id → Prop} {memory : Place → Value} {steps : Id → Nat}
  {state : State Id Place Value Private} {id : Id}

omit [DecidableEq Id] in
/-- A thread finds what it has on its own in the places that it loads from. -/
theorem Progressed.loaded (h : threads.Progressed active memory steps state)
    (hdisjoint : threads.Disjoint active memory) (hid : active id) {place : Place}
    (hloads : threads.Loads memory id place) :
    state.memory place = (threads.alone memory id (steps id)).2 place := by
  by_cases hstores : threads.Stores memory id place
  · exact h.stored id hid place hstores
  · rw [alone_of_not_stores hstores]
    refine h.others place fun other hother hstored => ?_
    by_cases hsame : other = id
    · exact hstores (hsame ▸ hstored)
    · exact (hdisjoint other id hother hid hsame place hstored).2 hloads

omit [DecidableEq Id] in
/-- A thread does what it does on its own. -/
theorem Progressed.step_alone (h : threads.Progressed active memory steps state)
    (hdisjoint : threads.Disjoint active memory) (hid : active id) {own : Private}
    {after : Place → Value} (hstep : threads.step (state.own id) state.memory = some (own, after)) :
    own = (threads.alone memory id (steps id + 1)).1 ∧
      (∀ place, threads.Stores memory id place →
        after place = (threads.alone memory id (steps id + 1)).2 place) ∧
      ∀ place, ¬ threads.Stores memory id place → after place = state.memory place := by
  have hown := h.own id
  rw [hown] at hstep
  unfold step at hstep
  obtain ⟨instruction, hinstruction, heffect⟩ := Option.map_eq_some_iff.mp hstep
  have halone : ∀ {result}, threads.step (threads.alone memory id (steps id)).1
      (threads.alone memory id (steps id)).2 = some result →
        threads.alone memory id (steps id + 1) = result := alone_of_step
  unfold step at halone
  rw [hinstruction] at halone
  rw [halone rfl]
  cases instruction with
  | compute next =>
      cases heffect
      exact ⟨rfl, h.stored id hid, fun _ _ => rfl⟩
  | load place next =>
      cases heffect
      refine ⟨?_, h.stored id hid, fun _ _ => rfl⟩
      rw [h.loaded hdisjoint hid ⟨steps id, next, hinstruction⟩]
  | store place value next =>
      cases heffect
      refine ⟨rfl, fun other hstores => ?_, fun other hstores => ?_⟩
      · by_cases hsame : other = place
        · subst hsame
          simp
        · dsimp only
          rw [Function.update_of_ne hsame, Function.update_of_ne hsame]
          exact h.stored id hid other hstores
      · refine Function.update_of_ne ?_ _ _
        rintro rfl
        exact hstores ⟨steps id, value, _, hinstruction⟩

/-- A step of a thread is one of its steps on its own. -/
theorem Progressed.step {next : State Id Place Value Private}
    (h : threads.Progressed active memory steps state) (hdisjoint : threads.Disjoint active memory)
    (hstep : (threads.system active memory).Step state id next) :
    threads.Progressed active memory (Function.update steps id (steps id + 1)) next := by
  obtain ⟨hid, own, after, hstep, rfl⟩ := hstep
  obtain ⟨hown, hstored, hothers⟩ := h.step_alone hdisjoint hid hstep
  refine ⟨fun other => ?_, fun other hother place hstores => ?_, fun place hnone => ?_⟩
  · by_cases hsame : other = id
    · subst hsame
      simpa using hown
    · simpa [hsame] using h.own other
  · by_cases hsame : other = id
    · subst hsame
      simpa using hstored place hstores
    · dsimp only
      rw [Function.update_of_ne hsame,
        hothers place (hdisjoint other id hother hid hsame place hstores).1]
      exact h.stored other hother place hstores
  · dsimp only
    rw [hothers place (hnone id hid)]
    exact h.others place hnone

/-- In every interleaving each thread is where it is on its own. -/
theorem run_progressed (hdisjoint : threads.Disjoint active memory)
    {past : List (State Id Place Value Private × Id)}
    (h : (threads.system active memory).Run past state) :
    threads.Progressed active memory (System.occurrences past) state := by
  induction h with
  | initial h =>
      obtain rfl : _ = _ := h
      exact ⟨fun _ => rfl, fun id _ place _ => rfl, fun _ _ => rfl⟩
  | step _ hstep ih =>
      rw [System.occurrences_cons]
      exact ih.step hdisjoint hstep

/-- No thread makes more steps than on its own. -/
theorem run_bounded (hdisjoint : threads.Disjoint active memory) {length : Nat}
    {past : List (State Id Place Value Private × Id)}
    (h : (threads.system active memory).Run past state)
    (hhalts : threads.HaltsIn memory id length) : System.occurrences past id ≤ length := by
  induction h with
  | initial => simp [System.occurrences]
  | @step past state moved next hrun hstep ih =>
      rw [System.occurrences_cons]
      by_cases hsame : id = moved
      · subst hsame
        rw [Function.update_self]
        by_contra hmore
        -- It would have halted before this step.
        have hle : length ≤ System.occurrences past id := by omega
        obtain ⟨-, own, after, hstep, -⟩ := hstep
        rw [(run_progressed hdisjoint hrun).own id, hhalts.alone_eq hle] at hstep
        unfold step at hstep
        rw [show threads.instruction _ = none from hhalts] at hstep
        cases hstep
      · rw [Function.update_of_ne hsame]
        exact ih

/-- The threads that are active have halted. -/
def AllHalted (threads : Threads Id Place Value Private) (active : Id → Prop)
    (state : State Id Place Value Private) : Prop :=
  ∀ id, active id → threads.instruction (state.own id) = none

/-- All interleavings in which the threads halt end with the same memory. -/
theorem memory_unique (hdisjoint : threads.Disjoint active memory)
    {other : State Id Place Value Private}
    (h : (threads.system active memory).Reachable state) (hhalted : AllHalted threads active state)
    (hother : (threads.system active memory).Reachable other)
    (hotherHalted : AllHalted threads active other) : state.memory = other.memory := by
  obtain ⟨past, hrun⟩ := h.has_run
  obtain ⟨otherPast, hotherRun⟩ := hother.has_run
  have hprogressed := run_progressed hdisjoint hrun
  have hotherProgressed := run_progressed hdisjoint hotherRun
  funext place
  by_cases hstores : ∃ id, active id ∧ threads.Stores memory id place
  · obtain ⟨id, hid, hstores⟩ := hstores
    have hhalts : threads.HaltsIn memory id (System.occurrences past id) := by
      unfold HaltsIn
      rw [← hprogressed.own]
      exact hhalted id hid
    have hotherHalts : threads.HaltsIn memory id (System.occurrences otherPast id) := by
      unfold HaltsIn
      rw [← hotherProgressed.own]
      exact hotherHalted id hid
    rw [hprogressed.stored id hid place hstores, hotherProgressed.stored id hid place hstores,
      hhalts.unique hotherHalts]
  · push Not at hstores
    rw [hprogressed.others place hstores, hotherProgressed.others place hstores]

/-! ## One thread after another -/

/-- Running the threads of a list one after another, each until it halts. -/
inductive RunsInOrder (threads : Threads Id Place Value Private) :
    List Id → (Place → Value) → (Place → Value) → Prop where
  | nil (memory : Place → Value) : RunsInOrder threads [] memory memory
  | cons {id : Id} {ids : List Id} {memory final : Place → Value} (steps : Nat)
      (hhalts : threads.HaltsIn memory id steps)
      (hrest : RunsInOrder threads ids (threads.alone memory id steps).2 final) :
      RunsInOrder threads (id :: ids) memory final

/-- A thread that has not started can run on its own. -/
theorem reachable_alone (h : (threads.system active memory).Reachable state) (hid : active id)
    (hstart : state.own id = threads.start id) (steps : Nat) :
    (threads.system active memory).Reachable
      ⟨(threads.alone state.memory id steps).2,
        Function.update state.own id (threads.alone state.memory id steps).1⟩ := by
  induction steps with
  | zero =>
      have hsame : Function.update state.own id (threads.start id) = state.own := by
        rw [← hstart]
        exact Function.update_eq_self id state.own
      show (threads.system active memory).Reachable
        ⟨state.memory, Function.update state.own id (threads.start id)⟩
      rw [hsame]
      exact h
  | succ steps ih =>
      cases hstep : threads.step (threads.alone state.memory id steps).1
          (threads.alone state.memory id steps).2 with
      | none =>
          have hstays : threads.alone state.memory id (steps + 1) =
              threads.alone state.memory id steps := by
            show (threads.step _ _).getD _ = _
            rw [hstep]
            rfl
          rw [hstays]
          exact ih
      | some result =>
          rw [alone_of_step hstep]
          refine ih.step (show (threads.system active memory).Step _ id _ from
            ⟨hid, result.1, result.2, ?_, ?_⟩)
          · dsimp only
            rw [Function.update_self]
            exact hstep
          · dsimp only
            rw [Function.update_idem]

/-- Running the threads of a list one after another is an interleaving. -/
theorem reachable_in_order {ids : List Id} {before final : Place → Value}
    (h : threads.RunsInOrder ids before final) (hnodup : ids.Nodup)
    (hactive : ∀ id ∈ ids, active id)
    (hreach : (threads.system active memory).Reachable state) (hmemory : state.memory = before)
    (hstart : ∀ id ∈ ids, state.own id = threads.start id) :
    ∃ after, (threads.system active memory).Reachable after ∧ after.memory = final ∧
      (∀ id ∈ ids, threads.instruction (after.own id) = none) ∧
      ∀ id ∉ ids, after.own id = state.own id := by
  induction h generalizing state with
  | nil before => exact ⟨state, hreach, hmemory, by simp, fun _ _ => rfl⟩
  | @cons id ids before final steps hhalts hrest ih =>
      subst hmemory
      obtain ⟨hnew, hnodup⟩ := List.nodup_cons.mp hnodup
      have hnext := reachable_alone hreach (hactive id List.mem_cons_self)
        (hstart id List.mem_cons_self) steps
      have hothers : ∀ other, other ≠ id → Function.update state.own id
          (threads.alone state.memory id steps).1 other = state.own other := fun other hne =>
        Function.update_of_ne hne _ _
      obtain ⟨after, hafter, hfinal, hhalted, hkept⟩ := ih hnodup
        (fun other hother => hactive other (List.mem_cons_of_mem _ hother)) hnext rfl
        fun other hother => (hothers other fun heq => hnew (heq ▸ hother)).trans
          (hstart other (List.mem_cons_of_mem _ hother))
      refine ⟨after, hafter, hfinal, fun other hother => ?_, fun other hother => ?_⟩
      · rcases List.mem_cons.mp hother with rfl | hmem
        · rw [hkept other hnew]
          dsimp only
          rw [Function.update_self]
          exact hhalts
        · exact hhalted other hmem
      · rw [hkept other fun hmem => hother (List.mem_cons_of_mem _ hmem)]
        exact hothers other fun heq => hother (heq ▸ List.mem_cons_self)

/-- An interleaving in which the threads halt ends with the memory of running them one after
another. -/
theorem memory_of_order {ids : List Id} {final : Place → Value}
    (hdisjoint : threads.Disjoint active memory) (hnodup : ids.Nodup)
    (hactive : ∀ id, id ∈ ids ↔ active id) (horder : threads.RunsInOrder ids memory final)
    (h : (threads.system active memory).Reachable state)
    (hhalted : AllHalted threads active state) : state.memory = final := by
  have hinitial : (threads.system active memory).Reachable ⟨memory, threads.start⟩ := .initial rfl
  obtain ⟨after, hafter, hfinal, hafterHalted, -⟩ := reachable_in_order horder hnodup
    (fun id hmem => (hactive id).mp hmem) hinitial rfl fun _ _ => rfl
  rw [← hfinal]
  exact memory_unique hdisjoint h hhalted hafter fun id hid =>
    hafterHalted id ((hactive id).mpr hid)

/-- Threads that halt one after another halt on their own. -/
theorem halts_of_order {ids : List Id} {final : Place → Value}
    (hdisjoint : threads.Disjoint (· ∈ ids) memory) (hnodup : ids.Nodup)
    (horder : threads.RunsInOrder ids memory final) :
    ∀ id ∈ ids, ∃ steps, threads.HaltsIn memory id steps := by
  have hinitial : (threads.system (· ∈ ids) memory).Reachable ⟨memory, threads.start⟩ :=
    .initial rfl
  obtain ⟨after, hafter, -, hhalted, -⟩ := reachable_in_order horder hnodup
    (fun _ => id) hinitial rfl fun _ _ => rfl
  obtain ⟨past, hrun⟩ := hafter.has_run
  intro id hid
  refine ⟨System.occurrences past id, ?_⟩
  unfold HaltsIn
  rw [← (run_progressed hdisjoint hrun).own id]
  exact hhalted id hid

/-! ## Workers with queues of threads -/

/-- The threads, and those that each worker has still to run, the current one first. -/
structure WorkersState (Id Place Value Private : Type*) extends
    State Id Place Value Private where
  todo : List (List Id)

/-- A step of a worker: the next instruction of its current thread, or the next thread. The event is
the number of the worker. -/
inductive WorkersStep (threads : Threads Id Place Value Private) :
    WorkersState Id Place Value Private → Nat → WorkersState Id Place Value Private → Prop where
  | step (state : WorkersState Id Place Value Private) (before after : List (List Id)) (id : Id)
      (rest : List Id) (own : Private) (memory : Place → Value)
      (htodo : state.todo = before ++ (id :: rest) :: after)
      (hstep : threads.step (state.own id) state.memory = some (own, memory)) :
      WorkersStep threads state before.length
        { state with memory, own := Function.update state.own id own }
  | next (state : WorkersState Id Place Value Private) (before after : List (List Id)) (id : Id)
      (rest : List Id) (htodo : state.todo = before ++ (id :: rest) :: after)
      (hhalted : threads.instruction (state.own id) = none) :
      WorkersStep threads state before.length { state with todo := before ++ rest :: after }

variable (threads) in
/-- Workers that start with queues of threads. -/
def workersSystem (queues : List (List Id)) (memory : Place → Value) :
    System (WorkersState Id Place Value Private) Nat where
  Initial state := state = ⟨⟨memory, threads.start⟩, queues⟩
  Step := WorkersStep threads

/-- The threads of workers take a run of their own. Those that are not to do any more have halted,
and each of them took one more step of a worker. -/
structure Worked (threads : Threads Id Place Value Private) (queues : List (List Id))
    (memory : Place → Value) (workerSteps : Nat) (past : List (State Id Place Value Private × Id))
    (state : WorkersState Id Place Value Private) : Prop where
  run : (threads.system (· ∈ queues.flatten) memory).Run past state.toState
  queued : ∀ id ∈ state.todo.flatten, id ∈ queues.flatten
  halted : ∀ id ∈ queues.flatten, id ∈ state.todo.flatten ∨
    threads.instruction (state.own id) = none
  length : workerSteps + state.todo.flatten.length = past.length + queues.flatten.length

variable {queues : List (List Id)} {workers : WorkersState Id Place Value Private}

/-- A run of workers is one of their threads. -/
theorem exists_worked {past : List (WorkersState Id Place Value Private × Nat)}
    (h : (threads.workersSystem queues memory).Run past workers) :
    ∃ threadsPast, Worked threads queues memory past.length threadsPast workers := by
  induction h with
  | initial h =>
      obtain rfl : _ = _ := h
      exact ⟨[], .initial rfl, fun _ => id, fun _ => .inl, rfl⟩
  | step _ hstep ih =>
      obtain ⟨threadsPast, hrun, hqueued, hhalted, hlength⟩ := ih
      cases hstep with
      | step before after id rest own memory' htodo hstep =>
          have hmem : id ∈ queues.flatten := hqueued id (by rw [htodo]; simp)
          refine ⟨_, hrun.step (show (threads.system _ memory).Step _ id _ from
            ⟨hmem, own, memory', hstep, rfl⟩), hqueued, fun other hother => ?_, ?_⟩
          · by_cases hsame : other = id
            · exact .inl (by rw [htodo, hsame]; simp)
            · refine (hhalted other hother).imp_right fun hnone => ?_
              dsimp only
              rw [Function.update_of_ne hsame]
              exact hnone
          · rw [List.length_cons, List.length_cons]
            dsimp only at hlength ⊢
            omega
      | next before after id rest htodo hnone =>
          have hsplit : ∀ other, other ∈ (before ++ (id :: rest) :: after).flatten ↔
              other = id ∨ other ∈ (before ++ rest :: after).flatten := by
            intro other
            simp only [List.flatten_append, List.flatten_cons, List.mem_append, List.mem_cons]
            tauto
          refine ⟨threadsPast, hrun, fun other hother => ?_, fun other hother => ?_, ?_⟩
          · refine hqueued other ?_
            rw [htodo, hsplit]
            exact .inr hother
          · rcases hhalted other hother with htodo' | hother
            · rw [htodo, hsplit] at htodo'
              rcases htodo' with rfl | hleft
              · exact .inr hnone
              · exact .inl hleft
            · exact .inr hother
          · rw [htodo] at hlength
            simp only [List.flatten_append, List.flatten_cons, List.length_append,
              List.length_cons] at hlength ⊢
            omega

/-- A worker with a thread to run can step. -/
theorem workers_can_step (h : workers.todo.flatten ≠ []) :
    ∃ worker next, WorkersStep threads workers worker next := by
  obtain ⟨id, hid⟩ := List.exists_mem_of_ne_nil _ h
  obtain ⟨queue, hqueue, hmem⟩ := List.mem_flatten.mp hid
  obtain ⟨before, after, htodo⟩ := List.append_of_mem hqueue
  cases queue with
  | nil => cases hmem
  | cons first rest =>
      cases hstep : threads.step (workers.own first) workers.memory with
      | some result => exact ⟨_, _, .step workers before after first rest _ _ htodo hstep⟩
      | none => exact ⟨_, _, .next workers before after first rest htodo
          (Option.map_eq_none_iff.mp hstep)⟩

/-- No run of workers has more steps than their threads, and one more for each thread. -/
theorem workers_bounded (hdisjoint : threads.Disjoint (· ∈ queues.flatten) memory)
    (hnodup : queues.flatten.Nodup) {length : Id → Nat}
    (hhalts : ∀ id ∈ queues.flatten, threads.HaltsIn memory id (length id))
    {past : List (WorkersState Id Place Value Private × Nat)}
    (h : (threads.workersSystem queues memory).Run past workers) :
    past.length ≤ ∑ id ∈ queues.flatten.toFinset, (length id + 1) := by
  obtain ⟨threadsPast, hworked⟩ := exists_worked h
  have hparties : ∀ state id next, (threads.system (· ∈ queues.flatten) memory).Step state id next →
      id ∈ queues.flatten.toFinset := fun _ _ _ hstep => List.mem_toFinset.mpr hstep.1
  have hthreads : threadsPast.length ≤ ∑ id ∈ queues.flatten.toFinset, length id := by
    rw [hworked.run.length_eq_sum hparties]
    exact Finset.sum_le_sum fun id hid =>
      run_bounded hdisjoint hworked.run (hhalts id (List.mem_toFinset.mp hid))
  have hlength := hworked.length
  rw [Finset.sum_add_distrib, ← Finset.card_eq_sum_ones, List.toFinset_card_of_nodup hnodup]
  omega

/-- Workers that cannot step have the memory of running their threads one after another. -/
theorem workers_memory {ids : List Id} {final : Place → Value}
    (hperm : queues.flatten.Perm ids) (hnodup : ids.Nodup)
    (hdisjoint : threads.Disjoint (· ∈ ids) memory) (horder : threads.RunsInOrder ids memory final)
    {past : List (WorkersState Id Place Value Private × Nat)}
    (h : (threads.workersSystem queues memory).Run past workers)
    (hstuck : ∀ worker next, ¬ WorkersStep threads workers worker next) :
    workers.memory = final := by
  obtain ⟨threadsPast, hworked⟩ := exists_worked h
  have hempty : workers.todo.flatten = [] := by
    by_contra htodo
    obtain ⟨worker, next, hstep⟩ := workers_can_step htodo
    exact hstuck worker next hstep
  have hsame : (· ∈ queues.flatten) = (· ∈ ids) := funext fun id => propext hperm.mem_iff
  have hreach := hworked.run.reachable
  rw [hsame] at hreach
  refine memory_of_order hdisjoint hnodup (fun _ => Iff.rfl) horder hreach fun id hid => ?_
  refine (hworked.halted id (hperm.mem_iff.mpr hid)).resolve_left ?_
  rw [hempty]
  exact List.not_mem_nil

end Threads

end Gino.Machine
