import Mathlib.Algebra.BigOperators.Group.Finset.Piecewise
import Mathlib.Data.List.Basic
import Mathlib.Logic.Function.Basic

/-!
# Runs of a transition system

A `System` is a set of initial states together with a step relation labelled by events.
`Reachable` forgets how a state was reached, and `Run` keeps every event together with the
state it happened in, the latest first. The induction rules are `Reachable.invariant`, for a
property every step keeps, and `Run.invariant`, for a property kept only by the steps that
meet a condition.
-/

namespace Gino.Machine

/-- Initial states and labelled steps. Concurrency is interleaving: an event names the party that
moves. -/
structure System (State Event : Type*) where
  Initial : State → Prop
  Step : State → Event → State → Prop

namespace System

variable {State Event : Type*} {system : System State Event}

/-- The states some finite run ends in. -/
inductive Reachable (system : System State Event) : State → Prop where
  | initial {state} : system.Initial state → Reachable system state
  | step {state event next} :
      Reachable system state → system.Step state event next → Reachable system next

/-- `Run system past state` says a run ends in `state` after the events of `past`, each paired with
the state it happened in. The latest event comes first. -/
inductive Run (system : System State Event) : List (State × Event) → State → Prop where
  | initial {state} : system.Initial state → Run system [] state
  | step {past state event next} :
      Run system past state → system.Step state event next →
      Run system ((state, event) :: past) next

/-- A property of the initial states that every step keeps holds in every reachable state. -/
theorem Reachable.invariant (Inv : State → Prop)
    (hinitial : ∀ state, system.Initial state → Inv state)
    (hstep : ∀ state event next, Inv state → system.Step state event next → Inv next)
    {state : State} (h : Reachable system state) : Inv state := by
  induction h with
  | initial h => exact hinitial _ h
  | step _ h ih => exact hstep _ _ _ ih h

/-- The end of a run is reachable. -/
theorem Run.reachable {past : List (State × Event)} {state : State}
    (h : Run system past state) : Reachable system state := by
  induction h with
  | initial h => exact .initial h
  | step _ hstep ih => exact .step ih hstep

/-- Some run ends in every reachable state. -/
theorem Reachable.has_run {state : State} (h : Reachable system state) :
    ∃ past, Run system past state := by
  induction h with
  | initial h => exact ⟨[], .initial h⟩
  | step _ hstep ih =>
      obtain ⟨past, hrun⟩ := ih
      exact ⟨_, .step hrun hstep⟩

/-- If every step that meets `Meets` keeps `Inv`, then a run whose events all meet it ends in a
state with `Inv`. -/
theorem Run.invariant (Inv : State → Prop) {Meets : State → Event → Prop}
    (hinitial : ∀ state, system.Initial state → Inv state)
    (hstep : ∀ state event next, Inv state → Meets state event →
      system.Step state event next → Inv next)
    {past : List (State × Event)} {state : State} (h : Run system past state)
    (hmeets : ∀ entry ∈ past, Meets entry.1 entry.2) : Inv state := by
  induction h with
  | initial h => exact hinitial _ h
  | step _ h ih =>
      exact hstep _ _ _ (ih fun entry he => hmeets entry (by simp [he]))
        (hmeets _ List.mem_cons_self) h

/-- Every event of a run happened in a state that an earlier part of the run ended in. -/
theorem Run.earlier {past : List (State × Event)} {state : State} (h : Run system past state)
    {entry : State × Event} (hentry : entry ∈ past) :
    ∃ earlier, earlier <:+ past ∧ Run system earlier entry.1 := by
  induction h with
  | initial => simp at hentry
  | @step past state event next hrun hstep ih =>
      rcases List.mem_cons.mp hentry with rfl | hentry
      · exact ⟨past, List.suffix_cons _ _, hrun⟩
      · obtain ⟨earlier, hsuffix, hearlier⟩ := ih hentry
        exact ⟨earlier, hsuffix.trans (List.suffix_cons _ _), hearlier⟩

/-- How often an event happened in a run. -/
def occurrences [DecidableEq Event] (past : List (State × Event)) (event : Event) : Nat :=
  past.countP (·.2 = event)

/-- The latest event is one more occurrence of it. -/
theorem occurrences_cons [DecidableEq Event] (past : List (State × Event)) (state : State)
    (event : Event) :
    occurrences ((state, event) :: past) =
      Function.update (occurrences past) event (occurrences past event + 1) := by
  funext other
  by_cases hsame : other = event
  · subst hsame
    simp [occurrences]
  · simp [occurrences, hsame, Ne.symm hsame]

/-- The steps of a run are those of its parties. -/
theorem Run.length_eq_sum [DecidableEq Event] {parties : Finset Event}
    (hparties : ∀ state party next, system.Step state party next → party ∈ parties)
    {past : List (State × Event)} {state : State} (h : Run system past state) :
    past.length = ∑ party ∈ parties, occurrences past party := by
  induction h with
  | initial => simp [occurrences]
  | @step past state party next hrun hstep ih =>
      have hparty := hparties state party next hstep
      rw [occurrences_cons, List.length_cons, ih, Finset.sum_update_of_mem hparty,
        ← Finset.add_sum_erase _ _ hparty, Finset.sdiff_singleton_eq_erase]
      omega

end System

end Gino.Machine
