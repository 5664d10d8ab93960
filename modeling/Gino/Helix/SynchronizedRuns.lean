import Gino.Helix.SynchronizedTask
import Gino.Helix.TaskRuns

/-!
# Synchronized tasks compute the loop

Straight-line code is `Ready` when every segment finds a wait, its accesses and a signal ahead, less
what it has behind it. `run_code` executes such code on its own, `run_pass` an iteration, and
`iteration_ready` and `exit_ready` derive from where the calls stand that an iteration of the loop
and one past its end are ready at the header.
-/

namespace Gino.Helix

open Graph Machine Relation Gino.Runtime

/-- What a segment sees of the code of a core. -/
inductive SegmentEvent where
  | wait
  | access
  | signal
  deriving DecidableEq

section Events

variable {segments : Nat} {Values Content : Type*} (ssID : Fin segments)

/-- Whether an instruction of the task is a wait for the segment. -/
def TaskItem.waitsFor : TaskItem segments Values Content → Bool
  | .call (.wait other) => other = ssID
  | _ => false

/-- A signal is no wait. -/
@[simp] theorem waits_for_signal (other : Fin segments) :
    (.call (.signal other) : TaskItem segments Values Content).waitsFor ssID = false := rfl

/-- An operation is no wait. -/
@[simp] theorem waits_for_operation (inst : Operation segments Values Content) :
    (.operation inst : TaskItem segments Values Content).waitsFor ssID = false := rfl

/-- What the segment sees of an instruction, when it is known whether it has waited. -/
def TaskItem.events (ssState : Bool) : TaskItem segments Values Content → List SegmentEvent
  | .call (.wait other) => if other = ssID ∧ ssState = false then [.wait] else []
  | .call (.signal other) => if other = ssID then [.signal] else []
  | .operation inst => if inst.segment = some ssID then [.access] else []

/-- What the segment sees of straight-line code. -/
def eventsOf : Bool → List (TaskItem segments Values Content) → List SegmentEvent
  | _, [] => []
  | ssState, item :: code =>
      item.events ssID ssState ++ eventsOf (ssState || item.waitsFor ssID) code

/-- Code after code. -/
theorem events_of_append (ssState : Bool) (first second : List (TaskItem segments Values Content)) :
    eventsOf ssID ssState (first ++ second) = eventsOf ssID ssState first ++
      eventsOf ssID (ssState || first.any (·.waitsFor ssID)) second := by
  induction first generalizing ssState with
  | nil => simp [eventsOf]
  | cons item first ih => simp [eventsOf, ih, Bool.or_assoc]

/-- A call of another segment is no wait for this one. -/
theorem waits_for_other {call : Call segments} (h : call.ssID ≠ ssID) :
    (.call call : TaskItem segments Values Content).waitsFor ssID = false := by
  cases call with
  | wait other => exact decide_eq_false h
  | signal other => rfl

/-- A call of another segment is not seen. -/
theorem events_of_other {call : Call segments} (h : call.ssID ≠ ssID) (ssState : Bool)
    (code : List (TaskItem segments Values Content)) :
    eventsOf ssID ssState (.call call :: code) = eventsOf ssID ssState code := by
  have hevents : (.call call : TaskItem segments Values Content).events ssID ssState = [] := by
    cases call with
    | wait other => exact if_neg fun hown => h hown.1
    | signal other => exact if_neg h
  rw [eventsOf, hevents, waits_for_other ssID h, Bool.or_false, List.nil_append]

/-- A segment sees its own calls only. -/
theorem events_of_filter (ssState : Bool) (calls : List (Call segments)) :
    eventsOf ssID ssState
        ((calls.filter (·.ssID = ssID)).map .call : List (TaskItem segments Values Content)) =
      eventsOf ssID ssState (calls.map .call : List (TaskItem segments Values Content)) := by
  induction calls generalizing ssState with
  | nil => rfl
  | cons call calls ih =>
      by_cases hown : call.ssID = ssID
      · rw [List.filter_cons_of_pos (by simpa using hown), List.map_cons, List.map_cons, eventsOf,
          eventsOf, ih]
      · rw [List.filter_cons_of_neg (by simpa using hown), ih, List.map_cons,
          events_of_other ssID hown]

/-- Only its own calls are waits for it. -/
theorem waits_for_filter (calls : List (Call segments)) :
    ((calls.filter (·.ssID = ssID)).map .call : List (TaskItem segments Values Content)).any
        (·.waitsFor ssID) =
      (calls.map .call : List (TaskItem segments Values Content)).any (·.waitsFor ssID) := by
  induction calls with
  | nil => rfl
  | cons call calls ih =>
      by_cases hown : call.ssID = ssID
      · rw [List.filter_cons_of_pos (by simpa using hown), List.map_cons, List.map_cons,
          List.any_cons, List.any_cons, ih]
      · rw [List.filter_cons_of_neg (by simpa using hown), ih, List.map_cons, List.any_cons,
          waits_for_other ssID hown, Bool.false_or]

/-- Signals of the segment are all seen. -/
theorem events_of_signals (ssState : Bool) (count : Nat) :
    eventsOf ssID ssState ((List.replicate count (.signal ssID)).map .call :
      List (TaskItem segments Values Content)) = List.replicate count .signal := by
  induction count with
  | zero => rfl
  | succ count ih =>
      rw [List.replicate_succ, List.map_cons, eventsOf, List.replicate_succ]
      simp only [TaskItem.waitsFor, Bool.or_false, ih]
      simp [TaskItem.events]

/-- Signals are no waits. -/
theorem waits_for_signals (other : Fin segments) (count : Nat) :
    ((List.replicate count (.signal other)).map .call :
      List (TaskItem segments Values Content)).any (·.waitsFor ssID) = false := by
  simp [TaskItem.waitsFor]

/-- Of waits in a row the first one for the segment is seen, unless it has waited. -/
theorem events_of_waits (ssState : Bool) (others : List (Fin segments)) :
    eventsOf ssID ssState ((others.map .wait).map .call :
      List (TaskItem segments Values Content)) =
        if ssID ∈ others ∧ ssState = false then [.wait] else [] := by
  induction others generalizing ssState with
  | nil => rfl
  | cons other others ih =>
      rw [List.map_cons, List.map_cons, eventsOf, ih]
      by_cases hown : other = ssID
      · cases ssState <;> simp [TaskItem.events, TaskItem.waitsFor, hown]
      · simp [TaskItem.events, TaskItem.waitsFor, hown, Ne.symm hown]

/-- A segment that is not waited for yet is waited for by waits in a row that name it. -/
theorem waits_for_waits {others : List (Fin segments)} (h : ssID ∈ others) :
    ((others.map .wait).map .call : List (TaskItem segments Values Content)).any
      (·.waitsFor ssID) = true := by
  rw [List.any_eq_true]
  exact ⟨.call (.wait ssID), List.mem_map.mpr ⟨_, List.mem_map.mpr ⟨ssID, h, rfl⟩, rfl⟩,
    decide_eq_true rfl⟩

/-- Of signals in a row those of the segment are seen. -/
theorem events_of_signal_each (ssState : Bool) (others : List (Fin segments)) :
    eventsOf ssID ssState ((others.map .signal).map .call :
      List (TaskItem segments Values Content)) =
        List.replicate (others.count ssID) .signal := by
  induction others with
  | nil => rfl
  | cons other others ih =>
      rw [List.map_cons, List.map_cons, eventsOf, waits_for_signal, Bool.or_false, ih]
      by_cases hown : other = ssID
      · simp [TaskItem.events, hown, List.replicate_succ]
      · simp [TaskItem.events, hown]

/-- What the segment sees of operations. -/
theorem events_of_operations (ssState : Bool) (code : List (Operation segments Values Content)) :
    ∃ count, eventsOf ssID ssState (code.map .operation) = List.replicate count .access := by
  induction code with
  | nil => exact ⟨0, rfl⟩
  | cons inst code ih =>
      obtain ⟨count, ih⟩ := ih
      rw [List.map_cons, eventsOf, waits_for_operation, Bool.or_false, ih, TaskItem.events]
      split_ifs
      · exact ⟨count + 1, rfl⟩
      · exact ⟨count, rfl⟩

/-- The segment is accessed where an operation of it is. -/
theorem access_mem_events (ssState : Bool) (code : List (TaskItem segments Values Content)) :
    .access ∈ eventsOf ssID ssState code ↔
      ∃ inst, .operation inst ∈ code ∧ inst.segment = some ssID := by
  induction code generalizing ssState with
  | nil => simp [eventsOf]
  | cons item code ih =>
      rw [eventsOf, List.mem_append, ih]
      cases item with
      | call call =>
          have hnone : SegmentEvent.access ∉
              (.call call : TaskItem segments Values Content).events ssID ssState := by
            cases call <;> (rw [TaskItem.events]; split_ifs <;> simp)
          simp [hnone]
      | operation inst =>
          by_cases hown : inst.segment = some ssID <;> simp [TaskItem.events, hown]

/-- A segment that has not waited is waited for where a wait for it is. -/
theorem wait_mem_events (code : List (TaskItem segments Values Content)) :
    .wait ∈ eventsOf ssID false code ↔ code.any (·.waitsFor ssID) = true := by
  induction code with
  | nil => simp [eventsOf]
  | cons item code ih =>
      rw [eventsOf, List.mem_append, List.any_cons, Bool.or_eq_true, Bool.false_or]
      cases hwait : item.waitsFor ssID with
      | true =>
          have hevents : item.events ssID false = [.wait] := by
            cases item with
            | call call =>
                cases call with
                | wait other => exact if_pos ⟨of_decide_eq_true hwait, rfl⟩
                | signal other => cases hwait
            | operation inst => cases hwait
          simp [hevents]
      | false =>
          have hnone : SegmentEvent.wait ∉ item.events ssID false := by
            cases item with
            | call call =>
                cases call with
                | wait other =>
                    rw [TaskItem.events, if_neg fun hown => of_decide_eq_false hwait hown.1]
                    exact List.not_mem_nil
                | signal other => rw [TaskItem.events]; split_ifs <;> simp
            | operation inst => rw [TaskItem.events]; split_ifs <;> simp
          simp [hnone, ih]

/-- What comes before the first access of a segment is its wait, at most. -/
theorem waits_only {first second : List SegmentEvent} {count : Nat}
    (h : first ++ second = .wait :: (List.replicate count .access ++ [.signal]))
    (hfirst : .access ∉ first) (hsecond : .access ∈ second) : first = [] ∨ first = [.wait] := by
  cases first with
  | nil => exact .inl rfl
  | cons event first =>
      obtain ⟨rfl, hrest⟩ := List.cons.inj h
      cases first with
      | nil => exact .inr rfl
      | cons next first =>
          -- The next one would be an access, or the signal with nothing behind it.
          cases count with
          | zero =>
              obtain ⟨-, hnil⟩ := List.cons.inj hrest
              rw [(List.append_eq_nil_iff.mp hnil).2] at hsecond
              cases hsecond
          | succ count =>
              obtain ⟨rfl, -⟩ := List.cons.inj hrest
              exact absurd (by simp) hfirst

/-- What the segment sees of the exit block. -/
theorem events_of_exit_block (ssState : Bool) :
    eventsOf ssID ssState ((SynchronizedTask.injectWaits segments ++
      SynchronizedTask.injectSignals segments).map .call :
        List (TaskItem segments Values Content)) =
      (if ssState then [] else [.wait]) ++ [.signal] := by
  rw [List.map_append, events_of_append, SynchronizedTask.injectWaits, events_of_waits,
    SynchronizedTask.injectSignals, events_of_signal_each,
    List.count_eq_one_of_mem (List.nodup_finRange segments) (List.mem_finRange ssID)]
  cases ssState <;> simp

end Events

/-! ## The events of an iteration -/

/-- What an event of an iteration is to its segment. -/
def Event.kind {Block : Type*} {loop : LoopCFG Block} : Event loop → SegmentEvent
  | .wait => .wait
  | .signal => .signal
  | .execute _ => .access

section Task

variable {Block : Type*} [DecidableEq Block] {loop : LoopCFG Block} {analyses : Analyses loop}
  {segments : Nat} {Values Content : Type*}
  {task : SynchronizedTask analyses segments Values Content}

namespace SynchronizedTask

/-- A wait for the segment is in front of the instructions where it is injected. -/
theorem waits_for_code (ssID : Fin segments) (inst : loop.Instr) :
    (task.code inst).any (·.waitsFor ssID) = decide (inst ∈ (task.segment ssID).sync.waits) := by
  rw [code, List.any_append, ← waits_for_filter, task.calls_of, callsOf, List.map_append,
    List.map_append, List.any_append, List.any_append, waits_for_signals, waits_for_signals]
  split_ifs with hwait <;> simp [TaskItem.waitsFor, hwait]

/-- What a segment sees of an instruction and the calls in front of it. -/
theorem events_of_code (ssID : Fin segments) (ssState : Bool) (inst : loop.Instr) :
    eventsOf ssID ssState (task.code inst) =
      (eventsAt (task.segment ssID).sync (task.segment ssID).ssInstructions ssState inst).map
        Event.kind := by
  have hcalls : eventsOf ssID ssState ((task.calls inst).map .call :
        List (TaskItem segments Values Content)) =
      List.replicate ((task.segment ssID).sync.signals.count ⟨inst, false⟩) .signal ++
        (if inst ∈ (task.segment ssID).sync.waits ∧ ssState = false then [.wait] else []) ++
        List.replicate ((task.segment ssID).sync.signals.count ⟨inst, true⟩) .signal := by
    rw [← events_of_filter, task.calls_of, callsOf, List.map_append, List.map_append,
      events_of_append, events_of_append, events_of_signals, events_of_signals, waits_for_signals]
    congr 2
    split_ifs with hwait <;> simp_all [eventsOf, TaskItem.events]
  have hown : ∀ waited, eventsOf ssID waited [(.operation (task.program.operation inst) :
      TaskItem segments Values Content)] =
        (if inst ∈ (task.segment ssID).ssInstructions then [Event.execute inst] else []).map
          Event.kind := by
    intro waited
    by_cases hmem : inst ∈ (task.segment ssID).ssInstructions
    · simp [eventsOf, TaskItem.events, hmem, (task.mem_segment ssID inst).mp hmem, Event.kind]
    · have hother : (task.program.operation inst).segment ≠ some ssID := fun hsegment =>
        hmem ((task.mem_segment ssID inst).mpr hsegment)
      simp [eventsOf, TaskItem.events, hmem, hother]
  rw [code, events_of_append, hcalls, hown, eventsAt, List.map_append, List.map_append,
    List.map_append, List.map_replicate, List.map_replicate]
  congr 3
  split_ifs <;> rfl

/-- What a segment sees of the code along a path is the trace of the path. -/
theorem events_of_path (ssID : Fin segments) (ssState : Bool) (path : List loop.Instr) :
    eventsOf ssID ssState (path.flatMap task.code) =
      (trace (task.segment ssID).sync (task.segment ssID).ssInstructions ssState path).map
        Event.kind := by
  induction path generalizing ssState with
  | nil => rfl
  | cons inst path ih =>
      rw [List.flatMap_cons, events_of_append, events_of_code, waits_for_code, ih, trace,
        List.map_append]

/-- What a segment sees of the code behind the exit is what it has not seen yet of a wait, its
accesses and a signal. -/
theorem events_of_exit_code (task : SynchronizedTask analyses segments Values Content)
    (ssID : Fin segments) (ssState : Bool) (values : Values) :
    ∃ count, eventsOf ssID ssState (task.exitCode values) =
      (if ssState then [] else [.wait]) ++ (List.replicate count .access ++ [.signal]) := by
  obtain ⟨count, hcount⟩ := events_of_operations ssID true task.program.lastIteration
  have hwaits : ((injectWaits segments).map .call : List (TaskItem segments Values Content)).any
      (·.waitsFor ssID) = true := waits_for_waits ssID (by simp)
  rw [exitCode, events_of_append, events_of_exit_block]
  by_cases hmissing : task.program.lastIterationIsMissing values
  · refine ⟨count, ?_⟩
    rw [if_pos hmissing, events_of_append, List.any_append, hwaits, Bool.or_true, hcount,
      injectWaits, events_of_waits]
    cases ssState <;> simp
  · refine ⟨0, ?_⟩
    rw [if_neg hmissing]
    simp [eventsOf]

/-- A segment is accessed on a path with an instruction of it. -/
theorem access_mem_path {ssID : Fin segments} {ssState : Bool} {path : List loop.Instr} :
    .access ∈ eventsOf ssID ssState (path.flatMap task.code) ↔
      ∃ inst ∈ path, inst ∈ (task.segment ssID).ssInstructions := by
  rw [access_mem_events]
  constructor
  · intro ⟨operation, hmem, hsegment⟩
    obtain ⟨inst, hinst, hcode⟩ := List.mem_flatMap.mp hmem
    have heq : operation = task.program.operation inst := by simpa [code] using hcode
    exact ⟨inst, hinst, (task.mem_segment ssID inst).mpr (heq ▸ hsegment)⟩
  · intro ⟨inst, hinst, hmem⟩
    exact ⟨_, List.mem_flatMap.mpr ⟨inst, hinst, by simp [code]⟩,
      (task.mem_segment ssID inst).mp hmem⟩

/-! ## Straight-line code -/

/-- What is left of a segment for its stage: a wait before its accesses, and a signal after them. -/
def Remaining : Stage → List SegmentEvent → Prop
  | .before, events => ∃ count, events = .wait :: (List.replicate count .access ++ [.signal])
  | .inside, events => ∃ count, events = List.replicate count .access ++ [.signal]
  | .after, events => events = []

/-- The code ahead of a process holds what is left of every segment. -/
def Ready (stage : Fin segments → Stage) (code : List (TaskItem segments Values Content)) : Prop :=
  ∀ ssID, Remaining (stage ssID) (eventsOf ssID (decide (stage ssID ≠ .before)) code)

variable {stage : Fin segments → Stage}

/-- At the end of the code every segment is behind. -/
theorem Ready.nil (h : Ready stage ([] : List (TaskItem segments Values Content))) :
    stage = fun _ => .after := by
  funext ssID
  have hremaining := h ssID
  cases hstage : stage ssID with
  | before =>
      rw [hstage] at hremaining
      obtain ⟨count, hevents⟩ := hremaining
      simp [eventsOf] at hevents
  | inside =>
      rw [hstage] at hremaining
      obtain ⟨count, hevents⟩ := hremaining
      simp [eventsOf] at hevents
  | after => rfl

/-- Only the segment of a call is concerned by it. -/
theorem Ready.call {call : Call segments} {code : List (TaskItem segments Values Content)}
    (h : Ready stage (.call call :: code)) {value : Stage}
    (hown : Remaining value (eventsOf call.ssID (decide (value ≠ .before)) code)) :
    Ready (Function.update stage call.ssID value) code := by
  intro other
  by_cases hsame : other = call.ssID
  · subst hsame
    rwa [Function.update_self]
  · rw [Function.update_of_ne hsame, ← events_of_other other (Ne.symm hsame)]
    exact h other

/-- A segment that is accessed is not left yet, and what follows is left of it. -/
theorem Remaining.access {value : Stage} {events : List SegmentEvent}
    (h : Remaining value (.access :: events)) : value = .inside ∧ Remaining .inside events := by
  cases value with
  | before =>
      obtain ⟨count, hevents⟩ := h
      cases hevents
  | inside =>
      obtain ⟨count, hevents⟩ := h
      cases count with
      | zero => cases hevents
      | succ count => exact ⟨rfl, count, (List.cons.inj hevents).2⟩
  | after => cases h

/-- A segment that is signalled is left then, and nothing follows. -/
theorem Remaining.signal {value : Stage} {events : List SegmentEvent}
    (h : Remaining value (.signal :: events)) : value = .inside ∧ events = [] := by
  cases value with
  | before =>
      obtain ⟨count, hevents⟩ := h
      cases hevents
  | inside =>
      obtain ⟨count, hevents⟩ := h
      cases count with
      | zero => exact ⟨rfl, (List.cons.inj hevents).2⟩
      | succ count => cases hevents
  | after => cases h

/-- An operation is where its segment has been entered, and keeps code ready. -/
theorem Ready.operation {operation : Operation segments Values Content}
    {code : List (TaskItem segments Values Content)}
    (h : Ready stage (.operation operation :: code)) :
    (∀ ssID, operation.segment = some ssID → stage ssID = .inside) ∧ Ready stage code := by
  have hcode : ∀ ssID,
      eventsOf ssID (decide (stage ssID ≠ .before)) (.operation operation :: code) =
        (if operation.segment = some ssID then [.access] else []) ++
          eventsOf ssID (decide (stage ssID ≠ .before)) code := by
    intro ssID
    rw [eventsOf, waits_for_operation, Bool.or_false, TaskItem.events]
  refine ⟨fun ssID hsegment => ?_, fun ssID => ?_⟩
  · have hremaining := h ssID
    rw [hcode, if_pos hsegment] at hremaining
    exact hremaining.access.1
  · have hremaining := h ssID
    rw [hcode] at hremaining
    split_ifs at hremaining with hsegment
    · obtain ⟨hinside, hrest⟩ := hremaining.access
      rw [hinside] at hrest ⊢
      exact hrest
    · exact hremaining

/-- Ready code does not stop at its first instruction. -/
theorem step_item (task : SynchronizedTask analyses segments Values Content)
    {item : TaskItem segments Values Content}
    {code pending : List (TaskItem segments Values Content)} (h : Ready stage (item :: code))
    (inst : Option loop.Instr) (state : Values × (Fin segments → Content)) :
    ∃ stage', task.processes.alone ⟨⟨state.1, item :: pending, inst⟩, state.2, stage⟩ =
        some ⟨⟨(item.execute state).1, pending, inst⟩, (item.execute state).2, stage'⟩ ∧
      Ready stage' code := by
  cases item with
  | call call =>
      have hown := h call.ssID
      cases call with
      | wait ssID =>
          by_cases hbefore : stage ssID = .before
          · rw [Call.ssID, hbefore] at hown
            obtain ⟨count, hevents⟩ := hown
            refine ⟨_, if_pos hbefore, h.call ⟨count, ?_⟩⟩
            simpa [eventsOf, TaskItem.events, TaskItem.waitsFor, Call.ssID] using hevents
          · -- The segment has been waited for, so the wait is skipped.
            refine ⟨stage, if_neg hbefore, ?_⟩
            have hrest : Remaining (stage ssID)
                (eventsOf ssID (decide (stage ssID ≠ .before)) code) := by
              simpa [eventsOf, TaskItem.events, TaskItem.waitsFor, Call.ssID, hbefore] using hown
            have hready := h.call hrest
            rwa [Call.ssID, Function.update_eq_self] at hready
      | signal ssID =>
          have hsignal : (.call (.signal ssID) : TaskItem segments Values Content).events ssID
            (decide (stage ssID ≠ .before)) = [.signal] := if_pos rfl
          rw [Call.ssID, eventsOf, hsignal, waits_for_signal, Bool.or_false] at hown
          obtain ⟨hinside, hrest⟩ := hown.signal
          refine ⟨_, if_pos hinside, h.call (?_ : Remaining .after _)⟩
          rwa [hinside] at hrest
  | operation operation =>
      obtain ⟨hinside, hready⟩ := h.operation
      cases operation with
      | compute effect => exact ⟨stage, rfl, hready⟩
      | access ssID effect => exact ⟨stage, if_pos (hinside ssID rfl), hready⟩

/-- Ready code is executed to its end. -/
theorem run_code (task : SynchronizedTask analyses segments Values Content)
    {first rest : List (TaskItem segments Values Content)}
    (h : Ready stage (first ++ rest)) (inst : Option loop.Instr)
    (state : Values × (Fin segments → Content)) :
    ∃ stage', task.processes.RunsTo ⟨⟨state.1, first, inst⟩, state.2, stage⟩
        ⟨⟨(executeAll first state).1, [], inst⟩, (executeAll first state).2, stage'⟩ ∧
      Ready stage' rest := by
  induction first generalizing state stage with
  | nil => exact ⟨stage, .refl _, h⟩
  | cons item first ih =>
      obtain ⟨middle, hstep, hmiddle⟩ := task.step_item h inst state
      obtain ⟨last, hrun, hlast⟩ := ih hmiddle (item.execute state)
      exact ⟨last, (Processes.RunsTo.single hstep).trans hrun, hlast⟩

/-! ## An iteration on its own -/

/-- The code that follows an iteration. -/
def endCode (task : SynchronizedTask analyses segments Values Content)
    (pass : Pass loop segments Values Content) : List (TaskItem segments Values Content) :=
  if pass.exits then task.exitCode pass.state.1 else []

/-- The data after an iteration. -/
def endContents (task : SynchronizedTask analyses segments Values Content)
    (pass : Pass loop segments Values Content) : Fin segments → Content :=
  if pass.exits then (task.program.exitState pass.state).2 else pass.state.2

omit [DecidableEq Block] in
/-- Code after code leaves what the second leaves of what the first does. -/
theorem execute_all_append (first second : List (TaskItem segments Values Content))
    (state : Values × (Fin segments → Content)) :
    executeAll (first ++ second) state = executeAll second (executeAll first state) :=
  List.foldl_append

/-- The code of an instruction executes it. -/
theorem execute_code (inst : loop.Instr) (state : Values × (Fin segments → Content)) :
    executeAll (task.code inst) state = (task.program.operation inst).execute state := by
  rw [code, execute_all_append, execute_calls]
  rfl

/-- The code behind the exit executes the last iteration if it is missing. -/
theorem execute_exit_code (state : Values × (Fin segments → Content)) :
    executeAll (task.exitCode state.1) state = task.program.exitState state := by
  rw [exitCode, execute_all_append, execute_calls, SegmentedLoop.exitState]
  split_ifs
  · rw [execute_all_append, execute_calls, executeAll, List.foldl_map]
    rfl
  · rfl

/-- An iteration whose path is ready runs to its end and leaves every segment behind. -/
theorem run_pass {fuel : Nat} {inst : loop.Instr} {state : Values × (Fin segments → Content)}
    {pass : Pass loop segments Values Content}
    (hpass : task.program.iterate fuel inst state = some pass)
    (h : Ready stage (pass.path.flatMap task.code ++ task.endCode pass)) :
    ∃ values, task.processes.RunsTo ⟨task.goTo (.instruction inst) state.1, state.2, stage⟩
      ⟨⟨values, [], none⟩, task.endContents pass, fun _ => .after⟩ := by
  induction fuel generalizing inst state stage pass with
  | zero => cases hpass
  | succ fuel ih =>
      rw [SegmentedLoop.iterate] at hpass
      generalize hafter : (task.program.operation inst).execute state = after at hpass
      -- The code of the instruction, and then the step to what comes after it.
      have hrun : ∀ {rest}, Ready stage (task.code inst ++ rest) → ∃ stage',
          task.processes.RunsTo ⟨task.goTo (.instruction inst) state.1, state.2, stage⟩
            ⟨task.goTo (task.program.next inst after.1) after.1, after.2, stage'⟩ ∧
          Ready stage' rest := by
        intro rest hready
        obtain ⟨stage', hcode, hrest⟩ := task.run_code hready (some inst) state
        rw [execute_code, hafter] at hcode
        exact ⟨stage', hcode.trans (.single rfl), hrest⟩
      split at hpass
      · rename_i next hnext
        obtain ⟨later, hlater, rfl⟩ := Option.map_eq_some_iff.mp hpass
        rw [List.flatMap_cons, List.append_assoc] at h
        obtain ⟨stage', hfirst, hrest⟩ := hrun h
        obtain ⟨values, hlast⟩ := ih hlater hrest
        rw [hnext] at hfirst
        exact ⟨values, hfirst.trans hlast⟩
      · rename_i hnext
        obtain rfl := Option.some.inj hpass
        have hready : Ready stage (task.code inst ++ []) := by simpa [endCode] using h
        obtain ⟨stage', hfirst, hrest⟩ := hrun hready
        rw [hnext, hrest.nil] at hfirst
        exact ⟨after.1, hfirst⟩
      · rename_i hnext
        obtain rfl := Option.some.inj hpass
        have hready : Ready stage (task.code inst ++ (task.exitCode after.1 ++ [])) := by
          simpa [endCode] using h
        obtain ⟨stage', hfirst, hrest⟩ := hrun hready
        rw [hnext] at hfirst
        obtain ⟨last, hexit, hdone⟩ := task.run_code hrest none after
        rw [execute_exit_code, hdone.nil] at hexit
        exact ⟨_, hfirst.trans hexit⟩

/-! ## The paths of iterations -/

/-- Where the program goes on is where the loop does. -/
theorem next_spec (program : SegmentedLoop loop segments Values Content) (inst : loop.Instr)
    (values : Values) :
    match program.next inst values with
    | .instruction next => loop.Step inst next
    | .nextIteration => inst.IsTerminator ∧ some loop.header ∈ loop.successors inst.block
    | .exit => inst.IsTerminator ∧ none ∈ loop.successors inst.block := by
  unfold SegmentedLoop.next
  cases hnext : inst.getNextNonDebugInstruction with
  | some next =>
      unfold LoopCFG.Instr.getNextNonDebugInstruction at hnext
      split_ifs at hnext with hlt
      obtain rfl := Option.some.inj hnext
      exact LoopCFG.step_iff.mpr (.inl ⟨rfl, rfl⟩)
  | none =>
      have hterminator := isTerminator_of_next hnext
      have hbranch := program.branch_mem inst.block values
      dsimp only
      cases hblock : program.branch inst.block values with
      | none =>
          rw [hblock] at hbranch
          exact ⟨hterminator, hbranch⟩
      | some block =>
          rw [hblock] at hbranch
          dsimp only
          split_ifs with hheader
          · exact ⟨hterminator, hheader ▸ hbranch⟩
          · exact LoopCFG.step_iff.mpr (.inr ⟨hterminator, rfl, hbranch, hheader⟩)

/-- An iteration goes from the header to a latch, or to where the loop is left. -/
theorem pass_walk {program : SegmentedLoop loop segments Values Content} {fuel : Nat}
    {inst : loop.Instr} {state : Values × (Fin segments → Content)}
    {pass : Pass loop segments Values Content} (h : program.iterate fuel inst state = some pass) :
    ∃ block, Walk loop.Step pass.path inst (loop.getTerminator block) ∧
      (if pass.exits then none else some loop.header) ∈ loop.successors block := by
  induction fuel generalizing inst state pass with
  | zero => cases h
  | succ fuel ih =>
      rw [SegmentedLoop.iterate] at h
      have hspec := next_spec program inst ((program.operation inst).execute state).1
      split at h
      · rename_i next hnext
        obtain ⟨later, hlater, rfl⟩ := Option.map_eq_some_iff.mp h
        rw [hnext] at hspec
        obtain ⟨block, hwalk, hblock⟩ := ih hlater
        exact ⟨block, hwalk.cons hspec, hblock⟩
      · rename_i hnext
        obtain rfl := Option.some.inj h
        rw [hnext] at hspec
        exact ⟨inst.block, hspec.1.eq ▸ Walk.single inst, hspec.2⟩
      · rename_i hnext
        obtain rfl := Option.some.inj h
        rw [hnext] at hspec
        exact ⟨inst.block, hspec.1.eq ▸ Walk.single inst, hspec.2⟩

omit [DecidableEq Block] in
/-- A walk from the header to the end of the header is in the header. -/
theorem header_walk {path : List loop.Instr}
    (h : Walk loop.Step path (loop.first loop.header) (loop.getTerminator loop.header)) :
    ∀ inst ∈ path, inst.block = loop.header := by
  intro inst hinst
  rcases reflTransGen_iff_eq_or_transGen.mp (h.reaches_target hinst) with heq | hreach
  · exact congrArg LoopCFG.Instr.block heq.symm
  · rcases LoopCFG.reaches_first hreach with ⟨hblock, -⟩ | hfirst
    · exact hblock.symm
    · -- Nothing of an iteration leads back to the header.
      obtain ⟨last, -, hinto⟩ := TransGen.tail'_iff.mp hfirst
      exact absurd hinto LoopCFG.not_step_header

omit [DecidableEq Block] in
/-- An iteration goes on from the end of the header to every instruction of the body. -/
theorem exists_iteration_from_header {path : List loop.Instr}
    (h : Walk loop.Step path (loop.first loop.header) (loop.getTerminator loop.header))
    {inst : loop.Instr} (hblock : inst.block ≠ loop.header) :
    ∃ rest, IterationPath loop (path ++ rest) ∧ inst ∈ rest := by
  have hfirst : TransGen loop.Step (loop.first loop.header) inst :=
    (reflTransGen_iff_eq_or_transGen.mp (LoopCFG.header_reaches inst)).resolve_left
      fun heq => hblock (congrArg LoopCFG.Instr.block heq)
  have hreach : TransGen loop.Step (loop.getTerminator loop.header) inst :=
    (LoopCFG.leaves_terminator hfirst).resolve_left fun hsame => hblock hsame.1
  obtain ⟨next, hnext, hrest⟩ := TransGen.head'_iff.mp hreach
  obtain ⟨latch, hlatch, hlast⟩ := LoopCFG.reaches_latch inst
  obtain ⟨rest, hwalk, hinst, -⟩ := exists_walk_through hrest .refl hlast
  exact ⟨rest, ⟨latch, hlatch, h.append hnext hwalk⟩, hinst⟩

/-- No instruction of a segment is in the header. -/
theorem not_header {ssID : Fin segments} {inst : loop.Instr}
    (h : inst ∈ (task.segment ssID).ssInstructions) : inst.block ≠ loop.header := by
  intro heq
  have hnone := task.program.header_private inst heq
  rw [(task.mem_segment ssID inst).mp h] at hnone
  cases hnone

section Headers

variable (hanalyses : analyses.Documented)

include hanalyses

/-- Every iteration is synchronized once. -/
theorem synchronized (segment : SynchronizedSegment analyses) {path : List loop.Instr}
    (hpath : IterationPath loop path) :
    SynchronizedOnce segment.sync segment.ssInstructions path := by
  have hfrontier := frontier_of_determined hanalyses segment.determined segment.order
    segment.signalsOnce.cycles
  exact segment.signalsOnce.synchronized hanalyses segment.order segment.not_phi hfrontier
    segment.waitsOnce hpath

/-- What a segment sees of an iteration is one wait, its accesses and one signal. -/
theorem events_of_iteration (task : SynchronizedTask analyses segments Values Content)
    (ssID : Fin segments) {path : List loop.Instr}
    (hpath : IterationPath loop path) :
    ∃ count, eventsOf ssID false (path.flatMap task.code) =
      .wait :: (List.replicate count .access ++ [.signal]) := by
  refine ⟨(path.filter (· ∈ (task.segment ssID).ssInstructions)).length, ?_⟩
  have hexecute : ∀ insts : List loop.Instr, (insts.map Event.execute).map Event.kind =
      List.replicate insts.length .access := by
    intro insts
    rw [List.map_map]
    exact List.map_const
  rw [events_of_path, synchronized hanalyses (task.segment ssID) hpath, List.map_append,
    List.map_cons, hexecute]
  rfl

/-- An iteration that goes on to the next one is ready at the header. -/
theorem iteration_ready {fuel : Nat} {state : Values × (Fin segments → Content)}
    {pass : Pass loop segments Values Content}
    (hpass : task.program.iterate fuel (loop.first loop.header) state = some pass)
    (hends : pass.exits = false) :
    Ready (fun _ => .before) (pass.path.flatMap task.code ++ task.endCode pass) := by
  obtain ⟨latch, hwalk, hlatch⟩ := pass_walk hpass
  intro ssID
  rw [hends] at hlatch
  have hend : task.endCode pass = [] := by
    rw [endCode, hends]
    rfl
  rw [hend, List.append_nil]
  exact task.events_of_iteration hanalyses ssID ⟨latch, hlatch, hwalk⟩

/-- In the header a segment is waited for, at most. -/
theorem events_of_header (task : SynchronizedTask analyses segments Values Content)
    (ssID : Fin segments) {path : List loop.Instr}
    (hwalk : Walk loop.Step path (loop.first loop.header) (loop.getTerminator loop.header)) :
    eventsOf ssID false (path.flatMap task.code) =
      if (path.flatMap task.code).any (·.waitsFor ssID) then [.wait] else [] := by
  -- Another iteration goes on from the header to an instruction of the segment.
  obtain ⟨inst, hinst⟩ := List.exists_mem_of_ne_nil _ (task.segment ssID).nonempty
  obtain ⟨rest, hpath, hrest⟩ := exists_iteration_from_header hwalk (not_header hinst)
  obtain ⟨count, hevents⟩ := task.events_of_iteration hanalyses ssID hpath
  rw [List.flatMap_append, events_of_append, Bool.false_or] at hevents
  have hfirst : .access ∉ eventsOf ssID false (path.flatMap task.code) := by
    rw [access_mem_path]
    exact fun ⟨other, hother, hmem⟩ => not_header hmem (header_walk hwalk other hother)
  have hwait := wait_mem_events ssID (path.flatMap task.code)
  rcases waits_only hevents hfirst (access_mem_path.mpr ⟨inst, hrest, hinst⟩) with hnone | hone
  · rw [hnone] at hwait ⊢
    exact (if_neg fun hany => List.not_mem_nil (hwait.mpr hany)).symm
  · rw [hone] at hwait ⊢
    exact (if_pos (hwait.mp (List.mem_singleton_self _))).symm

/-- An iteration whose header leaves the loop is ready at the header: what the header does not wait
for is waited for behind the exit. -/
theorem exit_ready {fuel : Nat} {state : Values × (Fin segments → Content)}
    {pass : Pass loop segments Values Content}
    (hpass : task.program.iterate fuel (loop.first loop.header) state = some pass)
    (hends : pass.exits = true) :
    Ready (fun _ => .before) (pass.path.flatMap task.code ++ task.endCode pass) := by
  obtain ⟨block, hwalk, hexit⟩ := pass_walk hpass
  rw [hends] at hexit
  obtain rfl := task.program.exit_header block hexit
  have hend : task.endCode pass = task.exitCode pass.state.1 := by
    rw [endCode, hends]
    rfl
  intro ssID
  obtain ⟨count, hcode⟩ := task.events_of_exit_code ssID
    ((pass.path.flatMap task.code).any (·.waitsFor ssID)) pass.state.1
  have hbefore : decide ((Stage.before : Stage) ≠ .before) = false := rfl
  refine ⟨count, ?_⟩
  rw [hend, hbefore, events_of_append, task.events_of_header hanalyses ssID hwalk, Bool.false_or,
    hcode]
  split_ifs <;> rfl

end Headers

/-! ## The iterations in order -/

/-- Instructions of no segment leave the data alone. -/
theorem pass_private {program : SegmentedLoop loop segments Values Content} {fuel : Nat}
    {inst : loop.Instr} {state : Values × (Fin segments → Content)}
    {pass : Pass loop segments Values Content} (h : program.iterate fuel inst state = some pass)
    (hprivate : ∀ inst ∈ pass.path, (program.operation inst).segment = none) :
    pass.state.2 = state.2 := by
  induction fuel generalizing inst state pass with
  | zero => cases h
  | succ fuel ih =>
      rw [SegmentedLoop.iterate] at h
      split at h
      · obtain ⟨later, hlater, rfl⟩ := Option.map_eq_some_iff.mp h
        have hrest := ih hlater fun other hother => hprivate other (List.mem_cons_of_mem _ hother)
        exact hrest.trans (Operation.execute_private (hprivate inst List.mem_cons_self) state)
      · obtain rfl := Option.some.inj h
        exact Operation.execute_private (hprivate inst List.mem_cons_self) state
      · obtain rfl := Option.some.inj h
        exact Operation.execute_private (hprivate inst List.mem_cons_self) state

/-- An iteration whose header leaves the loop leaves what is behind the exit. -/
theorem exit_contents {fuel : Nat} {state : Values × (Fin segments → Content)}
    {pass : Pass loop segments Values Content}
    (hpass : task.program.iterate fuel (loop.first loop.header) state = some pass)
    (hends : pass.exits = true)
    (hmissing : task.program.lastIterationIsMissing pass.state.1 = false) :
    task.endContents pass = state.2 := by
  obtain ⟨block, hwalk, hexit⟩ := pass_walk hpass
  rw [hends] at hexit
  obtain rfl := task.program.exit_header block hexit
  rw [endContents, if_pos hends, SegmentedLoop.exitState, if_neg (by simp [hmissing])]
  exact pass_private hpass fun inst hinst =>
    task.program.header_private inst (header_walk hwalk inst hinst)

variable {tripCount count : Nat} {memoryAt : Nat → Fin segments → Content}

/-- Each process runs its iteration to the end, from what the one before it leaves. -/
theorem runs_iteration (hanalyses : analyses.Documented)
    (hsequential : task.program.Sequential tripCount memoryAt)
    (hpast : task.program.CatchesPast (tripCount + 1) count) {j : Nat} (hj : j < count) :
    ∃ values, task.processes.RunsTo
      ⟨task.processes.start j, memoryAt (min j (tripCount + 1)), fun _ => .before⟩
      ⟨⟨values, [], none⟩, memoryAt (min (j + 1) (tripCount + 1)), fun _ => .after⟩ := by
  rcases Nat.lt_trichotomy j tripCount with hlt | rfl | hgt
  · obtain ⟨fuel, path, values, hpass⟩ := hsequential.iterations j hlt
    have hrun := run_pass hpass (iteration_ready hanalyses hpass rfl)
    rw [Nat.min_eq_left (by omega), Nat.min_eq_left (by omega)]
    exact hrun
  · obtain ⟨fuel, path, state, hpass, hcontents⟩ := hsequential.exit
    have hrun := run_pass hpass (exit_ready hanalyses hpass rfl)
    rw [Nat.min_eq_left (by omega), Nat.min_eq_left (by omega), ← hcontents]
    exact hrun
  · obtain ⟨fuel, path, state, hpass, hmissing⟩ :=
      hpast j (by omega) hj (memoryAt (tripCount + 1))
    have hrun := run_pass hpass (exit_ready hanalyses hpass rfl)
    rw [exit_contents hpass rfl hmissing] at hrun
    rw [Nat.min_eq_right (by omega), Nat.min_eq_right (by omega)]
    exact hrun

/-- The iterations run in order. -/
theorem in_order (hanalyses : analyses.Documented)
    (hsequential : task.program.Sequential tripCount memoryAt)
    (hpast : task.program.CatchesPast (tripCount + 1) count) :
    ∃ lengthOf final, InOrder task.processes count
      (fun j => memoryAt (min j (tripCount + 1))) lengthOf final := by
  have hrun : ∀ j, ∃ steps values, j < count → task.processes.aloneFor steps
      ⟨task.processes.start j, memoryAt (min j (tripCount + 1)), fun _ => .before⟩ =
        some ⟨⟨values, [], none⟩, memoryAt (min (j + 1) (tripCount + 1)), fun _ => .after⟩ := by
    intro j
    by_cases hj : j < count
    · obtain ⟨values, steps, hsteps⟩ := runs_iteration hanalyses hsequential hpast hj
      exact ⟨steps, values, fun _ => hsteps⟩
    · exact ⟨0, task.program.start j, fun h => absurd h hj⟩
  choose lengthOf values hruns using hrun
  exact ⟨lengthOf, fun j => ⟨values j, [], none⟩, hruns, fun _ _ => rfl⟩

end SynchronizedTask

end Task

/-! ## The cores -/

section Cores

variable {Block : Type*} [DecidableEq Block] {loop : LoopCFG Block} {analyses : Analyses loop}
  {Values Content : Type*} {dispatch : Dispatch}

/-- The task on the locks of a dispatch. -/
def SynchronizedTask.taskCode
    (task : SynchronizedTask analyses dispatch.numOfsequentialSegments Values Content)
    (tripCount : Nat) :
    TaskCode (TaskLocals loop dispatch.numOfsequentialSegments Values Content) Content :=
  ⟨dispatch, tripCount, task.processes⟩

end Cores

/-! ## A loop that adds its iterations -/

/-- A header and a body with one instruction and the branch back. -/
def sumLoop : LoopCFG (Fin 2) where
  header := 0
  blocks := [0, 1]
  numPHIs block := if block = 0 then 1 else 0
  numOthers block := if block = 1 then 1 else 0
  terminatorIsBranch _ := true
  successors
    | 0 => [some 1, none]
    | 1 => [some 0]
  mem_blocks := by decide
  from_header
    | 0 => .refl
    | 1 => .single (by decide)
  to_latch
    | 0 => ⟨1, by decide, .single (by decide)⟩
    | 1 => ⟨1, by decide, .refl⟩
  simple_edges := by decide
  no_critical_edges := by decide
  latch_successors := by decide

/-- Two iterations. The body adds the iteration to the data of the segment, and the last iteration
adds ten. -/
def sumProgram : SegmentedLoop sumLoop 1 Nat Nat where
  start j := j
  operation inst :=
    if inst = sumLoop.first 1
    then .access (Fin.last 0) fun iteration sum => (iteration, sum + iteration)
    else .compute id
  branch block iteration :=
    if block = 0 then (if iteration < 2 then some 1 else none) else some 0
  lastIterationIsMissing iteration := iteration = 2
  lastIteration := [.access (Fin.last 0) fun iteration sum => (iteration, sum + 10)]
  branch_mem
    | 0, iteration => by
        by_cases hbody : iteration < 2 <;> simp [hbody, sumLoop]
    | 1, _ => List.mem_singleton_self _
  exit_header := by decide
  header_private inst hheader := by
    rw [if_neg]
    · rfl
    · intro heq
      rw [heq] at hheader
      cases hheader

/-- No block goes around the segment. -/
theorem sum_unreachable : instructionsUnreachableToAndFromSS (Analyses.reference sumLoop)
    [sumLoop.first 1] = [] := by
  decide +kernel

/-- The instruction of the segment is on no cycle of an iteration. -/
theorem sum_acyclic : ∀ inst ∈ [sumLoop.first 1], ¬ OnCycle sumLoop.Step inst := by
  intro inst hinst
  obtain rfl := List.mem_singleton.mp hinst
  exact mem_reference_out.not.mp (by decide +kernel)

/-- The segment of the instruction. -/
def sumSegment : SynchronizedSegment (Analyses.reference sumLoop) where
  ssInstructions := [sumLoop.first 1]
  unreachable := []
  frontier := ⟨[sumLoop.first 1], [sumLoop.first 1]⟩
  behindEarlierCode := []
  nonempty := by simp
  not_phi := by decide
  order := ⟨.nil, fun inst => by rw [sum_unreachable]⟩
  determined := by decide +kernel
  waitsOnce := waits_once_of_cycles _ fun inst hinst hcycle =>
    absurd hcycle (sum_acyclic inst hinst)
  signalsOnce := {
    cycles := fun inst hinst hcycle => absurd hcycle (sum_acyclic inst hinst)
    branches := fun inst hinst hterminator => by
      obtain rfl := List.mem_singleton.mp hinst
      exact absurd hterminator (by decide)
    order := fun before inst after hsplit => by simp at hsplit }

/-- Two cores and one segment. -/
def sumDispatch : Dispatch := ⟨2, 1, true, 0⟩

/-- The task of the loop. -/
def sumTask : SynchronizedTask (Analyses.reference sumLoop) sumDispatch.numOfsequentialSegments
    Nat Nat where
  program := sumProgram
  segment _ := sumSegment
  calls := callsInOrder fun _ => sumSegment.sync
  mem_segment ssID inst := by
    have honly : ∀ other : Fin 1, other = 0 := fun other => Subsingleton.elim other 0
    obtain rfl := honly ssID
    by_cases heq : inst = sumLoop.first 1 <;>
      simp [sumSegment, sumProgram, heq, Operation.segment]
  calls_of ssID inst := calls_in_order_of _ ssID inst

/-- What the iterations leave in the segment. -/
def sumContents : Nat → Fin sumDispatch.numOfsequentialSegments → Nat
  | 0, _ => 0
  | 1, _ => 0
  | 2, _ => 1
  | _ + 3, _ => 11

/-- The two iterations and the last one in order. -/
theorem sum_sequential : sumProgram.Sequential 2 sumContents := by
  have hsum : ∀ {contents other : Fin 1 → Nat} {value : Nat}, value = other 0 →
      Function.update contents 0 value = other := by
    intro contents other value hvalue
    funext ssID
    rw [Subsingleton.elim ssID 0, Function.update_self, hvalue]
  constructor
  · intro j hj
    have hnext : Function.update (sumContents j) (0 : Fin 1) (sumContents j (0 : Fin 1) + j) =
        sumContents (j + 1) := by
      match j, hj with
      | 0, _ => exact hsum rfl
      | 1, _ => exact hsum rfl
    refine ⟨4, [sumLoop.first 0, sumLoop.getTerminator 0, sumLoop.first 1,
      sumLoop.getTerminator 1], j, ?_⟩
    rw [← hnext]
    match j, hj with
    | 0, _ => rfl
    | 1, _ => rfl
  · exact ⟨2, [sumLoop.first 0, sumLoop.getTerminator 0], (2, sumContents 2), rfl, hsum rfl⟩

/-- The header finds the loop over in the iteration past the last one. -/
theorem sum_catches_past : sumProgram.CatchesPast 3 4 := by
  intro j hfirst hcount contents
  obtain rfl : j = 3 := by omega
  exact ⟨2, [sumLoop.first 0, sumLoop.getTerminator 0], (3, contents), rfl, rfl⟩

end Gino.Helix
