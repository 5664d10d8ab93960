import Gino.Helix.Synchronizations
import Gino.Machine.Counting

/-!
# The events of an iteration

`trace_once` reads the events of a walk off its waits and its only signal: when the segment waits
before its first instruction and signals after its last one, they are a wait, the instructions of
the segment and a signal. `le_count_trace` counts signals from below.
-/

namespace Gino.Helix

open Machine

variable {Block : Type*} {loop : LoopCFG Block} [DecidableEq Block]
  {sync : Synchronizations loop} {ssInstructions : List loop.Instr}

/-- The signals in front of an instruction. -/
def signalsAt (sync : Synchronizations loop) (inst : loop.Instr) : Nat :=
  sync.signals.count ⟨inst, false⟩ + sync.signals.count ⟨inst, true⟩

/-- The walk executes the instructions of the segment only. -/
def executions (ssInstructions path : List loop.Instr) : List (Event loop) :=
  (path.filter (· ∈ ssInstructions)).map .execute

/-- Executions of a walk in two parts. -/
theorem executions_append (first second : List loop.Instr) :
    executions ssInstructions (first ++ second) =
      executions ssInstructions first ++ executions ssInstructions second := by
  simp [executions]

/-- Executions at and after an instruction. -/
theorem executions_cons (inst : loop.Instr) (path : List loop.Instr) :
    executions ssInstructions (inst :: path) =
      (if inst ∈ ssInstructions then [.execute inst] else []) ++
        executions ssInstructions path := by
  unfold executions
  rw [List.filter_cons]
  by_cases hmem : inst ∈ ssInstructions <;> simp [hmem]

/-- A walk without instructions of the segment executes none. -/
theorem executions_eq_nil {path : List loop.Instr} (h : ∀ inst ∈ path, inst ∉ ssInstructions) :
    executions ssInstructions path = [] := by
  simpa [executions] using h

/-- The events of a walk in two parts. -/
theorem trace_append (ssState : Bool) (first second : List loop.Instr) :
    trace sync ssInstructions ssState (first ++ second) =
      trace sync ssInstructions ssState first ++
        trace sync ssInstructions (ssState || first.any (· ∈ sync.waits)) second := by
  induction first generalizing ssState with
  | nil => simp [trace]
  | cons inst rest ih =>
      rw [List.cons_append, trace, trace, ih, List.append_assoc, List.any_cons, Bool.or_assoc]

/-- The events at an instruction without signals. -/
theorem eventsAt_of_no_signals {inst : loop.Instr} (h : signalsAt sync inst = 0) (ssState : Bool) :
    eventsAt sync ssInstructions ssState inst =
      (if inst ∈ sync.waits ∧ ssState = false then [.wait] else []) ++
        (if inst ∈ ssInstructions then [.execute inst] else []) := by
  unfold signalsAt at h
  unfold eventsAt
  rw [Nat.eq_zero_of_add_eq_zero_right h, Nat.eq_zero_of_add_eq_zero_left h]
  simp

/-- After the wait and without signals only the segment shows. -/
theorem trace_after_wait {path : List loop.Instr} (h : ∀ inst ∈ path, signalsAt sync inst = 0) :
    trace sync ssInstructions true path = executions ssInstructions path := by
  induction path with
  | nil => rfl
  | cons inst rest ih =>
      rw [trace, eventsAt_of_no_signals (h inst List.mem_cons_self), executions_cons,
        Bool.true_or, ih fun other hother => h other (List.mem_cons_of_mem _ hother)]
      simp

/-- Every instruction of the segment on the walk comes at or after a wait. -/
def WaitsFirst (sync : Synchronizations loop) (ssInstructions path : List loop.Instr) : Prop :=
  ∀ before inst after, path = before ++ inst :: after → inst ∈ ssInstructions →
    ∃ wait ∈ before ++ [inst], wait ∈ sync.waits

/-- The events of a walk up to and after its first wait. -/
theorem trace_with_wait {path : List loop.Instr} (h : ∀ inst ∈ path, signalsAt sync inst = 0)
    (hfirst : WaitsFirst sync ssInstructions path) (hwait : ∃ wait ∈ path, wait ∈ sync.waits) :
    trace sync ssInstructions false path = .wait :: executions ssInstructions path := by
  induction path with
  | nil => simp at hwait
  | cons inst rest ih =>
      rw [trace, eventsAt_of_no_signals (h inst List.mem_cons_self), executions_cons]
      by_cases hinst : inst ∈ sync.waits
      · rw [if_pos ⟨hinst, rfl⟩, decide_eq_true hinst, Bool.or_true, trace_after_wait
          fun other hother => h other (List.mem_cons_of_mem _ hother)]
        rfl
      · have hsegment : inst ∉ ssInstructions := fun hmem => by
          obtain ⟨wait, hwait, hmem⟩ := hfirst [] inst rest rfl hmem
          exact hinst (List.mem_singleton.mp hwait ▸ hmem)
        have hrest : ∃ wait ∈ rest, wait ∈ sync.waits := by
          obtain ⟨wait, hwait, hmem⟩ := hwait
          exact ⟨wait, (List.mem_cons.mp hwait).resolve_left fun heq => hinst (heq ▸ hmem), hmem⟩
        rw [if_neg fun hboth => hinst hboth.1, if_neg hsegment, decide_eq_false hinst,
          Bool.or_false, ih (fun other hother => h other (List.mem_cons_of_mem _ hother)) ?_ hrest]
        · rfl
        · intro before other after hsplit hother
          obtain ⟨wait, hwait, hmem⟩ := hfirst (inst :: before) other after
            (by rw [hsplit, List.cons_append]) hother
          refine ⟨wait, (List.mem_cons.mp hwait).resolve_left fun heq => hinst (heq ▸ hmem), hmem⟩

/-- A walk without waits does not get to the segment. -/
theorem trace_without_wait {path : List loop.Instr} (h : ∀ inst ∈ path, signalsAt sync inst = 0)
    (hfirst : WaitsFirst sync ssInstructions path) (hwait : ∀ wait ∈ path, wait ∉ sync.waits) :
    trace sync ssInstructions false path = [] ∧ executions ssInstructions path = [] := by
  have hsegment : ∀ inst ∈ path, inst ∉ ssInstructions := by
    intro inst hinst hmem
    obtain ⟨before, after, hsplit⟩ := List.append_of_mem hinst
    obtain ⟨wait, hbefore, hmem⟩ := hfirst before inst after hsplit hmem
    refine hwait wait ?_ hmem
    rw [hsplit]
    simp only [List.mem_append, List.mem_cons] at hbefore ⊢
    tauto
  refine ⟨?_, executions_eq_nil hsegment⟩
  clear hfirst
  induction path with
  | nil => rfl
  | cons inst rest ih =>
      rw [trace, eventsAt_of_no_signals (h inst List.mem_cons_self),
        if_neg fun hboth => hwait inst List.mem_cons_self hboth.1,
        if_neg (hsegment inst List.mem_cons_self),
        decide_eq_false (hwait inst List.mem_cons_self), Bool.or_false,
        ih (fun other hother => h other (List.mem_cons_of_mem _ hother))
          (fun other hother => hwait other (List.mem_cons_of_mem _ hother))
          (fun other hother => hsegment other (List.mem_cons_of_mem _ hother))]
      rfl

/-- A walk with one signal, after its last instruction of the segment and after a wait. -/
theorem trace_once {before after : List loop.Instr} {point : InsertPoint loop}
    (hbefore : ∀ inst ∈ before, signalsAt sync inst = 0)
    (hafter : ∀ inst ∈ after, signalsAt sync inst = 0)
    (hpoint : sync.signals.count point = 1)
    (hother : sync.signals.count ⟨point.inst, !point.afterWait⟩ = 0)
    (hfirst : WaitsFirst sync ssInstructions (before ++ point.inst :: after))
    (hlast : ∀ inst ∈ point.inst :: after, inst ∉ ssInstructions)
    (hwait : (∃ wait ∈ before, wait ∈ sync.waits) ∨
      point.afterWait = true ∧ point.inst ∈ sync.waits) :
    SynchronizedOnce sync ssInstructions (before ++ point.inst :: after) := by
  have hexecutions : executions ssInstructions (before ++ point.inst :: after) =
      executions ssInstructions before := by
    rw [executions_append, executions_eq_nil hlast, List.append_nil]
  have hrest : trace sync ssInstructions true after = [] := by
    rw [trace_after_wait hafter, executions_eq_nil fun inst hinst =>
      hlast inst (List.mem_cons_of_mem _ hinst)]
  have hbefore_first : WaitsFirst sync ssInstructions before := by
    rintro first inst rest rfl hinst
    exact hfirst first inst (rest ++ point.inst :: after) (by simp) hinst
  have hnone : point.inst ∉ ssInstructions := hlast _ List.mem_cons_self
  have hat : ∀ ssState, (ssState = true ∨ point.afterWait = true) →
      eventsAt sync ssInstructions ssState point.inst =
        (if point.inst ∈ sync.waits ∧ ssState = false then [.wait] else []) ++ [.signal] := by
    intro ssState hstate
    obtain ⟨inst, afterWait⟩ := point
    unfold eventsAt
    cases afterWait with
    | true =>
        have hother' : sync.signals.count ⟨inst, false⟩ = 0 := hother
        rw [hpoint, hother', if_neg hnone]
        simp
    | false =>
        have hother' : sync.signals.count ⟨inst, true⟩ = 0 := hother
        have hwaited : ssState = true := by simpa using hstate
        rw [hpoint, hother', if_neg hnone, hwaited]
        simp
  show trace sync ssInstructions false (before ++ point.inst :: after) =
    .wait :: executions ssInstructions (before ++ point.inst :: after) ++ [.signal]
  rw [hexecutions, trace_append, trace, Bool.false_or]
  by_cases hwaited : ∃ wait ∈ before, wait ∈ sync.waits
  · have hany : before.any (· ∈ sync.waits) = true := by simpa using hwaited
    rw [hany, trace_with_wait hbefore hbefore_first hwaited, hat true (.inl rfl), Bool.true_or,
      hrest]
    simp
  · -- The wait and the signal are in front of the same instruction, in this order.
    obtain ⟨hlate, hmem⟩ := hwait.resolve_left hwaited
    have hnowait : ∀ wait ∈ before, wait ∉ sync.waits := fun wait hwait hmem =>
      hwaited ⟨wait, hwait, hmem⟩
    have hany : before.any (· ∈ sync.waits) = false := by simpa using hnowait
    obtain ⟨htrace, hexecutions⟩ := trace_without_wait hbefore hbefore_first hnowait
    rw [hany, htrace, hexecutions, hat false (.inr hlate), if_pos ⟨hmem, rfl⟩, decide_eq_true hmem,
      Bool.or_true, hrest]
    rfl

/-! ## Counting signals -/

/-- Whether an event is a signal. -/
def Event.isSignal : Event loop → Bool
  | .signal => true
  | _ => false

/-- The signals of a walk are those in front of its instructions. -/
theorem count_trace (ssState : Bool) (path : List loop.Instr) :
    (trace sync ssInstructions ssState path).countP Event.isSignal =
      (path.map (signalsAt sync)).sum := by
  have hevents : ∀ ssState inst,
      (eventsAt sync ssInstructions ssState inst).countP Event.isSignal = signalsAt sync inst := by
    intro ssState inst
    unfold eventsAt signalsAt
    simp only [List.countP_append, List.countP_replicate, Event.isSignal, if_true]
    split_ifs <;> simp [Event.isSignal]
  induction path generalizing ssState with
  | nil => rfl
  | cons inst rest ih =>
      rw [trace, List.countP_append, hevents, ih, List.map_cons, List.sum_cons]

/-- The signals in front of an instruction are the insert points with it. -/
theorem signalsAt_eq (inst : loop.Instr) :
    signalsAt sync inst = sync.signals.countP (fun point => point.inst = inst) := by
  unfold signalsAt
  induction sync.signals with
  | nil => rfl
  | cons point points ih =>
      rw [List.count_cons, List.count_cons, List.countP_cons, ← ih]
      obtain ⟨other, afterWait⟩ := point
      by_cases hsame : other = inst
      · subst hsame
        cases afterWait <;> simp <;> omega
      · simp [hsame]

/-- A walk has at least the signals of the insert points on it. -/
theorem le_count_trace (sync : Synchronizations loop) (ssInstructions : List loop.Instr)
    (ssState : Bool) (path : List loop.Instr) :
    sync.signals.countP (fun point => point.inst ∈ path) ≤
      (trace sync ssInstructions ssState path).countP Event.isSignal := by
  rw [count_trace]
  induction path with
  | nil => simp
  | cons inst rest ih =>
      rw [List.map_cons, List.sum_cons, signalsAt_eq]
      exact (countP_mem_cons InsertPoint.inst inst rest sync.signals).trans
        (Nat.add_le_add_left ih _)

/-- Executions are no signals. -/
theorem count_executions (path : List loop.Instr) :
    (executions ssInstructions path).countP Event.isSignal = 0 := by
  refine List.countP_eq_zero.mpr fun event hevent => ?_
  obtain ⟨inst, -, rfl⟩ := List.mem_map.mp hevent
  simp [Event.isSignal]

/-- An iteration synchronized once has one signal. -/
theorem SynchronizedOnce.count {path : List loop.Instr}
    (h : SynchronizedOnce sync ssInstructions path) :
    (trace sync ssInstructions false path).countP Event.isSignal = 1 := by
  have htrace : trace sync ssInstructions false path =
      [.wait] ++ executions ssInstructions path ++ [.signal] := h
  rw [htrace, List.countP_append, List.countP_append, count_executions]
  rfl

/-- A walk that is twice at an instruction with a signal has two signals. -/
theorem two_le_count_trace (ssInstructions : List loop.Instr) (ssState : Bool)
    (before middle after : List loop.Instr) {point : InsertPoint loop}
    (hpoint : point ∈ sync.signals) :
    2 ≤ (trace sync ssInstructions ssState
      (before ++ point.inst :: (middle ++ point.inst :: after))).countP Event.isSignal := by
  have hsignal : 0 < signalsAt sync point.inst := by
    rw [signalsAt_eq]
    exact List.countP_pos_iff.mpr ⟨point, hpoint, decide_eq_true rfl⟩
  rw [count_trace]
  simp only [List.map_append, List.map_cons, List.sum_append, List.sum_cons]
  omega

/-- A walk waits where a wait is injected. -/
theorem exists_wait_of_trace {ssState : Bool} {path : List loop.Instr}
    (h : .wait ∈ trace sync ssInstructions ssState path) : ∃ inst ∈ path, inst ∈ sync.waits := by
  induction path generalizing ssState with
  | nil => simp [trace] at h
  | cons inst rest ih =>
      rw [trace, List.mem_append] at h
      rcases h with hevent | hrest
      · refine ⟨inst, List.mem_cons_self, ?_⟩
        by_contra hwait
        rw [eventsAt, if_neg fun hboth => hwait hboth.1] at hevent
        split_ifs at hevent <;> simp at hevent
      · obtain ⟨wait, hmem, hwait⟩ := ih hrest
        exact ⟨wait, List.mem_cons_of_mem _ hmem, hwait⟩

/-- A synchronized iteration has no signal right before an instruction of the segment. -/
theorem SynchronizedOnce.no_signal {before after : List loop.Instr} {inst : loop.Instr}
    (h : SynchronizedOnce sync ssInstructions (before ++ inst :: after))
    (hinst : inst ∈ ssInstructions) : sync.signals.count ⟨inst, true⟩ = 0 := by
  by_contra hsignal
  obtain ⟨others, hothers⟩ : ∃ others, sync.signals.count ⟨inst, true⟩ = others + 1 :=
    ⟨_, (Nat.succ_pred_eq_of_ne_zero hsignal).symm⟩
  -- The events after that signal end with the last signal.
  obtain ⟨first, rest, hrest, htrace⟩ : ∃ first rest, rest ≠ [] ∧
      trace sync ssInstructions false (before ++ inst :: after) = first ++ .signal :: rest := by
    let ssState := before.any (· ∈ sync.waits)
    refine ⟨trace sync ssInstructions false before ++
      (List.replicate (sync.signals.count ⟨inst, false⟩) .signal ++
        (if inst ∈ sync.waits ∧ ssState = false then [.wait] else [])),
      List.replicate others .signal ++ [.execute inst] ++
        trace sync ssInstructions (ssState || decide (inst ∈ sync.waits)) after, by simp, ?_⟩
    rw [trace_append, Bool.false_or, trace, eventsAt, hothers, if_pos hinst, List.replicate_succ]
    simp only [List.append_assoc, List.cons_append, ssState]
  have hwhole : first ++ .signal :: rest =
      ([.wait] ++ executions ssInstructions (before ++ inst :: after)) ++ [.signal] :=
    htrace.symm.trans h
  obtain ⟨init, last, rfl⟩ := (List.eq_nil_or_concat rest).resolve_left hrest
  rw [List.concat_eq_append, ← List.cons_append, ← List.append_assoc] at hwhole
  obtain ⟨hinit, -⟩ := List.append_inj' hwhole rfl
  have hcount := congrArg (List.countP Event.isSignal) hinit
  rw [List.countP_append, List.countP_append, count_executions, List.countP_cons] at hcount
  simp [Event.isSignal] at hcount

end Gino.Helix
