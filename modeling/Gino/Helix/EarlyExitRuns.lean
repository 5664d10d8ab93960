import Gino.Helix.EarlyExitTurns
import Mathlib.Data.Finset.Max

/-!
# The early exit stops the loop at the sequential exit

`HelixInvariant.step` says that every step keeps the invariant, `HelixInvariant.progress` that some
core can move until all have left, and `early_exit_stops_loop` is the main theorem.
-/

namespace Gino.Helix

open Machine Gino.Runtime

/-! ## One step -/

section Steps

variable {loop : HelixLoop} {exit : Nat} {state next : HelixState} {core : Nat}

/-- A step moves one core. -/
theorem HelixStep.others (hstep : HelixStep loop cacheLineSize state core next) {other : Nat}
    (hne : other ≠ core) :
    next.iteration other = state.iteration other ∧ next.phase other = state.phase other ∧
      next.point other = state.point other := by
  cases hstep <;>
    simp [HelixState.goto, HelixState.enter, HelixState.waited, HelixState.signalled, setPhase, hne]

/-- The core that moves is one of the dispatched ones. -/
theorem HelixStep.core_lt (hstep : HelixStep loop cacheLineSize state core next) :
    core < loop.dispatch.numCores := by
  cases hstep <;> assumption

/-- The flag is only set at the start of the exit block, and the store is all that moves a core
past the flag, except for the end of the failed-check block. -/
theorem HelixStep.flag_cases (hstep : HelixStep loop cacheLineSize state core next) :
    next.loopIsOverFlag = state.loopIsOverFlag ∧
        ((next.point core).PastFlag ↔ (state.point core).PastFlag) ∨
      state.point core = .setFlag ∧ next.loopIsOverFlag = true ∧
        next.point core = .firstSignal ∨
      state.point core = .failed loop.dispatch.numOfsequentialSegments ∧
        next.loopIsOverFlag = state.loopIsOverFlag := by
  cases hstep <;>
    simp [HelixState.goto, HelixState.enter, HelixState.waited, HelixState.signalled,
      Point.PastFlag, *]

/-- Leaving the body is all that takes a loop exit, except for the end of the failed-check
block. -/
theorem HelixStep.exit_cases (hstep : HelixStep loop cacheLineSize state core next) :
    next.loopExits = state.loopExits ∧
        ((next.point core).Exiting ↔ (state.point core).Exiting) ∨
      state.point core = .body ∧ loop.exits (state.iteration core) = true ∧
        next.loopExits = state.loopExits ++ [state.iteration core] ∧
        next.point core = .setFlag ∨
      state.point core = .failed loop.dispatch.numOfsequentialSegments ∧
        next.loopExits = state.loopExits := by
  cases hstep <;>
    simp [HelixState.goto, HelixState.enter, HelixState.waited, HelixState.signalled,
      Point.Exiting, *]

variable (hring : loop.dispatch.LIO = true)
  (hprologue : loop.prologue < loop.dispatch.numOfsequentialSegments)
  (hexit : loop.exits exit = true) (hfirst : ∀ iteration < exit, loop.exits iteration = false)
  (h : HelixInvariant loop exit state) (hstep : HelixStep loop cacheLineSize state core next)

include hfirst in
/-- The first exiting iteration is the only one up to the exit. -/
theorem eq_exit_of_exits {iteration : Nat} (hle : iteration ≤ exit)
    (hexits : loop.exits iteration = true) : iteration = exit := by
  by_contra hne
  simp [hfirst iteration (by omega)] at hexits

include hexit in
/-- An iteration up to the exit that stays in the loop comes before it. -/
theorem lt_exit_of_stays {iteration : Nat} (hle : iteration ≤ exit)
    (hstays : loop.exits iteration = false) : iteration < exit := by
  rcases Nat.lt_or_eq_of_le hle with hlt | rfl
  · exact hlt
  · simp [hexit] at hstays

include hprologue hexit hfirst h hstep

/-- After a step the core that moved is at a point that fits its iteration and phases. -/
theorem HelixInvariant.point_step :
    AtPoint loop exit (next.iteration core) (next.phase core) (next.point core) := by
  have hat := h.points core hstep.core_lt
  cases hstep with
  | headerWait memory hcore hpoint hlock =>
      rw [hpoint] at hat
      simp only [HelixState.goto, HelixState.waited, Function.update_self, AtPoint,
        set_phase_apply, true_and, if_true]
      exact fun ssID hssID hne => by simpa [hne] using hat ssID hssID
  | checkPassed hcore hpoint hflag =>
      have hbeyond := h.flag_at_check hprologue hcore hpoint
      rw [hpoint] at hat
      simp only [HelixState.goto, HelixState.enter, Function.update_self, AtPoint, hat.1]
      simp only [hflag, Bool.false_eq_true, false_iff, not_lt] at hbeyond
      simpa using hbeyond
  | checkFailed hcore hpoint hflag =>
      have hbeyond := (h.flag_at_check hprologue hcore hpoint).mp hflag
      rw [hpoint] at hat
      simpa [HelixState.goto, AtPoint, hat.1] using And.intro hbeyond hat.2
  | bodyWait ssID memory hcore hssID hpoint hphase hlock =>
      rw [hpoint] at hat
      have hne : loop.prologue ≠ ssID := by
        rintro rfl
        exact hat.2.1 hphase
      simpa [HelixState.enter, HelixState.waited, AtPoint, hpoint, hne] using hat
  | bodySignal ssID hcore hssID hpoint hphase hstays =>
      rw [hpoint] at hat
      simp only [HelixState.signalled, hpoint, AtPoint, set_phase_apply, true_and, hphase,
        Phase.leave]
      refine ⟨hat.1, ?_, fun hlast => ?_⟩
      · split_ifs
        · simp
        · exact hat.2.1
      · rw [if_neg]
        · exact hat.2.2 hlast
        · rintro rfl
          simp [hlast, hexit] at hstays
  | nextIteration hcore hpoint hphase hstays =>
      simp [AtPoint]
  | takeExit hcore hpoint hexits =>
      rw [hpoint] at hat
      have hlast := eq_exit_of_exits hfirst hat.1 hexits
      simpa [HelixState.goto, AtPoint] using And.intro hlast (hat.2.2 hlast)
  | setFlag hcore hpoint =>
      rw [hpoint] at hat
      simpa [HelixState.goto, AtPoint] using hat
  | firstSignal hcore hpoint =>
      rw [hpoint] at hat
      simp only [HelixState.goto, HelixState.signalled, Function.update_self, AtPoint,
        set_phase_apply, true_and, if_true, hat.2, Phase.leave]
      exact ⟨hat.1, le_rfl, fun ssID hssID hle => absurd hle (by omega)⟩
  | exitWait ssID memory hcore hpoint hphase hlock =>
      rw [hpoint] at hat
      have hne : loop.prologue ≠ ssID := by
        rintro rfl
        simp [hat.2.1] at hphase
      simp only [HelixState.goto, HelixState.enter, HelixState.waited, Function.update_self,
        AtPoint, set_phase_apply, true_and, if_neg hne]
      obtain ⟨hlast, hafter, hremaining, hwaited⟩ := hat
      refine ⟨hlast, hafter, by omega, fun segment hsegment hle => ?_⟩
      split_ifs with hsame
      · simp
      · exact hwaited segment hsegment (by omega)
  | exitSkip ssID hcore hpoint hphase =>
      rw [hpoint] at hat
      simp only [HelixState.goto, Function.update_self, AtPoint]
      obtain ⟨hlast, hafter, hremaining, hwaited⟩ := hat
      refine ⟨hlast, hafter, by omega, fun segment hsegment hle => ?_⟩
      rcases Nat.lt_or_eq_of_le hle with hlt | rfl
      · exact hwaited segment hsegment hlt
      · exact hphase
  | exitCode hcore hpoint =>
      rw [hpoint] at hat
      simpa [HelixState.goto, AtPoint] using hat
  | exitSignal ssID hcore hssID hpoint =>
      rw [hpoint] at hat
      simp only [HelixState.goto, HelixState.signalled, Function.update_self, AtPoint,
        set_phase_apply, true_and]
      refine ⟨hat.1, ?_, by omega, fun segment hsegment => ?_⟩
      · split_ifs with hsame
        · simp [← hsame, hat.2.1, Phase.leave]
        · exact hat.2.1
      · have hout := hat.2.2.2 segment hsegment
        split_ifs with hsame
        · subst hsame
          cases hcase : state.phase core segment <;> simp_all [Phase.leave]
        · exact hout
  | exitLeave hcore hpoint =>
      rw [hpoint] at hat
      simpa [HelixState.goto, AtPoint, hat.1, hat.2.1] using hat.2.2.2
  | failedSignal ssID hcore hssID hpoint =>
      rw [hpoint] at hat
      simp only [HelixState.goto, HelixState.signalled, Function.update_self, AtPoint,
        set_phase_apply, true_and]
      refine ⟨hat.1, ?_, by omega, fun segment hsegment hne => ?_⟩
      · have hphase := hat.2.1
        by_cases hsame : loop.prologue = ssID
        · subst hsame
          simp [hphase, Phase.leave]
        · rw [if_neg hsame, hphase]
          split_ifs <;> first | rfl | omega
      · have hphase := hat.2.2.2 segment hsegment hne
        split_ifs with hsame
        · subst hsame
          simp [hphase, Phase.leave]
        · exact hphase
  | failedLeave hcore hpoint =>
      rw [hpoint] at hat
      obtain ⟨hbeyond, hphase, -⟩ := hat
      rw [if_neg (by omega)] at hphase
      simp only [HelixState.goto, Function.update_self, AtPoint]
      exact ⟨hbeyond.le, hphase, fun hlast => by omega⟩

omit hexit hfirst in
include hring in
/-- Every step keeps the segments in turn. -/
theorem HelixInvariant.segments_step : SegmentsInTurn loop exit next := by
  have hat := h.points core hstep.core_lt
  cases hstep with
  | headerWait memory hcore hpoint hlock =>
      exact h.segments_header_wait hring hcore hprologue hpoint hlock
  | checkPassed hcore hpoint hflag =>
      exact (h.segments_check hprologue hcore hpoint).1 hflag
  | checkFailed hcore hpoint hflag =>
      exact (h.segments_check hprologue hcore hpoint).2 hflag
  | bodyWait ssID memory hcore hssID hpoint hphase hlock =>
      rw [hpoint] at hat
      have hne : ssID ≠ loop.prologue := by
        rintro rfl
        exact hat.2.1 hphase
      exact (h.segments_waited hring hcore hssID hphase hat.1 hne hlock).enter hne
  | bodySignal ssID hcore hssID hpoint hphase hstays =>
      exact h.segments_signalled hring hcore hssID (.inl hphase) (by simp [hpoint])
  | nextIteration hcore hpoint hphase hstays =>
      exact h.segments_next_iteration hprologue hpoint hphase
  | takeExit hcore hpoint hexits =>
      have hgoto : SegmentsInTurn loop exit (state.goto core .setFlag) := h.segments.goto _
        (by simp [hpoint, Point.Terminal]) (by simp [hpoint])
      exact hgoto.congr rfl rfl rfl rfl (fun _ => id) fun _ => .rfl
  | setFlag hcore hpoint =>
      have hgoto : SegmentsInTurn loop exit (state.goto core .firstSignal) := h.segments.goto _
        (by simp [hpoint, Point.Terminal]) (by simp [hpoint])
      exact hgoto.congr rfl rfl rfl rfl (fun _ => id) fun _ => .rfl
  | firstSignal hcore hpoint =>
      rw [hpoint] at hat
      exact (h.segments_signalled hring hcore hprologue (.inl hat.2) (by simp [hpoint])).goto _
        (by simp [HelixState.signalled, hpoint, Point.Terminal])
        (by simp [HelixState.signalled, hpoint])
  | exitWait ssID memory hcore hpoint hphase hlock =>
      rw [hpoint] at hat
      have hne : ssID ≠ loop.prologue := by
        rintro rfl
        simp [hat.2.1] at hphase
      have hwaited := h.segments_waited hring hcore (by have := hat.2.2.1; omega) hphase hat.1.le
        hne hlock
      exact (hwaited.enter hne).goto _
        (by simp [HelixState.enter, HelixState.waited, hpoint, Point.Terminal])
        (by simp [HelixState.enter, HelixState.waited, hpoint])
  | exitSkip ssID hcore hpoint hphase =>
      exact h.segments.goto _ (by simp [hpoint, Point.Terminal]) (by simp [hpoint])
  | exitCode hcore hpoint =>
      exact h.segments.goto _ (by simp [Point.Terminal]) (by simp [hpoint])
  | exitSignal ssID hcore hssID hpoint =>
      rw [hpoint] at hat
      have hphase : state.phase core ssID = .inside ∨
          state.phase core ssID ≠ .inside ∧ Released loop state core ssID := by
        by_cases hinside : state.phase core ssID = .inside
        · exact .inl hinside
        · exact .inr ⟨hinside, by simp [hpoint, Point.Terminal], by rintro rfl; exact hat.2.1⟩
      exact (h.segments_signalled hring hcore hssID hphase (by simp [hpoint])).goto _
        (by simp [Point.Terminal]) (by simp [HelixState.signalled, hpoint])
  | exitLeave hcore hpoint =>
      exact h.segments.goto _ (by simp [Point.Terminal]) (by simp [hpoint])
  | failedSignal ssID hcore hssID hpoint =>
      rw [hpoint] at hat
      have hphase : state.phase core ssID = .inside ∨
          state.phase core ssID ≠ .inside ∧ Released loop state core ssID := by
        by_cases hsame : ssID = loop.prologue
        · subst hsame
          exact .inl (by simpa using hat.2.1)
        · exact .inr ⟨by simp [hat.2.2.2 ssID hssID hsame], by simp [hpoint, Point.Terminal],
            fun hprologue => absurd hprologue hsame⟩
      exact (h.segments_signalled hring hcore hssID hphase (by simp [hpoint])).goto _
        (by simp [Point.Terminal]) (by simp [HelixState.signalled, hpoint])
  | failedLeave hcore hpoint =>
      exact h.segments.goto _ (by simp [Point.Terminal]) (by simp [hpoint])

omit hprologue hfirst in
/-- After a step every core still runs its own iterations, and none a round beyond the exit. -/
theorem HelixInvariant.iterations_step :
    ∀ other < loop.dispatch.numCores,
      next.iteration other % loop.dispatch.numCores = other ∧
        next.iteration other < exit + loop.dispatch.numCores := by
  intro other hother
  have hbefore := h.iterations other hother
  by_cases hsame : other = core
  · subst hsame
    have hat := h.points other hother
    cases hstep with
    | nextIteration hcore hpoint hphase hstays =>
        rw [hpoint] at hat
        have := lt_exit_of_stays hexit hat.1 hstays
        simp only [Function.update_self, Nat.add_mod_right]
        exact ⟨hbefore.1, by omega⟩
    | _ => exact hbefore
  · rw [(hstep.others hsame).1]
    exact hbefore

omit hprologue hfirst hexit in
/-- After a step the flag still says whether the exiting core has stored to it. -/
theorem HelixInvariant.flag_step :
    next.loopIsOverFlag = true ↔ (next.point (exit % loop.dispatch.numCores)).PastFlag := by
  have hat := h.points core hstep.core_lt
  have hcore := h.exit_core hstep.core_lt
  have hflag := h.flag
  by_cases hsame : exit % loop.dispatch.numCores = core
  · rw [hsame] at hflag hcore ⊢
    rcases hstep.flag_cases with ⟨hkeep, hpast⟩ | ⟨-, hset, hpoint⟩ | ⟨hpoint, -⟩
    · rw [hkeep, hpast, hflag]
    · simp [hset, hpoint, Point.PastFlag]
    · rw [hpoint] at hat
      exact absurd hcore.2 (by have := hat.1; omega)
  · rw [(hstep.others hsame).2.2]
    rcases hstep.flag_cases with ⟨hkeep, -⟩ | ⟨hpoint, -, -⟩ | ⟨-, hkeep⟩
    · rw [hkeep, hflag]
    · rw [hpoint] at hat
      exact absurd (hcore.1 hat.1).symm hsame
    · rw [hkeep, hflag]

omit hprologue hexit in
/-- After a step the exits taken are still those of the exiting core. -/
theorem HelixInvariant.loop_exits_step :
    next.loopExits = [exit] ∧ (next.point (exit % loop.dispatch.numCores)).Exiting ∨
      next.loopExits = [] ∧ ¬ (next.point (exit % loop.dispatch.numCores)).Exiting := by
  have hat := h.points core hstep.core_lt
  have hcore := h.exit_core hstep.core_lt
  have hexits := h.loopExits
  by_cases hsame : exit % loop.dispatch.numCores = core
  · rw [hsame] at hexits hcore ⊢
    rcases hstep.exit_cases with ⟨hkeep, hpoint⟩ | ⟨hpoint, htaken, hlog, hnext⟩ | ⟨hpoint, -⟩
    · rw [hkeep, hpoint]
      exact hexits
    · rw [hpoint] at hat hexits
      have hlast := eq_exit_of_exits hfirst hat.1 htaken
      left
      rw [hlog, hnext]
      simpa [Point.Exiting, hlast] using hexits
    · rw [hpoint] at hat
      exact absurd hcore.2 (by have := hat.1; omega)
  · rw [(hstep.others hsame).2.2]
    rcases hstep.exit_cases with ⟨hkeep, -⟩ | ⟨hpoint, htaken, -, -⟩ | ⟨-, hkeep⟩
    · rw [hkeep]
      exact hexits
    · rw [hpoint] at hat
      exact absurd (hcore.1 (eq_exit_of_exits hfirst hat.1 htaken)).symm hsame
    · rw [hkeep]
      exact hexits

omit hfirst hexit in
/-- After a step no iteration beyond the exit has entered a segment. -/
theorem HelixInvariant.entered_step :
    ∀ ssID < loop.dispatch.numOfsequentialSegments,
      ∀ iteration ∈ next.entries ssID, iteration ≤ exit := by
  have hat := h.points core hstep.core_lt
  have henter : ∀ segment, state.iteration core ≤ exit →
      ∀ ssID < loop.dispatch.numOfsequentialSegments,
        ∀ iteration ∈ (state.enter core segment).entries ssID, iteration ≤ exit := by
    intro segment hle ssID hssID iteration hiteration
    by_cases hsame : ssID = segment
    · subst hsame
      simp only [HelixState.enter, Function.update_self, List.mem_append,
        List.mem_singleton] at hiteration
      rcases hiteration with hold | rfl
      · exact h.entered _ hssID _ hold
      · exact hle
    · simp only [HelixState.enter, Function.update_of_ne hsame] at hiteration
      exact h.entered _ hssID _ hiteration
  cases hstep with
  | checkPassed hcore hpoint hflag =>
      have hbeyond := h.flag_at_check hprologue hcore hpoint
      simp only [hflag, Bool.false_eq_true, false_iff, not_lt] at hbeyond
      exact henter _ hbeyond
  | bodyWait ssID memory hcore hssID hpoint hphase hlock =>
      rw [hpoint] at hat
      exact henter _ hat.1
  | exitWait ssID memory hcore hpoint hphase hlock =>
      rw [hpoint] at hat
      exact henter _ hat.1.le
  | _ => exact h.entered

include hring in
/-- Every step keeps the invariant. -/
theorem HelixInvariant.step : HelixInvariant loop exit next where
  iterations := h.iterations_step hexit hstep
  points other hother := by
    by_cases hsame : other = core
    · subst hsame
      exact h.point_step hprologue hexit hfirst hstep
    · obtain ⟨hiteration, hphase, hpoint⟩ := hstep.others hsame
      rw [hiteration, hphase, hpoint]
      exact h.points other hother
  segments := h.segments_step hring hprologue hstep
  flag := h.flag_step hstep
  loopExits := h.loop_exits_step hfirst hstep
  entered := h.entered_step hprologue hstep

end Steps

/-! ## Runs -/

section Runs

variable {loop : HelixLoop} {exit : Nat} {state : HelixState}

/-- The dispatcher hands the token of every segment to core 0, which runs iteration 0. -/
theorem segments_initial (hring : loop.dispatch.LIO = true) (hcores : 1 ≤ loop.dispatch.numCores) :
    SegmentsInTurn loop exit ⟨loop.dispatch.initialMemory, false, id, fun _ => .header,
      fun _ _ => .before, fun _ => [], []⟩ := by
  intro ssID hssID
  have hslot : ∀ array < loop.dispatch.numCores,
      loop.dispatch.initialMemory (loop.dispatch.slot array ssID) =
        some (if array > 0 then .locked else .unlocked) := fun array harray =>
    Dispatch.initial_memory_slot (by simpa [Dispatch.numOfSSArrays, hring] using harray) hssID
  refine ⟨0, ⟨?_, ?_, ?_⟩, fun _ => by simp [PrologueLog]⟩
  · intro core hcore
    simpa [CoreInTurn] using hcore
  · simpa using hslot 0 hcores
  · intro core hcore hfree
    left
    refine ⟨?_, by simp⟩
    by_contra hne
    have hpos : 0 < loop.dispatch.futureID core := by
      simp only [Nat.zero_mod] at hne
      omega
    have hlt : loop.dispatch.futureID core < loop.dispatch.numCores := by
      have := loop.dispatch.future_id_lt hcores core
      simpa [Dispatch.numOfSSArrays, hring] using this
    simp [hslot _ hlt, hpos] at hfree

/-- The invariant holds in every reachable state. -/
theorem helix_invariant (hring : loop.dispatch.LIO = true) (hcores : 1 ≤ loop.dispatch.numCores)
    (hprologue : loop.prologue < loop.dispatch.numOfsequentialSegments)
    (hexit : loop.exits exit = true) (hfirst : ∀ iteration < exit, loop.exits iteration = false)
    (h : (helixSystem loop cacheLineSize).Reachable state) : HelixInvariant loop exit state := by
  refine h.invariant _ ?_ fun _ _ _ hinv hstep => hinv.step hring hprologue hexit hfirst hstep
  rintro _ rfl
  exact {
    iterations := fun core hcore => ⟨Nat.mod_eq_of_lt hcore, Nat.lt_add_left _ hcore⟩
    points := fun _ _ _ _ => rfl
    segments := segments_initial hring hcores
    flag := by simp [Point.PastFlag]
    loopExits := .inr ⟨rfl, by simp [Point.Exiting]⟩
    entered := by simp }

/-- The iterations that ran the prologue are the first ones, and none beyond the exit. -/
theorem HelixInvariant.prologue_prefix (h : HelixInvariant loop exit state)
    (hprologue : loop.prologue < loop.dispatch.numOfsequentialSegments) :
    state.entries loop.prologue <+: List.range (exit + 1) := by
  obtain ⟨turn, -, hlog⟩ := h.segments _ hprologue
  rw [hlog rfl, Nat.min_comm, ← List.take_range]
  exact List.take_prefix _ _

/-- Once the exiting core has waited for a segment, every iteration before it has signalled the
segment. -/
theorem HelixInvariant.completed (h : HelixInvariant loop exit state) {core ssID iteration : Nat}
    (hcore : core < loop.dispatch.numCores)
    (hssID : ssID < loop.dispatch.numOfsequentialSegments)
    (hlast : state.iteration core = exit) (hpast : (state.point core).PastExitWait ssID)
    (hbefore : iteration < exit) : Completed loop.dispatch state ssID iteration := by
  obtain ⟨turn, hturn, -⟩ := h.segments ssID hssID
  have hphase : state.phase core ssID ≠ .before := by
    have hat := h.points core hcore
    cases hcase : state.point core <;> rw [hcase] at hat hpast <;> try exact hpast.elim
    · exact hat.2.2.2 ssID hssID hpast
    · exact hat.2.2.2 ssID hssID
    · exact hat.2.2 hlast ssID hssID
  have hreached : exit ≤ turn := by
    have hcore_turn := hturn.cores core hcore
    cases hcase : state.phase core ssID <;> rw [hcase] at hcore_turn <;>
      simp only [CoreInTurn] at hcore_turn
    · exact absurd hcase hphase
    · omega
    · omega
  have hlt : iteration % loop.dispatch.numCores < loop.dispatch.numCores :=
    Nat.mod_lt _ (by omega)
  obtain ⟨hmod, -⟩ := h.iterations _ hlt
  have hother := hturn.cores _ hlt
  unfold Completed
  by_contra hnot
  simp only [not_or, not_lt, not_and] at hnot
  obtain ⟨hle, hafter⟩ := hnot
  cases hcase : state.phase (iteration % loop.dispatch.numCores) ssID <;> rw [hcase] at hother <;>
    simp only [CoreInTurn] at hother
  · omega
  · omega
  · rcases Nat.lt_or_eq_of_le hle with hlt | heq
    · have := add_le_of_mod_eq hmod hlt
      omega
    · exact hafter heq hcase

/-! ## Progress -/

/-- The core with the least iteration among those still in the loop finds its lock free. -/
theorem HelixInvariant.lock_free (hring : loop.dispatch.LIO = true)
    (h : HelixInvariant loop exit state) {core ssID : Nat}
    (hcore : core < loop.dispatch.numCores)
    (hssID : ssID < loop.dispatch.numOfsequentialSegments)
    (hleast : ∀ other < loop.dispatch.numCores, state.iteration other < state.iteration core →
      state.point other = .left)
    (hphase : state.phase core ssID = .before)
    (hexit : ssID ≠ loop.prologue → state.iteration core ≤ exit) :
    ∃ memory, takeLock loop cacheLineSize state core ssID = some memory := by
  obtain ⟨turn, hturn, -⟩ := h.segments ssID hssID
  obtain ⟨hmod, hbound⟩ := h.iterations core hcore
  have hcore_turn := hturn.cores core hcore
  rw [hphase] at hcore_turn
  obtain ⟨hle, hlt⟩ := hcore_turn
  have heq : turn = state.iteration core := by
    -- Otherwise the core of the turn is behind this one, and has left the loop.
    by_contra hne
    have hother_lt : turn % loop.dispatch.numCores < loop.dispatch.numCores :=
      Nat.mod_lt _ (by omega)
    obtain ⟨hother_mod, -⟩ := h.iterations _ hother_lt
    have hother := hturn.cores _ hother_lt
    have hbehind : state.iteration (turn % loop.dispatch.numCores) ≤ turn := by
      cases hcase : state.phase (turn % loop.dispatch.numCores) ssID <;> rw [hcase] at hother
      · exact (CoreInTurn.eq_turn hother hother_mod).le
      · exact le_of_eq hother
      · exact hother.1.le
    have hat := h.points _ hother_lt
    rw [hleast _ hother_lt (by omega)] at hat
    obtain ⟨hpast, hafter, -⟩ := hat
    by_cases hsame : ssID = loop.prologue
    · rw [hsame, hafter] at hother
      have := add_le_of_mod_eq hother_mod hother.1
      omega
    · have := hexit hsame
      omega
  have hown : turn % loop.dispatch.numCores = core := by rw [heq, hmod]
  have htoken := hturn.token (by rw [hown, hphase]; simp)
  rw [hown] at htoken
  exact ⟨_, by rw [takeLock, ss_past_ptr_eq, past_id_eq hring hcore, spin_lock_eq_some]
               exact ⟨htoken, rfl⟩⟩

/-- While some core is in the loop, some core can move. -/
theorem HelixInvariant.progress (hring : loop.dispatch.LIO = true)
    (hprologue : loop.prologue < loop.dispatch.numOfsequentialSegments)
    (h : HelixInvariant loop exit state)
    (hinside : ∃ core < loop.dispatch.numCores, state.point core ≠ .left) :
    ∃ core next, HelixStep loop cacheLineSize state core next := by
  obtain ⟨some_core, hsome, hin⟩ := hinside
  obtain ⟨core, hmem, hleast⟩ := Finset.exists_min_image
    ((Finset.range loop.dispatch.numCores).filter fun core => state.point core ≠ .left)
    state.iteration ⟨some_core, by simp [hsome, hin]⟩
  simp only [Finset.mem_filter, Finset.mem_range] at hmem hleast
  obtain ⟨hcore, hstill⟩ := hmem
  have hleft : ∀ other < loop.dispatch.numCores, state.iteration other < state.iteration core →
      state.point other = .left := by
    intro other hother hbehind
    by_contra hstill'
    have := hleast other ⟨hother, hstill'⟩
    omega
  have hat := h.points core hcore
  cases hpoint : state.point core <;> rw [hpoint] at hat
  case header =>
    obtain ⟨memory, hlock⟩ := h.lock_free hring hcore hprologue hleft (hat _ hprologue)
      fun hne => absurd rfl hne
    exact ⟨core, _, .headerWait state core memory hcore hpoint hlock⟩
  case check =>
    cases hflag : state.loopIsOverFlag
    · exact ⟨core, _, .checkPassed state core hcore hpoint hflag⟩
    · exact ⟨core, _, .checkFailed state core hcore hpoint hflag⟩
  case body =>
    cases hexits : loop.exits (state.iteration core)
    · by_cases hall : ∀ ssID < loop.dispatch.numOfsequentialSegments,
          state.phase core ssID = .after
      · exact ⟨core, _, .nextIteration state core hcore hpoint hall hexits⟩
      · simp only [not_forall] at hall
        obtain ⟨ssID, hssID, hphase⟩ := hall
        cases hcase : state.phase core ssID
        · obtain ⟨memory, hlock⟩ := h.lock_free hring hcore hssID hleft hcase fun _ => hat.1
          exact ⟨core, _, .bodyWait state core ssID memory hcore hssID hpoint hcase hlock⟩
        · exact ⟨core, _, .bodySignal state core ssID hcore hssID hpoint hcase fun _ => hexits⟩
        · exact absurd hcase hphase
    · exact ⟨core, _, .takeExit state core hcore hpoint hexits⟩
  case setFlag => exact ⟨core, _, .setFlag state core hcore hpoint⟩
  case firstSignal => exact ⟨core, _, .firstSignal state core hcore hpoint⟩
  case exitWait remaining =>
    cases remaining with
    | zero => exact ⟨core, _, .exitCode state core hcore hpoint⟩
    | succ ssID =>
        by_cases hphase : state.phase core ssID = .before
        · obtain ⟨memory, hlock⟩ := h.lock_free hring hcore (by have := hat.2.2.1; omega) hleft
            hphase fun _ => hat.1.le
          exact ⟨core, _, .exitWait state core ssID memory hcore hpoint hphase hlock⟩
        · exact ⟨core, _, .exitSkip state core ssID hcore hpoint hphase⟩
  case exitSignal ssID =>
    rcases Nat.lt_or_eq_of_le hat.2.2.1 with hlt | rfl
    · exact ⟨core, _, .exitSignal state core ssID hcore hlt hpoint⟩
    · exact ⟨core, _, .exitLeave state core hcore hpoint⟩
  case failed ssID =>
    rcases Nat.lt_or_eq_of_le hat.2.2.1 with hlt | rfl
    · exact ⟨core, _, .failedSignal state core ssID hcore hlt hpoint⟩
    · exact ⟨core, _, .failedLeave state core hcore hpoint⟩
  case left => exact absurd hpoint hstill

/-- When every core has left, exactly the iterations up to the exit have run the prologue. -/
theorem HelixInvariant.finished (hcores : 1 ≤ loop.dispatch.numCores)
    (hprologue : loop.prologue < loop.dispatch.numOfsequentialSegments)
    (h : HelixInvariant loop exit state)
    (hleft : ∀ core < loop.dispatch.numCores, state.point core = .left) :
    state.entries loop.prologue = List.range (exit + 1) ∧ state.loopExits = [exit] := by
  have hlt : exit % loop.dispatch.numCores < loop.dispatch.numCores := Nat.mod_lt _ hcores
  have hat := h.points _ hlt
  have hexits := h.loopExits
  rw [hleft _ hlt] at hat hexits
  obtain ⟨turn, hturn, hlog⟩ := h.segments _ hprologue
  have hpassed := hturn.cores _ hlt
  rw [hat.2.1] at hpassed
  refine ⟨?_, by simpa [Point.Exiting] using hexits⟩
  rw [hlog rfl, Nat.min_eq_left]
  have := hat.1
  have := hpassed.1
  split_ifs <;> omega

/-- What holds in every state of a loop whose sequential execution exits at iteration `exit`: the
prologue runs for iterations `0` to `exit` in order, only iteration `exit` takes a loop exit, no
iteration beyond it enters a segment, and its exit-block waits find the earlier iterations
done. -/
structure StopsAt (loop : HelixLoop) (exit : Nat) (state : HelixState) : Prop where
  prologue : state.entries loop.prologue <+: List.range (exit + 1)
  loopExits : state.loopExits = [] ∨ state.loopExits = [exit]
  entered : ∀ ssID < loop.dispatch.numOfsequentialSegments,
    ∀ iteration ∈ state.entries ssID, iteration ≤ exit
  completed : ∀ core < loop.dispatch.numCores, state.iteration core = exit →
    ∀ ssID < loop.dispatch.numOfsequentialSegments, (state.point core).PastExitWait ssID →
      ∀ iteration < exit, Completed loop.dispatch state ssID iteration

/-- The early exit stops the loop exactly at the sequential exit, in every interleaving, and a
state in which no core can move is one that every core has left. -/
theorem early_exit_stops_loop (loop : HelixLoop) {cacheLineBytes exit : Nat}
    (hline : cacheLineBytes = cacheLineSize) (hring : loop.dispatch.LIO = true)
    (hcores : 1 ≤ loop.dispatch.numCores)
    (hprologue : loop.prologue < loop.dispatch.numOfsequentialSegments)
    (hexit : loop.exits exit = true) (hfirst : ∀ iteration < exit, loop.exits iteration = false)
    (state : HelixState) (h : (helixSystem loop cacheLineBytes).Reachable state) :
    StopsAt loop exit state ∧
      ((∀ core next, ¬ HelixStep loop cacheLineBytes state core next) →
        (∀ core < loop.dispatch.numCores, state.point core = .left) ∧
          state.entries loop.prologue = List.range (exit + 1) ∧ state.loopExits = [exit]) := by
  subst hline
  have hinv := helix_invariant hring hcores hprologue hexit hfirst h
  refine ⟨⟨hinv.prologue_prefix hprologue, ?_, hinv.entered, ?_⟩, fun hstuck => ?_⟩
  · rcases hinv.loopExits with ⟨htaken, -⟩ | ⟨hnone, -⟩
    · exact .inr htaken
    · exact .inl hnone
  · exact fun core hcore hlast ssID hssID hpast iteration hbefore =>
      hinv.completed hcore hssID hlast hpast hbefore
  · have hleft : ∀ core < loop.dispatch.numCores, state.point core = .left := by
      intro core hcore
      by_contra hin
      obtain ⟨mover, next, hstep⟩ := hinv.progress hring hprologue ⟨core, hcore, hin⟩
      exact hstuck mover next hstep
    exact ⟨hleft, hinv.finished hcores hprologue hleft⟩

/-- Two cores and a loop that exits in iteration 0, whose core has stored to the flag and signalled
the prologue. -/
theorem early_exit_two_cores :
    ∃ state, (helixSystem ⟨⟨2, 1, true, 0⟩, 0, fun iteration => iteration == 0⟩ 64).Reachable
        state ∧ state.loopIsOverFlag = true ∧ state.point 0 = .exitWait 1 ∧
      StopsAt ⟨⟨2, 1, true, 0⟩, 0, fun iteration => iteration == 0⟩ 0 state := by
  have hheader : (helixSystem ⟨⟨2, 1, true, 0⟩, 0, fun iteration => iteration == 0⟩ 64).Reachable
      _ := .initial rfl
  have hcheck := hheader.step (HelixStep.headerWait _ 0 _ (by decide) rfl
    (spin_lock_eq_some.mpr ⟨by decide, rfl⟩))
  have hbody := hcheck.step (HelixStep.checkPassed _ 0 (by decide) rfl rfl)
  have hexit := hbody.step (HelixStep.takeExit _ 0 (by decide) rfl rfl)
  have hflag := hexit.step (HelixStep.setFlag _ 0 (by decide) rfl)
  have hsignal := hflag.step (HelixStep.firstSignal _ 0 (by decide) rfl)
  exact ⟨_, hsignal, rfl, rfl, (early_exit_stops_loop _ rfl rfl (by decide) (by decide) rfl
    (by simp) _ hsignal).1⟩

end Runs

end Gino.Helix
