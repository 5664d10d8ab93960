import Gino.Helix.EarlyExit

/-!
# The turns of the segments of a loop that exits

Segments are signalled by cores that never waited for them, so a lock of the ring can be free out
of turn. `SegmentTurn` says which locks can: those a core on its way out of the loop signals on.
`SegmentTurn.waiting_eq` is what makes them harmless: a core that takes its lock is the one whose
turn it is.
-/

namespace Gino.Helix

open Machine Gino.Runtime

/-! ## The invariant -/

/-- The points from which a core signals segments it may not have waited for. -/
def Point.Terminal : Point → Prop
  | .exitSignal _ | .failed _ | .left => True
  | _ => False

/-- The points of the core that takes the loop exit. -/
def Point.Exiting : Point → Prop
  | .setFlag | .firstSignal | .exitWait _ | .exitSignal _ | .left => True
  | _ => False

/-- The points after the store to the flag. -/
def Point.PastFlag : Point → Prop
  | .firstSignal | .exitWait _ | .exitSignal _ | .left => True
  | _ => False

/-- The exit-block wait on a segment lies before this point of the exiting core. -/
def Point.PastExitWait (ssID : Nat) : Point → Prop
  | .exitWait remaining => remaining ≤ ssID
  | .exitSignal _ | .left => True
  | _ => False

/-- The core that runs an iteration has signalled the segment in it. -/
def Completed (dispatch : Dispatch) (state : HelixState) (ssID iteration : Nat) : Prop :=
  iteration < state.iteration (iteration % dispatch.numCores) ∨
    state.iteration (iteration % dispatch.numCores) = iteration ∧
      state.phase (iteration % dispatch.numCores) ssID = .after

section Invariant

variable (loop : HelixLoop) (exit : Nat)

/-- The iteration and the phases of a core at each point. `exit` is the iteration at which the
sequential loop exits. -/
def AtPoint (iteration : Nat) (phase : Nat → Phase) : Point → Prop
  | .header => ∀ ssID < loop.dispatch.numOfsequentialSegments, phase ssID = .before
  | .check => phase loop.prologue = .inside ∧
      ∀ ssID < loop.dispatch.numOfsequentialSegments, ssID ≠ loop.prologue → phase ssID = .before
  | .body => iteration ≤ exit ∧ phase loop.prologue ≠ .before ∧
      (iteration = exit → phase loop.prologue = .inside)
  | .setFlag => iteration = exit ∧ phase loop.prologue = .inside
  | .firstSignal => iteration = exit ∧ phase loop.prologue = .inside
  | .exitWait remaining => iteration = exit ∧ phase loop.prologue = .after ∧
      remaining ≤ loop.dispatch.numOfsequentialSegments ∧
      ∀ ssID < loop.dispatch.numOfsequentialSegments, remaining ≤ ssID → phase ssID ≠ .before
  | .exitSignal signalled => iteration = exit ∧ phase loop.prologue = .after ∧
      signalled ≤ loop.dispatch.numOfsequentialSegments ∧
      ∀ ssID < loop.dispatch.numOfsequentialSegments, phase ssID ≠ .before
  | .failed signalled => exit < iteration ∧
      (phase loop.prologue = if signalled ≤ loop.prologue then .inside else .after) ∧
      signalled ≤ loop.dispatch.numOfsequentialSegments ∧
      ∀ ssID < loop.dispatch.numOfsequentialSegments, ssID ≠ loop.prologue → phase ssID = .before
  | .left => exit ≤ iteration ∧ phase loop.prologue = .after ∧ (iteration = exit →
      ∀ ssID < loop.dispatch.numOfsequentialSegments, phase ssID ≠ .before)

/-- A core whose future locks may be free out of turn. -/
def Released (state : HelixState) (core ssID : Nat) : Prop :=
  (state.point core).Terminal ∧ (ssID = loop.prologue → state.phase core ssID = .after)

/-- The state of one segment when it is the turn of iteration `turn`. The lock of the turn's core
is free unless the core is inside, and any other free lock was signalled by a core on its way out
of the loop. -/
structure SegmentTurn (state : HelixState) (ssID turn : Nat) : Prop where
  cores : ∀ core < loop.dispatch.numCores,
    CoreInTurn loop.dispatch.numCores turn (state.iteration core) (state.phase core ssID)
  token : state.phase (turn % loop.dispatch.numCores) ssID ≠ .inside →
    state.memory (loop.dispatch.slot (turn % loop.dispatch.numCores) ssID) = some .unlocked
  free : ∀ core < loop.dispatch.numCores,
    state.memory (loop.dispatch.slot (loop.dispatch.futureID core) ssID) = some .unlocked →
      (loop.dispatch.futureID core = turn % loop.dispatch.numCores ∧
        state.phase (turn % loop.dispatch.numCores) ssID ≠ .inside) ∨
      Released loop state core ssID

/-- The iterations before the turn have run the prologue, and so has the core inside it once it
passes the check, but none after the exit. -/
def PrologueLog (state : HelixState) (turn : Nat) : Prop :=
  state.entries loop.prologue = List.range (min (exit + 1)
    (if state.phase (turn % loop.dispatch.numCores) loop.prologue = .inside ∧
        state.point (turn % loop.dispatch.numCores) ≠ .check
      then turn + 1 else turn))

/-- Every segment is in some turn, and the prologue's turn says which iterations ran it. -/
def SegmentsInTurn (state : HelixState) : Prop :=
  ∀ ssID < loop.dispatch.numOfsequentialSegments, ∃ turn,
    SegmentTurn loop state ssID turn ∧ (ssID = loop.prologue → PrologueLog loop exit state turn)

/-- The invariant of a loop whose sequential execution exits at iteration `exit`. -/
structure HelixInvariant (state : HelixState) : Prop where
  iterations : ∀ core < loop.dispatch.numCores,
    state.iteration core % loop.dispatch.numCores = core ∧
      state.iteration core < exit + loop.dispatch.numCores
  points : ∀ core < loop.dispatch.numCores,
    AtPoint loop exit (state.iteration core) (state.phase core) (state.point core)
  segments : SegmentsInTurn loop exit state
  flag : state.loopIsOverFlag = true ↔
    (state.point (exit % loop.dispatch.numCores)).PastFlag
  loopExits : state.loopExits = [exit] ∧ (state.point (exit % loop.dispatch.numCores)).Exiting ∨
    state.loopExits = [] ∧ ¬ (state.point (exit % loop.dispatch.numCores)).Exiting
  entered : ∀ ssID < loop.dispatch.numOfsequentialSegments,
    ∀ iteration ∈ state.entries ssID, iteration ≤ exit

end Invariant

/-! ## The turn of a segment -/

section Turns

variable {loop : HelixLoop} {exit : Nat} {state : HelixState} {ssID turn : Nat}

/-- A core at a terminal point is not before the exit. -/
theorem AtPoint.exit_le {iteration : Nat} {phase : Nat → Phase} {point : Point}
    (h : AtPoint loop exit iteration phase point) (hterminal : point.Terminal) :
    exit ≤ iteration := by
  cases point with
  | exitSignal => exact h.1.ge
  | failed => exact h.1.le
  | left => exact h.1
  | _ => exact hterminal.elim

/-- The cores signal on different arrays. -/
theorem future_id_injective {dispatch : Dispatch} (hring : dispatch.LIO = true) {core other : Nat}
    (hcore : core < dispatch.numCores) (hother : other < dispatch.numCores)
    (h : dispatch.futureID core = dispatch.futureID other) : core = other := by
  have hnext : ∀ core < dispatch.numCores, dispatch.futureID core =
      if core + 1 < dispatch.numCores then core + 1 else 0 := by
    intro core hcore
    rw [future_id_eq hring hcore (Nat.mod_eq_of_lt hcore), succ_mod_eq (by omega),
      Nat.mod_eq_of_lt hcore]
  rw [hnext core hcore, hnext other hother] at h
  split_ifs at h <;> omega

/-- The turn of a segment depends on the state of that segment alone, and on which cores are on
their way out of the loop. -/
theorem SegmentTurn.congr {next : HelixState} (h : SegmentTurn loop state ssID turn)
    (hiteration : next.iteration = state.iteration)
    (hphase : ∀ core, next.phase core ssID = state.phase core ssID)
    (hmemory : ∀ array, next.memory (loop.dispatch.slot array ssID) =
      state.memory (loop.dispatch.slot array ssID))
    (hterminal : ∀ core, (state.point core).Terminal → (next.point core).Terminal) :
    SegmentTurn loop next ssID turn where
  cores core hcore := by rw [hiteration, hphase]; exact h.cores core hcore
  token := by rw [hphase, hmemory]; exact h.token
  free core hcore := by
    rw [hmemory, hphase, Released, hphase]
    intro hfree
    rcases h.free core hcore hfree with hown | ⟨hout, hafter⟩
    · exact .inl hown
    · exact .inr ⟨hterminal core hout, hafter⟩

/-- The core inside a segment is the one whose turn it is. -/
theorem SegmentTurn.inside_eq (h : SegmentTurn loop state ssID turn) {core : Nat}
    (hcore : core < loop.dispatch.numCores)
    (hiteration : state.iteration core % loop.dispatch.numCores = core)
    (hphase : state.phase core ssID = .inside) :
    state.iteration core = turn ∧ core = turn % loop.dispatch.numCores := by
  have hturn := h.cores core hcore
  rw [hphase] at hturn
  exact ⟨hturn, by rw [← hiteration, hturn]⟩

/-- A core that takes its lock for a segment of an iteration up to the exit, or for the prologue,
is the one whose turn it is: what a core on its way out freed early is the lock of a turn that has
come. -/
theorem SegmentTurn.waiting_eq (hring : loop.dispatch.LIO = true)
    (h : SegmentTurn loop state ssID turn)
    (hiterations : ∀ core < loop.dispatch.numCores,
      state.iteration core % loop.dispatch.numCores = core ∧
        state.iteration core < exit + loop.dispatch.numCores)
    (hpoints : ∀ core < loop.dispatch.numCores,
      AtPoint loop exit (state.iteration core) (state.phase core) (state.point core))
    {core : Nat} (hcore : core < loop.dispatch.numCores)
    (hphase : state.phase core ssID = .before)
    (hexit : ssID ≠ loop.prologue → state.iteration core ≤ exit)
    (hlock : state.memory (loop.dispatch.slot core ssID) = some .unlocked) :
    state.iteration core = turn ∧ core = turn % loop.dispatch.numCores := by
  obtain ⟨hmod, hbound⟩ := hiterations core hcore
  have hturn := h.cores core hcore
  rw [hphase] at hturn
  obtain ⟨hle, hlt⟩ := hturn
  have heq : state.iteration core = turn → core = turn % loop.dispatch.numCores := by
    rintro rfl
    exact hmod.symm
  -- The core that signals on this lock is the one of the iteration before.
  obtain ⟨previous, hprevious⟩ : ∃ previous, previous =
      (state.iteration core + loop.dispatch.numCores - 1) % loop.dispatch.numCores := ⟨_, rfl⟩
  have hprevious_lt : previous < loop.dispatch.numCores := by
    rw [hprevious]
    exact Nat.mod_lt _ (by omega)
  have hfuture : loop.dispatch.futureID previous = core := by
    rw [future_id_eq hring hprevious_lt hprevious.symm, Nat.sub_add_cancel (by omega),
      Nat.add_mod_right, hmod]
  rcases h.free previous hprevious_lt (by rw [hfuture]; exact hlock) with
    ⟨hown, -⟩ | ⟨hout, hafter⟩
  · rw [hfuture] at hown
    exact ⟨CoreInTurn.eq_turn ⟨hle, hlt⟩ (hmod.trans hown), hown⟩
  · have hpast := (hpoints previous hprevious_lt).exit_le hout
    have hprevious_mod := (hiterations previous hprevious_lt).1.trans hprevious
    have hprevious_turn := h.cores previous hprevious_lt
    suffices hge : state.iteration core ≤ turn from
      ⟨le_antisymm hge hle, heq (le_antisymm hge hle)⟩
    by_contra hlate
    by_cases hprologue : ssID = loop.prologue
    · rw [hafter hprologue] at hprevious_turn
      obtain ⟨hbefore, -⟩ := hprevious_turn
      have hround : (state.iteration previous + loop.dispatch.numCores) % loop.dispatch.numCores =
          (state.iteration core + loop.dispatch.numCores - 1) % loop.dispatch.numCores := by
        rw [Nat.add_mod_right, hprevious_mod]
      have := eq_of_mod_eq hround (by omega) (by omega)
      omega
    · have hexit := hexit hprologue
      have hfar : state.iteration core + loop.dispatch.numCores - 1 ≤ state.iteration previous := by
        by_contra hnear
        have := add_le_of_mod_eq hprevious_mod (by omega)
        omega
      cases hcase : state.phase previous ssID <;> rw [hcase] at hprevious_turn <;>
        simp only [CoreInTurn] at hprevious_turn <;> omega

/-- Entering a segment takes the lock of the turn. -/
theorem SegmentTurn.waited (h : SegmentTurn loop state ssID turn)
    (hssID : ssID < loop.dispatch.numOfsequentialSegments) {core : Nat}
    (hphase : state.phase core ssID = .before)
    (hturn : state.iteration core = turn) (hown : core = turn % loop.dispatch.numCores) :
    SegmentTurn loop (state.waited core ssID
      (Function.update state.memory (loop.dispatch.slot core ssID) (some .locked))) ssID turn := by
  constructor
  · intro other hother
    by_cases hsame : other = core
    · subst hsame
      simpa [HelixState.waited, CoreInTurn] using hturn
    · simpa [HelixState.waited, hsame] using h.cores other hother
  · intro hout
    simp [HelixState.waited, hown] at hout
  · intro other hother hfree
    change Function.update state.memory _ _ _ = _ at hfree
    rw [Dispatch.update_slot _ _ hssID hssID] at hfree
    split_ifs at hfree with htaken
    · simp at hfree
    · rcases h.free other hother hfree with ⟨hturn', -⟩ | ⟨hout, hafter⟩
      · exact absurd ⟨hturn'.trans hown.symm, rfl⟩ htaken
      · refine .inr ⟨hout, fun hprologue => ?_⟩
        have hne : other ≠ core := by
          rintro rfl
          simp [hafter hprologue] at hphase
        simpa [HelixState.waited, hne] using hafter hprologue

/-- Leaving a segment passes the turn on. -/
theorem SegmentTurn.passed (hring : loop.dispatch.LIO = true)
    (h : SegmentTurn loop state ssID turn)
    (hssID : ssID < loop.dispatch.numOfsequentialSegments)
    (hiterations : ∀ core < loop.dispatch.numCores,
      state.iteration core % loop.dispatch.numCores = core) {core : Nat}
    (hcore : core < loop.dispatch.numCores) (hphase : state.phase core ssID = .inside) :
    SegmentTurn loop (state.signalled loop.dispatch cacheLineSize core ssID) ssID (turn + 1) := by
  obtain ⟨hturn, hown⟩ := h.inside_eq hcore (hiterations core hcore) hphase
  have hfuture : ssFuturePtr loop.dispatch cacheLineSize core ssID =
      loop.dispatch.slot ((turn + 1) % loop.dispatch.numCores) ssID := by
    rw [ss_future_ptr_eq, future_id_eq hring hcore (hiterations core hcore), hturn]
  have hothers : ∀ other < loop.dispatch.numCores, other ≠ core →
      state.phase other ssID ≠ .inside := by
    intro other hother hne hinside
    exact hne ((h.inside_eq hother (hiterations other hother) hinside).2.trans hown.symm)
  have hempty : ∀ other < loop.dispatch.numCores,
      setPhase state.phase core ssID (state.phase core ssID).leave other ssID ≠ .inside := by
    intro other hother
    by_cases hsame : other = core
    · simp [hsame, hphase, Phase.leave]
    · simpa [hsame] using hothers other hother hsame
  constructor
  · intro other hother
    by_cases hsame : other = core
    · subst hsame
      simp only [HelixState.signalled, set_phase_apply, and_self, if_true, hphase, Phase.leave,
        CoreInTurn, hturn]
      omega
    · have hmod : state.iteration other % loop.dispatch.numCores ≠
          turn % loop.dispatch.numCores := by
        rw [hiterations other hother, ← hown]
        exact hsame
      simpa [HelixState.signalled, hsame] using (h.cores other hother).succ hmod
  · intro _
    simp [HelixState.signalled, hfuture, spinUnlock]
  · intro other hother hfree
    have hlt : (turn + 1) % loop.dispatch.numCores < loop.dispatch.numCores :=
      Nat.mod_lt _ (by omega)
    simp only [HelixState.signalled, hfuture, spinUnlock] at hfree
    rw [Dispatch.update_slot _ _ hssID hssID] at hfree
    split_ifs at hfree with hnext
    · exact .inl ⟨hnext.1, hempty _ hlt⟩
    · rcases h.free other hother hfree with ⟨-, hout⟩ | ⟨hout, hafter⟩
      · exact absurd (hown ▸ hphase) hout
      · refine .inr ⟨hout, fun hprologue => ?_⟩
        have hne : other ≠ core := by
          rintro rfl
          simp [hafter hprologue] at hphase
        simpa [HelixState.signalled, hne] using hafter hprologue

/-- A signal by a core on its way out keeps the turn. -/
theorem SegmentTurn.released (hring : loop.dispatch.LIO = true)
    (h : SegmentTurn loop state ssID turn)
    (hssID : ssID < loop.dispatch.numOfsequentialSegments) {core : Nat}
    (hcore : core < loop.dispatch.numCores) (hphase : state.phase core ssID ≠ .inside)
    (hreleased : Released loop state core ssID) :
    SegmentTurn loop (state.signalled loop.dispatch cacheLineSize core ssID) ssID turn := by
  have hleave : (state.phase core ssID).leave = state.phase core ssID := by
    cases hcase : state.phase core ssID <;> simp_all [Phase.leave]
  have hsame : ∀ other, setPhase state.phase core ssID (state.phase core ssID) other ssID =
      state.phase other ssID := by
    intro other
    by_cases hother : other = core <;> simp [hother]
  constructor
  · intro other hother
    simpa only [HelixState.signalled, hleave, hsame] using h.cores other hother
  · intro hout
    simp only [HelixState.signalled, hleave, hsame, ss_future_ptr_eq, spinUnlock] at hout ⊢
    rw [Dispatch.update_slot _ _ hssID hssID, h.token hout]
    simp
  · intro other hother hfree
    simp only [HelixState.signalled, hleave, hsame, ss_future_ptr_eq, spinUnlock,
      Released] at hfree ⊢
    rw [Dispatch.update_slot _ _ hssID hssID] at hfree
    split_ifs at hfree with hown
    · obtain rfl := future_id_injective hring hother hcore hown.1
      exact .inr hreleased
    · exact h.free other hother hfree

/-- The next iteration of a core that stays in the loop keeps the turn. -/
theorem SegmentTurn.next_iteration (h : SegmentTurn loop state ssID turn) {core : Nat}
    (hphase : state.phase core ssID = .after) (hpoint : state.point core = .body) :
    SegmentTurn loop
      { state with
        iteration := Function.update state.iteration core
          (state.iteration core + loop.dispatch.numCores)
        point := Function.update state.point core .header
        phase := Function.update state.phase core fun _ => .before } ssID turn := by
  have hinside : ∀ other, Function.update state.phase core (fun _ => Phase.before) other ssID =
      .inside ↔ state.phase other ssID = .inside := by
    intro other
    by_cases hsame : other = core
    · subst hsame
      simp [hphase]
    · simp [hsame]
  constructor
  · intro other hother
    have hturn := h.cores other hother
    by_cases hsame : other = core
    · subst hsame
      rw [hphase] at hturn
      simpa using hturn.next_iteration
    · simpa [hsame] using hturn
  · simpa [hinside] using h.token
  · intro other hother hfree
    rcases h.free other hother hfree with hown | ⟨hout, hafter⟩
    · exact .inl (by simpa [hinside] using hown)
    · have hne : other ≠ core := by
        rintro rfl
        simp [hpoint, Point.Terminal] at hout
      exact .inr (by simpa [Released, hne] using ⟨hout, hafter⟩)

end Turns

/-! ## The segments over one step -/

section Segments

variable {loop : HelixLoop} {exit : Nat} {state : HelixState} {core : Nat}

/-- Steps that touch no lock keep the segments in turn, as long as no core comes back from its way
out or enters or leaves the check. -/
theorem SegmentsInTurn.congr {next : HelixState} (h : SegmentsInTurn loop exit state)
    (hiteration : next.iteration = state.iteration) (hphase : next.phase = state.phase)
    (hmemory : next.memory = state.memory)
    (hentries : next.entries loop.prologue = state.entries loop.prologue)
    (hterminal : ∀ core, (state.point core).Terminal → (next.point core).Terminal)
    (hcheck : ∀ core, next.point core = .check ↔ state.point core = .check) :
    SegmentsInTurn loop exit next := by
  intro ssID hssID
  obtain ⟨turn, hturn, hlog⟩ := h ssID hssID
  refine ⟨turn, hturn.congr hiteration (fun _ => by rw [hphase]) (fun _ => by rw [hmemory])
    hterminal, fun hprologue => ?_⟩
  simpa [PrologueLog, hentries, hphase, hcheck] using hlog hprologue

/-- `SegmentsInTurn.congr` for a core that moves. -/
theorem SegmentsInTurn.goto (h : SegmentsInTurn loop exit state) (point : Point)
    (hterminal : (state.point core).Terminal → point.Terminal)
    (hcheck : point = .check ↔ state.point core = .check) :
    SegmentsInTurn loop exit (state.goto core point) := by
  refine h.congr rfl rfl rfl rfl (fun other => ?_) (fun other => ?_) <;>
    by_cases hsame : other = core
  · subst hsame
    simpa [HelixState.goto] using hterminal
  · simp [HelixState.goto, hsame]
  · subst hsame
    simpa [HelixState.goto] using hcheck
  · simp [HelixState.goto, hsame]

/-- Noting an entry into a segment other than the prologue. -/
theorem SegmentsInTurn.enter {ssID : Nat} (h : SegmentsInTurn loop exit state)
    (hne : ssID ≠ loop.prologue) : SegmentsInTurn loop exit (state.enter core ssID) :=
  h.congr rfl rfl rfl (by simp [HelixState.enter, hne.symm]) (fun _ => id) fun _ => .rfl

/-- A wait changes the locks and phases of its segment alone. -/
theorem SegmentTurn.waited_other {ssID segment turn : Nat}
    (h : SegmentTurn loop state ssID turn)
    (hssID : ssID < loop.dispatch.numOfsequentialSegments)
    (hsegment : segment < loop.dispatch.numOfsequentialSegments) (hne : ssID ≠ segment) :
    SegmentTurn loop (state.waited core segment
      (Function.update state.memory (loop.dispatch.slot core segment) (some .locked)))
      ssID turn :=
  h.congr rfl (by simp [HelixState.waited, hne])
    (fun array => (Dispatch.update_slot _ _ hsegment hssID).trans (by simp [hne])) fun _ => id

/-- A signal changes the locks and phases of its segment alone. -/
theorem SegmentTurn.signalled_other {ssID segment turn : Nat}
    (h : SegmentTurn loop state ssID turn)
    (hssID : ssID < loop.dispatch.numOfsequentialSegments)
    (hsegment : segment < loop.dispatch.numOfsequentialSegments) (hne : ssID ≠ segment) :
    SegmentTurn loop (state.signalled loop.dispatch cacheLineSize core segment) ssID turn := by
  refine h.congr rfl (by simp [HelixState.signalled, hne]) (fun array => ?_) fun _ => id
  simp only [HelixState.signalled, ss_future_ptr_eq]
  exact (Dispatch.update_slot _ _ hsegment hssID).trans (by simp [hne])

variable (hring : loop.dispatch.LIO = true) (h : HelixInvariant loop exit state)

include hring h

/-- A wait in the body or the exit block keeps the segments in turn. -/
theorem HelixInvariant.segments_waited {segment : Nat} {memory : Memory}
    (hcore : core < loop.dispatch.numCores)
    (hsegment : segment < loop.dispatch.numOfsequentialSegments)
    (hphase : state.phase core segment = .before) (hexit : state.iteration core ≤ exit)
    (hne : segment ≠ loop.prologue)
    (hlock : takeLock loop cacheLineSize state core segment = some memory) :
    SegmentsInTurn loop exit (state.waited core segment memory) := by
  rw [takeLock, ss_past_ptr_eq, past_id_eq hring hcore, spin_lock_eq_some] at hlock
  obtain ⟨hfree, rfl⟩ := hlock
  intro ssID hssID
  obtain ⟨turn, hturn, hlog⟩ := h.segments ssID hssID
  by_cases hsame : ssID = segment
  · subst hsame
    obtain ⟨heq, hown⟩ := hturn.waiting_eq hring h.iterations h.points hcore hphase
      (fun _ => hexit) hfree
    exact ⟨turn, hturn.waited hssID hphase heq hown, fun hprologue => absurd hprologue hne⟩
  · refine ⟨turn, hturn.waited_other hssID hsegment hsame, fun hprologue => ?_⟩
    simpa [PrologueLog, HelixState.waited, hne.symm] using hlog hprologue

/-- A signal by a core that is inside the segment or on its way out keeps the segments in turn. -/
theorem HelixInvariant.segments_signalled {segment : Nat}
    (hcore : core < loop.dispatch.numCores)
    (hsegment : segment < loop.dispatch.numOfsequentialSegments)
    (hphase : state.phase core segment = .inside ∨
      state.phase core segment ≠ .inside ∧ Released loop state core segment)
    (hcheck : state.point core ≠ .check) :
    SegmentsInTurn loop exit (state.signalled loop.dispatch cacheLineSize core segment) := by
  intro ssID hssID
  obtain ⟨turn, hturn, hlog⟩ := h.segments ssID hssID
  have hiterations := fun core hcore => (h.iterations core hcore).1
  by_cases hsame : ssID = segment
  · subst hsame
    rcases hphase with hinside | ⟨hout, hreleased⟩
    · refine ⟨turn + 1, hturn.passed hring hssID hiterations hcore hinside, fun hprologue => ?_⟩
      subst hprologue
      have hlog := hlog rfl
      obtain ⟨-, hown⟩ := hturn.inside_eq hcore (hiterations core hcore) hinside
      have hothers : setPhase state.phase core loop.prologue .after
          ((turn + 1) % loop.dispatch.numCores) loop.prologue ≠ .inside := by
        intro hinside'
        have hne : (turn + 1) % loop.dispatch.numCores ≠ core := by
          intro heq
          simp [heq] at hinside'
        have hlt : (turn + 1) % loop.dispatch.numCores < loop.dispatch.numCores :=
          Nat.mod_lt _ (by omega)
        rw [set_phase_apply, if_neg (by simp [hne])] at hinside'
        exact hne ((hturn.inside_eq hlt (hiterations _ hlt) hinside').2.trans hown.symm)
      rw [PrologueLog, ← hown, if_pos ⟨hinside, hcheck⟩] at hlog
      rw [PrologueLog, if_neg]
      · exact hlog
      · intro hinside'
        exact hothers (by simpa [HelixState.signalled, hinside, Phase.leave] using hinside'.1)
    · refine ⟨turn, hturn.released hring hssID hcore hout hreleased, fun hprologue => ?_⟩
      have hleave : (state.phase core ssID).leave = state.phase core ssID := by
        cases hcase : state.phase core ssID <;> simp_all [Phase.leave]
      have hsame : setPhase state.phase core ssID (state.phase core ssID) = state.phase := by
        simp [setPhase]
      simpa [PrologueLog, HelixState.signalled, hleave, hsame] using hlog hprologue
  · refine ⟨turn, hturn.signalled_other hssID hsegment hsame, fun hprologue => ?_⟩
    subst hprologue
    simpa [PrologueLog, HelixState.signalled, hsame] using hlog rfl

/-- The prologue wait of the header keeps the segments in turn, and logs nothing yet. -/
theorem HelixInvariant.segments_header_wait {memory : Memory}
    (hcore : core < loop.dispatch.numCores)
    (hprologue : loop.prologue < loop.dispatch.numOfsequentialSegments)
    (hpoint : state.point core = .header)
    (hlock : takeLock loop cacheLineSize state core loop.prologue = some memory) :
    SegmentsInTurn loop exit ((state.waited core loop.prologue memory).goto core .check) := by
  have hphase : state.phase core loop.prologue = .before := by
    have hat := h.points core hcore
    rw [hpoint] at hat
    exact hat _ hprologue
  rw [takeLock, ss_past_ptr_eq, past_id_eq hring hcore, spin_lock_eq_some] at hlock
  obtain ⟨hfree, rfl⟩ := hlock
  have hterminal : ∀ other, (state.point other).Terminal →
      (Function.update state.point core .check other).Terminal := by
    intro other hout
    have hne : other ≠ core := by
      rintro rfl
      simp [hpoint, Point.Terminal] at hout
    simpa [hne] using hout
  intro ssID hssID
  obtain ⟨turn, hturn, hlog⟩ := h.segments ssID hssID
  by_cases hsame : ssID = loop.prologue
  · subst hsame
    obtain ⟨heq, hown⟩ := hturn.waiting_eq hring h.iterations h.points hcore hphase
      (fun hne => absurd rfl hne) hfree
    refine ⟨turn, (hturn.waited hssID hphase heq hown).congr rfl (fun _ => rfl) (fun _ => rfl)
      hterminal, fun _ => ?_⟩
    have hlog := hlog rfl
    rw [PrologueLog, ← hown, hphase, if_neg (by simp)] at hlog
    rw [PrologueLog, ← hown, if_neg (by simp [HelixState.goto])]
    exact hlog
  · exact ⟨turn, (hturn.waited_other hssID hprologue hsame).congr rfl (fun _ => rfl)
      (fun _ => rfl) hterminal, fun hprologue => absurd hprologue hsame⟩

omit hring in
/-- No core runs the exiting iteration but the one it is dealt to, which runs none after it. -/
theorem HelixInvariant.exit_core (hcore : core < loop.dispatch.numCores) :
    (state.iteration core = exit → core = exit % loop.dispatch.numCores) ∧
      state.iteration (exit % loop.dispatch.numCores) ≤ exit := by
  refine ⟨fun heq => by rw [← heq, (h.iterations core hcore).1], ?_⟩
  obtain ⟨hmod, hbound⟩ := h.iterations (exit % loop.dispatch.numCores) (Nat.mod_lt _ (by omega))
  by_contra hlate
  have := add_le_of_mod_eq hmod.symm (by omega)
  omega

omit hring in
/-- A core at the check finds the flag set exactly when its iteration lies beyond the exit. -/
theorem HelixInvariant.flag_at_check
    (hprologue : loop.prologue < loop.dispatch.numOfsequentialSegments)
    (hcore : core < loop.dispatch.numCores) (hpoint : state.point core = .check) :
    state.loopIsOverFlag = true ↔ exit < state.iteration core := by
  have hat := h.points core hcore
  rw [hpoint] at hat
  obtain ⟨turn, hturn, -⟩ := h.segments _ hprologue
  obtain ⟨heq, hown⟩ := hturn.inside_eq hcore (h.iterations core hcore).1 hat.1
  have hlt : exit % loop.dispatch.numCores < loop.dispatch.numCores := Nat.mod_lt _ (by omega)
  obtain ⟨hmod, -⟩ := h.iterations _ hlt
  have hlast := (h.exit_core hcore).2
  have hexit := h.points _ hlt
  have hexit_turn := hturn.cores _ hlt
  rw [h.flag]
  constructor
  · intro hpast
    by_contra hearly
    cases hcase : state.point (exit % loop.dispatch.numCores) <;> rw [hcase] at hpast hexit <;>
      try exact hpast.elim
    case firstSignal =>
      have hsame := hown.trans (hturn.inside_eq hlt hmod hexit.2).2.symm
      rw [hsame, hcase] at hpoint
      cases hpoint
    case exitWait => rw [hexit.2.1] at hexit_turn; have := hexit_turn.1; have := hexit.1; omega
    case exitSignal => rw [hexit.2.1] at hexit_turn; have := hexit_turn.1; have := hexit.1; omega
    case left => rw [hexit.2.1] at hexit_turn; have := hexit_turn.1; have := hexit.1; omega
  · intro hbeyond
    -- The turn has passed the exit, so the exiting core has signalled the prologue.
    have hafter : state.phase (exit % loop.dispatch.numCores) loop.prologue = .after ∧
        state.iteration (exit % loop.dispatch.numCores) = exit := by
      cases hphase : state.phase (exit % loop.dispatch.numCores) loop.prologue <;>
        rw [hphase] at hexit_turn <;> simp only [CoreInTurn] at hexit_turn
      · omega
      · omega
      · exact ⟨rfl, eq_of_mod_eq hmod hlast (by omega)⟩
    obtain ⟨hafter, hiteration⟩ := hafter
    cases hcase : state.point (exit % loop.dispatch.numCores) <;> rw [hcase] at hexit <;>
      simp only [AtPoint, hafter, hiteration, Point.PastFlag] at hexit ⊢
    · simpa [hafter] using hexit _ hprologue
    all_goals simp at hexit

omit hring in
/-- Passing or failing the check keeps the segments in turn. -/
theorem HelixInvariant.segments_check
    (hprologue : loop.prologue < loop.dispatch.numOfsequentialSegments)
    (hcore : core < loop.dispatch.numCores) (hpoint : state.point core = .check) :
    (state.loopIsOverFlag = false →
      SegmentsInTurn loop exit ((state.enter core loop.prologue).goto core .body)) ∧
    (state.loopIsOverFlag = true → SegmentsInTurn loop exit (state.goto core (.failed 0))) := by
  have hflag := h.flag_at_check hprologue hcore hpoint
  have hat := h.points core hcore
  rw [hpoint] at hat
  have hterminal : ∀ (point : Point) other, (state.point other).Terminal →
      (Function.update state.point core point other).Terminal := by
    intro point other hout
    have hne : other ≠ core := by
      rintro rfl
      simp [hpoint, Point.Terminal] at hout
    simpa [hne] using hout
  have hkeep : ∀ (next : HelixState) (point : Point), next.iteration = state.iteration →
      next.phase = state.phase → next.memory = state.memory →
      next.point = Function.update state.point core point →
      (∀ turn, state.iteration core = turn → core = turn % loop.dispatch.numCores →
        PrologueLog loop exit state turn → PrologueLog loop exit next turn) →
      SegmentsInTurn loop exit next := by
    intro next point hiteration hphase hmemory hnext hlogs ssID hssID
    obtain ⟨turn, hturn, hlog⟩ := h.segments ssID hssID
    refine ⟨turn, hturn.congr hiteration (fun _ => by rw [hphase]) (fun _ => by rw [hmemory])
      (by rw [hnext]; exact hterminal point), fun hsame => ?_⟩
    subst hsame
    obtain ⟨heq, hown⟩ := hturn.inside_eq hcore (h.iterations core hcore).1 hat.1
    exact hlogs turn heq hown (hlog rfl)
  refine ⟨fun hclear => hkeep _ .body rfl rfl rfl rfl ?_,
    fun hset => hkeep _ (.failed 0) rfl rfl rfl rfl ?_⟩
  · intro turn heq hown hlog
    have hbefore : state.iteration core ≤ exit := by
      by_contra hbeyond
      simp [hflag.mpr (by omega)] at hclear
    rw [PrologueLog, ← hown, if_neg (by simp [hpoint]), Nat.min_eq_right (by omega)] at hlog
    rw [PrologueLog, ← hown, if_pos ⟨hat.1, by simp [HelixState.goto]⟩,
      Nat.min_eq_right (by omega), List.range_succ, ← hlog]
    simp [HelixState.goto, HelixState.enter, heq]
  · intro turn heq hown hlog
    have hbeyond := hflag.mp hset
    rw [PrologueLog, ← hown, if_neg (by simp [hpoint]), Nat.min_eq_left (by omega)] at hlog
    rw [PrologueLog, ← hown, if_pos ⟨hat.1, by simp [HelixState.goto]⟩,
      Nat.min_eq_left (by omega)]
    exact hlog

omit hring in
/-- Taking the next iteration keeps the segments in turn. -/
theorem HelixInvariant.segments_next_iteration
    (hprologue : loop.prologue < loop.dispatch.numOfsequentialSegments)
    (hpoint : state.point core = .body)
    (hphase : ∀ ssID < loop.dispatch.numOfsequentialSegments, state.phase core ssID = .after) :
    SegmentsInTurn loop exit
      { state with
        iteration := Function.update state.iteration core
          (state.iteration core + loop.dispatch.numCores)
        point := Function.update state.point core .header
        phase := Function.update state.phase core fun _ => .before } := by
  intro ssID hssID
  obtain ⟨turn, hturn, hlog⟩ := h.segments ssID hssID
  refine ⟨turn, hturn.next_iteration (hphase ssID hssID) hpoint, fun hsame => ?_⟩
  have hlog := hlog hsame
  by_cases hown : turn % loop.dispatch.numCores = core
  · rw [PrologueLog, hown, hphase _ hprologue, if_neg (by simp)] at hlog
    rw [PrologueLog, if_neg (by simp [hown])]
    exact hlog
  · simpa [PrologueLog, hown] using hlog

end Segments

end Gino.Helix
