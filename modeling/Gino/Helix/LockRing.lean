import Gino.Helix.LockArrays
import Gino.Machine.Residue
import Gino.Machine.System

/-!
# The lock ring of the HELIX runtime

Each core runs every `numCores`-th iteration, and in each of them waits for and signals every
sequential segment once. A wait takes the lock of the core's past array and a signal frees the
lock of its future array. With one array for each core the free lock of a segment is the token of
a ring: `SegmentInTurn` says where it is and which iterations have entered the segment. The main
theorem is `ring_serialises_segments`.
-/

namespace Gino.Helix

open Machine Gino.Runtime

/-- Where a core is with respect to a segment in its current iteration. -/
inductive Phase where
  | before
  | inside
  | after
  deriving DecidableEq

/-- The locks, the iteration each core runs, its phase for each segment, and the iterations that
entered each segment, in order of entry. -/
structure RingState where
  memory : Memory
  iteration : Nat → Nat
  phase : Nat → Nat → Phase
  entries : Nat → List Nat

/-- What a core does next. -/
inductive RingEvent where
  | wait (core ssID : Nat)
  | signal (core ssID : Nat)
  | nextIteration (core : Nat)

/-- Update the phase of one core for one segment. -/
def setPhase (phase : Nat → Nat → Phase) (core ssID : Nat) (value : Phase) : Nat → Nat → Phase :=
  Function.update phase core (Function.update (phase core) ssID value)

/-- `setPhase` changes one entry. -/
@[simp] theorem set_phase_apply (phase : Nat → Nat → Phase) (core ssID : Nat) (value : Phase)
    (other segment : Nat) :
    setPhase phase core ssID value other segment =
      if other = core ∧ segment = ssID then value else phase other segment := by
  by_cases hcore : other = core
  · subst hcore
    by_cases hsegment : segment = ssID <;> simp [setPhase, hsegment]
  · simp [setPhase, hcore]

section Machine

variable (dispatch : Dispatch) (cacheLineBytes : Nat)

/-- The pointer a core's task passes to `HELIX_wait` for a segment. -/
def ssPastPtr (core ssID : Nat) : Nat :=
  getPointerOfSequentialSegment cacheLineBytes (dispatch.ssArrayPast core) ssID

/-- The pointer a core's task passes to `HELIX_signal` for a segment. -/
def ssFuturePtr (core ssID : Nat) : Nat :=
  getPointerOfSequentialSegment cacheLineBytes (dispatch.ssArrayFuture core) ssID

/-- The steps of the cores. In one iteration a core waits for every segment and later signals it,
in any order among the segments; after that it takes its next iteration. -/
inductive RingStep : RingState → RingEvent → RingState → Prop where
  | wait (state : RingState) (core ssID : Nat) (memory : Memory)
      (hcore : core < dispatch.numCores) (hssID : ssID < dispatch.numOfsequentialSegments)
      (hphase : state.phase core ssID = .before)
      (hlock : spinLock state.memory (ssPastPtr dispatch cacheLineBytes core ssID) = some memory) :
      RingStep state (.wait core ssID)
        { state with
          memory := memory
          phase := setPhase state.phase core ssID .inside
          entries := Function.update state.entries ssID
            (state.entries ssID ++ [state.iteration core]) }
  | signal (state : RingState) (core ssID : Nat)
      (hcore : core < dispatch.numCores) (hssID : ssID < dispatch.numOfsequentialSegments)
      (hphase : state.phase core ssID = .inside) :
      RingStep state (.signal core ssID)
        { state with
          memory := spinUnlock state.memory (ssFuturePtr dispatch cacheLineBytes core ssID)
          phase := setPhase state.phase core ssID .after }
  | nextIteration (state : RingState) (core : Nat) (hcore : core < dispatch.numCores)
      (hphase : ∀ ssID < dispatch.numOfsequentialSegments, state.phase core ssID = .after) :
      RingStep state (.nextIteration core)
        { state with
          iteration := Function.update state.iteration core
            (state.iteration core + dispatch.numCores)
          phase := Function.update state.phase core fun _ => .before }

/-- The cores on the locks the dispatcher laid out: core `i` starts with iteration `i`. -/
def ringSystem : System RingState RingEvent where
  Initial state := state = ⟨dispatch.initialMemory, id, fun _ _ => .before, fun _ => []⟩
  Step := RingStep dispatch cacheLineBytes

/-- At most one core is between its wait and its signal of a segment. -/
def MutualExclusion (state : RingState) : Prop :=
  ∀ ssID < dispatch.numOfsequentialSegments, ∀ core < dispatch.numCores,
    ∀ other < dispatch.numCores, state.phase core ssID = .inside →
      state.phase other ssID = .inside → core = other

/-- Entry `m` into a segment is made by iteration `m`. -/
def EntriesInOrder (state : RingState) : Prop :=
  ∀ ssID < dispatch.numOfsequentialSegments,
    state.entries ssID = List.range (state.entries ssID).length

/-- A core that can signal a segment would free a lock that is taken. -/
def SignalsTakenLocks (state : RingState) : Prop :=
  ∀ core < dispatch.numCores, ∀ ssID < dispatch.numOfsequentialSegments,
    state.phase core ssID = .inside →
      state.memory (ssFuturePtr dispatch cacheLineBytes core ssID) = some .locked

/-- The task's pointers for each segment are locks of that segment, and of no other. -/
def PointersMatch : Prop :=
  ∀ core < dispatch.numCores, ∀ ssID < dispatch.numOfsequentialSegments,
    dispatch.IsLockOf (ssPastPtr dispatch cacheLineBytes core ssID) ssID ∧
    dispatch.IsLockOf (ssFuturePtr dispatch cacheLineBytes core ssID) ssID ∧
    ∀ segment < dispatch.numOfsequentialSegments,
      dispatch.IsLockOf (ssPastPtr dispatch cacheLineBytes core ssID) segment ∨
        dispatch.IsLockOf (ssFuturePtr dispatch cacheLineBytes core ssID) segment →
      segment = ssID

end Machine

section Pointers

variable {dispatch : Dispatch}

/-- A core waits on the slot of its past array. -/
theorem ss_past_ptr_eq (core ssID : Nat) :
    ssPastPtr dispatch cacheLineSize core ssID = dispatch.slot (dispatch.pastID core) ssID :=
  Dispatch.pointer_eq_slot _ _

/-- A core signals on the slot of its future array. -/
theorem ss_future_ptr_eq (core ssID : Nat) :
    ssFuturePtr dispatch cacheLineSize core ssID = dispatch.slot (dispatch.futureID core) ssID :=
  Dispatch.pointer_eq_slot _ _

/-- The task and the dispatcher mean the same locks. -/
theorem pointers_match (hcores : 1 ≤ dispatch.numCores) :
    PointersMatch dispatch cacheLineSize := by
  intro core _ ssID hssID
  rw [ss_past_ptr_eq, ss_future_ptr_eq]
  have hpast := Dispatch.is_lock_of_slot (Dispatch.past_id_lt hcores core) hssID
  have hfuture := Dispatch.is_lock_of_slot (Dispatch.future_id_lt hcores core) hssID
  refine ⟨hpast, hfuture, fun segment hsegment h => ?_⟩
  rcases h with h | h
  · exact Dispatch.is_lock_of_unique hsegment hssID h hpast
  · exact Dispatch.is_lock_of_unique hsegment hssID h hfuture

/-- In the ring a core waits on its own array. -/
theorem past_id_eq (hring : dispatch.LIO = true) {core : Nat} (hcore : core < dispatch.numCores) :
    dispatch.pastID core = core := by
  simp [Dispatch.pastID, Dispatch.numOfSSArrays, hring, Nat.mod_eq_of_lt hcore]

/-- In the ring a core signals on the array of the core that runs the next iteration. -/
theorem future_id_eq (hring : dispatch.LIO = true) {core iteration : Nat}
    (hcore : core < dispatch.numCores) (hiteration : iteration % dispatch.numCores = core) :
    dispatch.futureID core = (iteration + 1) % dispatch.numCores := by
  rw [succ_mod_eq (by omega), hiteration]
  unfold Dispatch.futureID Dispatch.numOfSSArrays
  split_ifs with hnext
  · exact Nat.mod_eq_of_lt hnext
  · rfl

/-- A shared array is array 0 for every core. -/
theorem shared_ids_eq (hshared : dispatch.LIO = false) (core : Nat) :
    dispatch.pastID core = 0 ∧ dispatch.futureID core = 0 := by
  simp [Dispatch.pastID, Dispatch.futureID, Dispatch.numOfSSArrays, hshared, Nat.mod_one]

end Pointers

/-! ## The token of a segment -/

/-- Where a core may be while `turn` is the iteration whose pass through the segment comes next or
is in progress. -/
def CoreInTurn (numCores turn iteration : Nat) : Phase → Prop
  | .before => turn ≤ iteration ∧ iteration < turn + numCores
  | .inside => iteration = turn
  | .after => iteration < turn ∧ turn ≤ iteration + numCores

/-- A core that has not entered and whose residue is that of the turn runs the turn. -/
theorem CoreInTurn.eq_turn {numCores turn iteration : Nat}
    (h : CoreInTurn numCores turn iteration .before)
    (hmod : iteration % numCores = turn % numCores) : iteration = turn :=
  (eq_of_mod_eq hmod.symm h.1 h.2).symm

/-- When the turn passes on, the cores other than the one that had it stay in place. -/
theorem CoreInTurn.succ {numCores turn iteration : Nat} {phase : Phase}
    (h : CoreInTurn numCores turn iteration phase)
    (hmod : iteration % numCores ≠ turn % numCores) :
    CoreInTurn numCores (turn + 1) iteration phase := by
  have hne : iteration ≠ turn := fun heq => hmod (by rw [heq])
  have hround : iteration + numCores ≠ turn := fun heq => hmod (by rw [← heq, Nat.add_mod_right])
  cases phase <;> simp only [CoreInTurn] at h ⊢ <;> omega

/-- The next iteration of a core that has passed the segment. -/
theorem CoreInTurn.next_iteration {numCores turn iteration : Nat}
    (h : CoreInTurn numCores turn iteration .after) :
    CoreInTurn numCores turn (iteration + numCores) .before := by
  simp only [CoreInTurn] at h ⊢
  omega

/-- The state of one segment when it is the turn of iteration `turn`: the only free lock is the
one the turn's core waits on, unless that core is inside. -/
structure SegmentInTurn (dispatch : Dispatch) (state : RingState) (ssID turn : Nat) : Prop where
  cores : ∀ core < dispatch.numCores,
    CoreInTurn dispatch.numCores turn (state.iteration core) (state.phase core ssID)
  token : ∀ array < dispatch.numCores, state.memory (dispatch.slot array ssID) =
    some (if array = turn % dispatch.numCores ∧ state.phase array ssID ≠ .inside
      then .unlocked else .locked)
  entries : state.entries ssID = List.range
    (if state.phase (turn % dispatch.numCores) ssID = .inside then turn + 1 else turn)

/-- Every core runs its own iterations, and every segment is in some turn. -/
structure RingInvariant (dispatch : Dispatch) (state : RingState) : Prop where
  iterations : ∀ core < dispatch.numCores, state.iteration core % dispatch.numCores = core
  segments : ∀ ssID < dispatch.numOfsequentialSegments, ∃ turn,
    SegmentInTurn dispatch state ssID turn

section Invariant

variable {dispatch : Dispatch} {state : RingState} {ssID turn : Nat}

/-- The turn of a segment depends on the state of that segment alone. -/
theorem SegmentInTurn.congr {next : RingState} (h : SegmentInTurn dispatch state ssID turn)
    (hiteration : next.iteration = state.iteration)
    (hphase : ∀ core, next.phase core ssID = state.phase core ssID)
    (hmemory : ∀ array, next.memory (dispatch.slot array ssID) =
      state.memory (dispatch.slot array ssID))
    (hentries : next.entries ssID = state.entries ssID) :
    SegmentInTurn dispatch next ssID turn where
  cores core hcore := by rw [hiteration, hphase]; exact h.cores core hcore
  token array harray := by rw [hmemory, hphase]; exact h.token array harray
  entries := by rw [hentries, hphase]; exact h.entries

/-- The core inside a segment is the one whose turn it is. -/
theorem SegmentInTurn.inside_eq (h : SegmentInTurn dispatch state ssID turn) {core : Nat}
    (hcore : core < dispatch.numCores)
    (hiteration : state.iteration core % dispatch.numCores = core)
    (hphase : state.phase core ssID = .inside) :
    state.iteration core = turn ∧ core = turn % dispatch.numCores := by
  have hturn := h.cores core hcore
  rw [hphase] at hturn
  exact ⟨hturn, by rw [← hiteration, hturn]⟩

/-- A core that can take its lock is the one whose turn it is. -/
theorem SegmentInTurn.waiting_eq (h : SegmentInTurn dispatch state ssID turn) {core : Nat}
    (hcore : core < dispatch.numCores)
    (hiteration : state.iteration core % dispatch.numCores = core)
    (hphase : state.phase core ssID = .before)
    (hlock : state.memory (dispatch.slot core ssID) = some .unlocked) :
    state.iteration core = turn ∧ core = turn % dispatch.numCores := by
  have htoken := h.token core hcore
  rw [hlock] at htoken
  have hown : core = turn % dispatch.numCores := by
    by_contra hne
    simp [hne] at htoken
  have hturn := h.cores core hcore
  rw [hphase] at hturn
  exact ⟨hturn.eq_turn (hiteration.trans hown), hown⟩

/-- Entering the segment takes the free lock and logs the iteration of the turn. -/
theorem SegmentInTurn.wait (h : SegmentInTurn dispatch state ssID turn) {core : Nat}
    (hcore : core < dispatch.numCores) (hssID : ssID < dispatch.numOfsequentialSegments)
    (hiteration : state.iteration core % dispatch.numCores = core)
    (hphase : state.phase core ssID = .before)
    (hlock : state.memory (dispatch.slot core ssID) = some .unlocked) :
    SegmentInTurn dispatch
      { state with
        memory := Function.update state.memory (dispatch.slot core ssID) (some .locked)
        phase := setPhase state.phase core ssID .inside
        entries := Function.update state.entries ssID
          (state.entries ssID ++ [state.iteration core]) } ssID turn := by
  obtain ⟨hturn, hown⟩ := h.waiting_eq hcore hiteration hphase hlock
  constructor
  · intro other hother
    by_cases hsame : other = core
    · subst hsame
      simpa [CoreInTurn] using hturn
    · simpa [hsame] using h.cores other hother
  · intro array harray
    have htoken := h.token array harray
    show Function.update state.memory _ _ _ = _
    rw [Dispatch.update_slot _ _ hssID hssID]
    by_cases hsame : array = core
    · simp [hsame]
    · simpa [hsame, ← hown] using htoken
  · have hentries := h.entries
    rw [← hown, hphase] at hentries
    simp [← hown, hentries, hturn, List.range_succ]

/-- Leaving the segment frees the lock of the next iteration's core. -/
theorem SegmentInTurn.signal (h : SegmentInTurn dispatch state ssID turn) {core : Nat}
    (hcore : core < dispatch.numCores) (hssID : ssID < dispatch.numOfsequentialSegments)
    (hiterations : ∀ core < dispatch.numCores, state.iteration core % dispatch.numCores = core)
    (hphase : state.phase core ssID = .inside) :
    SegmentInTurn dispatch
      { state with
        memory := Function.update state.memory
          (dispatch.slot ((turn + 1) % dispatch.numCores) ssID) (some .unlocked)
        phase := setPhase state.phase core ssID .after } ssID (turn + 1) := by
  obtain ⟨hturn, hown⟩ := h.inside_eq hcore (hiterations core hcore) hphase
  -- While one core is inside, no lock is free and no other core is inside.
  have hothers : ∀ other < dispatch.numCores, other ≠ core →
      state.phase other ssID ≠ .inside := by
    intro other hother hne hinside
    exact hne ((h.inside_eq hother (hiterations other hother) hinside).2.trans hown.symm)
  constructor
  · intro other hother
    by_cases hsame : other = core
    · subst hsame
      simp only [set_phase_apply, and_self, if_true, CoreInTurn, hturn]
      omega
    · have hmod : state.iteration other % dispatch.numCores ≠ turn % dispatch.numCores := by
        rw [hiterations other hother, ← hown]
        exact hsame
      simpa [hsame] using (h.cores other hother).succ hmod
  · intro array harray
    have htoken := h.token array harray
    show Function.update state.memory _ _ _ = _
    rw [Dispatch.update_slot _ _ hssID hssID]
    by_cases hnext : array = (turn + 1) % dispatch.numCores
    · by_cases hsame : array = core
      · simp [← hnext, hsame]
      · simp [← hnext, hsame, hothers array harray hsame]
    · by_cases hsame : array = core
      · subst hsame
        simpa [hnext, hphase] using htoken
      · simpa [hnext, hsame, ← hown] using htoken
  · have hentries := h.entries
    rw [← hown, hphase] at hentries
    have hlt : (turn + 1) % dispatch.numCores < dispatch.numCores := Nat.mod_lt _ (by omega)
    by_cases hsame : (turn + 1) % dispatch.numCores = core
    · simp [hsame, hentries]
    · simp [hsame, hothers _ hlt hsame, hentries]

/-- Taking the next iteration after every segment keeps the turn. -/
theorem SegmentInTurn.next_iteration (h : SegmentInTurn dispatch state ssID turn) {core : Nat}
    (hcore : core < dispatch.numCores) (hphase : state.phase core ssID = .after) :
    SegmentInTurn dispatch
      { state with
        iteration := Function.update state.iteration core
          (state.iteration core + dispatch.numCores)
        phase := Function.update state.phase core fun _ => .before } ssID turn := by
  have hinside : ∀ other, Function.update state.phase core (fun _ => Phase.before) other ssID =
      .inside ↔ state.phase other ssID = .inside := by
    intro other
    by_cases hsame : other = core
    · subst hsame
      simp [hphase]
    · simp [hsame]
  constructor
  · intro other hother
    have hturn := h.cores other hother
    by_cases hsame : other = core
    · subst hsame
      rw [hphase] at hturn
      simpa using hturn.next_iteration
    · simpa [hsame] using hturn
  · intro array harray
    simpa [hinside] using h.token array harray
  · simpa [hinside] using h.entries

/-- Every step of a ring keeps the invariant. -/
theorem RingInvariant.step (hring : dispatch.LIO = true) {event : RingEvent} {next : RingState}
    (h : RingInvariant dispatch state)
    (hstep : RingStep dispatch cacheLineSize state event next) : RingInvariant dispatch next := by
  cases hstep with
  | wait core segment memory hcore hsegment hphase hlock =>
      rw [ss_past_ptr_eq, past_id_eq hring hcore, spin_lock_eq_some] at hlock
      obtain ⟨hfree, rfl⟩ := hlock
      refine ⟨h.iterations, fun ssID hssID => ?_⟩
      obtain ⟨turn, hturn⟩ := h.segments ssID hssID
      refine ⟨turn, ?_⟩
      by_cases hsame : ssID = segment
      · subst hsame
        exact hturn.wait hcore hssID (h.iterations core hcore) hphase hfree
      · refine hturn.congr rfl (by simp [hsame]) (fun array => ?_) (by simp [hsame])
        exact (Dispatch.update_slot _ _ hsegment hssID).trans (by simp [hsame])
  | signal core segment hcore hsegment hphase =>
      refine ⟨h.iterations, fun ssID hssID => ?_⟩
      obtain ⟨turn, hturn⟩ := h.segments ssID hssID
      by_cases hsame : ssID = segment
      · subst hsame
        obtain ⟨hiteration, -⟩ := hturn.inside_eq hcore (h.iterations core hcore) hphase
        refine ⟨turn + 1, ?_⟩
        rw [ss_future_ptr_eq, future_id_eq hring hcore (h.iterations core hcore), hiteration]
        exact hturn.signal hcore hssID h.iterations hphase
      · refine ⟨turn, hturn.congr rfl (by simp [hsame]) (fun array => ?_) rfl⟩
        rw [ss_future_ptr_eq]
        exact (Dispatch.update_slot _ _ hsegment hssID).trans (by simp [hsame])
  | nextIteration core hcore hphase =>
      constructor
      · intro other hother
        have hiteration := h.iterations other hother
        by_cases hsame : other = core
        · subst hsame
          simpa using hiteration
        · simpa [hsame] using hiteration
      · intro ssID hssID
        obtain ⟨turn, hturn⟩ := h.segments ssID hssID
        exact ⟨turn, hturn.next_iteration hcore (hphase ssID hssID)⟩

/-- The dispatcher hands the token of every segment to core 0, which runs iteration 0. -/
theorem ring_invariant_initial (hring : dispatch.LIO = true) :
    RingInvariant dispatch ⟨dispatch.initialMemory, id, fun _ _ => .before, fun _ => []⟩ := by
  refine ⟨fun core hcore => Nat.mod_eq_of_lt hcore, fun ssID hssID => ⟨0, ?_, ?_, rfl⟩⟩
  · intro core hcore
    simpa [CoreInTurn] using hcore
  · intro array harray
    have harrays : array < dispatch.numOfSSArrays := by
      simpa [Dispatch.numOfSSArrays, hring] using harray
    rcases Nat.eq_zero_or_pos array with rfl | hpos
    · simp [Dispatch.initial_memory_slot harrays hssID]
    · simp [Dispatch.initial_memory_slot harrays hssID, hpos, hpos.ne']

/-- The invariant of the ring holds in every reachable state. -/
theorem ring_invariant (hring : dispatch.LIO = true)
    (h : (ringSystem dispatch cacheLineSize).Reachable state) : RingInvariant dispatch state := by
  refine h.invariant _ ?_ fun _ _ _ hinv hstep => hinv.step hring hstep
  rintro _ rfl
  exact ring_invariant_initial hring

/-! ## Critical sections -/

/-- The state of one segment when all cores share its lock: the lock is taken exactly while some
core is inside. -/
def SegmentGuarded (dispatch : Dispatch) (state : RingState) (ssID : Nat) : Prop :=
  (state.memory (dispatch.slot 0 ssID) = some .unlocked ∧
    ∀ core < dispatch.numCores, state.phase core ssID ≠ .inside) ∨
  (state.memory (dispatch.slot 0 ssID) = some .locked ∧
    ∃ core, ∀ other < dispatch.numCores, state.phase other ssID = .inside → other = core)

/-- Every step of the critical sections keeps every segment guarded. -/
theorem SegmentGuarded.step (hshared : dispatch.LIO = false) {event : RingEvent} {next : RingState}
    (hssID : ssID < dispatch.numOfsequentialSegments) (h : SegmentGuarded dispatch state ssID)
    (hstep : RingStep dispatch cacheLineSize state event next) :
    SegmentGuarded dispatch next ssID := by
  cases hstep with
  | wait core segment memory hcore hsegment hphase hlock =>
      rw [ss_past_ptr_eq, (shared_ids_eq hshared core).1, spin_lock_eq_some] at hlock
      obtain ⟨hfree, rfl⟩ := hlock
      have hslot := Dispatch.update_slot (i := 0) (j := 0) state.memory (some .locked)
        hsegment hssID
      by_cases hsame : ssID = segment
      · subst hsame
        rcases h with ⟨-, hempty⟩ | ⟨htaken, -⟩
        · refine .inr ⟨by simp, core, fun other hother hinside => ?_⟩
          by_contra hne
          exact hempty other hother (by simpa [hne] using hinside)
        · simp [hfree] at htaken
      · simpa [SegmentGuarded, hslot, hsame] using h
  | signal core segment hcore hsegment hphase =>
      have hslot := Dispatch.update_slot (i := 0) (j := 0) state.memory (some .unlocked)
        hsegment hssID
      by_cases hsame : ssID = segment
      · subst hsame
        rcases h with ⟨-, hempty⟩ | ⟨-, holder, honly⟩
        · exact absurd hphase (hempty core hcore)
        · obtain rfl := honly core hcore hphase
          refine .inl ⟨?_, fun other hother hinside => ?_⟩
          · simp [ss_future_ptr_eq, (shared_ids_eq hshared core).2, spinUnlock]
          · by_cases hother' : other = core
            · simp [hother'] at hinside
            · exact hother' (honly other hother (by simpa [hother'] using hinside))
      · simpa [SegmentGuarded, ss_future_ptr_eq, (shared_ids_eq hshared core).2, spinUnlock, hslot,
          hsame] using h
  | nextIteration core hcore hphase =>
      have hinside : ∀ other, Function.update state.phase core (fun _ => Phase.before) other ssID =
          .inside ↔ state.phase other ssID = .inside := by
        intro other
        by_cases hsame : other = core
        · subst hsame
          simp [hphase ssID hssID]
        · simp [hsame]
      simpa [SegmentGuarded, hinside] using h

/-- Critical sections are guarded in every reachable state. -/
theorem segments_guarded (hshared : dispatch.LIO = false)
    (h : (ringSystem dispatch cacheLineSize).Reachable state) :
    ∀ ssID < dispatch.numOfsequentialSegments, SegmentGuarded dispatch state ssID := by
  refine h.invariant (fun state => ∀ ssID < dispatch.numOfsequentialSegments,
    SegmentGuarded dispatch state ssID) ?_ ?_
  · rintro _ rfl ssID hssID
    refine .inl ⟨?_, by simp⟩
    simp [Dispatch.initial_memory_slot (i := 0) (by simp [Dispatch.numOfSSArrays, hshared]) hssID]
  · exact fun _ _ _ hinv hstep ssID hssID => (hinv ssID hssID).step hshared hssID hstep

/-! ## What the locks guarantee -/

/-- In every reachable state, with or without the ring, at most one core is inside a segment. -/
theorem mutual_exclusion (h : (ringSystem dispatch cacheLineSize).Reachable state) :
    MutualExclusion dispatch state := by
  intro ssID hssID core hcore other hother hinside hinside'
  cases hmode : dispatch.LIO with
  | true =>
      have hinv := ring_invariant hmode h
      obtain ⟨turn, hturn⟩ := hinv.segments ssID hssID
      have hcore' := hturn.inside_eq hcore (hinv.iterations core hcore) hinside
      have hother' := hturn.inside_eq hother (hinv.iterations other hother) hinside'
      exact hcore'.2.trans hother'.2.symm
  | false =>
      rcases segments_guarded hmode h ssID hssID with ⟨-, hempty⟩ | ⟨-, holder, honly⟩
      · exact absurd hinside (hempty core hcore)
      · rw [honly core hcore hinside, honly other hother hinside']

/-- In every reachable state of the ring the entries of a segment are the iterations in order. -/
theorem entries_in_order (hring : dispatch.LIO = true)
    (h : (ringSystem dispatch cacheLineSize).Reachable state) : EntriesInOrder dispatch state := by
  intro ssID hssID
  obtain ⟨turn, hturn⟩ := (ring_invariant hring h).segments ssID hssID
  rw [hturn.entries, List.length_range]

/-- In every reachable state, with or without the ring, a signal frees a taken lock. -/
theorem signals_taken_locks (h : (ringSystem dispatch cacheLineSize).Reachable state) :
    SignalsTakenLocks dispatch cacheLineSize state := by
  intro core hcore ssID hssID hinside
  rw [ss_future_ptr_eq]
  cases hmode : dispatch.LIO with
  | true =>
      have hinv := ring_invariant hmode h
      have hiteration := hinv.iterations core hcore
      obtain ⟨turn, hturn⟩ := hinv.segments ssID hssID
      obtain ⟨-, hown⟩ := hturn.inside_eq hcore hiteration hinside
      rw [future_id_eq hmode hcore hiteration,
        hturn.token _ (Nat.mod_lt _ (by omega)), if_neg]
      rintro ⟨hfree, hout⟩
      rw [hfree, ← hown] at hout
      exact hout hinside
  | false =>
      rw [(shared_ids_eq hmode core).2]
      rcases segments_guarded hmode h ssID hssID with ⟨-, hempty⟩ | ⟨htaken, -⟩
      · exact absurd hinside (hempty core hcore)
      · exact htaken

/-- The lock ring serialises every sequential segment in the order of the iterations, and the
critical sections exclude each other, when the task assumes the runtime's cache line size. -/
theorem ring_serialises_segments (dispatch : Dispatch) {cacheLineBytes : Nat}
    (hline : cacheLineBytes = cacheLineSize) (hcores : 1 ≤ dispatch.numCores) :
    PointersMatch dispatch cacheLineBytes ∧
      ∀ state, (ringSystem dispatch cacheLineBytes).Reachable state →
        MutualExclusion dispatch state ∧ SignalsTakenLocks dispatch cacheLineBytes state ∧
          (dispatch.LIO = true → EntriesInOrder dispatch state) := by
  subst hline
  exact ⟨pointers_match hcores, fun state h =>
    ⟨mutual_exclusion h, signals_taken_locks h, fun hring => entries_in_order hring h⟩⟩

/-- Two cores and one segment, after iteration 0 has passed it and iteration 1 is inside. -/
theorem two_cores_serialised :
    ∃ state, (ringSystem ⟨2, 1, true, 0⟩ 64).Reachable state ∧ state.phase 1 0 = .inside ∧
      MutualExclusion ⟨2, 1, true, 0⟩ state ∧ state.entries 0 = [0, 1] := by
  have hfirst : (ringSystem ⟨2, 1, true, 0⟩ 64).Reachable _ := .initial rfl
  have hinside := hfirst.step (RingStep.wait _ 0 0 _ (by decide) (by decide) rfl
    (spin_lock_eq_some.mpr ⟨by decide, rfl⟩))
  have hsignal := hinside.step (RingStep.signal _ 0 0 (by decide) (by decide) rfl)
  have hnext := hsignal.step (RingStep.wait _ 1 0 _ (by decide) (by decide) rfl
    (spin_lock_eq_some.mpr ⟨by decide, rfl⟩))
  exact ⟨_, hnext, rfl,
    ((ring_serialises_segments ⟨2, 1, true, 0⟩ rfl (by decide)).2 _ hnext).1, rfl⟩

end Invariant

end Gino.Helix
