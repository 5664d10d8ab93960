import Gino.Helix.TaskCode

/-!
# The cores of a HELIX loop compute the loop

Every step of the cores is a step of the lock ring, or of none of its segments, and a step of the
iteration it is made for as a process that takes turns at the segments: the lock a core obtains is
free only in the turn of its own iteration. `TaskSimulation` is the relation. Its consequences are
that the cores compute the loop run one iteration after another (`task_computes_loop`), that some
core can always move until all are done (`task_progress`), and that no run is longer than the
iterations run one after another (`task_bounded`).
-/

namespace Gino.Helix

open Machine Gino.Runtime

/-- The phase of the ring at the stage of a process. -/
def phaseOf : Stage → Phase
  | .before => .before
  | .inside => .inside
  | .after => .after

variable {Locals Content : Type*}

/-- A core is where its iteration is: the iterations it ran have ended, and those it has yet to run
have not begun. -/
structure CoreSimulation (code : TaskCode Locals Content)
    (state : TaskState code.dispatch.numOfsequentialSegments Locals Content)
    (ticket : TicketState (Fin code.dispatch.numOfsequentialSegments) Locals Content)
    (core : Nat) : Prop where
  own : state.iteration core % code.dispatch.numCores = core
  bound : state.iteration core < code.bound
  locals : ticket.control (state.iteration core) = state.locals core
  ssState : ∀ ssID, state.ssState core ssID = true ↔
    ticket.stage (state.iteration core) ssID ≠ .before
  ended : ∀ j < state.iteration core, j % code.dispatch.numCores = core →
    code.task.action (ticket.control j) = .halt
  fresh : ∀ j, state.iteration core < j → j % code.dispatch.numCores = core →
    ticket.control j = code.task.start j ∧ ticket.stage j = fun _ => .before

/-- The iterations that have ended with a core taking its next one. -/
def endedIterations (code : TaskCode Locals Content) (iteration : Nat → Nat) : Finset Nat :=
  (Finset.range code.bound).filter fun j => j < iteration (j % code.dispatch.numCores)

/-- A run of the cores, the state of the lock ring it stands for, and the run of the iterations as
processes that take turns. -/
structure TaskSimulation (code : TaskCode Locals Content)
    (initial : Fin code.dispatch.numOfsequentialSegments → Content) (length : Nat)
    (state : TaskState code.dispatch.numOfsequentialSegments Locals Content) (ring : RingState)
    (turns : List (TicketState (Fin code.dispatch.numOfsequentialSegments) Locals Content × Nat))
    (ticket : TicketState (Fin code.dispatch.numOfsequentialSegments) Locals Content) : Prop where
  ringRun : (ringSystem code.dispatch cacheLineSize).Reachable ring
  ticketRun : (ticketSystem code.task code.bound initial).Run turns ticket
  memory : ring.memory = state.memory
  iteration : ring.iteration = state.iteration
  phase : ∀ core < code.dispatch.numCores, ∀ ssID : Fin code.dispatch.numOfsequentialSegments,
    ring.phase core ssID = phaseOf (ticket.stage (state.iteration core) ssID)
  segments : ∀ ssID : Fin code.dispatch.numOfsequentialSegments,
    SegmentInTurn code.dispatch ring ssID (ticket.turn ssID)
  cores : ∀ core < code.dispatch.numCores, CoreSimulation code state ticket core
  shared : ticket.memory = state.shared
  lengths : length = turns.length + (endedIterations code state.iteration).card

variable {code : TaskCode Locals Content}
  {state next : TaskState code.dispatch.numOfsequentialSegments Locals Content}
  {ticket after : TicketState (Fin code.dispatch.numOfsequentialSegments) Locals Content}
  {core : Nat}

/-! ## What a core is to its iterations -/

/-- A core's relation to its iterations depends on that core and on those iterations alone. -/
theorem CoreSimulation.congr (h : CoreSimulation code state ticket core)
    (hiteration : next.iteration core = state.iteration core)
    (hlocals : next.locals core = state.locals core)
    (hssState : next.ssState core = state.ssState core)
    (hticket : ∀ j, j % code.dispatch.numCores = core →
      after.control j = ticket.control j ∧ after.stage j = ticket.stage j) :
    CoreSimulation code next after core where
  own := by rw [hiteration]; exact h.own
  bound := by rw [hiteration]; exact h.bound
  locals := by rw [hiteration, hlocals, (hticket _ h.own).1]; exact h.locals
  ssState ssID := by rw [hiteration, hssState, (hticket _ h.own).2]; exact h.ssState ssID
  ended j hj hown := by
    rw [hiteration] at hj
    rw [(hticket j hown).1]
    exact h.ended j hj hown
  fresh j hj hown := by
    rw [hiteration] at hj
    rw [(hticket j hown).1, (hticket j hown).2]
    exact h.fresh j hj hown

/-- A step of a core's own iteration keeps the others of that core where they are. -/
theorem CoreSimulation.moved (h : CoreSimulation code state ticket core)
    (hiteration : next.iteration core = state.iteration core)
    (hlocals : after.control (state.iteration core) = next.locals core)
    (hssState : ∀ ssID, next.ssState core ssID = true ↔
      after.stage (state.iteration core) ssID ≠ .before)
    (hticket : ∀ j ≠ state.iteration core,
      after.control j = ticket.control j ∧ after.stage j = ticket.stage j) :
    CoreSimulation code next after core where
  own := by rw [hiteration]; exact h.own
  bound := by rw [hiteration]; exact h.bound
  locals := by rw [hiteration]; exact hlocals
  ssState := by rw [hiteration]; exact hssState
  ended j hj hown := by
    rw [hiteration] at hj
    rw [(hticket j hj.ne).1]
    exact h.ended j hj hown
  fresh j hj hown := by
    rw [hiteration] at hj
    rw [(hticket j hj.ne').1, (hticket j hj.ne').2]
    exact h.fresh j hj hown

/-- Taking the next iteration ends the one before it. -/
theorem CoreSimulation.next_iteration (h : CoreSimulation code state ticket core)
    (haction : code.task.action (state.locals core) = .halt)
    (hbound : state.iteration core < code.tripCount)
    (hcore : core < code.dispatch.numCores)
    (hiteration : next.iteration core = state.iteration core + code.dispatch.numCores)
    (hlocals : next.locals core =
      code.task.start (state.iteration core + code.dispatch.numCores))
    (hssState : next.ssState core = fun _ => false) :
    CoreSimulation code next ticket core := by
  have hown : (state.iteration core + code.dispatch.numCores) % code.dispatch.numCores = core := by
    rw [Nat.add_mod_right]
    exact h.own
  obtain ⟨hstart, hbefore⟩ := h.fresh _ (by omega) hown
  constructor
  · rw [hiteration]
    exact hown
  · rw [hiteration, TaskCode.bound]
    omega
  · rw [hiteration, hlocals]
    exact hstart
  · intro ssID
    rw [hiteration, hssState, hbefore]
    simp
  · intro j hj hmod
    rw [hiteration] at hj
    rcases Nat.lt_trichotomy j (state.iteration core) with hlt | rfl | hgt
    · exact h.ended j hlt hmod
    · rw [h.locals]
      exact haction
    · have := add_le_of_mod_eq (h.own.trans hmod.symm) hgt
      omega
  · intro j hj hmod
    rw [hiteration] at hj
    exact h.fresh j (by omega) hmod

/-- An iteration of another core is not the one this core runs. -/
theorem CoreSimulation.other (h : CoreSimulation code state ticket core) {other j : Nat}
    (hne : other ≠ core) (hown : j % code.dispatch.numCores = other) :
    j ≠ state.iteration core := by
  intro heq
  exact hne (hown.symm.trans (heq ▸ h.own))

/-- Only the iteration a core leaves joins those that have ended. -/
theorem ended_iterations_next (h : CoreSimulation code state ticket core)
    (hcore : core < code.dispatch.numCores) :
    (endedIterations code (Function.update state.iteration core
      (state.iteration core + code.dispatch.numCores))).card =
        (endedIterations code state.iteration).card + 1 := by
  have hnew : state.iteration core ∉ endedIterations code state.iteration := by
    simp [endedIterations, h.own]
  rw [← Finset.card_insert_of_notMem hnew]
  congr 1
  ext j
  simp only [endedIterations, Finset.mem_filter, Finset.mem_range, Finset.mem_insert]
  by_cases hown : j % code.dispatch.numCores = core
  · rw [hown, Function.update_self]
    constructor
    · rintro ⟨hj, hlt⟩
      rcases Nat.lt_or_ge j (state.iteration core) with hbefore | hle
      · exact .inr ⟨hj, hbefore⟩
      · exact .inl (eq_of_mod_eq (h.own.trans hown.symm) hle hlt).symm
    · rintro (rfl | ⟨hj, hlt⟩)
      · exact ⟨h.bound, by omega⟩
      · exact ⟨hj, by omega⟩
  · rw [Function.update_of_ne hown]
    have hne : j ≠ state.iteration core := fun heq => hown (heq ▸ h.own)
    simp [hne]

section Simulation

variable {initial : Fin code.dispatch.numOfsequentialSegments → Content} {length : Nat}
  {ring : RingState}
  {turns : List (TicketState (Fin code.dispatch.numOfsequentialSegments) Locals Content × Nat)}

/-- The step of one core's iteration, as every core sees it. -/
theorem TaskSimulation.cores_moved
    (h : TaskSimulation code initial length state ring turns ticket)
    (hcore : core < code.dispatch.numCores) {control : Locals}
    (hiteration : next.iteration = state.iteration)
    (hlocals : next.locals = Function.update state.locals core control)
    (hcontrol : after.control = Function.update ticket.control (state.iteration core) control)
    (hstage : ∀ j ≠ state.iteration core, after.stage j = ticket.stage j)
    (hothers : ∀ other ≠ core, next.ssState other = state.ssState other)
    (hssState : ∀ ssID, next.ssState core ssID = true ↔
      after.stage (state.iteration core) ssID ≠ .before) :
    ∀ other < code.dispatch.numCores, CoreSimulation code next after other := by
  intro other hother
  by_cases hsame : other = core
  · subst hsame
    refine (h.cores other hcore).moved (by rw [hiteration]) ?_ hssState fun j hne => ?_
    · simp [hlocals, hcontrol]
    · exact ⟨by simp [hcontrol, hne], hstage j hne⟩
  · refine (h.cores other hother).congr (by rw [hiteration]) (by simp [hlocals, hsame])
      (hothers other hsame) fun j hown => ?_
    have hne := (h.cores core hcore).other hsame hown
    exact ⟨by simp [hcontrol, hne], hstage j hne⟩

/-- A step that touches no lock leaves the ring where it is. -/
theorem TaskSimulation.internal (h : TaskSimulation code initial length state ring turns ticket)
    (hcore : core < code.dispatch.numCores) {control : Locals}
    (hstep : TicketStep code.task code.bound ticket (state.iteration core) after)
    (hmemory : next.memory = state.memory) (hiteration : next.iteration = state.iteration)
    (hlocals : next.locals = Function.update state.locals core control)
    (hcontrol : after.control = Function.update ticket.control (state.iteration core) control)
    (hstage : after.stage = ticket.stage) (hturn : after.turn = ticket.turn)
    (hssState : next.ssState = state.ssState) (hshared : after.memory = next.shared) :
    TaskSimulation code initial (length + 1) next ring
      ((ticket, state.iteration core) :: turns) after where
  ringRun := h.ringRun
  ticketRun := .step h.ticketRun hstep
  memory := h.memory.trans hmemory.symm
  iteration := h.iteration.trans hiteration.symm
  phase other hother ssID := by
    rw [hiteration, hstage]
    exact h.phase other hother ssID
  segments ssID := by
    rw [hturn]
    exact h.segments ssID
  cores := by
    refine h.cores_moved hcore hiteration hlocals hcontrol (fun j _ => by rw [hstage])
      (fun other _ => by rw [hssState]) fun ssID => ?_
    rw [hssState, hstage]
    exact (h.cores core hcore).ssState ssID
  shared := hshared
  lengths := by
    rw [hiteration, h.lengths, List.length_cons]
    omega

/-- A wait or a signal moves the ring too. -/
theorem TaskSimulation.synchronized
    (h : TaskSimulation code initial length state ring turns ticket)
    (hcore : core < code.dispatch.numCores) (control : Locals) (stage : Stage)
    {ssID : Fin code.dispatch.numOfsequentialSegments} {event : RingEvent}
    {ring' : RingState}
    (hring : RingStep code.dispatch cacheLineSize ring event ring')
    (hstep : TicketStep code.task code.bound ticket (state.iteration core) after)
    (hmemory : ring'.memory = next.memory) (hiteration' : ring'.iteration = ring.iteration)
    (hphase : ring'.phase = setPhase ring.phase core ssID (phaseOf stage))
    (hsegments : ∀ segment : Fin code.dispatch.numOfsequentialSegments,
      SegmentInTurn code.dispatch ring' segment (after.turn segment))
    (hiteration : next.iteration = state.iteration)
    (hlocals : next.locals = Function.update state.locals core control)
    (hcontrol : after.control = Function.update ticket.control (state.iteration core) control)
    (hstage : after.stage = setStage ticket.stage (state.iteration core) ssID stage)
    (hothers : ∀ other ≠ core, next.ssState other = state.ssState other)
    (hssState : ∀ segment, next.ssState core segment = true ↔
      after.stage (state.iteration core) segment ≠ .before)
    (hshared : after.memory = next.shared) :
    TaskSimulation code initial (length + 1) next ring'
      ((ticket, state.iteration core) :: turns) after where
  ringRun := .step h.ringRun hring
  ticketRun := .step h.ticketRun hstep
  memory := hmemory
  iteration := by rw [hiteration', h.iteration, hiteration]
  phase other hother segment := by
    have hold := h.phase other hother segment
    rw [hiteration, hphase, hstage, set_phase_apply, set_stage_apply]
    by_cases hsame : other = core
    · subst hsame
      simp only [true_and, Fin.val_inj]
      split_ifs
      · rfl
      · exact hold
    · rw [if_neg (by simp [hsame]), if_neg]
      · exact hold
      · rintro ⟨heq, -⟩
        exact (h.cores core hcore).other hsame (h.cores other hother).own heq
  segments := hsegments
  cores := h.cores_moved hcore hiteration hlocals hcontrol
    (fun j hne => by simp [hstage, setStage, hne]) hothers hssState
  shared := hshared
  lengths := by
    rw [hiteration, h.lengths, List.length_cons]
    omega

/-- A core that has yet to wait for a segment is before it, in the ring and in its iteration. -/
theorem TaskSimulation.waiting (h : TaskSimulation code initial length state ring turns ticket)
    (hcore : core < code.dispatch.numCores) {ssID : Fin code.dispatch.numOfsequentialSegments}
    (hssState : state.ssState core ssID = false) :
    ticket.stage (state.iteration core) ssID = .before ∧ ring.phase core ssID = .before := by
  have hstage : ticket.stage (state.iteration core) ssID = .before := by
    by_contra hne
    have hset := ((h.cores core hcore).ssState ssID).mpr hne
    simp [hset] at hssState
  refine ⟨hstage, ?_⟩
  rw [h.phase core hcore ssID, hstage]
  rfl

/-- The ring's core runs the iteration the task's core runs. -/
theorem TaskSimulation.ring_own (h : TaskSimulation code initial length state ring turns ticket)
    (hcore : core < code.dispatch.numCores) :
    ring.iteration core % code.dispatch.numCores = core := by
  rw [h.iteration]
  exact (h.cores core hcore).own

variable {memoryAt : Nat → Fin code.dispatch.numOfsequentialSegments → Content}
  {lengthOf : Nat → Nat} {final : Nat → Locals}

/-- Every step of the cores is simulated by the ring and by the iterations. -/
theorem TaskSimulation.step (hring : code.dispatch.LIO = true)
    (horder : InOrder code.task code.bound memoryAt lengthOf final)
    (h : TaskSimulation code (memoryAt 0) length state ring turns ticket)
    (hstep : TaskStep code cacheLineSize state core next) :
    ∃ ring turns ticket, TaskSimulation code (memoryAt 0) (length + 1) next ring turns ticket := by
  have hinv := TicketRun.invariant horder h.ticketRun
  cases hstep with
  | compute control hcore haction =>
      have hown := h.cores core hcore
      rw [← hown.locals] at haction
      exact ⟨_, _, _, h.internal hcore (.compute ticket _ control hown.bound haction)
        rfl rfl rfl rfl rfl rfl rfl h.shared⟩
  | wait ssID control memory hcore haction hssState hlock =>
      have hown := h.cores core hcore
      obtain ⟨hstage, hphase⟩ := h.waiting hcore hssState
      have hseg := h.segments ssID
      rw [← hown.locals] at haction
      rw [← h.memory] at hlock
      have hfree := hlock
      rw [ss_past_ptr_eq, past_id_eq hring hcore, spin_lock_eq_some] at hfree
      obtain ⟨hfree, rfl⟩ := hfree
      -- The lock is free only in the turn of the iteration of this core.
      have hturn : ticket.turn ssID = state.iteration core := by
        rw [← (hseg.waiting_eq hcore (h.ring_own hcore) hphase hfree).1, h.iteration]
      refine ⟨_, _, _, h.synchronized hcore control .inside
        (.wait ring core ssID _ hcore ssID.isLt hphase hlock)
        (.enter ticket _ ssID control hown.bound haction hstage hturn)
        rfl rfl rfl ?_ rfl rfl rfl rfl ?_ ?_ h.shared⟩
      · intro segment
        by_cases hsame : segment = ssID
        · subst hsame
          exact hseg.wait hcore segment.isLt (h.ring_own hcore) hphase hfree
        · have hval : segment.val ≠ ssID.val := fun heq => hsame (Fin.ext heq)
          refine (h.segments segment).congr rfl (by simp [hval]) (fun array => ?_) (by simp [hval])
          exact (Dispatch.update_slot _ _ ssID.isLt segment.isLt).trans (by simp [hval])
      · intro other hne
        simp [hne]
      · intro segment
        by_cases hsame : segment = ssID
        · simp [hsame]
        · simpa [hsame] using hown.ssState segment
  | waitSkipped ssID control hcore haction hssState =>
      have hown := h.cores core hcore
      rw [← hown.locals] at haction
      exact ⟨_, _, _, h.internal hcore (.enterAgain ticket _ ssID control hown.bound haction
        ((hown.ssState ssID).mp hssState)) rfl rfl rfl rfl rfl rfl rfl h.shared⟩
  | signal ssID control hcore haction =>
      have hown := h.cores core hcore
      have hseg := h.segments ssID
      rw [← hown.locals] at haction
      have hinside := hinv.inside_of_action horder hown.bound (.inl ⟨control, haction⟩)
      have hphase : ring.phase core ssID = .inside := by
        rw [h.phase core hcore ssID, hinside]
        rfl
      have hturn := hinv.inside_eq hown.bound hinside
      refine ⟨_, _, _, h.synchronized hcore control .after
        (.signal ring core ssID hcore ssID.isLt hphase)
        (.leave ticket _ ssID control hown.bound haction)
        (by rw [h.memory]) rfl rfl ?_ rfl rfl rfl rfl (fun _ _ => rfl) ?_ h.shared⟩
      · intro segment
        rw [ss_future_ptr_eq, future_id_eq hring hcore hown.own, hturn]
        by_cases hsame : segment = ssID
        · subst hsame
          have hnext := hseg.signal hcore segment.isLt (fun other hother => h.ring_own hother)
            hphase
          simpa [spinUnlock] using hnext
        · have hval : segment.val ≠ ssID.val := fun heq => hsame (Fin.ext heq)
          show SegmentInTurn _ _ segment (Function.update ticket.turn ssID _ segment)
          rw [Function.update_of_ne hsame]
          refine (h.segments segment).congr rfl (by simp [hval]) (fun array => ?_) rfl
          exact (Dispatch.update_slot _ _ ssID.isLt segment.isLt).trans (by simp [hval])
      · intro segment
        by_cases hsame : segment = ssID
        · subst hsame
          simpa [hinside] using hown.ssState segment
        · simpa [hsame] using hown.ssState segment
  | access ssID effect hcore haction =>
      have hown := h.cores core hcore
      rw [← hown.locals] at haction
      exact ⟨_, _, _, h.internal hcore (.access ticket _ ssID effect hown.bound haction)
        rfl rfl (by rw [← h.shared]) rfl rfl rfl rfl (by rw [← h.shared])⟩
  | nextIteration hcore haction hbound =>
      have hown := h.cores core hcore
      have hhalt := hinv.halted horder hown.bound (by rw [hown.locals]; exact haction)
      have hphase : ∀ ssID < code.dispatch.numOfsequentialSegments,
          ring.phase core ssID = .after := by
        intro ssID hssID
        rw [h.phase core hcore ⟨ssID, hssID⟩, (hhalt.2 ⟨ssID, hssID⟩).2]
        rfl
      refine ⟨_, turns, ticket, .step h.ringRun (.nextIteration ring core hcore hphase),
        h.ticketRun, h.memory, ?_, ?_, ?_, ?_, h.shared, ?_⟩
      · rw [h.iteration]
      · intro other hother ssID
        by_cases hsame : other = core
        · subst hsame
          have hmod := (Nat.add_mod_right (state.iteration other) _).trans hown.own
          have hfresh := (hown.fresh _ (by omega) hmod).2
          simp [hfresh, phaseOf]
        · simpa [hsame] using h.phase other hother ssID
      · intro segment
        exact (h.segments segment).next_iteration hcore (hphase segment segment.isLt)
      · intro other hother
        by_cases hsame : other = core
        · subst hsame
          exact hown.next_iteration haction hbound hcore (by simp) (by simp) (by simp)
        · exact (h.cores other hother).congr (by simp [hsame]) (by simp [hsame])
            (by simp [hsame]) fun _ _ => ⟨rfl, rfl⟩
      · show _ = _ + (endedIterations code (Function.update state.iteration core _)).card
        rw [ended_iterations_next hown hcore, h.lengths]
        omega

/-- No iteration has begun, and core `i` is about to run iteration `i`. -/
theorem task_simulation_initial (hring : code.dispatch.LIO = true)
    (start : Fin code.dispatch.numOfsequentialSegments → Content) :
    TaskSimulation code start 0 ⟨code.dispatch.initialMemory, start, id, code.task.start,
        fun _ _ => false⟩ ⟨code.dispatch.initialMemory, id, fun _ _ => .before, fun _ => []⟩ []
      ⟨code.task.start, fun _ _ => .before, start, fun _ => 0⟩ where
  ringRun := .initial rfl
  ticketRun := .initial rfl
  memory := rfl
  iteration := rfl
  phase _ _ _ := rfl
  segments ssID := by
    constructor
    · intro core hcore
      simpa [CoreInTurn] using hcore
    · intro array harray
      have harrays : array < code.dispatch.numOfSSArrays := by
        simpa [Dispatch.numOfSSArrays, hring] using harray
      rcases Nat.eq_zero_or_pos array with rfl | hpos
      · simp [Dispatch.initial_memory_slot harrays ssID.isLt]
      · simp [Dispatch.initial_memory_slot harrays ssID.isLt, hpos, hpos.ne']
    · rfl
  cores core hcore := by
    constructor
    · exact Nat.mod_eq_of_lt hcore
    · show core < code.tripCount + code.dispatch.numCores
      omega
    · rfl
    · simp
    · intro j hj hown
      have hmod := (Nat.mod_eq_of_lt (Nat.lt_trans hj hcore)).symm.trans hown
      exact absurd hmod hj.ne
    · exact fun _ _ _ => ⟨rfl, rfl⟩
  shared := rfl
  lengths := by
    have hnone : endedIterations code id = ∅ := by
      refine Finset.filter_eq_empty_iff.mpr fun j _ hlt => ?_
      exact absurd (Nat.mod_le j code.dispatch.numCores) (Nat.not_le.mpr hlt)
    show 0 = 0 + (endedIterations code id).card
    rw [hnone]
    rfl

/-- Every run of the cores is simulated by the ring and by the iterations. -/
theorem TaskRun.simulation (hring : code.dispatch.LIO = true)
    (horder : InOrder code.task code.bound memoryAt lengthOf final)
    {past : List (TaskState code.dispatch.numOfsequentialSegments Locals Content × Nat)}
    (h : (taskSystem code cacheLineSize (memoryAt 0)).Run past state) :
    ∃ ring turns ticket, TaskSimulation code (memoryAt 0) past.length state ring turns ticket := by
  induction h with
  | initial hstart =>
      obtain rfl := hstart
      exact ⟨_, _, _, task_simulation_initial hring _⟩
  | step hrun hstep ih =>
      obtain ⟨ring, turns, ticket, hsim⟩ := ih
      exact hsim.step hring horder hstep

/-- Only iterations of the loop are followed by another one of their core. -/
theorem TaskSimulation.ended_le (h : TaskSimulation code initial length state ring turns ticket)
    (hcores : 1 ≤ code.dispatch.numCores) :
    (endedIterations code state.iteration).card ≤ code.tripCount := by
  have hsub : endedIterations code state.iteration ⊆ Finset.range code.tripCount := by
    intro j hj
    obtain ⟨-, hlt⟩ := Finset.mem_filter.mp hj
    have hown := h.cores _ (Nat.mod_lt j hcores)
    have hround := add_le_of_mod_eq hown.own.symm hlt
    have hbound := hown.bound
    rw [TaskCode.bound] at hbound
    exact Finset.mem_range.mpr (by omega)
  exact (Finset.card_le_card hsub).trans_eq (Finset.card_range _)

/-- When every core is done, every iteration has ended. -/
theorem TaskSimulation.all_halted
    (h : TaskSimulation code (memoryAt 0) length state ring turns ticket)
    (hcores : 1 ≤ code.dispatch.numCores)
    (hdone : ∀ core < code.dispatch.numCores, TaskDone code state core) {j : Nat}
    (hj : j < code.bound) : code.task.action (ticket.control j) = .halt := by
  have hcore : j % code.dispatch.numCores < code.dispatch.numCores := Nat.mod_lt _ hcores
  have hown := h.cores _ hcore
  obtain ⟨hlast, hhalt⟩ := hdone _ hcore
  rcases Nat.lt_trichotomy j (state.iteration (j % code.dispatch.numCores)) with hlt | heq | hgt
  · exact hown.ended j hlt rfl
  · rw [heq, hown.locals]
    exact hhalt
  · have hround := add_le_of_mod_eq hown.own hgt
    rw [TaskCode.bound] at hj
    omega

/-- In the turn of its iteration a core finds the lock of the segment free. -/
theorem TaskSimulation.lock_free (hring : code.dispatch.LIO = true)
    (h : TaskSimulation code initial length state ring turns ticket)
    (hcore : core < code.dispatch.numCores) {ssID : Fin code.dispatch.numOfsequentialSegments}
    (hssState : state.ssState core ssID = false)
    (hturn : ticket.turn ssID = state.iteration core) :
    spinLock state.memory (ssPastPtr code.dispatch cacheLineSize core ssID) =
      some (Function.update state.memory (code.dispatch.slot core ssID) (some .locked)) := by
  have htoken := (h.segments ssID).token core hcore
  rw [hturn, (h.cores core hcore).own, (h.waiting hcore hssState).2, h.memory] at htoken
  rw [ss_past_ptr_eq, past_id_eq hring hcore, spin_lock_eq_some]
  exact ⟨by simpa using htoken, rfl⟩

/-- A core whose iteration is the first that has not ended can move. -/
theorem TaskSimulation.step_of_least (hring : code.dispatch.LIO = true)
    (horder : InOrder code.task code.bound memoryAt lengthOf final)
    (h : TaskSimulation code (memoryAt 0) length state ring turns ticket)
    (hcore : core < code.dispatch.numCores)
    (hfirst : ∀ i < state.iteration core, code.task.action (ticket.control i) = .halt)
    (hrunning : code.task.action (state.locals core) ≠ .halt) :
    ∃ next, TaskStep code cacheLineSize state core next := by
  have hinv := TicketRun.invariant horder h.ticketRun
  cases haction : code.task.action (state.locals core) with
  | compute control => exact ⟨_, .compute state core control hcore haction⟩
  | enter ssID control =>
      cases hssState : state.ssState core ssID with
      | true => exact ⟨_, .waitSkipped state core ssID control hcore haction hssState⟩
      | false =>
          have hturn := hinv.turn_of_least horder (h.cores core hcore).bound hfirst
            (h.waiting hcore hssState).1
          exact ⟨_, .wait state core ssID control _ hcore haction hssState
            (h.lock_free hring hcore hssState hturn)⟩
  | leave ssID control => exact ⟨_, .signal state core ssID control hcore haction⟩
  | access ssID effect => exact ⟨_, .access state core ssID effect hcore haction⟩
  | halt => exact absurd haction hrunning

/-- A core that is not done can move, or another one can. -/
theorem TaskSimulation.can_step (hring : code.dispatch.LIO = true)
    (horder : InOrder code.task code.bound memoryAt lengthOf final)
    (h : TaskSimulation code (memoryAt 0) length state ring turns ticket)
    (hcore : core < code.dispatch.numCores) (hrunning : ¬ TaskDone code state core) :
    ∃ mover next, TaskStep code cacheLineSize state mover next := by
  by_cases hall : ∀ j < code.bound, code.task.action (ticket.control j) = .halt
  · have hhalt : code.task.action (state.locals core) = .halt := by
      rw [← (h.cores core hcore).locals]
      exact hall _ (h.cores core hcore).bound
    have hbound : state.iteration core < code.tripCount := by
      by_contra hlast
      exact hrunning ⟨Nat.not_lt.mp hlast, hhalt⟩
    exact ⟨core, _, .nextIteration state core hcore hhalt hbound⟩
  · classical
    have hsome : ∃ j, j < code.bound ∧ code.task.action (ticket.control j) ≠ .halt := by
      simpa using hall
    obtain ⟨hj, hne⟩ := Nat.find_spec hsome
    have hfirst : ∀ i < Nat.find hsome, code.task.action (ticket.control i) = .halt := by
      intro i hi
      by_contra hrun
      exact Nat.find_min hsome hi ⟨by omega, hrun⟩
    generalize Nat.find hsome = j at hj hne hfirst
    -- The core of the first iteration that has not ended is at it or comes to it.
    have hmover : j % code.dispatch.numCores < code.dispatch.numCores :=
      Nat.mod_lt _ (Nat.zero_lt_of_lt hcore)
    have hown := h.cores _ hmover
    rcases Nat.lt_trichotomy j (state.iteration (j % code.dispatch.numCores)) with hlt | heq | hgt
    · exact absurd (hown.ended j hlt rfl) hne
    · obtain ⟨next, hstep⟩ := h.step_of_least hring horder hmover (heq ▸ hfirst)
        (by rw [← hown.locals, ← heq]; exact hne)
      exact ⟨_, next, hstep⟩
    · have hround := add_le_of_mod_eq hown.own hgt
      rw [TaskCode.bound] at hj
      exact ⟨_, _, .nextIteration state _ hmover
        (by rw [← hown.locals]; exact hfirst _ hgt) (by omega)⟩

end Simulation

/-! ## Two cores that count the iterations -/

/-- An iteration that adds one to the data of the only segment. -/
def countTask : Processes (Fin 1) Nat Nat where
  start _ := 0
  action
    | 0 => .enter 0 1
    | 1 => .access 0 fun count => (2, count + 1)
    | 2 => .leave 0 3
    | _ => .halt

/-- Two such iterations on two cores. -/
def countIterations : TaskCode Nat Nat where
  dispatch := ⟨2, 1, true, 0⟩
  tripCount := 2
  task := countTask

/-- Iteration `j` finds the count at `j`. -/
theorem count_in_order (count : Nat) :
    InOrder countTask count (fun j _ => j) (fun _ => 3) fun _ => 3 where
  runs j _ := by
    have hupdate : ∀ {α : Type} (f : Fin 1 → α) (value : α),
        Function.update f 0 value = fun _ => value := by
      intro α f value
      funext segment
      simp [Subsingleton.elim segment 0]
    simp [Processes.aloneFor, Processes.alone, countTask, hupdate]
  halts _ _ := rfl

/-- Core 0 has counted its iteration and core 1 is inside of the segment. -/
theorem count_iterations_run : ∃ past state,
    (taskSystem countIterations cacheLineSize fun _ => 0).Run past state ∧ past.length = 4 ∧
      state.locals 1 = 1 ∧ state.shared (0 : Fin 1) = 1 := by
  have hstart : (taskSystem countIterations cacheLineSize fun _ => 0).Run [] _ := .initial rfl
  have hwait := hstart.step (TaskStep.wait _ 0 (0 : Fin 1) 1 _ (by decide) rfl rfl
    (spin_lock_eq_some.mpr ⟨by decide, rfl⟩))
  have haccess := hwait.step (TaskStep.access _ 0 (0 : Fin 1) _ (by decide) rfl)
  have hsignal := haccess.step (TaskStep.signal _ 0 (0 : Fin 1) 3 (by decide) rfl)
  have hnext := hsignal.step (TaskStep.wait _ 1 (0 : Fin 1) 1 _ (by decide) rfl rfl
    (spin_lock_eq_some.mpr ⟨by decide, rfl⟩))
  exact ⟨_, _, hnext, rfl, rfl, rfl⟩

/-! ## What the cores compute -/

/-- A core is at some point of the run of its iteration on its own, from the data the iterations
before it leave, and the segments the core is inside of are as in that run. -/
def CoreInOrder (code : TaskCode Locals Content)
    (memoryAt : Nat → Fin code.dispatch.numOfsequentialSegments → Content)
    (state : TaskState code.dispatch.numOfsequentialSegments Locals Content) (core : Nat) : Prop :=
  ∃ steps memory stage,
    code.task.aloneFor steps ⟨code.task.start (state.iteration core),
      memoryAt (state.iteration core), fun _ => .before⟩ =
        some ⟨state.locals core, memory, stage⟩ ∧
      ∀ ssID, stage ssID = .inside → state.shared ssID = memory ssID

section Results

variable {memoryAt : Nat → Fin code.dispatch.numOfsequentialSegments → Content}
  {lengthOf : Nat → Nat} {final : Nat → Locals}

/-- Once all cores are done the segments hold what the iterations in order leave in them. -/
theorem TaskRun.shared_of_done (hring : code.dispatch.LIO = true)
    (hcores : 1 ≤ code.dispatch.numCores)
    (horder : InOrder code.task code.bound memoryAt lengthOf final)
    {past : List (TaskState code.dispatch.numOfsequentialSegments Locals Content × Nat)}
    (h : (taskSystem code cacheLineSize (memoryAt 0)).Run past state)
    (hdone : ∀ core < code.dispatch.numCores, TaskDone code state core) :
    state.shared = memoryAt code.bound := by
  obtain ⟨ring, turns, ticket, hsim⟩ := TaskRun.simulation hring horder h
  rw [← hsim.shared]
  exact (TicketRun.invariant horder hsim.ticketRun).all_halted horder
    (fun j hj => hsim.all_halted hcores hdone hj) (TicketRun.turn_le horder hsim.ticketRun)

/-- As long as some core is not done, some core can move. -/
theorem TaskRun.can_step (hring : code.dispatch.LIO = true)
    (horder : InOrder code.task code.bound memoryAt lengthOf final)
    {past : List (TaskState code.dispatch.numOfsequentialSegments Locals Content × Nat)}
    (h : (taskSystem code cacheLineSize (memoryAt 0)).Run past state)
    (hrunning : ∃ core < code.dispatch.numCores, ¬ TaskDone code state core) :
    ∃ mover next, TaskStep code cacheLineSize state mover next := by
  obtain ⟨ring, turns, ticket, hsim⟩ := TaskRun.simulation hring horder h
  obtain ⟨core, hcore, hnot⟩ := hrunning
  exact hsim.can_step hring horder hcore hnot

/-- The cores take at most the steps of the iterations, and one after each iteration of the loop. -/
theorem TaskRun.length_le (hring : code.dispatch.LIO = true) (hcores : 1 ≤ code.dispatch.numCores)
    (horder : InOrder code.task code.bound memoryAt lengthOf final)
    {past : List (TaskState code.dispatch.numOfsequentialSegments Locals Content × Nat)}
    (h : (taskSystem code cacheLineSize (memoryAt 0)).Run past state) :
    past.length ≤ (∑ j ∈ Finset.range code.bound, lengthOf j) + code.tripCount := by
  obtain ⟨ring, turns, ticket, hsim⟩ := TaskRun.simulation hring horder h
  rw [hsim.lengths]
  exact Nat.add_le_add (TicketRun.bounded horder hsim.ticketRun) (hsim.ended_le hcores)

/-- However the cores interleave, every iteration runs as it does when the iterations run one after
another, and once all cores are done the segments hold what that run leaves in them. -/
theorem task_computes_loop (hring : code.dispatch.LIO = true) (hcores : 1 ≤ code.dispatch.numCores)
    (horder : InOrder code.task code.bound memoryAt lengthOf final)
    (h : (taskSystem code cacheLineSize (memoryAt 0)).Reachable state) :
    (∀ core < code.dispatch.numCores, CoreInOrder code memoryAt state core) ∧
      ((∀ core < code.dispatch.numCores, TaskDone code state core) →
        state.shared = memoryAt code.bound) := by
  obtain ⟨past, hrun⟩ := h.has_run
  refine ⟨fun core hcore => ?_, TaskRun.shared_of_done hring hcores horder hrun⟩
  obtain ⟨ring, turns, ticket, hsim⟩ := TaskRun.simulation hring horder hrun
  have hown := hsim.cores core hcore
  obtain ⟨memory, halone, hagree⟩ :=
    (TicketRun.invariant horder hsim.ticketRun).alone _ hown.bound
  rw [hown.locals] at halone
  refine ⟨_, memory, _, halone, fun ssID hinside => ?_⟩
  rw [hagree ssID hinside, hsim.shared]

/-- Core 1 is inside of the segment, where its iteration is after one step on its own. -/
theorem count_iterations_computed : ∃ state,
    (taskSystem countIterations cacheLineSize fun _ => 0).Reachable state ∧ state.locals 1 = 1 ∧
      CoreInOrder countIterations (fun j _ => j) state 1 := by
  obtain ⟨past, state, hrun, -, hlocals, -⟩ := count_iterations_run
  have hcores := task_computes_loop (show countIterations.dispatch.LIO = true from rfl)
    (by decide) (count_in_order _) hrun.reachable
  exact ⟨state, hrun.reachable, hlocals, hcores.1 1 (by decide)⟩

/-- As long as some core is not done, some core can move. -/
theorem task_progress (hring : code.dispatch.LIO = true)
    (horder : InOrder code.task code.bound memoryAt lengthOf final)
    (h : (taskSystem code cacheLineSize (memoryAt 0)).Reachable state)
    (hrunning : ∃ core < code.dispatch.numCores, ¬ TaskDone code state core) :
    ∃ mover next, TaskStep code cacheLineSize state mover next := by
  obtain ⟨past, hrun⟩ := h.has_run
  exact TaskRun.can_step hring horder hrun hrunning

/-- Core 1 is not done, and some core can move. -/
theorem count_iterations_progress : ∃ state,
    (taskSystem countIterations cacheLineSize fun _ => 0).Reachable state ∧ state.locals 1 = 1 ∧
      ∃ mover next, TaskStep countIterations cacheLineSize state mover next := by
  obtain ⟨past, state, hrun, -, hlocals, -⟩ := count_iterations_run
  refine ⟨state, hrun.reachable, hlocals, task_progress
    (show countIterations.dispatch.LIO = true from rfl) (count_in_order _) hrun.reachable
    ⟨1, by decide, fun hdone => ?_⟩⟩
  have hhalt := hdone.2
  rw [hlocals] at hhalt
  cases hhalt

/-- The cores take at most the steps of the iterations run one after another, and one for each
iteration of the loop to go on to the next. -/
theorem task_bounded (hring : code.dispatch.LIO = true) (hcores : 1 ≤ code.dispatch.numCores)
    (horder : InOrder code.task code.bound memoryAt lengthOf final)
    {past : List (TaskState code.dispatch.numOfsequentialSegments Locals Content × Nat)}
    (h : (taskSystem code cacheLineSize (memoryAt 0)).Run past state) :
    past.length ≤ (∑ j ∈ Finset.range code.bound, lengthOf j) + code.tripCount := by
  exact TaskRun.length_le hring hcores horder h

/-- Four iterations of three steps each, two of which are followed by another one. -/
theorem count_iterations_bounded : ∃ past state,
    (taskSystem countIterations cacheLineSize fun _ => 0).Run past state ∧ past.length = 4 ∧
      past.length ≤ (∑ _j ∈ Finset.range 4, 3) + 2 := by
  obtain ⟨past, state, hrun, hlength, -⟩ := count_iterations_run
  exact ⟨past, state, hrun, hlength, task_bounded
    (show countIterations.dispatch.LIO = true from rfl) (by decide) (count_in_order _) hrun⟩

end Results

end Gino.Helix
