import Gino.Dswp.Queues

/-!
# The queue tables of the stages

Every call of `registerQueue` updates the table of all queues and the tables of two stages, which
the code generators index without checks. `queue_tables_consistent` says that the tables agree with
one another after every sequence of calls, and that no queue changes its place.
-/

namespace Gino.Dswp

variable {Inst : Type*}

/-- A call of `registerQueue`. -/
structure QueueCall (Inst : Type*) extends QueueRequest Inst where
  isMemoryDependence : Bool

/-- The tables after some calls agree with one another and with the calls. -/
structure Consistent (calls : List (QueueCall Inst)) (state : QueueState Inst) : Prop where
  unique : ∀ (i j : Nat) (queue other : QueueInfo Inst), state.queues[i]? = some queue →
    state.queues[j]? = some other → queue.fromStage = other.fromStage →
      queue.toStage = other.toStage → queue.producer = other.producer → i = j
  registered : ∀ call ∈ calls, ∃ (i : Nat) (queue : QueueInfo Inst),
    state.queues[i]? = some queue ∧ queue.fromStage = call.fromStage ∧
      queue.toStage = call.toStage ∧ queue.producer = call.producer
  consumers : ∀ (i : Nat) (queue : QueueInfo Inst), state.queues[i]? = some queue → ∀ consumer,
    consumer ∈ queue.consumers ↔ ∃ call ∈ calls, call.fromStage = queue.fromStage ∧
      call.toStage = queue.toStage ∧ call.producer = queue.producer ∧ call.consumer = consumer
  pushed : ∀ (i : Nat) (queue : QueueInfo Inst), state.queues[i]? = some queue → ∀ stage,
    i ∈ state.pushValueQueues stage ↔ stage = queue.fromStage
  popped : ∀ (i : Nat) (queue : QueueInfo Inst), state.queues[i]? = some queue → ∀ stage,
    i ∈ state.popValueQueues stage ↔ stage = queue.toStage
  produced : ∀ (i : Nat) (queue : QueueInfo Inst), state.queues[i]? = some queue →
    ∀ stage producer, i ∈ state.producerToQueues stage producer ↔
      stage = queue.fromStage ∧ producer = queue.producer
  indices : ∀ (i stage : Nat) (producer : Inst), i ∈ state.pushValueQueues stage ∨
    i ∈ state.popValueQueues stage ∨ i ∈ state.producerToQueues stage producer →
      i < state.queues.length
  producedPopQueue : ∀ (stage : Nat) (producer : Inst) (i : Nat),
    state.producedPopQueue stage producer = some i → i ∈ state.popValueQueues stage ∧
      ∃ queue, state.queues[i]? = some queue ∧ queue.producer = producer

/-- Every queue is still at its place later, with its producer, stages and consumers. -/
def Unmoved (state state' : QueueState Inst) : Prop :=
  ∀ (i : Nat) (queue : QueueInfo Inst), state.queues[i]? = some queue →
    ∃ queue', state'.queues[i]? = some queue' ∧ queue'.producer = queue.producer ∧
      queue'.fromStage = queue.fromStage ∧ queue'.toStage = queue.toStage ∧
        queue.consumers ⊆ queue'.consumers

/-- Nothing moves where nothing happens. -/
theorem Unmoved.refl (state : QueueState Inst) : Unmoved state state :=
  fun _ queue hget => ⟨queue, hget, rfl, rfl, rfl, List.Subset.refl _⟩

/-- What stays in place twice stays in place. -/
theorem Unmoved.trans {first middle last : QueueState Inst} (hfirst : Unmoved first middle)
    (hlast : Unmoved middle last) : Unmoved first last := by
  intro i queue hget
  obtain ⟨queue', hget', hproducer', hfrom', hto', hsub'⟩ := hfirst i queue hget
  obtain ⟨queue'', hget'', hproducer'', hfrom'', hto'', hsub''⟩ := hlast i queue' hget'
  exact ⟨queue'', hget'', hproducer''.trans hproducer', hfrom''.trans hfrom', hto''.trans hto',
    List.Subset.trans hsub' hsub''⟩

/-- What is known after some requests makes the tables consistent. -/
theorem Registered.consistent {calls : List (QueueCall Inst)} {state : QueueState Inst}
    (h : Registered (calls.map QueueCall.toQueueRequest) state) : Consistent calls state where
  unique i j queue other hi hj hfrom hto hproducer :=
      h.unique i j queue other hi hj hproducer hfrom hto
  registered call hcall := by
      obtain ⟨i, queue, hget, hproducer, hfrom, hto⟩ :=
        h.served call.toQueueRequest (List.mem_map_of_mem hcall)
      exact ⟨i, queue, hget, hfrom, hto, hproducer⟩
  consumers i queue hget consumer := by
      rw [h.consumers i queue hget consumer]
      constructor
      · intro ⟨request, hrequest, ⟨hproducer, hfrom, hto⟩, hconsumer⟩
        obtain ⟨call, hcall, rfl⟩ := List.mem_map.mp hrequest
        exact ⟨call, hcall, hfrom.symm, hto.symm, hproducer.symm, hconsumer⟩
      · intro ⟨call, hcall, hfrom, hto, hproducer, hconsumer⟩
        exact ⟨call.toQueueRequest, List.mem_map_of_mem hcall,
          ⟨hproducer.symm, hfrom.symm, hto.symm⟩, hconsumer⟩
  pushed i queue hget stage := by
      simp only [h.pushes, hget, Option.some.injEq, exists_eq_left']
      exact eq_comm
  popped i queue hget stage := by
      simp only [h.pops, hget, Option.some.injEq, exists_eq_left']
      exact eq_comm
  produced i queue hget stage producer := by
      simp only [h.producers, hget, Option.some.injEq, exists_eq_left']
      exact and_congr eq_comm eq_comm
  indices i stage producer htable := by
      have hqueue : ∃ queue, state.queues[i]? = some queue := by
        rcases htable with hpush | hpop | hproduced
        · obtain ⟨queue, hget, -⟩ := (h.pushes i stage).mp hpush
          exact ⟨queue, hget⟩
        · obtain ⟨queue, hget, -⟩ := (h.pops i stage).mp hpop
          exact ⟨queue, hget⟩
        · obtain ⟨queue, hget, -⟩ := (h.producers i stage producer).mp hproduced
          exact ⟨queue, hget⟩
      obtain ⟨queue, hget⟩ := hqueue
      exact (List.getElem?_eq_some_iff.mp hget).1
  producedPopQueue stage producer i hpopped := by
      obtain ⟨queue, hget, hto, hproducer⟩ := h.popped stage producer i hpopped
      exact ⟨(h.pops i stage).mpr ⟨queue, hget, hto⟩, queue, hget, hproducer⟩

section Run

variable [DecidableEq Inst]

/-- One call. Whether a new queue has a supported size depends on the type of its producer, unless
it only signals a memory dependence. -/
def registerCall (supportedSize : Inst → Bool → Bool) (state : QueueState Inst)
    (call : QueueCall Inst) : Option (QueueState Inst) :=
  registerQueue (fun producer => supportedSize producer call.isMemoryDependence) state
    call.toQueueRequest

/-- A sequence of calls, none of which may abort. -/
def registerCalls (supportedSize : Inst → Bool → Bool) (calls : List (QueueCall Inst))
    (state : QueueState Inst) : Option (QueueState Inst) :=
  calls.foldlM (registerCall supportedSize) state

variable {supportedSize : Inst → Bool → Bool} {requests : List (QueueRequest Inst)}
  {state state' : QueueState Inst}

/-- A call moves no queue. -/
theorem Registered.unmoved {call : QueueCall Inst} (h : Registered requests state)
    (hcall : registerCall supportedSize state call = some state') : Unmoved state state' := by
  obtain ⟨_, _, hat, htracks⟩ := h.exists_tracks hcall
  exact fun _ _ hget => htracks.kept hat hget

/-- A sequence of calls adds its requests to what is known, and moves no queue. -/
theorem Registered.register_calls {calls : List (QueueCall Inst)} (h : Registered requests state)
    (hrun : registerCalls supportedSize calls state = some state') :
    Registered (requests ++ calls.map QueueCall.toQueueRequest) state' ∧ Unmoved state state' := by
  induction calls generalizing requests state with
  | nil =>
      obtain rfl := Option.some.inj hrun
      exact ⟨by simpa using h, Unmoved.refl state⟩
  | cons call rest ih =>
      unfold registerCalls at hrun
      rw [List.foldlM_cons] at hrun
      obtain ⟨middle, hcall, hrest⟩ := Option.bind_eq_some_iff.mp hrun
      have hmiddle : Registered (requests ++ [call.toQueueRequest]) middle :=
        h.register_queue hcall
      obtain ⟨hregistered, hunmoved⟩ := ih hmiddle hrest
      rw [List.append_assoc] at hregistered
      exact ⟨hregistered, (h.unmoved hcall).trans hunmoved⟩

/-- A call with a supported size does not abort. -/
theorem register_call_ne_none {call : QueueCall Inst}
    (hsize : supportedSize call.producer call.isMemoryDependence = true) :
    registerCall supportedSize state call ≠ none := by
  unfold registerCall registerQueue
  cases findQueue state call.toQueueRequest with
  | some queueIndex => simp
  | none => simp [hsize]

/-- Calls with supported sizes do not abort. -/
theorem exists_register_calls {calls : List (QueueCall Inst)}
    (hsize : ∀ call ∈ calls, supportedSize call.producer call.isMemoryDependence = true)
    (state : QueueState Inst) :
    ∃ state', registerCalls supportedSize calls state = some state' := by
  induction calls generalizing state with
  | nil => exact ⟨state, rfl⟩
  | cons call rest ih =>
      obtain ⟨middle, hcall⟩ :=
        Option.ne_none_iff_exists'.mp (register_call_ne_none (hsize call List.mem_cons_self))
      obtain ⟨last, hlast⟩ := ih (fun other hother => hsize other (List.mem_cons_of_mem _ hother))
        middle
      refine ⟨last, ?_⟩
      unfold registerCalls
      rw [List.foldlM_cons]
      exact Option.bind_eq_some_iff.mpr ⟨middle, hcall, hlast⟩

/-- The queue tables are consistent after every sequence of calls, and every queue is still at the
index that it had after any of the calls. -/
theorem queue_tables_consistent (supportedSize : Inst → Bool → Bool)
    (calls : List (QueueCall Inst)) (state : QueueState Inst)
    (hrun : registerCalls supportedSize calls QueueState.start = some state) :
    Consistent calls state ∧ ∀ earlier later, earlier ++ later = calls →
      ∃ middle, registerCalls supportedSize earlier QueueState.start = some middle ∧
        Unmoved middle state := by
  constructor
  · exact (registered_start.register_calls hrun).1.consistent
  · intro earlier later hcalls
    -- The later calls start from the tables that the earlier ones leave.
    unfold registerCalls at hrun
    rw [← hcalls, List.foldlM_append] at hrun
    obtain ⟨middle, hearlier, hlater⟩ := Option.bind_eq_some_iff.mp hrun
    refine ⟨middle, hearlier, ?_⟩
    exact ((registered_start.register_calls hearlier).1.register_calls hlater).2

end Run

namespace ForwardedProducer

/-- A value is sent from its stage to two others, one of which forwards it to the last stage, and
the first stage also sends it there. -/
def calls : List (QueueCall Nat) :=
  [⟨⟨0, 1, 7, 8⟩, false⟩, ⟨⟨0, 2, 7, 9⟩, false⟩, ⟨⟨1, 2, 7, 9⟩, false⟩, ⟨⟨0, 2, 7, 10⟩, true⟩]

/-- Every size is supported. -/
def supported (_ : Nat) (_ : Bool) : Bool := true

/-- The tables after the calls. -/
def tables : QueueState Nat := (registerCalls supported calls QueueState.start).get rfl

/-- Three queues carry the value. -/
theorem tables_consistent : tables.queues.length = 3 ∧ Consistent calls tables :=
  ⟨rfl, (queue_tables_consistent supported calls tables (Option.some_get rfl).symm).1⟩

end ForwardedProducer

end Gino.Dswp
