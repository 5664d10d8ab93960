import Gino.Dswp.Stages

/-!
# The queues between the stages of a DSWP pipeline

`registerQueue` finds or makes the queue from one stage to another that carries the value of a
producer, and `Registered` says what the stages know after a list of requests. The passes over the
data dependences and over the control dependences are such lists: `mem_data_requests` and
`mem_control_requests` say which requests they make.
-/

namespace Gino.Dswp

open Relation Machine

variable {Inst SCC : Type*}

/-! ## Registering queues -/

/-- A queue, with the stages it connects. -/
structure QueueInfo (Inst : Type*) where
  producer : Inst
  consumers : List Inst
  fromStage : Nat
  toStage : Nat

/-- A value that one stage needs from another. -/
structure QueueRequest (Inst : Type*) where
  fromStage : Nat
  toStage : Nat
  producer : Inst
  consumer : Inst

/-- The queues, and what each stage notes of them. -/
structure QueueState (Inst : Type*) where
  queues : List (QueueInfo Inst)
  producerToQueues : Nat → Inst → List Nat
  pushValueQueues : Nat → List Nat
  popValueQueues : Nat → List Nat
  producedPopQueue : Nat → Inst → Option Nat

/-- No queue. -/
def QueueState.start : QueueState Inst :=
  ⟨[], fun _ _ => [], fun _ => [], fun _ => [], fun _ _ => none⟩

/-- The queue of a request that its producer stage has. -/
def findQueue (state : QueueState Inst) (request : QueueRequest Inst) : Option Nat :=
  (state.producerToQueues request.fromStage request.producer).find? fun queueI =>
    (state.queues[queueI]?).any fun queue => queue.toStage = request.toStage

/-- A queue carries the value of a request. -/
def QueueInfo.Serves (queue : QueueInfo Inst) (request : QueueRequest Inst) : Prop :=
  queue.producer = request.producer ∧ queue.fromStage = request.fromStage ∧
    queue.toStage = request.toStage

/-- What the stages know after some requests. -/
structure Registered (requests : List (QueueRequest Inst)) (state : QueueState Inst) : Prop where
  unique : ∀ (i j : Nat) (queue other : QueueInfo Inst), state.queues[i]? = some queue →
    state.queues[j]? = some other → queue.producer = other.producer →
      queue.fromStage = other.fromStage → queue.toStage = other.toStage → i = j
  needed : ∀ (i : Nat) (queue : QueueInfo Inst), state.queues[i]? = some queue →
    ∃ request ∈ requests, queue.Serves request
  consumers : ∀ (i : Nat) (queue : QueueInfo Inst), state.queues[i]? = some queue → ∀ consumer,
    consumer ∈ queue.consumers ↔ ∃ request ∈ requests, queue.Serves request ∧
      request.consumer = consumer
  served : ∀ request ∈ requests, ∃ (i : Nat) (queue : QueueInfo Inst),
    state.queues[i]? = some queue ∧ queue.Serves request
  pushes : ∀ (i stage : Nat), i ∈ state.pushValueQueues stage ↔
    ∃ queue, state.queues[i]? = some queue ∧ queue.fromStage = stage
  pops : ∀ (i stage : Nat), i ∈ state.popValueQueues stage ↔
    ∃ queue, state.queues[i]? = some queue ∧ queue.toStage = stage
  producers : ∀ (i stage : Nat) (producer : Inst), i ∈ state.producerToQueues stage producer ↔
    ∃ queue, state.queues[i]? = some queue ∧ queue.fromStage = stage ∧ queue.producer = producer
  popped : ∀ (stage : Nat) (producer : Inst) (i : Nat),
    state.producedPopQueue stage producer = some i →
      ∃ queue, state.queues[i]? = some queue ∧ queue.toStage = stage ∧ queue.producer = producer

variable {requests : List (QueueRequest Inst)} {state state' : QueueState Inst}
  {request : QueueRequest Inst}

/-- Nothing is known before the first request. -/
theorem registered_start : Registered [] (QueueState.start : QueueState Inst) where
  unique i j queue other h := by simp [QueueState.start] at h
  needed i queue h := by simp [QueueState.start] at h
  consumers i queue h := by simp [QueueState.start] at h
  served request h := by simp at h
  pushes i stage := by simp [QueueState.start]
  pops i stage := by simp [QueueState.start]
  producers i stage producer := by simp [QueueState.start]
  popped stage producer i h := by simp [QueueState.start] at h

/-- A queue that is found carries the value of the request. -/
theorem Registered.find_queue (h : Registered requests state) {i : Nat}
    (hfind : findQueue state request = some i) :
    ∃ queue, state.queues[i]? = some queue ∧ queue.Serves request := by
  unfold findQueue at hfind
  have hmem := List.mem_of_find?_eq_some hfind
  obtain ⟨queue, hget, hfrom, hproducer⟩ := (h.producers i _ _).mp hmem
  have hto := List.find?_some hfind
  simp only [hget, Option.any_some, decide_eq_true_eq] at hto
  exact ⟨queue, hget, hproducer, hfrom, hto⟩

/-- A queue that carries the value of the request is found. -/
theorem Registered.find_queue_ne_none (h : Registered requests state) {i : Nat}
    {queue : QueueInfo Inst} (hget : state.queues[i]? = some queue)
    (hserves : queue.Serves request) : findQueue state request ≠ none := by
  intro hfind
  unfold findQueue at hfind
  have hmem := (h.producers i request.fromStage request.producer).mpr
    ⟨queue, hget, hserves.2.1, hserves.1⟩
  have hnot := List.find?_eq_none.mp hfind i hmem
  simp [hget, hserves.2.2] at hnot

/-- The queue of a request at its place, which it had before or which is a new one. -/
structure QueueAt (state : QueueState Inst) (request : QueueRequest Inst) (index : Nat)
    (consumers : List Inst) : Prop where
  old : ∀ queue, state.queues[index]? = some queue →
    queue.Serves request ∧ queue.consumers = consumers
  new : state.queues[index]? = none → consumers = []
  only : ∀ (i : Nat) (queue : QueueInfo Inst), state.queues[i]? = some queue →
    queue.Serves request → i = index

/-- The consumers at the place of a request before it. -/
theorem Registered.consumers_at {index : Nat} {consumers : List Inst}
    (h : Registered requests state)
    (hat : QueueAt state request index consumers) (consumer : Inst) :
    consumer ∈ consumers ↔ ∃ other ∈ requests,
      (⟨request.producer, request.consumer :: consumers, request.fromStage,
        request.toStage⟩ : QueueInfo Inst).Serves other ∧ other.consumer = consumer := by
  cases hcase : state.queues[index]? with
  | none =>
      rw [hat.new hcase]
      simp only [List.not_mem_nil, false_iff]
      intro ⟨other, hmem, ⟨hproducer, hfrom, hto⟩, _⟩
      obtain ⟨k, queue, hk, hkProducer, hkFrom, hkTo⟩ := h.served other hmem
      have hki := hat.only k queue hk ⟨hkProducer.trans hproducer.symm,
        hkFrom.trans hfrom.symm, hkTo.trans hto.symm⟩
      rw [hki, hcase] at hk
      cases hk
  | some queue =>
      obtain ⟨⟨hproducer, hfrom, hto⟩, rfl⟩ := hat.old queue hcase
      rw [h.consumers index queue hcase]
      unfold QueueInfo.Serves
      rw [hproducer, hfrom, hto]

section Register

variable [DecidableEq Inst]

/-- Make the queue of a request. -/
def makeQueue (state : QueueState Inst) (request : QueueRequest Inst) : QueueState Inst :=
  { state with
    queues := state.queues ++
      [⟨request.producer, [], request.fromStage, request.toStage⟩]
    producerToQueues := fun stage producer =>
      if stage = request.fromStage ∧ producer = request.producer
      then state.queues.length :: state.producerToQueues stage producer
      else state.producerToQueues stage producer }

/-- Track a queue in the stages of a request, and the request in the queue. -/
def trackQueue (state : QueueState Inst) (queueIndex : Nat) (request : QueueRequest Inst) :
    QueueState Inst :=
  { state with
    queues := state.queues.modify queueIndex fun queueInfo =>
      { queueInfo with
        consumers := request.consumer :: queueInfo.consumers
        fromStage := request.fromStage
        toStage := request.toStage }
    pushValueQueues := Function.update state.pushValueQueues request.fromStage
      (queueIndex :: state.pushValueQueues request.fromStage)
    popValueQueues := Function.update state.popValueQueues request.toStage
      (queueIndex :: state.popValueQueues request.toStage)
    producedPopQueue := Function.update state.producedPopQueue request.toStage
      (Function.update (state.producedPopQueue request.toStage) request.producer
        (some queueIndex)) }

/-- `DSWP::registerQueue`. It fails where a new queue has a size that is not supported. -/
def registerQueue (supportedSize : Inst → Bool) (state : QueueState Inst)
    (request : QueueRequest Inst) : Option (QueueState Inst) :=
  match findQueue state request with
  | some queueIndex => some (trackQueue state queueIndex request)
  | none =>
      if supportedSize request.producer
      then some (trackQueue (makeQueue state request) state.queues.length request)
      else none

/-- Register the queues of a list of requests, some of which fail themselves. -/
def registerQueues (supportedSize : Inst → Bool) (requests : List (Option (QueueRequest Inst)))
    (state : QueueState Inst) : Option (QueueState Inst) :=
  requests.foldl (fun state request =>
    state.bind fun state => request.bind fun request => registerQueue supportedSize state request)
    (some state)

/-- The changes that register a request. -/
structure Tracks (state state' : QueueState Inst) (request : QueueRequest Inst) (index : Nat)
    (consumers : List Inst) : Prop where
  queues : ∀ i : Nat, state'.queues[i]? =
    if i = index then some ⟨request.producer, request.consumer :: consumers, request.fromStage,
      request.toStage⟩ else state.queues[i]?
  pushes : ∀ i stage, i ∈ state'.pushValueQueues stage ↔
    i = index ∧ stage = request.fromStage ∨ i ∈ state.pushValueQueues stage
  pops : ∀ i stage, i ∈ state'.popValueQueues stage ↔
    i = index ∧ stage = request.toStage ∨ i ∈ state.popValueQueues stage
  producers : ∀ i stage producer, i ∈ state'.producerToQueues stage producer ↔
    i = index ∧ stage = request.fromStage ∧ producer = request.producer ∨
      i ∈ state.producerToQueues stage producer
  popped : ∀ stage producer, state'.producedPopQueue stage producer =
    if stage = request.toStage ∧ producer = request.producer then some index
    else state.producedPopQueue stage producer

section Track

variable {index : Nat} {consumers : List Inst}

/-- The queue of the request. -/
theorem Tracks.get_index (htracks : Tracks state state' request index consumers) :
    state'.queues[index]? = some ⟨request.producer, request.consumer :: consumers,
      request.fromStage, request.toStage⟩ := by
  rw [htracks.queues, if_pos rfl]

/-- A queue is that of the request or was there before. -/
theorem Tracks.get_cases (htracks : Tracks state state' request index consumers) {i : Nat}
    {queue : QueueInfo Inst} (hget : state'.queues[i]? = some queue) :
    i = index ∧ queue = ⟨request.producer, request.consumer :: consumers, request.fromStage,
      request.toStage⟩ ∨ i ≠ index ∧ state.queues[i]? = some queue := by
  rw [htracks.queues] at hget
  split_ifs at hget with hindex
  · exact .inl ⟨hindex, (Option.some.inj hget).symm⟩
  · exact .inr ⟨hindex, hget⟩

/-- The queues that were there keep their producer, stages and consumers. -/
theorem Tracks.kept (htracks : Tracks state state' request index consumers)
    (hat : QueueAt state request index consumers) {i : Nat} {queue : QueueInfo Inst}
    (hget : state.queues[i]? = some queue) :
    ∃ queue', state'.queues[i]? = some queue' ∧ queue'.producer = queue.producer ∧
      queue'.fromStage = queue.fromStage ∧ queue'.toStage = queue.toStage ∧
        queue.consumers ⊆ queue'.consumers := by
  by_cases hi : i = index
  · subst hi
    obtain ⟨⟨hproducer, hfrom, hto⟩, rfl⟩ := hat.old queue hget
    exact ⟨_, htracks.get_index, hproducer.symm, hfrom.symm, hto.symm, List.subset_cons_self _ _⟩
  · refine ⟨queue, ?_, rfl, rfl, rfl, List.Subset.refl _⟩
    rw [htracks.queues, if_neg hi, hget]

/-- Only the queue at the place of the request carries its value. -/
theorem Tracks.only (htracks : Tracks state state' request index consumers)
    (hat : QueueAt state request index consumers) {i : Nat} {queue : QueueInfo Inst}
    (hget : state'.queues[i]? = some queue) (hserves : queue.Serves request) : i = index := by
  rcases htracks.get_cases hget with ⟨hi, -⟩ | ⟨-, hold⟩
  · exact hi
  · exact hat.only i queue hold hserves

/-- A queue with a producer and stages that meet a condition is that of the request, or was there
before. -/
theorem Tracks.exists_queue_iff (htracks : Tracks state state' request index consumers)
    (hat : QueueAt state request index consumers) (P : Inst → Nat → Nat → Prop) {i : Nat} :
    (∃ queue : QueueInfo Inst, state'.queues[i]? = some queue ∧
        P queue.producer queue.fromStage queue.toStage) ↔
      i = index ∧ P request.producer request.fromStage request.toStage ∨
        ∃ queue : QueueInfo Inst, state.queues[i]? = some queue ∧
          P queue.producer queue.fromStage queue.toStage := by
  constructor
  · rintro ⟨queue, hget, hqueue⟩
    rcases htracks.get_cases hget with ⟨rfl, rfl⟩ | ⟨-, hold⟩
    · exact .inl ⟨rfl, hqueue⟩
    · exact .inr ⟨queue, hold, hqueue⟩
  · rintro (⟨rfl, hrequest⟩ | ⟨queue, hget, hqueue⟩)
    · exact ⟨_, htracks.get_index, hrequest⟩
    · obtain ⟨queue', hget', hproducer, hfrom, hto, -⟩ := htracks.kept hat hget
      exact ⟨queue', hget', by rwa [hproducer, hfrom, hto]⟩

/-- Registering one more request. -/
theorem Registered.track (h : Registered requests state)
    (hat : QueueAt state request index consumers)
    (htracks : Tracks state state' request index consumers) :
    Registered (requests ++ [request]) state' := by
  refine ⟨?_, ?_, ?_, ?_, ?_, ?_, ?_, ?_⟩
  · intro i j queue other hi hj hproducer hfrom hto
    rcases htracks.get_cases hi with ⟨rfl, rfl⟩ | ⟨hne, hold⟩
    · exact (htracks.only hat hj ⟨hproducer.symm, hfrom.symm, hto.symm⟩).symm
    · rcases htracks.get_cases hj with ⟨rfl, rfl⟩ | ⟨-, hother⟩
      · exact htracks.only hat hi ⟨hproducer, hfrom, hto⟩
      · exact h.unique i j queue other hold hother hproducer hfrom hto
  · intro i queue hget
    rcases htracks.get_cases hget with ⟨rfl, rfl⟩ | ⟨-, hold⟩
    · exact ⟨request, List.mem_append_right _ (List.mem_singleton_self _), rfl, rfl, rfl⟩
    · obtain ⟨other, hmem, hother⟩ := h.needed i queue hold
      exact ⟨other, List.mem_append_left _ hmem, hother⟩
  · intro i queue hget consumer
    simp only [List.mem_append, List.mem_singleton, or_and_right, exists_or, exists_eq_left]
    rcases htracks.get_cases hget with ⟨rfl, rfl⟩ | ⟨hne, hold⟩
    · have hconsumers := h.consumers_at hat consumer
      constructor
      · intro hmem
        rcases List.mem_cons.mp hmem with rfl | hmem
        · exact .inr ⟨⟨rfl, rfl, rfl⟩, rfl⟩
        · exact .inl (hconsumers.mp hmem)
      · intro hmem
        rcases hmem with hmem | ⟨-, rfl⟩
        · exact List.mem_cons_of_mem _ (hconsumers.mpr hmem)
        · exact List.mem_cons_self
    · rw [h.consumers i queue hold]
      constructor
      · exact .inl
      · intro hmem
        rcases hmem with hmem | ⟨hqueueServes, -⟩
        · exact hmem
        · exact (hne (hat.only i queue hold hqueueServes)).elim
  · intro other hmem
    rcases List.mem_append.mp hmem with hmem | hmem
    · obtain ⟨i, queue, hget, hproducer, hfrom, hto⟩ := h.served other hmem
      obtain ⟨queue', hget', hproducer', hfrom', hto', -⟩ := htracks.kept hat hget
      exact ⟨i, queue', hget', hproducer'.trans hproducer, hfrom'.trans hfrom, hto'.trans hto⟩
    · obtain rfl := List.mem_singleton.mp hmem
      exact ⟨index, _, htracks.get_index, rfl, rfl, rfl⟩
  · intro i stage
    rw [htracks.exists_queue_iff hat fun _ fromStage _ => fromStage = stage, htracks.pushes,
      h.pushes, eq_comm (a := stage)]
  · intro i stage
    rw [htracks.exists_queue_iff hat fun _ _ toStage => toStage = stage, htracks.pops, h.pops,
      eq_comm (a := stage)]
  · intro i stage producer
    rw [htracks.exists_queue_iff hat fun value fromStage _ => fromStage = stage ∧ value = producer,
      htracks.producers, h.producers, eq_comm (a := stage), eq_comm (a := producer)]
  · intro stage producer i hpopped
    rw [htracks.popped] at hpopped
    split_ifs at hpopped with hcase
    · obtain rfl := Option.some.inj hpopped
      exact ⟨_, htracks.get_index, hcase.1.symm, hcase.2.symm⟩
    · obtain ⟨queue, hget, hto, hproducer⟩ := h.popped stage producer i hpopped
      obtain ⟨queue', hget', hproducer', -, hto', -⟩ := htracks.kept hat hget
      exact ⟨queue', hget', hto'.trans hto, hproducer'.trans hproducer⟩

end Track

/-- The changes to a queue that is there. -/
theorem tracks_track_queue {i : Nat} {queue : QueueInfo Inst}
    (hget : state.queues[i]? = some queue) (hproducer : queue.producer = request.producer)
    (hproducers : i ∈ state.producerToQueues request.fromStage request.producer) :
    Tracks state (trackQueue state i request) request i queue.consumers where
  queues k := by
    unfold trackQueue
    rw [List.getElem?_modify]
    split_ifs with hik hki hki
    · rw [← hik, hget, ← hproducer]
      rfl
    · exact (hki hik.symm).elim
    · exact (hik hki.symm).elim
    · exact Option.map_id'
  pushes k stage := by
    unfold trackQueue
    by_cases hstage : stage = request.fromStage
    · subst hstage
      simp
    · simp [hstage]
  pops k stage := by
    unfold trackQueue
    by_cases hstage : stage = request.toStage
    · subst hstage
      simp
    · simp [hstage]
  producers k stage producer := by
    unfold trackQueue
    constructor
    · exact .inr
    · intro hmem
      rcases hmem with ⟨rfl, rfl, rfl⟩ | hmem
      · exact hproducers
      · exact hmem
  popped stage producer := by
    unfold trackQueue
    by_cases hstage : stage = request.toStage
    · subst hstage
      by_cases hproducer : producer = request.producer
      · subst hproducer
        simp
      · simp [hproducer]
    · simp [hstage]

/-- The changes to a new queue. -/
theorem tracks_make_queue : Tracks state
    (trackQueue (makeQueue state request) state.queues.length request) request
    state.queues.length [] := by
  have hget : (makeQueue state request).queues[state.queues.length]? =
      some ⟨request.producer, [], request.fromStage, request.toStage⟩ :=
    List.getElem?_concat_length
  have htracks : Tracks (makeQueue state request) _ request _ _ :=
    tracks_track_queue hget rfl (by simp [makeQueue])
  refine ⟨fun i => ?_, htracks.pushes, htracks.pops, fun i stage producer => ?_, htracks.popped⟩
  · rw [htracks.queues]
    split_ifs with hi
    · rfl
    · rcases Nat.lt_or_gt_of_ne hi with hlt | hgt
      · exact List.getElem?_append_left hlt
      · unfold makeQueue
        rw [List.getElem?_eq_none (by simp; omega), List.getElem?_eq_none (by omega)]
  · rw [htracks.producers]
    unfold makeQueue
    dsimp only
    split_ifs with hcase
    · rw [List.mem_cons]
      tauto
    · rfl

/-- Registering a request tracks it in a queue that it had before or in a new one. -/
theorem Registered.exists_tracks {supportedSize : Inst → Bool} (h : Registered requests state)
    (hregister : registerQueue supportedSize state request = some state') :
    ∃ (index : Nat) (consumers : List Inst), QueueAt state request index consumers ∧
      Tracks state state' request index consumers := by
  unfold registerQueue at hregister
  cases hfind : findQueue state request with
  | some i =>
      rw [hfind] at hregister
      obtain rfl := Option.some.inj hregister
      obtain ⟨queue, hget, hserves⟩ := h.find_queue hfind
      refine ⟨i, queue.consumers, ⟨?_, ?_, ?_⟩, tracks_track_queue hget hserves.1
        ((h.producers i _ _).mpr ⟨queue, hget, hserves.2.1, hserves.1⟩)⟩
      · intro other hother
        obtain rfl := Option.some.inj (hget.symm.trans hother)
        exact ⟨hserves, rfl⟩
      · intro hnone
        rw [hget] at hnone
        cases hnone
      · intro k other hk hother
        exact h.unique k i other queue hk hget (hother.1.trans hserves.1.symm)
          (hother.2.1.trans hserves.2.1.symm) (hother.2.2.trans hserves.2.2.symm)
  | none =>
      rw [hfind] at hregister
      dsimp only at hregister
      split_ifs at hregister
      obtain rfl := Option.some.inj hregister
      refine ⟨state.queues.length, [], ⟨?_, fun _ => rfl, ?_⟩, tracks_make_queue⟩
      · intro queue hget
        rw [List.getElem?_eq_none (Nat.le_refl _)] at hget
        cases hget
      · intro k other hk hother
        exact (h.find_queue_ne_none hk hother hfind).elim

/-- Registering the queue of a request. -/
theorem Registered.register_queue {supportedSize : Inst → Bool} (h : Registered requests state)
    (hregister : registerQueue supportedSize state request = some state') :
    Registered (requests ++ [request]) state' := by
  obtain ⟨_, _, hat, htracks⟩ := h.exists_tracks hregister
  exact h.track hat htracks

/-- Registering requests needs all of them, and adds them to what is known. -/
theorem Registered.register_queues {supportedSize : Inst → Bool}
    {requests : List (Option (QueueRequest Inst))} {before : List (QueueRequest Inst)}
    {state state' : QueueState Inst} (h : Registered before state)
    (hregister : registerQueues supportedSize requests state = some state') :
    ∃ made, requests = made.map some ∧ Registered (before ++ made) state' := by
  induction requests using List.reverseRecOn generalizing state' with
  | nil =>
      obtain rfl := Option.some.inj hregister
      exact ⟨[], rfl, by rwa [List.append_nil]⟩
  | append_singleton requests request ih =>
      unfold registerQueues at hregister
      rw [List.foldl_append] at hregister
      simp only [List.foldl_cons, List.foldl_nil, Option.bind_eq_some_iff] at hregister
      obtain ⟨middle, hmiddle, last, rfl, hlast⟩ := hregister
      obtain ⟨made, rfl, hmade⟩ := ih hmiddle
      refine ⟨made ++ [last], by simp, ?_⟩
      rw [← List.append_assoc]
      exact hmade.register_queue hlast

end Register

end Gino.Dswp
