import Gino.Doall.Applicability
import Gino.Doall.Dispatched

/-!
# What a DOALL loop does to the memory

The cores of a dispatch run their iterations at the same time, instruction by instruction. When no
iteration stores to a place that another one accesses, what they leave in the memory is what the
sequential loop leaves there (`dispatch_preserves_memory`). That is so for the loops that
`DOALL::canBeAppliedToLoop` accepts (`applied_loop_preserves_memory`).
-/

namespace Gino.Doall

open Machine Gino.Runtime

variable {ι V Env Place Value Private : Type*}

/-- The iterations in what a call executes. With guards that includes the header that leaves the
loop, and else only bodies do anything to the memory. -/
def ChunkedLoop.iterations (loop : ChunkedLoop ι V) (visits : Visits ι V) : List (Nat × (ι → V)) :=
  if loop.requiresConditionBeforeEnteringHeader then visits.headers else visits.bodies

/-- The iterations of the sequential loop, with their induction variables. -/
def sequentialIterations [CommRing V] (loop : ChunkedLoop ι V) (tripCount : Nat) :
    List (Nat × (ι → V)) :=
  (List.range (if loop.requiresConditionBeforeEnteringHeader then tripCount + 1 else tripCount)).map
    (visitAt loop)

/-- No iteration comes twice. -/
theorem nodup_sequential_iterations [CommRing V] (loop : ChunkedLoop ι V) (tripCount : Nat) :
    (sequentialIterations loop tripCount).Nodup := by
  unfold sequentialIterations
  exact List.nodup_range.map fun first second heq => (Prod.mk.inj heq).1

section Memory

variable [CommRing V] [DecidableEq V] {utility : IVUtility V} {maxCores : BitVec 32}
  {state : DoallState (LinkedLoop ι V) Env} {id tripCount : Nat}
  {dispatch : DoallDispatch (LinkedLoop ι V) Env}

/-- The iterations that the calls of a dispatch that has returned execute are those of the loop. -/
theorem exists_iterations (hutility : utility.Documented)
    (h : (linkedSystem ι V Env maxCores).Reachable state)
    (hid : state.dispatches id = some dispatch) (hpoint : dispatch.point = .returned)
    (hchunk : 1 ≤ dispatch.parallelizedLoop.chunkSize)
    (hsound : SoundExit dispatch.parallelizedLoop.loop tripCount dispatch.numCores.toNat
      dispatch.parallelizedLoop.chunkSize) :
    ∃ visits : LoopCall (LinkedLoop ι V) Env → Visits ι V,
      (∀ call ∈ state.calls id, Executes utility call tripCount (visits call)) ∧
      ((state.calls id).map fun call =>
        call.parallelizedLoop.loop.iterations (visits call)).flatten.Perm
          (sequentialIterations dispatch.parallelizedLoop.loop tripCount) := by
  obtain ⟨visits, hexecutes, hbodies, hheaders⟩ :=
    exists_visits hutility h hid hpoint hchunk hsound
  refine ⟨visits, hexecutes, ?_⟩
  have hloop : (state.calls id).map (fun call =>
      call.parallelizedLoop.loop.iterations (visits call)) =
        (state.calls id).map fun call =>
          dispatch.parallelizedLoop.loop.iterations (visits call) := by
    refine List.map_congr_left fun call hcall => ?_
    obtain ⟨coreID, -, rfl⟩ :=
      List.mem_map.mp ((returned_calls h hid hpoint).1.mem_iff.mp hcall)
    rfl
  rw [hloop, ← List.flatMap_def]
  unfold ChunkedLoop.iterations sequentialIterations
  cases hguards : dispatch.parallelizedLoop.loop.requiresConditionBeforeEnteringHeader with
  | true => simpa using hheaders hguards
  | false => simpa using hbodies

variable [DecidableEq (ι → V)] [DecidableEq Place]
  {threads : Threads (Nat × (ι → V)) Place Value Private} {memory final : Place → Value}

/-- The calls of a dispatch come to an end, run instruction by instruction and in any interleaving,
and leave a given memory. -/
def CallsLeave (utility : IVUtility V) (threads : Threads (Nat × (ι → V)) Place Value Private)
    (calls : List (LoopCall (LinkedLoop ι V) Env)) (tripCount : Nat)
    (memory final : Place → Value) : Prop :=
  ∃ visits : LoopCall (LinkedLoop ι V) Env → Visits ι V,
    (∀ call ∈ calls, Executes utility call tripCount (visits call)) ∧
    ∃ bound, ∀ past cores,
      (threads.workersSystem (calls.map fun call =>
        call.parallelizedLoop.loop.iterations (visits call)) memory).Run past cores →
      past.length ≤ bound ∧
        ((∀ core next, ¬ Threads.WorkersStep threads cores core next) → cores.memory = final)

omit [DecidableEq V] in
/-- Cores that run disjoint iterations come to an end and leave what the loop leaves. -/
theorem cores_leave {loop : ChunkedLoop ι V} {queues : List (List (Nat × (ι → V)))}
    (hperm : queues.flatten.Perm (sequentialIterations loop tripCount))
    (hdisjoint : threads.Disjoint (· ∈ sequentialIterations loop tripCount) memory)
    (hsequential : threads.RunsInOrder (sequentialIterations loop tripCount) memory final) :
    ∃ bound, ∀ past cores, (threads.workersSystem queues memory).Run past cores →
      past.length ≤ bound ∧
        ((∀ core next, ¬ Threads.WorkersStep threads cores core next) → cores.memory = final) := by
  have hnodup := nodup_sequential_iterations loop tripCount
  have hsame : (· ∈ sequentialIterations loop tripCount) = (· ∈ queues.flatten) :=
    funext fun iteration => propext hperm.mem_iff.symm
  choose! length hlength using Threads.halts_of_order hdisjoint hnodup hsequential
  refine ⟨∑ iteration ∈ queues.flatten.toFinset, (length iteration + 1),
    fun past cores hrun => ⟨?_, Threads.workers_memory hperm hnodup hdisjoint hsequential hrun⟩⟩
  exact Threads.workers_bounded (hsame ▸ hdisjoint) (hperm.nodup_iff.mpr hnodup)
    (fun iteration hmem => hlength iteration (hperm.mem_iff.mp hmem)) hrun

/-- Iterations that each store their number to a place of their own. The header that leaves the loop
stores nothing. -/
def storeIterations : Threads (Nat × (Unit → BitVec 32)) Nat Nat (Option Nat) where
  start iteration := if iteration.1 < 5 then some iteration.1 else none
  instruction own := own.map fun iteration => .store iteration (iteration + 1) none

/-- An iteration is before its store, or it has halted. -/
theorem store_iterations_alone (memory : Nat → Nat) (iteration : Nat × (Unit → BitVec 32))
    (steps : Nat) :
    (storeIterations.alone memory iteration steps).1 = none ∨
      (storeIterations.alone memory iteration steps).1 = some iteration.1 := by
  induction steps with
  | zero =>
      show (if iteration.1 < 5 then some iteration.1 else none) = none ∨ _
      by_cases hlt : iteration.1 < 5
      · exact .inr (if_pos hlt)
      · exact .inl (if_neg hlt)
  | succ steps ih =>
      left
      show ((storeIterations.step _ _).getD _).1 = none
      unfold Threads.step
      rcases ih with hnone | hsome
      · rw [hnone]
        exact hnone
      · rw [hsome]
        rfl

/-- An instruction of an iteration stores to its own place. -/
theorem store_iterations_instruction {memory : Nat → Nat} {iteration : Nat × (Unit → BitVec 32)}
    {steps : Nat} {instruction : Instruction Nat Nat (Option Nat)}
    (h : storeIterations.instruction (storeIterations.alone memory iteration steps).1 =
      some instruction) : instruction = .store iteration.1 (iteration.1 + 1) none := by
  rcases store_iterations_alone memory iteration steps with hown | hown
  · rw [hown] at h
    cases h
  · rw [hown] at h
    cases h
    rfl

/-- The iterations are disjoint. -/
theorem store_iterations_disjoint (memory : Nat → Nat) : storeIterations.Disjoint
    (· ∈ sequentialIterations fiveIterations.loop 5) memory := by
  intro iteration other hmem hother hne place ⟨_, _, _, hstores⟩
  refine ⟨fun ⟨_, _, _, hstored⟩ => hne ?_, fun ⟨_, _, hload⟩ => ?_⟩
  · obtain ⟨first, -, rfl⟩ := List.mem_map.mp hmem
    obtain ⟨second, -, rfl⟩ := List.mem_map.mp hother
    cases store_iterations_instruction hstores
    cases store_iterations_instruction hstored
    rfl
  · cases store_iterations_instruction hload

/-- The sequential loop stores the five numbers. -/
theorem store_iterations_in_order : ∃ final, storeIterations.RunsInOrder
    (sequentialIterations fiveIterations.loop 5) (fun _ => 0) final ∧
      (List.range 6).map final = [1, 2, 3, 4, 5, 0] :=
  ⟨_, .cons 1 rfl (.cons 1 rfl (.cons 1 rfl (.cons 1 rfl (.cons 1 rfl (.cons 0 rfl (.nil _)))))),
    by decide⟩

/-- The calls of a dispatch that has returned, run instruction by instruction and in any
interleaving, come to an end, and what they leave in the memory is what the sequential loop leaves,
if no iteration stores to a place that another one accesses. -/
theorem dispatch_preserves_memory (hutility : utility.Documented)
    (h : (linkedSystem ι V Env maxCores).Reachable state)
    (hid : state.dispatches id = some dispatch) (hpoint : dispatch.point = .returned)
    (hchunk : 1 ≤ dispatch.parallelizedLoop.chunkSize)
    (hsound : SoundExit dispatch.parallelizedLoop.loop tripCount dispatch.numCores.toNat
      dispatch.parallelizedLoop.chunkSize)
    (hdisjoint : threads.Disjoint
      (· ∈ sequentialIterations dispatch.parallelizedLoop.loop tripCount) memory)
    (hsequential : threads.RunsInOrder
      (sequentialIterations dispatch.parallelizedLoop.loop tripCount) memory final) :
    CallsLeave utility threads (state.calls id) tripCount memory final := by
  obtain ⟨visits, hexecutes, hperm⟩ := exists_iterations hutility h hid hpoint hchunk hsound
  exact ⟨visits, hexecutes, cores_leave hperm hdisjoint hsequential⟩

/-- The five iterations on two cores leave the five numbers. -/
theorem five_iterations_stored :
    ∃ (state : DoallState (LinkedLoop Unit (BitVec 32)) Unit) (final : Nat → Nat),
      (state.calls 0).length = 2 ∧ (List.range 6).map final = [1, 2, 3, 4, 5, 0] ∧
        CallsLeave .arithmetic storeIterations (state.calls 0) 5 (fun _ => 0) final := by
  obtain ⟨state, dispatch, hreach, hid, hpoint, hloop, hcores⟩ := five_iterations_returned
  obtain ⟨final, horder, hfinal⟩ := store_iterations_in_order
  have hdisjoint := store_iterations_disjoint fun _ => 0
  rw [← hloop] at horder hdisjoint
  refine ⟨state, final, ?_, hfinal, dispatch_preserves_memory IVUtility.arithmetic_documented
    hreach hid hpoint (by rw [hloop]; decide)
    (by rw [hloop, hcores]; exact five_iterations_sound.toSoundExit) hdisjoint horder⟩
  have hlength := (returned_calls hreach hid hpoint).1.length_eq
  simpa [hcores] using hlength

/-- What the analyses say about the five iterations: their store depends on itself, but it goes to
another place in each iteration. -/
def storeContent : LoopContent Unit where
  doallMetadata := none
  loopExitBasicBlocks := [some .other, some (.call (some "exit"))]
  liveOutVariablesThatAreNotReducable := []
  sccOfProducer _ := .other
  sccsWithLoopCarriedDataDependencies := [⟨.loopCarriedUnknown, [⟨.memory, some (), some ()⟩]⟩]
  areInstructionsAccessingDisjointMemoryLocationsBetweenIterations _ _ := true
  loopGoverningInductionVariable := some []
  inductionVariables := [true]
  isLoopInvariant _ := true

/-- The analyses are sound. -/
theorem store_content_sound (memory : Nat → Nat) :
    SoundAnalyses storeContent storeIterations (fun _ => ())
      (· ∈ sequentialIterations fiveIterations.loop 5) memory := by
  have hnone : ∀ fromInst toInst, ¬ Conflict storeIterations (fun _ => ())
      (· ∈ sequentialIterations fiveIterations.loop 5) memory fromInst toInst := by
    intro fromInst toInst ⟨iteration, other, hmem, hother, hne, place, hstores, haccess⟩
    obtain ⟨steps, value, next, -, hstores⟩ := hstores
    have hdisjoint := store_iterations_disjoint memory iteration other hmem hother hne place
      ⟨steps, value, next, hstores⟩
    rcases haccess with ⟨later, value, next, -, hstored⟩ | ⟨later, next, -, hload⟩
    · exact hdisjoint.1 ⟨later, value, next, hstored⟩
    · exact hdisjoint.2 ⟨later, next, hload⟩
  refine ⟨fun fromInst toInst hconflict => absurd hconflict (hnone _ _),
    fun fromInst toInst _ => ⟨hnone _ _, hnone _ _⟩, fun sccInfo hmem _ => .inl ?_⟩
  rw [List.mem_singleton.mp hmem]

end Memory

end Gino.Doall
