import Gino.Doall.Reduction
import Gino.Runtime.DoallFrame
import Gino.Runtime.DoallJoin
import Mathlib.Data.List.Perm.Basic

/-!
# A DOALL loop from its invocation to its return

`DOALL::invokeParallelizedLoop` replaces a loop by a call of the dispatcher with the task, the most
cores the loop may use and the chunk size. The runtime grants some number of cores, and every core
runs the task on the chunks of its ID. `dispatch_runs_loop` says that a dispatch that has returned
executed every iteration of the loop once, whatever it was granted and whatever else the runtime was
doing, and `dispatch_reduces_loop` that reducing the private slots of the cores it used gives the
sequential result.
-/

namespace Gino.Doall

open Machine Gino.Runtime

variable {ι V M Env : Type*}

/-- A loop as the compiled program invokes it: its task and the constants passed to the
dispatcher. The environment has a private slot for each of the most cores. -/
structure LinkedLoop (ι V : Type*) where
  loop : ChunkedLoop ι V
  maximumNumberOfCores : BitVec 32
  chunkSize : Nat

/-- The steps of a compiled program: a new dispatch is the invocation of a linked loop. -/
inductive LinkedStep : DoallState (LinkedLoop ι V) Env → Nat → DoallState (LinkedLoop ι V) Env →
    Prop where
  | invokeParallelizedLoop (state : DoallState (LinkedLoop ι V) Env) (id : Nat)
      (parallelizedLoop : LinkedLoop ι V) (env : Env) (hnew : state.dispatches id = none) :
      LinkedStep state id
        { state.setDispatch id ⟨parallelizedLoop, env,
            (state.runtime.reserveCores parallelizedLoop.maximumNumberOfCores).1,
            parallelizedLoop.chunkSize, 0, .getArgs⟩ with
          runtime := (state.runtime.reserveCores parallelizedLoop.maximumNumberOfCores).2 }
  | dispatched (state : DoallState (LinkedLoop ι V) Env) (id : Nat)
      (next : DoallState (LinkedLoop ι V) Env) (dispatch : DoallDispatch (LinkedLoop ι V) Env)
      (hid : state.dispatches id = some dispatch) (hstep : DoallStep state id next) :
      LinkedStep state id next

/-- A compiled program whose loops run on `maxCores` cores. -/
def linkedSystem (ι V Env : Type*) (maxCores : BitVec 32) :
    System (DoallState (LinkedLoop ι V) Env) Nat where
  Initial := (doallSystem maxCores).Initial
  Step := LinkedStep

/-- The task instance that a call runs. -/
def taskArgs (call : LoopCall (LinkedLoop ι V) Env) : TaskArgs :=
  ⟨call.coreID, call.numCores, call.parallelizedLoop.chunkSize⟩

/-! ## What the dispatcher passes on -/

section Linked

variable {maxCores : BitVec 32} {state next : DoallState (LinkedLoop ι V) Env} {id : Nat}
  {dispatch : DoallDispatch (LinkedLoop ι V) Env}

/-- A compiled program takes steps of the dispatcher. -/
theorem LinkedStep.doall (h : LinkedStep state id next) : DoallStep state id next := by
  cases h with
  | invokeParallelizedLoop parallelizedLoop env hnew =>
      exact .reserve state id parallelizedLoop env _ _ hnew
  | dispatched _ dispatch hid hstep => exact hstep

/-- The states of a compiled program are states of the dispatcher. -/
theorem linked_reachable (h : (linkedSystem ι V Env maxCores).Reachable state) :
    (doallSystem maxCores).Reachable state := by
  induction h with
  | initial h => exact .initial h
  | step _ hstep ih => exact .step ih hstep.doall

/-- A dispatch of a linked loop passes its chunk size on and has at most its most cores. -/
structure Linked (dispatch : DoallDispatch (LinkedLoop ι V) Env) : Prop where
  chunkSize : dispatch.chunkSize = dispatch.parallelizedLoop.chunkSize
  most : dispatch.numCores.toNat ≤
    max 1 dispatch.parallelizedLoop.maximumNumberOfCores.toNat

/-- Every dispatch of a compiled program is linked. -/
theorem linked_invariant (h : (linkedSystem ι V Env maxCores).Reachable state) :
    ∀ id dispatch, state.dispatches id = some dispatch → Linked dispatch := by
  refine h.invariant (fun state => ∀ id dispatch, state.dispatches id = some dispatch →
    Linked dispatch) ?_ fun state id next hinv hstep other dispatch hother => ?_
  · rintro state ⟨-, -, hdispatches, -⟩ id dispatch hid
    simp [hdispatches] at hid
  · cases hstep with
    | invokeParallelizedLoop parallelizedLoop env hnew =>
        by_cases hsame : other = id
        · subst hsame
          simp only [DoallState.setDispatch, Function.update_self, Option.some.injEq] at hother
          subst hother
          refine ⟨rfl, ?_⟩
          rw [reserve_cores_to_nat]
          exact max_le_max le_rfl (min_le_left _ _)
        · exact hinv other dispatch (by simpa [DoallState.setDispatch, hsame] using hother)
    | dispatched _ moved hid hstep =>
        by_cases hsame : other = id
        · subst hsame
          obtain ⟨kept, hkept, hinvoked⟩ := dispatch_kept hid hstep
          obtain rfl : kept = dispatch := Option.some.inj (hkept.symm.trans hother)
          have hlinked := hinv other moved hid
          exact ⟨by rw [hinvoked.chunkSize, hinvoked.parallelizedLoop]; exact hlinked.chunkSize,
            by rw [hinvoked.numCores, hinvoked.parallelizedLoop]; exact hlinked.most⟩
        · rw [dispatches_other hstep hsame] at hother
          exact hinv other dispatch hother

/-- The calls of a dispatch that has returned. -/
theorem returned_calls (h : (linkedSystem ι V Env maxCores).Reachable state)
    (hid : state.dispatches id = some dispatch) (hpoint : dispatch.point = .returned) :
    (state.calls id).Perm ((List.range dispatch.numCores.toNat).map dispatch.call) ∧
      1 ≤ dispatch.numCores.toNat := by
  have hdispatch := (doall_invariant (linked_reachable h)).dispatches id dispatch hid
  refine ⟨hdispatch.returned hpoint, ?_⟩
  have := hdispatch.cores
  omega

end Linked

/-! ## What the loop executes -/

section Loop

variable [CommRing V] [DecidableEq V] {utility : IVUtility V} {maxCores : BitVec 32}
  {state : DoallState (LinkedLoop ι V) Env} {id tripCount : Nat}
  {dispatch : DoallDispatch (LinkedLoop ι V) Env}

omit [CommRing V] [DecidableEq V] in
/-- The shares of all parties together are the indices. -/
theorem shares_perm {parties : Nat} (chunk : Nat) (hparties : 0 < parties) (bound : Nat) :
    ((List.range parties).flatMap fun party =>
      (List.range bound).filter fun index => dealer parties chunk index = party).Perm
        (List.range bound) := by
  refine (List.perm_ext_iff_of_nodup ?_ List.nodup_range).mpr fun index => ?_
  · refine List.nodup_flatMap.mpr ⟨fun party _ => List.nodup_range.filter _, ?_⟩
    refine List.nodup_range.imp fun {first second} hne index hfirst hsecond => hne ?_
    have howner := (List.mem_filter.mp hfirst).2
    have howner' := (List.mem_filter.mp hsecond).2
    exact (of_decide_eq_true howner).symm.trans (of_decide_eq_true howner')
  · have hlt : dealer parties chunk index < parties := Nat.mod_lt _ hparties
    simp only [List.mem_flatMap, List.mem_filter, List.mem_range, decide_eq_true_eq]
    exact ⟨fun ⟨_, _, hmem, _⟩ => hmem, fun hmem => ⟨_, hlt, hmem, rfl⟩⟩

/-- What a call of the task executes, header by header and body by body. The call ends with any
fuel above the trip count. -/
def Executes (utility : IVUtility V) (call : LoopCall (LinkedLoop ι V) Env) (tripCount : Nat)
    (visits : Visits ι V) : Prop :=
  ∃ leave, leave.value = visits ∧ ∀ fuel > tripCount,
    run utility call.parallelizedLoop.loop (taskArgs call) visit fuel ⟨[], []⟩ = some leave

omit [CommRing V] [DecidableEq V] in
/-- What all cores of a returned dispatch do, collected over the calls in any order. -/
theorem calls_flat_map {α : Type*} (hcalls : (state.calls id).Perm
      ((List.range dispatch.numCores.toNat).map dispatch.call))
    (f : LoopCall (LinkedLoop ι V) Env → List α) (share : Nat → List Nat) (g : Nat → α)
    {bound : Nat} (hshare : ∀ coreID < dispatch.numCores.toNat,
      f (dispatch.call coreID) = (share coreID).map g)
    (hperm : ((List.range dispatch.numCores.toNat).flatMap share).Perm (List.range bound)) :
    ((state.calls id).flatMap f).Perm ((List.range bound).map g) := by
  refine (hcalls.flatMap_right f).trans ?_
  rw [List.flatMap_map]
  have heach : (List.range dispatch.numCores.toNat).flatMap (fun coreID =>
      f (dispatch.call coreID)) =
        (List.range dispatch.numCores.toNat).flatMap fun coreID => (share coreID).map g :=
    List.flatMap_congr fun coreID hmem => hshare coreID (List.mem_range.mp hmem)
  rw [heach, ← List.map_flatMap]
  exact hperm.map g

/-- A guarded loop of five iterations over machine words in chunks of two, for at most two cores. -/
def fiveIterations : LinkedLoop Unit (BitVec 32) where
  loop := ⟨fun _ => 0, fun _ => 1, (), fun iv => decide (5 ≤ iv), true⟩
  maximumNumberOfCores := 2
  chunkSize := 2

/-- Its tests on two cores are sound. -/
theorem five_iterations_sound : SoundReduction fiveIterations.loop 5 (2 : BitVec 32).toNat 2 where
  before := by decide
  last := by decide
  guards _ chunk hpos hlt := by
    have hpos' : 2 < chunk := hpos
    have hlt' : chunk < 4 := hlt
    obtain rfl : chunk = 3 := by omega
    decide
  headers hguarded := by cases hguarded
  select hguarded := by cases hguarded

/-- The loop invoked on two cores, until its dispatch returns. -/
theorem five_iterations_returned :
    ∃ state dispatch, (linkedSystem Unit (BitVec 32) Unit 2).Reachable state ∧
      state.dispatches 0 = some dispatch ∧ dispatch.point = .returned ∧
        dispatch.parallelizedLoop = fiveIterations ∧ dispatch.numCores = 2 := by
  have hinitial : (linkedSystem Unit (BitVec 32) Unit 2).Reachable (⟨.init 2, 0,
      fun _ => ⟨fun _ => ⟨⟨fiveIterations, (), 0, 0, 0⟩, none⟩, 0, false⟩, fun _ => none,
      fun _ _ => .notSubmitted, fun _ => []⟩ : DoallState (LinkedLoop Unit (BitVec 32)) Unit) :=
    .initial ⟨rfl, rfl, rfl, rfl, rfl⟩
  have hinvoke := hinitial.step (.invokeParallelizedLoop _ 0 fiveIterations () rfl)
  have hblock := hinvoke.step (.dispatched _ 0 _ _ rfl (.allocateBlock _ 0 _ rfl rfl rfl))
  have hinit := hblock.step (.dispatched _ 0 _ _ rfl (.initArgs _ 0 0 _ rfl rfl (by decide)))
  have hargs := hinit.step (.dispatched _ 0 _ _ rfl (.gotArgs _ 0 _ rfl rfl))
  have hprepare := hargs.step (.dispatched _ 0 _ _ rfl (.prepare _ 0 0 _ rfl rfl (by decide)))
  have hsubmit := hprepare.step (.dispatched _ 0 _ _ rfl (.submit _ 0 0 _ rfl rfl))
  have hstart := hsubmit.step (.dispatched _ 0 _ _ rfl (.start _ 0 0 _ rfl rfl))
  have hsubmitted := hstart.step (.dispatched _ 0 _ _ rfl (.submitted _ 0 _ rfl rfl))
  have hown := hsubmitted.step (.dispatched _ 0 _ _ rfl (.ownCall _ 0 _ rfl rfl))
  have hcall := hown.step (.dispatched _ 0 _ _ rfl (.call _ 0 0 _ rfl))
  have hunlock := hcall.step (.dispatched _ 0 _ _ rfl (.unlock _ 0 0 _ rfl rfl))
  have hjoin := hunlock.step (.dispatched _ 0 _ _ rfl (.join _ 0 0 _ rfl rfl (by decide) rfl))
  have hjoined := hjoin.step (.dispatched _ 0 _ _ rfl (.joined _ 0 _ rfl rfl))
  have hcores := hjoined.step (.dispatched _ 0 _ _ rfl (.releaseCores _ 0 _ rfl rfl))
  have hreturn := hcores.step (.dispatched _ 0 _ _ rfl (.releaseArgs _ 0 _ rfl rfl))
  exact ⟨_, _, hreturn, rfl, rfl, rfl, rfl⟩

/-- The executions of the calls of a dispatch that has returned: together every body of the loop,
and with guards every header. -/
theorem exists_visits (hutility : utility.Documented)
    (h : (linkedSystem ι V Env maxCores).Reachable state)
    (hid : state.dispatches id = some dispatch) (hpoint : dispatch.point = .returned)
    (hchunk : 1 ≤ dispatch.parallelizedLoop.chunkSize)
    (hsound : SoundExit dispatch.parallelizedLoop.loop tripCount dispatch.numCores.toNat
      dispatch.parallelizedLoop.chunkSize) :
    ∃ visits : LoopCall (LinkedLoop ι V) Env → Visits ι V,
      (∀ call ∈ state.calls id, Executes utility call tripCount (visits call)) ∧
      ((state.calls id).flatMap fun call => (visits call).bodies).Perm
        ((List.range tripCount).map (visitAt dispatch.parallelizedLoop.loop)) ∧
      (dispatch.parallelizedLoop.loop.requiresConditionBeforeEnteringHeader = true →
        ((state.calls id).flatMap fun call => (visits call).headers).Perm
          ((List.range (tripCount + 1)).map (visitAt dispatch.parallelizedLoop.loop))) := by
  obtain ⟨hcalls, hcores⟩ := returned_calls h hid hpoint
  have hrun : ∀ coreID, coreID < dispatch.numCores.toNat → _ := fun coreID hcoreID =>
    hsound.visits (taskArgs (dispatch.call coreID)) hutility hchunk hcoreID
  have : Nonempty (Leave ι V (Visits ι V)) := ⟨(hrun 0 hcores).choose⟩
  choose! leave hleave hbodies hheaders using hrun
  refine ⟨fun call => (leave call.coreID).value, fun call hcall => ?_, ?_, fun hguards => ?_⟩
  · obtain ⟨coreID, hmem, rfl⟩ := List.mem_map.mp (hcalls.mem_iff.mp hcall)
    exact ⟨leave coreID, rfl, hleave coreID (List.mem_range.mp hmem)⟩
  · exact calls_flat_map hcalls _ _ _ hbodies
      (shares_perm dispatch.parallelizedLoop.chunkSize hcores _)
  · exact calls_flat_map hcalls _ _ _ (fun coreID hcoreID => hheaders coreID hcoreID hguards)
      (shares_perm dispatch.parallelizedLoop.chunkSize hcores _)

/-- A dispatch that has returned made calls that together executed every body of the loop once, with
the induction variables of the sequential loop, and with guards every header once. No core ID is
used twice, and none is beyond the private slots. -/
theorem dispatch_runs_loop (hutility : utility.Documented)
    (h : (linkedSystem ι V Env maxCores).Reachable state)
    (hid : state.dispatches id = some dispatch) (hpoint : dispatch.point = .returned)
    (hchunk : 1 ≤ dispatch.parallelizedLoop.chunkSize)
    (hsound : SoundExit dispatch.parallelizedLoop.loop tripCount dispatch.numCores.toNat
      dispatch.parallelizedLoop.chunkSize) :
    ∃ visits : LoopCall (LinkedLoop ι V) Env → Visits ι V,
      (∀ call ∈ state.calls id, Executes utility call tripCount (visits call)) ∧
      ((state.calls id).flatMap fun call => (visits call).bodies).Perm
        ((List.range tripCount).map (visitAt dispatch.parallelizedLoop.loop)) ∧
      (dispatch.parallelizedLoop.loop.requiresConditionBeforeEnteringHeader = true →
        ((state.calls id).flatMap fun call => (visits call).headers).Perm
          ((List.range (tripCount + 1)).map (visitAt dispatch.parallelizedLoop.loop))) ∧
      ((state.calls id).map LoopCall.coreID).Nodup ∧
      ∀ call ∈ state.calls id,
        call.coreID < max 1 dispatch.parallelizedLoop.maximumNumberOfCores.toNat := by
  obtain ⟨visits, hexecutes, hbodies, hheaders⟩ :=
    exists_visits hutility h hid hpoint hchunk hsound
  obtain ⟨hcalls, -⟩ := returned_calls h hid hpoint
  have hmost := (linked_invariant h id dispatch hid).most
  refine ⟨visits, hexecutes, hbodies, hheaders, ?_, fun call hcall => ?_⟩
  · have hids : ((List.range dispatch.numCores.toNat).map dispatch.call).map LoopCall.coreID =
        List.range dispatch.numCores.toNat := by
      rw [List.map_map]
      exact List.map_id _
    rw [(hcalls.map LoopCall.coreID).nodup_iff, hids]
    exact List.nodup_range
  · obtain ⟨coreID, hmem, rfl⟩ := List.mem_map.mp (hcalls.mem_iff.mp hcall)
    exact (List.mem_range.mp hmem).trans_le hmost

/-- The two calls made for the loop executed its five bodies. -/
theorem five_iterations_run :
    ∃ (state : DoallState (LinkedLoop Unit (BitVec 32)) Unit)
      (visits : LoopCall (LinkedLoop Unit (BitVec 32)) Unit → Visits Unit (BitVec 32)),
      (state.calls 0).length = 2 ∧
        ((state.calls 0).flatMap fun call => (visits call).bodies).Perm
          ((List.range 5).map (visitAt fiveIterations.loop)) := by
  obtain ⟨state, dispatch, hreach, hid, hpoint, hloop, hcores⟩ := five_iterations_returned
  obtain ⟨visits, -, hbodies, -⟩ := dispatch_runs_loop IVUtility.arithmetic_documented hreach hid
    hpoint (by rw [hloop]; decide) (by rw [hloop, hcores]; exact five_iterations_sound.toSoundExit)
  rw [hloop] at hbodies
  refine ⟨state, visits, ?_, hbodies⟩
  have hlength := (returned_calls hreach hid hpoint).1.length_eq
  simpa [hcores] using hlength

variable [CommMonoid M]

/-- A dispatch that has returned made calls whose private slots, reduced over the cores it used,
give the sequential result. -/
theorem dispatch_reduces_loop (hutility : utility.Documented)
    (h : (linkedSystem ι V Env maxCores).Reachable state)
    (hid : state.dispatches id = some dispatch) (hpoint : dispatch.point = .returned)
    (hchunk : 1 ≤ dispatch.parallelizedLoop.chunkSize)
    (hsound : SoundReduction dispatch.parallelizedLoop.loop tripCount dispatch.numCores.toNat
      dispatch.parallelizedLoop.chunkSize)
    (contributions : Contributions M) (initial : M) :
    ∃ slots : Nat → M,
      (∀ call ∈ state.calls id, ∀ fuel > tripCount,
        (run utility call.parallelizedLoop.loop (taskArgs call) contributions.code fuel 1).map
          (privateSlot utility call.parallelizedLoop.loop) = some (slots call.coreID)) ∧
      reduceSlots initial slots dispatch.numCores.toNat =
        contributions.sequential initial tripCount := by
  obtain ⟨hcalls, hcores⟩ := returned_calls h hid hpoint
  obtain ⟨slots, hslots, hreduce⟩ := hsound.slots hutility hcores hchunk contributions
  refine ⟨slots, fun call hcall => ?_, hreduce initial⟩
  obtain ⟨coreID, hmem, rfl⟩ := List.mem_map.mp (hcalls.mem_iff.mp hcall)
  exact hslots coreID (List.mem_range.mp hmem)

/-- A product over the five iterations, reduced over the two cores used. -/
theorem five_iterations_reduced :
    ∃ slots : Nat → ℕ, reduceSlots 2 slots 2 =
      (⟨fun _ => 1, fun j => j + 1⟩ : Contributions ℕ).sequential 2 5 := by
  obtain ⟨state, dispatch, hreach, hid, hpoint, hloop, hcores⟩ := five_iterations_returned
  obtain ⟨slots, -, hreduce⟩ := dispatch_reduces_loop IVUtility.arithmetic_documented hreach hid
    hpoint (by rw [hloop]; decide) (by rw [hloop, hcores]; exact five_iterations_sound)
    (⟨fun _ => 1, fun j => j + 1⟩ : Contributions ℕ) 2
  rw [hcores] at hreduce
  exact ⟨slots, hreduce⟩

end Loop

end Gino.Doall
