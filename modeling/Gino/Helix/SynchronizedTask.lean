import Gino.Helix.SynchronizedOnce
import Gino.Helix.TaskCode

/-!
# The code of a synchronized task

The task of a loop whose governing induction variable decides its exits, after the stepper and
`HELIX::addSynchronizations`. The header keeps what every core may repeat; what moved out of it is
in the body, and once more in the `last_iteration` block, for the core whose iteration is the first
one past the end. The exit block waits for every segment and signals it. The calls of a segment
stand where `addSynchronizations` puts them; how the calls of different segments in front of one
instruction are ordered is left open.
-/

namespace Gino.Helix

open Graph Machine Relation

/-- What an instruction does: to the values of its iteration alone, or to the data of a segment as
well. -/
inductive Operation (segments : Nat) (Values Content : Type*) where
  | compute (effect : Values → Values)
  | access (ssID : Fin segments) (effect : Values → Content → Values × Content)

/-- A wait or a signal of a segment. -/
inductive Call (segments : Nat) where
  | wait (ssID : Fin segments)
  | signal (ssID : Fin segments)
  deriving DecidableEq

/-- An instruction of the task. -/
inductive TaskItem (segments : Nat) (Values Content : Type*) where
  | call (call : Call segments)
  | operation (operation : Operation segments Values Content)

section Execution

variable {segments : Nat} {Values Content : Type*}

/-- The segment whose data an operation may touch. -/
def Operation.segment : Operation segments Values Content → Option (Fin segments)
  | .compute _ => none
  | .access ssID _ => some ssID

/-- What an operation leaves of the values and the data. -/
def Operation.execute (operation : Operation segments Values Content)
    (state : Values × (Fin segments → Content)) : Values × (Fin segments → Content) :=
  match operation with
  | .compute effect => (effect state.1, state.2)
  | .access ssID effect =>
      ((effect state.1 (state.2 ssID)).1,
        Function.update state.2 ssID (effect state.1 (state.2 ssID)).2)

/-- An operation of no segment leaves the data alone. -/
theorem Operation.execute_private {operation : Operation segments Values Content}
    (h : operation.segment = none) (state : Values × (Fin segments → Content)) :
    (operation.execute state).2 = state.2 := by
  cases operation with
  | compute effect => rfl
  | access ssID effect => cases h

/-- The segment of a call. -/
def Call.ssID : Call segments → Fin segments
  | .wait ssID => ssID
  | .signal ssID => ssID

/-- What an instruction of the task leaves of the values and the data. -/
def TaskItem.execute (item : TaskItem segments Values Content)
    (state : Values × (Fin segments → Content)) : Values × (Fin segments → Content) :=
  match item with
  | .call _ => state
  | .operation inst => inst.execute state

/-- What straight-line code leaves of them. -/
def executeAll (code : List (TaskItem segments Values Content))
    (state : Values × (Fin segments → Content)) : Values × (Fin segments → Content) :=
  code.foldl (fun state item => item.execute state) state

/-- Calls leave the values and the data alone. -/
theorem execute_calls (calls : List (Call segments))
    (state : Values × (Fin segments → Content)) :
    executeAll (calls.map .call) state = state := by
  induction calls with
  | nil => rfl
  | cons call calls ih => exact ih

end Execution

/-! ## The loop -/

variable {Block : Type*} {loop : LoopCFG Block}

/-- What a loop computes after the stepper. `start` is what an iteration begins with, its induction
variables at their values for it. `lastIterationIsMissing` is the test of the
`check_if_last_iteration_is_missing` block and `lastIteration` the code it guards. -/
structure SegmentedLoop (loop : LoopCFG Block) (segments : Nat) (Values Content : Type*) where
  start : Nat → Values
  operation : loop.Instr → Operation segments Values Content
  branch : Block → Values → Option Block
  lastIterationIsMissing : Values → Bool
  lastIteration : List (Operation segments Values Content)
  branch_mem : ∀ block values, branch block values ∈ loop.successors block
  /-- The governing induction variable decides the exit. -/
  exit_header : ∀ block, none ∈ loop.successors block → block = loop.header
  /-- What is not repeatable has moved out of the header. -/
  header_private : ∀ inst, inst.block = loop.header → (operation inst).segment = none

/-- Where an instruction leads to. -/
inductive Next (loop : LoopCFG Block) where
  | instruction (inst : loop.Instr)
  | nextIteration
  | exit

/-- What an iteration executes from some instruction on: its instructions, whether it leaves the
loop after them, and the values and data they leave. -/
structure Pass (loop : LoopCFG Block) (segments : Nat) (Values Content : Type*) where
  path : List loop.Instr
  exits : Bool
  state : Values × (Fin segments → Content)

section Program

variable [DecidableEq Block] {segments : Nat} {Values Content : Type*}
  (program : SegmentedLoop loop segments Values Content)

/-- What is executed after an instruction. -/
def SegmentedLoop.next (inst : loop.Instr) (values : Values) : Next loop :=
  match inst.getNextNonDebugInstruction with
  | some next => .instruction next
  | none =>
      match program.branch inst.block values with
      | none => .exit
      | some block =>
          if block = loop.header then .nextIteration else .instruction (loop.first block)

/-- An iteration from an instruction on, without any synchronization. -/
def SegmentedLoop.iterate :
    Nat → loop.Instr → Values × (Fin segments → Content) →
      Option (Pass loop segments Values Content)
  | 0, _, _ => none
  | fuel + 1, inst, state =>
      let after := (program.operation inst).execute state
      match program.next inst after.1 with
      | .instruction next =>
          (iterate fuel next after).map fun pass => { pass with path := inst :: pass.path }
      | .nextIteration => some ⟨[inst], false, after⟩
      | .exit => some ⟨[inst], true, after⟩

/-- What the code behind the exit of the header leaves. -/
def SegmentedLoop.exitState (state : Values × (Fin segments → Content)) :
    Values × (Fin segments → Content) :=
  if program.lastIterationIsMissing state.1
  then program.lastIteration.foldl (fun state operation => operation.execute state) state
  else state

/-- The iterations `0` to `tripCount - 1` one after another, and then the header, which leaves the
loop. -/
structure SegmentedLoop.Sequential (tripCount : Nat)
    (memoryAt : Nat → Fin segments → Content) : Prop where
  iterations : ∀ j < tripCount, ∃ fuel path values,
    program.iterate fuel (loop.first loop.header) (program.start j, memoryAt j) =
      some ⟨path, false, values, memoryAt (j + 1)⟩
  exit : ∃ fuel path state,
    program.iterate fuel (loop.first loop.header) (program.start tripCount, memoryAt tripCount) =
      some ⟨path, true, state⟩ ∧ (program.exitState state).2 = memoryAt (tripCount + 1)

/-- The header finds the loop over in the iterations past the end as well, and that it was not them
who ended it. -/
def SegmentedLoop.CatchesPast (first count : Nat) : Prop :=
  ∀ j, first ≤ j → j < count → ∀ contents, ∃ fuel path state,
    program.iterate fuel (loop.first loop.header) (program.start j, contents) =
      some ⟨path, true, state⟩ ∧ program.lastIterationIsMissing state.1 = false

end Program

/-! ## The calls -/

/-- A segment that is synchronized: its instructions, its frontier, the blocks of the last pass in
the order they were visited in, and the instructions with code of the segments handled before. -/
structure SynchronizedSegment [DecidableEq Block] (analyses : Analyses loop) where
  ssInstructions : List loop.Instr
  unreachable : List loop.Instr
  frontier : EntriesAndExits loop
  behindEarlierCode : List loop.Instr
  nonempty : ssInstructions ≠ []
  not_phi : ∀ inst ∈ ssInstructions, ¬ inst.IsPHI
  order : UnreachableOrder analyses ssInstructions unreachable
  determined : determineEntryAndExitFrontier analyses ssInstructions unreachable = some frontier
  waitsOnce : WaitsOnce ⟨false, behindEarlierCode⟩ ssInstructions
  signalsOnce : SignalsOnce ⟨false, behindEarlierCode⟩ ssInstructions unreachable

/-- The injected calls of a segment. -/
def SynchronizedSegment.sync [DecidableEq Block] {analyses : Analyses loop}
    (segment : SynchronizedSegment analyses) : Synchronizations loop :=
  addSynchronizations ⟨false, segment.behindEarlierCode⟩ segment.frontier

/-- The calls of a segment right in front of an instruction. -/
def callsOf [DecidableEq Block] {segments : Nat} (sync : Synchronizations loop)
    (ssID : Fin segments) (inst : loop.Instr) : List (Call segments) :=
  List.replicate (sync.signals.count ⟨inst, false⟩) (.signal ssID) ++
    (if inst ∈ sync.waits then [.wait ssID] else []) ++
    List.replicate (sync.signals.count ⟨inst, true⟩) (.signal ssID)

/-- The calls of every segment, one segment after another. -/
def callsInOrder [DecidableEq Block] {segments : Nat}
    (sync : Fin segments → Synchronizations loop) (inst : loop.Instr) : List (Call segments) :=
  (List.finRange segments).flatMap fun ssID => callsOf (sync ssID) ssID inst

/-- The calls of a segment are its own. -/
theorem calls_of_ssID [DecidableEq Block] {segments : Nat} (sync : Synchronizations loop)
    {ssID : Fin segments} {inst : loop.Instr} {call : Call segments}
    (h : call ∈ callsOf sync ssID inst) : call.ssID = ssID := by
  unfold callsOf at h
  rcases List.mem_append.mp h with h | h
  · rcases List.mem_append.mp h with h | h
    · rw [(List.mem_replicate.mp h).2]
      rfl
    · split_ifs at h
      · rw [List.mem_singleton.mp h]
        rfl
      · cases h
  · rw [(List.mem_replicate.mp h).2]
    rfl

/-- In this order, as in any other, each segment has its own calls. -/
theorem calls_in_order_of [DecidableEq Block] {segments : Nat}
    (sync : Fin segments → Synchronizations loop) (ssID : Fin segments) (inst : loop.Instr) :
    (callsInOrder sync inst).filter (·.ssID = ssID) = callsOf (sync ssID) ssID inst := by
  have hothers : ∀ others : List (Fin segments), others.Nodup →
      (others.flatMap fun other => callsOf (sync other) other inst).filter (·.ssID = ssID) =
        if ssID ∈ others then callsOf (sync ssID) ssID inst else [] := by
    intro others hnodup
    induction others with
    | nil => rfl
    | cons other others ih =>
        obtain ⟨hnot, hrest⟩ := List.nodup_cons.mp hnodup
        rw [List.flatMap_cons, List.filter_append, ih hrest]
        by_cases hown : other = ssID
        · subst hown
          have hall : (callsOf (sync other) other inst).filter (·.ssID = other) =
              callsOf (sync other) other inst :=
            List.filter_eq_self.mpr fun call hcall =>
              decide_eq_true (calls_of_ssID _ hcall)
          rw [hall, if_neg hnot, if_pos List.mem_cons_self, List.append_nil]
        · have hnone : (callsOf (sync other) other inst).filter (·.ssID = ssID) = [] :=
            List.filter_eq_nil_iff.mpr fun call hcall => by
              rw [calls_of_ssID _ hcall]
              simpa using hown
          rw [hnone, List.nil_append]
          simp [Ne.symm hown]
  rw [callsInOrder, hothers _ (List.nodup_finRange segments), if_pos (List.mem_finRange ssID)]

/-- A loop with its segments and the injected calls. In front of an instruction stand the calls of
every segment, in some order. -/
structure SynchronizedTask [DecidableEq Block] (analyses : Analyses loop) (segments : Nat)
    (Values Content : Type*) where
  program : SegmentedLoop loop segments Values Content
  segment : Fin segments → SynchronizedSegment analyses
  calls : loop.Instr → List (Call segments)
  mem_segment : ∀ ssID inst, inst ∈ (segment ssID).ssInstructions ↔
    (program.operation inst).segment = some ssID
  calls_of : ∀ ssID inst, (calls inst).filter (·.ssID = ssID) =
    callsOf (segment ssID).sync ssID inst

/-- What a core knows: the values of its iteration, the code right ahead of it, and the instruction
whose successor comes after this code, if any does. -/
structure TaskLocals (loop : LoopCFG Block) (segments : Nat) (Values Content : Type*) where
  values : Values
  pending : List (TaskItem segments Values Content)
  inst : Option loop.Instr

namespace SynchronizedTask

variable [DecidableEq Block] {analyses : Analyses loop} {segments : Nat} {Values Content : Type*}
  (task : SynchronizedTask analyses segments Values Content)

/-- An instruction with the calls in front of it. -/
def code (inst : loop.Instr) : List (TaskItem segments Values Content) :=
  (task.calls inst).map .call ++ [.operation (task.program.operation inst)]

/-- The waits for every segment at the beginning of a block. Each is put in front of the ones
before. -/
def injectWaits (segments : Nat) : List (Call segments) :=
  (List.finRange segments).reverse.map .wait

/-- The signals of every segment at the end of a block. -/
def injectSignals (segments : Nat) : List (Call segments) :=
  (List.finRange segments).map .signal

/-- The code behind the exit of the header: the last iteration if it is missing, and the exit
block. -/
def exitCode (values : Values) : List (TaskItem segments Values Content) :=
  (if task.program.lastIterationIsMissing values
    then (injectWaits segments).map .call ++ task.program.lastIteration.map .operation else []) ++
    (injectWaits segments ++ injectSignals segments).map .call

/-- The locals where an instruction leads to. -/
def goTo (next : Next loop) (values : Values) : TaskLocals loop segments Values Content :=
  match next with
  | .instruction inst => ⟨values, task.code inst, some inst⟩
  | .nextIteration => ⟨values, [], none⟩
  | .exit => ⟨values, task.exitCode values, none⟩

/-- What a core does next. -/
def action (locals : TaskLocals loop segments Values Content) :
    Action (Fin segments) (TaskLocals loop segments Values Content) Content :=
  match locals.pending with
  | .call (.wait ssID) :: pending => .enter ssID { locals with pending := pending }
  | .call (.signal ssID) :: pending => .leave ssID { locals with pending := pending }
  | .operation (.compute effect) :: pending =>
      .compute { locals with values := effect locals.values, pending := pending }
  | .operation (.access ssID effect) :: pending =>
      .access ssID fun content =>
        ({ locals with values := (effect locals.values content).1, pending := pending },
          (effect locals.values content).2)
  | [] =>
      match locals.inst with
      | none => .halt
      | some inst => .compute (task.goTo (task.program.next inst locals.values) locals.values)

/-- The iterations of the task. -/
def processes : Processes (Fin segments) (TaskLocals loop segments Values Content) Content where
  start j := task.goTo (.instruction (loop.first loop.header)) (task.program.start j)
  action := task.action

end SynchronizedTask

end Gino.Helix
