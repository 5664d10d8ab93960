import Gino.Machine.DisjointThreads

/-!
# The loops that DOALL is applied to

`DOALL::canBeAppliedToLoop` asks the analyses of the compiler library about the exits, the
live-outs, the components with loop-carried dependences and the induction variables of a loop. Where
these analyses are sound, no iteration of a loop that it accepts stores to a place that another one
accesses (`disjoint_of_applicable`).
-/

namespace Gino.Doall

open Machine

/-- What the check tells apart of the attributes of a component. -/
inductive SCCKind where
  | loopCarriedUnknown
  | unknownClosedForm
  | inductionVariable
  | other
  deriving DecidableEq

/-- What a dependence goes through. -/
inductive DependenceKind where
  | control
  | variable
  | memory
  deriving DecidableEq

/-- A dependence between two values, which are instructions or not. -/
structure Dependence (Inst : Type*) where
  kind : DependenceKind
  src : Option Inst
  dst : Option Inst

/-- A component of the dependence graph of a loop. -/
structure SCCInfo (Inst : Type*) where
  kind : SCCKind
  loopCarriedDependences : List (Dependence Inst)

/-- The instruction before the terminator of a loop exit. -/
inductive PrevInst where
  | call (callee : Option String)
  | other

/-- What the analyses say about a loop. -/
structure LoopContent (Inst : Type*) where
  /-- The metadata `gino.doall`. -/
  doallMetadata : Option String
  /-- The instruction before the terminator of each loop exit. -/
  loopExitBasicBlocks : List (Option PrevInst)
  liveOutVariablesThatAreNotReducable : List Nat
  sccOfProducer : Nat → SCCKind
  sccsWithLoopCarriedDataDependencies : List (SCCInfo Inst)
  areInstructionsAccessingDisjointMemoryLocationsBetweenIterations : Inst → Inst → Bool
  /-- The derivation of the value that the governing induction variable is compared with. -/
  loopGoverningInductionVariable : Option (List Inst)
  /-- Whether the step value of each induction variable is a loop invariant. -/
  inductionVariables : List Bool
  isLoopInvariant : Inst → Bool

variable {Inst : Type*} (LDI : LoopContent Inst)

/-- Whether DOALL can ignore a loop-carried dependence. -/
def ignores (dep : Dependence Inst) : Bool :=
  match dep.kind with
  | .control => true
  | .variable => false
  | .memory =>
      match dep.src, dep.dst with
      | some fromInst, some toInst =>
          LDI.areInstructionsAccessingDisjointMemoryLocationsBetweenIterations fromInst toInst
      | _, _ => false

/-- `DOALL::getSCCsThatBlockDOALLToBeApplicable`. -/
def getSCCsThatBlockDOALLToBeApplicable : List (SCCInfo Inst) :=
  LDI.sccsWithLoopCarriedDataDependencies.filter fun sccInfo =>
    (sccInfo.kind = .loopCarriedUnknown ∨ sccInfo.kind = .unknownClosedForm) ∧
      ¬ sccInfo.loopCarriedDependences.all (ignores LDI)

/-- The exits, except those that end with a call of `exit`. -/
def numOfExits : Nat :=
  LDI.loopExitBasicBlocks.countP fun
    | some (.call (some callee)) => callee ≠ "exit"
    | _ => true

/-- The checks of `DOALL::canBeAppliedToLoop` on a loop that the metadata does not decide. -/
def passesChecks : Bool :=
  numOfExits LDI = 1 &&
  LDI.liveOutVariablesThatAreNotReducable.all
    (fun liveOutVar => LDI.sccOfProducer liveOutVar = .inductionVariable) &&
  (getSCCsThatBlockDOALLToBeApplicable LDI).isEmpty &&
  match LDI.loopGoverningInductionVariable with
  | none => false
  | some derivation => LDI.inductionVariables.all id && derivation.all LDI.isLoopInvariant

/-- `DOALL::canBeAppliedToLoop`. -/
def canBeAppliedToLoop : Bool :=
  match LDI.doallMetadata with
  | some "yes" => true
  | some "no" => false
  | _ => passesChecks LDI

/-! ## What the analyses promise -/

variable {Id Place Value Private : Type*} [DecidableEq Place]

/-- An instruction of an iteration stores to a place. -/
def StoresBy (threads : Threads Id Place Value Private) (instructionAt : Private → Inst)
    (memory : Place → Value) (iteration : Id) (inst : Inst) (place : Place) : Prop :=
  ∃ steps value next, instructionAt (threads.alone memory iteration steps).1 = inst ∧
    threads.instruction (threads.alone memory iteration steps).1 = some (.store place value next)

/-- An instruction of an iteration loads from a place. -/
def LoadsBy (threads : Threads Id Place Value Private) (instructionAt : Private → Inst)
    (memory : Place → Value) (iteration : Id) (inst : Inst) (place : Place) : Prop :=
  ∃ steps next, instructionAt (threads.alone memory iteration steps).1 = inst ∧
    threads.instruction (threads.alone memory iteration steps).1 = some (.load place next)

/-- Two instructions access one place in different iterations, and the first one stores to it. -/
def Conflict (threads : Threads Id Place Value Private) (instructionAt : Private → Inst)
    (active : Id → Prop) (memory : Place → Value) (fromInst toInst : Inst) : Prop :=
  ∃ iteration other, active iteration ∧ active other ∧ iteration ≠ other ∧ ∃ place,
    StoresBy threads instructionAt memory iteration fromInst place ∧
      (StoresBy threads instructionAt memory other toInst place ∨
        LoadsBy threads instructionAt memory other toInst place)

/-- What the analyses of the compiler library promise about the iterations of a loop. -/
structure SoundAnalyses (threads : Threads Id Place Value Private) (instructionAt : Private → Inst)
    (active : Id → Prop) (memory : Place → Value) : Prop where
  /-- The dependence graph has every conflict between iterations, in one direction or the other. -/
  dependences : ∀ fromInst toInst,
    Conflict threads instructionAt active memory fromInst toInst →
      ∃ sccInfo ∈ LDI.sccsWithLoopCarriedDataDependencies,
        ∃ dep ∈ sccInfo.loopCarriedDependences, dep.kind = .memory ∧
          (dep.src = some fromInst ∧ dep.dst = some toInst ∨
            dep.src = some toInst ∧ dep.dst = some fromInst)
  /-- Instructions that the analysis of the iteration space separates are in no conflict. -/
  iteration_space : ∀ fromInst toInst,
    LDI.areInstructionsAccessingDisjointMemoryLocationsBetweenIterations fromInst toInst = true →
      ¬ Conflict threads instructionAt active memory fromInst toInst ∧
        ¬ Conflict threads instructionAt active memory toInst fromInst
  /-- No component with a loop-carried memory dependence has attributes that DOALL handles by other
  means, such as cloning the memory. -/
  kinds : ∀ sccInfo ∈ LDI.sccsWithLoopCarriedDataDependencies,
    (∃ dep ∈ sccInfo.loopCarriedDependences, dep.kind = .memory) →
      sccInfo.kind = .loopCarriedUnknown ∨ sccInfo.kind = .unknownClosedForm

variable {LDI} {threads : Threads Id Place Value Private} {instructionAt : Private → Inst}
  {active : Id → Prop} {memory : Place → Value}

omit [DecidableEq Place] in
/-- The checks decide about a loop without metadata that does. -/
theorem passes_of_applicable (h : canBeAppliedToLoop LDI = true)
    (hmetadata : LDI.doallMetadata ≠ some "yes") : passesChecks LDI = true := by
  unfold canBeAppliedToLoop at h
  split at h
  · case _ hyes => exact absurd hyes hmetadata
  · cases h
  · exact h

/-- A dependence of a component that does not block DOALL is ignored. -/
theorem ignores_of_passes (h : passesChecks LDI = true) {sccInfo : SCCInfo Inst}
    (hmem : sccInfo ∈ LDI.sccsWithLoopCarriedDataDependencies)
    (hkind : sccInfo.kind = .loopCarriedUnknown ∨ sccInfo.kind = .unknownClosedForm)
    {dep : Dependence Inst} (hdep : dep ∈ sccInfo.loopCarriedDependences) :
    ignores LDI dep = true := by
  unfold passesChecks at h
  simp only [Bool.and_eq_true, List.isEmpty_iff] at h
  have hnot := List.filter_eq_nil_iff.mp h.1.2 sccInfo hmem
  rw [decide_eq_true_eq, not_and, not_not] at hnot
  exact List.all_eq_true.mp (hnot hkind) dep hdep

/-- Where the analyses are sound, the instructions of a loop that passes the checks are in no
conflict between iterations. -/
theorem no_conflict (h : passesChecks LDI = true)
    (hsound : SoundAnalyses LDI threads instructionAt active memory) (fromInst toInst : Inst) :
    ¬ Conflict threads instructionAt active memory fromInst toInst := by
  intro hconflict
  obtain ⟨sccInfo, hmem, dep, hdep, hmemory, hends⟩ :=
    hsound.dependences fromInst toInst hconflict
  have hignores := ignores_of_passes h hmem (hsound.kinds sccInfo hmem ⟨dep, hdep, hmemory⟩) hdep
  unfold ignores at hignores
  rw [hmemory] at hignores
  rcases hends with ⟨hsrc, hdst⟩ | ⟨hsrc, hdst⟩
  · rw [hsrc, hdst] at hignores
    exact (hsound.iteration_space _ _ hignores).1 hconflict
  · rw [hsrc, hdst] at hignores
    exact (hsound.iteration_space _ _ hignores).2 hconflict

/-- Where the analyses are sound, no iteration of a loop that DOALL is applied to stores to a place
that another one accesses, unless the metadata ask for it. -/
theorem disjoint_of_applicable (h : canBeAppliedToLoop LDI = true)
    (hmetadata : LDI.doallMetadata ≠ some "yes")
    (hsound : SoundAnalyses LDI threads instructionAt active memory) :
    threads.Disjoint active memory := by
  have hnone := no_conflict (passes_of_applicable h hmetadata) hsound
  intro iteration other hactive hother hne place ⟨steps, value, next, hstore⟩
  refine ⟨fun ⟨later, value', next', hstored⟩ => ?_, fun ⟨later, next', hload⟩ => ?_⟩
  · exact hnone _ _ ⟨iteration, other, hactive, hother, hne, place,
      ⟨steps, value, next, rfl, hstore⟩, .inl ⟨later, value', next', rfl, hstored⟩⟩
  · exact hnone _ _ ⟨iteration, other, hactive, hother, hne, place,
      ⟨steps, value, next, rfl, hstore⟩, .inr ⟨later, next', rfl, hload⟩⟩

end Gino.Doall
