import Gino.Inliner.LoopCarriedPass
import Mathlib.Data.Fintype.EquivFin

/-!
# The fixed point of the inliner

`gino-inline` runs `Inliner::runOnModule` until it changes nothing. Where loops are not hoisted to
main and what is copied calls what the callee calls, every run that changes the module unfolds calls
of functions that lead back to themselves through no calls, so that this comes to an end
(`fixed_point_reached`).
-/

namespace Gino.Inliner

open Machine Relation

variable {Fn : Type} [DecidableEq Fn]

/-- The number of instructions from which on nothing is inlined. -/
def maxProgramInstructions : Nat := 50000

/-- What differs from one run of the inliner to the next: whether it is enabled, the entry function,
the profiles, and what it takes from the compiler. -/
structure Module (Fn : Type) where
  isTransformationEnabled : Bool
  entryFunction : Option Fn
  env : Environment Fn
  noelle : Noelle Fn
  sortInDepthOrderFns : (fnOrder : Fn → Nat) → DepthSort fnOrder
  firstAddress : Fn → Nat
  profiles : Option (LoopStructure → Bool)

/-- A run of the inliner where loops are not hoisted to main: whether it changes the module, and the
bodies that it leaves. It gives nothing where the fuel does not suffice. -/
def runOnModule (M : Module Fn) (program : Program Fn) (fuel : Nat) : Option (Bool × Bodies Fn) :=
  if ¬ M.isTransformationEnabled then some (false, program.bodies)
  else
    match M.entryFunction with
    | none => some (false, program.bodies)
    | some main =>
        if M.noelle.numberOfProgramInstructions program.bodies ≥ maxProgramInstructions then
          some (false, program.bodies)
        else
          (collectFnGraph program main fuel).bind fun graph =>
            (collectInDepthOrderFns graph main fuel).map fun order =>
              let preOrderedLoops :=
                preOrderedLoopsOf M.noelle order M.firstAddress program.bodies
              let last := inlineCallsInvolvedInLoopCarriedDataDependences M.env M.noelle
                (M.noelle.doesItBelongToAnSCC program.bodies) order program.functions
                (M.sortInDepthOrderFns order.fnOrder)
                (getLoopsToInline M.profiles preOrderedLoops)
                (InlinerState.collected program graph preOrderedLoops)
              (last.anyInlined, last.tracked.bodies)

/-- What the inliner takes from the compiler does what it is for. -/
structure Module.Documented (M : Module Fn) : Prop where
  env : M.env.Documented
  noelle : M.noelle.Documented

/-- A run of the inliner that changes a module, and the module that it leaves. What it copies calls
what the callees call. -/
def Changes (program program' : Program Fn) : Prop :=
  ∃ M : Module Fn, M.Documented ∧ M.env.CopiesCallees program ∧
    runOnModule M program program.functions.length = some (true, program'.bodies)

/-- A run returns when the fuel suffices. Then it left the module alone or unfolded calls in it, if
what it copied calls what the callees call. -/
theorem exists_run_on_module (M : Module Fn) (hM : M.Documented) (program : Program Fn) :
    ∃ modified bodies,
      (∀ fuel ≥ program.functions.length, runOnModule M program fuel = some (modified, bodies)) ∧
      (M.env.CopiesCallees program → modified = true →
        TransGen Unfolding (calledFns program.bodies) (calledFns bodies)) := by
  unfold runOnModule
  by_cases henabled : M.isTransformationEnabled = true
  · cases hmain : M.entryFunction with
    | none =>
        refine ⟨false, program.bodies, fun fuel _ => ?_, fun _ h => ?_⟩
        · rw [if_neg (not_not.mpr henabled)]
        · cases h
    | some main =>
        by_cases hlarge :
            M.noelle.numberOfProgramInstructions program.bodies ≥ maxProgramInstructions
        · refine ⟨false, program.bodies, fun fuel _ => ?_, fun _ h => ?_⟩
          · rw [if_neg (not_not.mpr henabled)]
            exact if_pos hlarge
          · cases h
        · obtain ⟨done, graph, state, hgraph, hdone, hfinished, hcollect, horder⟩ :=
            exists_depth_order program main
          obtain ⟨skipped, hinv⟩ := exists_pass_inv hgraph hdone
            (hfinished.numbered hgraph hdone) hM.env hM.noelle
            (M.sortInDepthOrderFns state.toDepthOrder.fnOrder) M.firstAddress M.profiles
          have hunfolded := hinv.unfolded
          rw [← called_fns_eq hinv.defined, ← called_fns_eq fun _ => rfl] at hunfolded
          refine ⟨_, _, fun fuel hfuel => ?_, hunfolded⟩
          rw [if_neg (not_not.mpr henabled)]
          dsimp only
          rw [if_neg hlarge, hcollect fuel hfuel, Option.bind_some, horder fuel hfuel]
          rfl
  · refine ⟨false, program.bodies, fun fuel _ => if_pos henabled, fun _ h => ?_⟩
    cases h

/-- Every run returns. Runs that change a module one after the other, and copy what the callees
call, come to an end: there are no more of them than a bound that the module at the start
determines. -/
theorem fixed_point_reached (program : Program Fn) :
    (∀ M : Module Fn, M.Documented → ∃ result, ∀ fuel ≥ program.functions.length,
      runOnModule M program fuel = some result) ∧
    ∃ bound, ∀ (count : Nat) (programs : Nat → Program Fn), programs 0 = program →
      (∀ i < count, Changes (programs i) (programs (i + 1))) → count ≤ bound := by
  have hfinite : Finite Fn :=
    @Finite.of_fintype Fn (Fintype.ofList program.functions program.mem_functions)
  constructor
  · intro M hM
    obtain ⟨modified, bodies, hrun, -⟩ := exists_run_on_module M hM program
    exact ⟨(modified, bodies), hrun⟩
  · obtain ⟨bound, hbound⟩ := exists_unfolding_bound (calledFns program.bodies)
    refine ⟨bound, fun count programs hfirst hchanges =>
      hbound count (fun i => calledFns (programs i).bodies) (by rw [hfirst]) fun i hi => ?_⟩
    obtain ⟨M, hM, hcopies, hchanged⟩ := hchanges i hi
    obtain ⟨modified, bodies, hrun, hunfolds⟩ := exists_run_on_module M hM (programs i)
    have hsame := Option.some.inj (hchanged.symm.trans (hrun _ (Nat.le_refl _)))
    obtain ⟨rfl, rfl⟩ := Prod.mk.inj hsame
    exact hunfolds hcopies rfl

namespace Chain

/-- The inliner on the chain. -/
def compiler : Module Chain where
  isTransformationEnabled := true
  entryFunction := some .main
  env := .splicing
  noelle := noelle
  sortInDepthOrderFns := .stable
  firstAddress _ := 10
  profiles := none

/-- The chain after the first call of the outer function is inlined. -/
def inlinedProgram : Program Chain where
  functions := program.functions
  bodies := inlinerPass.tracked.bodies
  callRecords F := (instructions (inlinerPass.tracked.bodies F)).filter Inst.isCallInst
  mem_functions := program.mem_functions
  nodup_functions := program.nodup_functions
  nodup_instructions F := by cases F <;> decide
  mem_records F call := List.mem_filter

/-- One run changes the chain, so that its bound is no less than one. -/
theorem chain_changes : ∃ bound ≥ 1, ∀ (count : Nat) (programs : Nat → Program Chain),
    programs 0 = program → (∀ i < count, Changes (programs i) (programs (i + 1))) →
      count ≤ bound := by
  obtain ⟨-, bound, hbound⟩ := fixed_point_reached program
  have hcopies : compiler.env.CopiesCallees program := by
    intro attempt before F childF call after hF hchildF hin hcalled hinline
    rw [← hF] at hin
    rw [← hchildF]
    exact Environment.splicing_copies program attempt hin hcalled hinline
  have hchanges : Changes program inlinedProgram :=
    ⟨compiler, ⟨Environment.copying_documented id, noelle_documented⟩, hcopies, rfl⟩
  refine ⟨bound, ?_, hbound⟩
  refine hbound 1 (fun i => if i = 0 then program else inlinedProgram) rfl fun i hi => ?_
  obtain rfl : i = 0 := Nat.lt_one_iff.mp hi
  exact hchanges

end Chain

end Gino.Inliner
