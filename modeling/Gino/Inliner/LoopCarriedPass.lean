import Gino.Inliner.LoopCarried
import Gino.Machine.Unfolding

/-!
# The pass over the functions with loops

`Inliner::inlineCallsInvolvedInLoopCarriedDataDependences` inlines one call at most in a function,
and avoids the callers of a function that it changed or avoided. So what it inlines is always the
body that the callee had before the pass, into the body that the caller had, and the callers that
come later stay as they are (`pass_inlines_original_bodies`).
-/

namespace Gino.Inliner

open Machine Relation

variable {Fn : Type} [DecidableEq Fn]

/-- The functions with a body that the calls of a body name. -/
def calledFns (bodies : Bodies Fn) (F : Fn) : List Fn :=
  (calledInBody (bodies F)).filterMap fun called => called.filter fun G => !(bodies G).isEmpty

/-- What the analyses are for: the calls among the nodes of a loop are in the function, a function
has headers of loops only if it has loops, and functions on a common cycle of calls are known to
be. -/
structure Noelle.Documented (noelle : Noelle Fn) : Prop where
  nodes : ∀ bodies F, ∀ LDI ∈ noelle.getLoopContents bodies F, ∀ scc ∈ LDI.nonDOALLSCCs,
    ∀ node ∈ scc.nodes, node.val.isCallInst = true → node.val ∈ instructions (bodies F)
  loops : ∀ bodies bodies' F, bodies F = bodies' F → noelle.getLoopStructures bodies F = [] →
    noelle.loopHeaders bodies' F = []
  cycles : ∀ bodies F G, F ≠ G → TransGen (InList (calledFns bodies)) F G →
    TransGen (InList (calledFns bodies)) G F → noelle.doesItBelongToAnSCC bodies F = true

/-- The loops of the numbered functions, for those that have some. -/
def preOrderedLoopsOf (noelle : Noelle Fn) (order : DepthOrder Fn) (firstAddress : Fn → Nat)
    (bodies : Bodies Fn) : LoopLists Fn := fun F =>
  if F ∈ order.depthOrderedFns ∧ noelle.loopHeaders bodies F ≠ [] then
    some (createPreOrderedLoopSummariesFor (firstAddress F) (noelle.loopHeaders bodies F))
  else none

/-- What the pass starts with: the numbers of the functions that main reaches. Main alone has the
first number, and a function that calls itself is main or the entrance of a recursive chain. -/
structure Numbered (program : Program Fn) (main : Fn) (order : DepthOrder Fn) : Prop where
  reached : ∀ F, F ∈ order.depthOrderedFns ↔ program.Reached main F
  first : ∀ F, program.Reached main F → order.fnOrder F = 0 → F = main
  zero : order.fnOrder main = 0
  selfCall : ∀ F, program.Reached main F → program.Calls F F →
    F = main ∨ F ∈ order.recursiveChainEntranceFns

/-- The body of a function is what inlining one of its calls gave, where the caller and the callee
had the bodies that the program has. -/
def InlinedOnce (env : Environment Fn) (program : Program Fn) (bodies : Bodies Fn) (F : Fn) :
    Prop :=
  ∃ childF call, call ∈ instructions (program.bodies F) ∧ call.isCallInst = true ∧
    call.calledFunction = some childF ∧
    ∃ attempt before after, before F = program.bodies F ∧ before childF = program.bodies childF ∧
      env.InlineFunction attempt before F call = some after ∧ bodies F = after F

/-- Where caller and callee have the bodies that the program has, what is copied calls what the
callee calls: no argument takes the place of a parameter that the callee calls, and no argument
rules out a block with a call. -/
def Environment.CopiesCallees (env : Environment Fn) (program : Program Fn) : Prop :=
  ∀ attempt before F childF call after, before F = program.bodies F →
    before childF = program.bodies childF → call ∈ instructions (program.bodies F) →
    call.calledFunction = some childF → env.InlineFunction attempt before F call = some after →
    ∃ copied, Inlined before after F call copied ∧
      program.CopiesCallees (program.bodies childF) copied

/-! ## The functions that a body calls -/

section Called

variable {bodies bodies' : Bodies Fn} {F childF : Fn} {call : Inst Fn}

omit [DecidableEq Fn] in
/-- The functions that a body names are those that it calls, if the same functions have bodies. -/
theorem called_fns_eq {program : Program Fn}
    (hdefined : ∀ G, (bodies G).isEmpty = (program.bodies G).isEmpty) :
    calledFns bodies = fun F => program.directCallees (bodies F) := by
  funext F
  rw [direct_callees_eq]
  unfold calledFns Program.definedCallee Program.isDefined
  simp only [hdefined]

/-- An inlined call unfolds the callee in the list of the caller. -/
theorem Inlined.unfolds {program : Program Fn} {copied : List (Option Fn)}
    (h : Inlined bodies bodies' F call copied) (hnodup : (instructions (bodies F)).Nodup)
    (hdirect : program.isDirectCall call = true) (hcalled : call.calledFunction = some childF)
    (hcopies : program.CopiesCallees (bodies childF) copied)
    (hacyclic : ¬ Cyclic (fun F => program.directCallees (bodies F)) childF) :
    Unfolds (fun F => program.directCallees (bodies F)) (fun F => program.directCallees (bodies' F))
      F childF := by
  obtain ⟨earlier, later, hbefore, -, hafter⟩ := h.spliced.direct_callees hnodup hdirect hcalled
  refine ⟨hacyclic, fun c hc => ?_, earlier, later, hbefore, ?_⟩
  · rw [h.others c hc]
  · rw [hafter, hcopies]

omit [DecidableEq Fn] in
/-- A defined function that a body calls is in its list. -/
theorem mem_direct_callees {program : Program Fn} (hcall : call ∈ instructions (bodies F))
    (hinst : call.isCallInst = true) (hcalled : call.calledFunction = some childF)
    (hdefined : program.isDefined childF = true) :
    program.isDirectCall call = true ∧ childF ∈ program.directCallees (bodies F) := by
  have hdirect : program.isDirectCall call = true := by
    simp [Program.isDirectCall, hinst, hcalled, hdefined]
  exact ⟨hdirect, List.mem_filterMap.mpr ⟨call, List.mem_filter.mpr ⟨hcall, hdirect⟩, hcalled⟩⟩

end Called

/-- A function that may be inlined calls itself through no calls. -/
theorem Numbered.acyclic {program : Program Fn} {main : Fn} {order : DepthOrder Fn}
    {noelle : Noelle Fn} {bodies : Bodies Fn} {F callF : Fn} {LDI : LoopSCCs Fn} {call : Inst Fn}
    (h : Numbered program main order) (hnoelle : noelle.Documented)
    (hreached : program.Reached main F) (hcalls : program.Calls F callF)
    (hentrance : callF ∉ order.recursiveChainEntranceFns)
    (hmay : mayInlineCall noelle (noelle.doesItBelongToAnSCC program.bodies) order bodies F LDI
      call callF = true) :
    ¬ Cyclic (fun F => program.directCallees (program.bodies F)) callF := by
  simp only [mayInlineCall, Bool.and_eq_true, Bool.not_eq_true', decide_eq_true_eq,
    decide_eq_false_iff_not] at hmay
  obtain ⟨⟨⟨⟨⟨-, hother⟩, horder⟩, -⟩, hscc⟩, -⟩ := hmay
  intro hcyclic
  obtain ⟨G, hstep, hback⟩ := TransGen.head'_iff.mp hcyclic
  by_cases hG : callF = G
  · -- A function that calls itself is main or an entrance, and main is too shallow.
    subst hG
    have hselfCall : program.Calls callF callF := hstep
    rcases h.selfCall callF (hreached.tail hcalls) hselfCall with rfl | hin
    · rw [h.zero] at horder
      exact hother (h.first F hreached (Nat.eq_zero_of_not_pos horder)).symm
    · exact hentrance hin
  · rw [← called_fns_eq fun _ => rfl] at hstep hback
    have hcycle := hnoelle.cycles program.bodies callF G hG (.single hstep)
      ((reflTransGen_iff_eq_or_transGen.mp hback).resolve_left hG)
    rw [hscc] at hcycle
    cases hcycle

/-! ## What the pass keeps -/

section Pass

variable {program : Program Fn} {main : Fn} {env : Environment Fn} {noelle : Noelle Fn}
  {order : DepthOrder Fn} {preOrderedLoops : LoopLists Fn} {done : List Fn} {skipped : Finset Fn}
  {state : PassState Fn} {F P : Fn}

/-- What holds after some functions, of which some were skipped. Nothing is inlined into callers of
functions that were changed or skipped, unless they come first. -/
structure PassInv (program : Program Fn) (main : Fn) (env : Environment Fn) (order : DepthOrder Fn)
    (preOrderedLoops : LoopLists Fn) (done : List Fn) (skipped : Finset Fn)
    (state : PassState Fn) : Prop where
  tracks : Tracks program main state.tracked
  affected : ∀ F ∈ state.tracked.fnsAffected,
    F ∈ done ∧ F ∉ skipped ∧ InlinedOnce env program state.tracked.bodies F
  skippedDone : ∀ F ∈ skipped, F ∈ done
  stale : ∀ F, F ∈ state.tracked.fnsAffected ∨ F ∈ skipped → ∀ P, program.Reached main P →
    program.Calls P F → P ∈ state.fnsToAvoid ∨ P ∈ state.tracked.fnsAffected
  callers : ∀ F, F ∈ state.tracked.fnsAffected ∨ F ∈ skipped → ∀ P ∈ done,
    program.Calls P F → order.fnOrder P < order.fnOrder F → P ∈ skipped
  loops : state.tracked.preOrderedLoops = preOrderedLoops
  inlined : state.anyInlined = true ↔ state.tracked.fnsAffected.Nonempty
  defined : ∀ F, (state.tracked.bodies F).isEmpty = (program.bodies F).isEmpty
  unfolding : env.CopiesCallees program →
    ReflTransGen Unfolding (fun F => program.directCallees (program.bodies F))
      fun F => program.directCallees (state.tracked.bodies F)
  unfolded : env.CopiesCallees program → state.anyInlined = true →
    TransGen Unfolding (fun F => program.directCallees (program.bodies F))
      fun F => program.directCallees (state.tracked.bodies F)

/-- Before the first function nothing has changed. -/
theorem pass_inv_start {tracked : InlinerState Fn} (htracks : Tracks program main tracked)
    (hbodies : tracked.bodies = program.bodies) (haffected : tracked.fnsAffected = ∅)
    (loopsToCheck : Fn → List LoopStructure) :
    PassInv program main env order tracked.preOrderedLoops [] ∅
      ⟨tracked, loopsToCheck, ∅, false⟩ := by
  have hnone : ∀ F, F ∉ tracked.fnsAffected := by simp [haffected]
  refine ⟨htracks, fun F hF => absurd hF (hnone F), fun F hF => ?_, fun F hF => ?_,
    fun F hF => ?_, rfl, ?_, fun F => ?_, fun _ => ?_, fun _ h => ?_⟩
  · cases Finset.notMem_empty F hF
  · exact absurd hF (not_or.mpr ⟨hnone F, Finset.notMem_empty F⟩)
  · exact absurd hF (not_or.mpr ⟨hnone F, Finset.notMem_empty F⟩)
  · simp [haffected]
  · rw [hbodies]
  · rw [hbodies]
  · cases h

/-- A function whose turn has not come is not changed. -/
theorem PassInv.unaffected (h : PassInv program main env order preOrderedLoops done skipped state)
    (hnew : F ∉ done) : F ∉ state.tracked.fnsAffected :=
  fun haffected => hnew (h.affected F haffected).1

/-- Whatever happens in the turn of a function, a caller of a stale function is skipped if it comes
later: all that come later have no greater numbers. -/
theorem PassInv.callers_next (h : PassInv program main env order preOrderedLoops done skipped state)
    {skipped' : Finset Fn} (hnew : F ∉ done)
    (hsorted : ∀ P ∈ done, order.fnOrder F ≤ order.fnOrder P)
    (hreached : program.Reached main F) (hsub : ∀ P ∈ skipped, P ∈ skipped')
    (havoid : F ∈ state.fnsToAvoid → F ∈ skipped') {X : Fn}
    (hX : X = F ∨ X ∈ state.tracked.fnsAffected ∨ X ∈ skipped) :
    ∀ P ∈ done ++ [F], program.Calls P X → order.fnOrder P < order.fnOrder X → P ∈ skipped' := by
  intro P hP hcalls hlt
  rcases List.mem_append.mp hP with hdone | hlast
  · rcases hX with rfl | hstale
    · exact absurd hlt (Nat.not_lt.mpr (hsorted P hdone))
    · exact hsub P (h.callers X hstale P hdone hcalls hlt)
  · obtain rfl := List.mem_singleton.mp hlast
    rcases hX with rfl | hstale
    · exact absurd hlt (Nat.lt_irrefl _)
    · exact havoid ((h.stale X hstale P hreached hcalls).resolve_right (h.unaffected hnew))

/-- A function that is avoided is skipped, and its callers are avoided. -/
theorem PassInv.skip (h : PassInv program main env order preOrderedLoops done skipped state)
    (hnew : F ∉ done) (hsorted : ∀ P ∈ done, order.fnOrder F ≤ order.fnOrder P)
    (hreached : program.Reached main F) :
    PassInv program main env order preOrderedLoops (done ++ [F]) (insert F skipped)
      { state with fnsToAvoid := state.fnsToAvoid ∪ state.tracked.graph.parentFns F } := by
  have hstale : ∀ X, X ∈ state.tracked.fnsAffected ∨ X ∈ insert F skipped →
      X = F ∨ X ∈ state.tracked.fnsAffected ∨ X ∈ skipped := by
    intro X hX
    rw [Finset.mem_insert] at hX
    tauto
  refine ⟨h.tracks, fun X hX => ?_, fun X hX => ?_, fun X hX P hP hcalls => ?_, fun X hX => ?_,
    h.loops, h.inlined, h.defined, h.unfolding, h.unfolded⟩
  · obtain ⟨hdone, hnot, honce⟩ := h.affected X hX
    refine ⟨List.mem_append_left _ hdone, ?_, honce⟩
    rw [Finset.mem_insert, not_or]
    exact ⟨fun heq => hnew (heq ▸ hdone), hnot⟩
  · rw [Finset.mem_insert] at hX
    rcases hX with rfl | hold
    · exact List.mem_append_right _ List.mem_cons_self
    · exact List.mem_append_left _ (h.skippedDone X hold)
  · show P ∈ state.fnsToAvoid ∪ state.tracked.graph.parentFns F ∨ _
    rw [Finset.mem_union]
    rcases hstale X hX with rfl | hold
    · by_cases haffected : P ∈ state.tracked.fnsAffected
      · exact .inr haffected
      · exact .inl (.inr ((h.tracks.mem_parents_iff haffected).mpr ⟨hP, hcalls⟩))
    · exact (h.stale X hold P hP hcalls).imp_left .inl
  · exact h.callers_next hnew hsorted hreached (fun P hP => Finset.mem_insert_of_mem hP)
      (fun _ => Finset.mem_insert_self F skipped) (hstale X hX)

/-- A function of which no call is inlined is left as it is. -/
theorem PassInv.keep (h : PassInv program main env order preOrderedLoops done skipped state)
    (hnew : F ∉ done) (hsorted : ∀ P ∈ done, order.fnOrder F ≤ order.fnOrder P)
    (hreached : program.Reached main F) (havoid : F ∉ state.fnsToAvoid) (attempts : Nat)
    (loopsToCheck : Fn → List LoopStructure) :
    PassInv program main env order preOrderedLoops (done ++ [F]) skipped
      { state with
        tracked := { state.tracked with attempts := attempts }
        loopsToCheck := loopsToCheck } := by
  refine ⟨h.tracks.attempts attempts, fun X hX => ?_, fun X hX => ?_, h.stale, fun X hX => ?_,
    h.loops, h.inlined, h.defined, h.unfolding, h.unfolded⟩
  · exact ⟨List.mem_append_left _ (h.affected X hX).1, (h.affected X hX).2⟩
  · exact List.mem_append_left _ (h.skippedDone X hX)
  · exact h.callers_next hnew hsorted hreached (fun P hP => hP)
      (fun hin => absurd hin havoid) (.inr hX)

/-- What is inlined in a function that is not avoided: a call of its own body, and the callee has
its own body too. -/
theorem PassInv.own_bodies (h : PassInv program main env order preOrderedLoops done skipped state)
    (hnoelle : noelle.Documented) (hnew : F ∉ done) (hreached : program.Reached main F)
    (havoid : F ∉ state.fnsToAvoid) {pcg : Fn → Bool} {call : Inst Fn} {callF : Fn}
    {LDI : LoopSCCs Fn} (hLDI : LDI ∈ noelle.getLoopContents state.tracked.bodies F)
    (hcall : CallOfLoop noelle pcg order state.tracked.bodies F LDI call callF) :
    call ∈ instructions (program.bodies F) ∧ program.isDirectCall call = true ∧
      program.Calls F callF ∧ state.tracked.bodies F = program.bodies F ∧
      state.tracked.bodies callF = program.bodies callF := by
  have hunaffected := h.unaffected hnew
  have hbody := h.tracks.unaffected F hunaffected
  obtain ⟨scc, hscc, node, hnode, rfl⟩ := hcall.node
  have hin := hnoelle.nodes _ F LDI hLDI scc hscc node hnode hcall.isCall
  rw [hbody] at hin
  have hnonempty : (state.tracked.bodies callF).isEmpty = false := by
    have hmay := hcall.mayInline
    simp only [mayInlineCall, Bool.and_eq_true, Bool.not_eq_true'] at hmay
    exact hmay.1.1.1.1.1.1
  have hdefined : program.isDefined callF = true := by
    unfold Program.isDefined
    rw [← h.defined, hnonempty]
    rfl
  obtain ⟨hdirect, hcallee⟩ := mem_direct_callees hin hcall.isCall hcall.called hdefined
  refine ⟨hin, hdirect, hcallee, hbody, h.tracks.unaffected callF fun haffected => ?_⟩
  -- A function that was changed before has its callers avoided.
  exact (h.stale callF (.inl haffected) F hreached hcallee).elim havoid hunaffected

/-- Inlining a call of a function makes its callers avoided. -/
theorem PassInv.inline {firstAddress : Fn → Nat}
    (h : PassInv program main env order (preOrderedLoopsOf noelle order firstAddress program.bodies)
      done skipped state)
    (hnumbered : Numbered program main order) (henv : env.Documented)
    (hnoelle : noelle.Documented) (hnew : F ∉ done)
    (hsorted : ∀ P ∈ done, order.fnOrder F ≤ order.fnOrder P)
    (hreached : program.Reached main F) (havoid : F ∉ state.fnsToAvoid) {call : Inst Fn}
    {callF : Fn} {tracked' : InlinerState Fn}
    (hof : InlinesOfLoop env noelle (noelle.doesItBelongToAnSCC program.bodies) order
      state.tracked F call callF tracked') (loopsToCheck : Fn → List LoopStructure) :
    PassInv program main env order (preOrderedLoopsOf noelle order firstAddress program.bodies)
      (done ++ [F]) skipped
      ⟨tracked', loopsToCheck, state.fnsToAvoid ∪ tracked'.graph.parentFns F, true⟩ := by
  obtain ⟨LDI, hLDI, hcall⟩ := hof.loop
  obtain ⟨attempts, hinlines⟩ := hof.inlines
  obtain ⟨hin, hdirect, hcalls, hbody, hcallee⟩ :=
    h.own_bodies hnoelle hnew hreached havoid hLDI hcall
  have hmay := hcall.mayInline
  simp only [mayInlineCall, Bool.and_eq_true, decide_eq_true_eq, List.isEmpty_iff] at hmay
  obtain ⟨htracks, -, copied, hinlined⟩ := (h.tracks.attempts attempts).inlines_call henv
    (P := F) ((h.tracks.mem_parents_iff (h.unaffected hnew)).mpr ⟨hreached, hcalls⟩)
    (fun heq => hmay.1.1.1.1.2 heq.symm)
    (by
      show call ∈ state.tracked.graph.orderedCalls F
      rw [h.tracks.calls F hreached]
      exact List.mem_filter.mpr ⟨hin, hdirect⟩)
    hcall.called hinlines
  have hunfolding : env.CopiesCallees program →
      ReflTransGen Unfolding (fun F => program.directCallees (program.bodies F))
        (fun F => program.directCallees (state.tracked.bodies F)) ∧
      Unfolding (fun F => program.directCallees (state.tracked.bodies F))
        (fun F => program.directCallees (tracked'.bodies F)) := by
    intro hcopies
    obtain ⟨copied', hinlined', hcopied⟩ := hcopies _ _ F callF call _ hbody hcallee hin
      hcall.called hinlines.body
    rw [← hcallee] at hcopied
    refine ⟨h.unfolding hcopies, F, callF, hinlined'.unfolds ?_ hdirect hcall.called hcopied ?_⟩
    · rw [hbody]
      exact program.nodup_instructions F
    · rw [cyclic_iff_of_unfolding (h.unfolding hcopies)]
      exact hnumbered.acyclic hnoelle hreached hcalls hinlines.noEntrance hcall.mayInline
  have haffected : ∀ X, X ∈ tracked'.fnsAffected ↔ X = F ∨ X ∈ state.tracked.fnsAffected := by
    intro X
    rw [hinlines.affected, Finset.mem_insert]
  refine ⟨htracks, fun X hX => ?_, fun X hX => ?_, fun X hX P hP hcallsX => ?_, fun X hX => ?_, ?_,
    ?_, fun X => ?_, fun hcopies => ?_, fun hcopies _ => ?_⟩
  · rcases (haffected X).mp hX with rfl | hold
    · exact ⟨List.mem_append_right _ List.mem_cons_self,
        fun hskipped => hnew (h.skippedDone X hskipped), callF, call, hin, hcall.isCall,
        hcall.called, _, _, _, hbody, hcallee, hinlines.body, rfl⟩
    · obtain ⟨hdone, hnot, honce⟩ := h.affected X hold
      refine ⟨List.mem_append_left _ hdone, hnot, ?_⟩
      unfold InlinedOnce
      rw [hinlined.others X fun heq => hnew (heq ▸ hdone)]
      exact honce
  · exact List.mem_append_left _ (h.skippedDone X hX)
  · show P ∈ state.fnsToAvoid ∪ tracked'.graph.parentFns F ∨ P ∈ tracked'.fnsAffected
    rw [Finset.mem_union, haffected P]
    rw [haffected X, or_assoc] at hX
    rcases hX with rfl | hold
    · by_cases hchanged : P ∈ tracked'.fnsAffected
      · exact .inr ((haffected P).mp hchanged)
      · exact .inl (.inr ((htracks.mem_parents_iff hchanged).mpr ⟨hP, hcallsX⟩))
    · exact (h.stale X hold P hP hcallsX).imp .inl .inr
  · rw [haffected X, or_assoc] at hX
    exact h.callers_next hnew hsorted hreached (fun P hP => hP)
      (fun hin => absurd hin havoid) hX
  · -- The callee has no loops, so that the lists of loops stay as they are.
    obtain ⟨index, hindex⟩ := hof.loops
    have hnone : preOrderedLoopsOf noelle order firstAddress program.bodies callF = none := by
      unfold preOrderedLoopsOf
      rw [if_neg]
      exact fun hloops => hloops.2 (hnoelle.loops _ _ callF hcallee hmay.2)
    show tracked'.preOrderedLoops = _
    rw [hindex, h.loops]
    unfold adjustLoopOrdersAfterInline
    rw [hnone]
  · exact iff_of_true rfl ⟨F, (haffected F).mpr (.inl rfl)⟩
  · by_cases hX : X = F
    · rw [hX, List.isEmpty_eq_false_iff.mpr hinlined.body]
      exact (List.isEmpty_eq_false_iff.mpr fun hnone => by simp [hnone, instructions] at hin).symm
    · show (tracked'.bodies X).isEmpty = _
      rw [hinlined.others X hX]
      exact h.defined X
  · exact (hunfolding hcopies).1.tail (hunfolding hcopies).2
  · exact .tail' (hunfolding hcopies).1 (hunfolding hcopies).2

section Run

variable {firstAddress : Fn → Nat} (hnumbered : Numbered program main order)
  (henv : env.Documented) (hnoelle : noelle.Documented)

include hnumbered henv hnoelle

/-- The turn of a function keeps the invariant. -/
theorem PassInv.check_fn
    (h : PassInv program main env order (preOrderedLoopsOf noelle order firstAddress program.bodies)
      done skipped state)
    (hnew : F ∉ done) (hsorted : ∀ P ∈ done, order.fnOrder F ≤ order.fnOrder P)
    (hreached : program.Reached main F) :
    ∃ skipped', PassInv program main env order
      (preOrderedLoopsOf noelle order firstAddress program.bodies) (done ++ [F]) skipped'
      (checkFn env noelle (noelle.doesItBelongToAnSCC program.bodies) order state F) := by
  unfold checkFn
  split_ifs with havoid
  · exact ⟨insert F skipped, h.skip hnew hsorted hreached⟩
  · generalize hrun : checkLoopsOfFn env noelle (noelle.doesItBelongToAnSCC program.bodies) order F
      (noelle.getLoopContents state.tracked.bodies F) ⟨state.loopsToCheck F, false, []⟩
      state.tracked = run
    obtain ⟨loops, tracked'⟩ := run
    dsimp only
    rcases check_loops_of_fn_cases (fun LDI hLDI => hLDI) rfl hrun with
      ⟨hinlined, call, callF, hof⟩ | ⟨hinlined, attempts, rfl⟩
    · rw [hinlined, if_pos rfl, Bool.or_true]
      exact ⟨skipped,
        h.inline hnumbered henv hnoelle hnew hsorted hreached havoid hof _⟩
    · rw [hinlined, if_neg Bool.false_ne_true, Bool.or_false]
      exact ⟨skipped, h.keep hnew hsorted hreached havoid attempts _⟩

/-- The turns of functions with ever smaller numbers keep the invariant. -/
theorem PassInv.foldl {fns : List Fn}
    (h : PassInv program main env order (preOrderedLoopsOf noelle order firstAddress program.bodies)
      done skipped state)
    (hnodup : (done ++ fns).Nodup)
    (hsorted : (done ++ fns).Pairwise fun P F => order.fnOrder F ≤ order.fnOrder P)
    (hreached : ∀ F ∈ fns, program.Reached main F) :
    ∃ skipped', PassInv program main env order
      (preOrderedLoopsOf noelle order firstAddress program.bodies) (done ++ fns) skipped'
      (fns.foldl (checkFn env noelle (noelle.doesItBelongToAnSCC program.bodies) order) state) := by
  induction fns generalizing done skipped state with
  | nil => exact ⟨skipped, by simpa using h⟩
  | cons F rest ih =>
      rw [List.forall_mem_cons] at hreached
      have hnew : F ∉ done := fun hin =>
        (List.nodup_append.mp hnodup).2.2 F hin F List.mem_cons_self rfl
      have hlater : ∀ P ∈ done, order.fnOrder F ≤ order.fnOrder P := fun P hP =>
        (List.pairwise_append.mp hsorted).2.2 P hP F List.mem_cons_self
      obtain ⟨skipped₁, hnext⟩ := h.check_fn hnumbered henv hnoelle hnew hlater hreached.1
      rw [List.append_cons] at hnodup hsorted ⊢
      exact ih hnext hnodup hsorted hreached.2

end Run

end Pass

/-! ## The pass -/

/-- The functions that main reaches are numbered. -/
theorem OrderState.Finished.numbered {program : Program Fn} {main : Fn} {done : List Fn}
    {graph : FnGraph Fn} {state : OrderState Fn} (h : Finished graph main state)
    (hgraph : graph.Describes program done) (hdone : ∀ F, F ∈ done ↔ program.Reached main F) :
    Numbered program main state.toDepthOrder := by
  have hlists := h.lists
  obtain ⟨releases, hinv⟩ := h.inv
  have hreached : ∀ F, F ∈ state.depthOrderedFns ↔ program.Reached main F := fun F =>
    (hlists.mem_iff F).trans (hgraph.reaches_iff hdone F)
  have hfirst : state.fnOrders main = some 0 := by
    rw [hinv.inverse, ← List.head?_eq_getElem?]
    exact hinv.first
  refine ⟨hreached, fun F hF hzero => ?_, ?_, fun F hF hcalls => ?_⟩
  · obtain ⟨i, hi⟩ := List.mem_iff_getElem?.mp ((hreached F).mpr hF)
    have hnumber := (hinv.inverse F i).mpr hi
    unfold DepthOrder.fnOrder at hzero
    rw [hnumber, Option.getD_some] at hzero
    have hmain := (hinv.inverse main 0).mp hfirst
    rw [hzero, hmain] at hi
    exact (Option.some.inj hi).symm
  · unfold DepthOrder.fnOrder
    rw [hfirst]
    rfl
  · have hself : graph.Calls F F := (hgraph.calls_iff hdone F F).mpr ⟨hF, hcalls⟩
    have hmem : F ∈ state.reached := (h.closed F).mpr ((hgraph.reaches_iff hdone F).mpr hF)
    rcases hinv.after F hmem with hmain | hentrance | ⟨before, after, horder, hcallers⟩
    · exact .inl hmain
    · exact .inr hentrance
    · -- A function that comes after its callers does not call itself.
      have hnodup := hinv.nodup
      rw [horder] at hnodup
      exact absurd rfl ((List.nodup_append.mp hnodup).2.2 F (hcallers F hself) F
        List.mem_cons_self)

/-- A function with loops to check calls a function with a greater number. -/
def ChecksCaller (program : Program Fn) (order : DepthOrder Fn)
    (loopsToCheck : Fn → List LoopStructure) (F P : Fn) : Prop :=
  loopsToCheck P ≠ [] ∧ program.Calls P F ∧ order.fnOrder P < order.fnOrder F

/-- What the pass leaves: functions that are as they were, functions with loops in which one call
was inlined as the bodies were before the pass, and the lists of loops that were there. No function
that leads to a changed one by calls of ever deeper functions with loops is changed. -/
structure PassResult (program : Program Fn) (env : Environment Fn) (order : DepthOrder Fn)
    (preOrderedLoops : LoopLists Fn) (loopsToCheck : Fn → List LoopStructure)
    (last : PassState Fn) : Prop where
  unaffected : ∀ F ∉ last.tracked.fnsAffected, last.tracked.bodies F = program.bodies F
  affected : ∀ F ∈ last.tracked.fnsAffected,
    loopsToCheck F ≠ [] ∧ InlinedOnce env program last.tracked.bodies F
  callers : ∀ F ∈ last.tracked.fnsAffected, ∀ P,
    TransGen (ChecksCaller program order loopsToCheck) F P → P ∉ last.tracked.fnsAffected
  loops : last.tracked.preOrderedLoops = preOrderedLoops
  inlined : last.anyInlined = true ↔ last.tracked.fnsAffected.Nonempty

section Result

variable {program : Program Fn} {main : Fn} {env : Environment Fn} {noelle : Noelle Fn}
  {order : DepthOrder Fn}

omit [DecidableEq Fn] in
/-- The pass goes over the functions with loops to check, without repetition. -/
theorem mem_fns_to_visit {functions : List Fn} (hfunctions : ∀ F, F ∈ functions)
    {sortInDepthOrderFns : DepthSort order.fnOrder} {loopsToCheck : Fn → List LoopStructure}
    {F : Fn} : F ∈ fnsToVisit order functions sortInDepthOrderFns loopsToCheck ↔
      loopsToCheck F ≠ [] := by
  unfold fnsToVisit
  rw [(sortInDepthOrderFns.perm _).mem_iff, List.mem_filter, decide_eq_true_eq]
  exact and_iff_right (hfunctions F)

/-- Functions with loops to check are reached. -/
theorem reached_of_loops_to_check (hnumbered : Numbered program main order)
    {firstAddress : Fn → Nat} {profiles : Option (LoopStructure → Bool)} {F : Fn}
    (h : getLoopsToInline profiles
      (preOrderedLoopsOf noelle order firstAddress program.bodies) F ≠ []) :
    program.Reached main F := by
  rw [← hnumbered.reached]
  by_contra hnot
  have hnone : preOrderedLoopsOf noelle order firstAddress program.bodies F = none := by
    unfold preOrderedLoopsOf
    rw [if_neg fun hloops => hnot hloops.1]
  apply h
  unfold getLoopsToInline loopsOf
  rw [hnone]
  cases profiles with
  | none => rfl
  | some hotEnough => rfl

/-- The invariant at the end of the pass. -/
theorem exists_pass_inv {graph : FnGraph Fn} {done : List Fn}
    (hgraph : graph.Describes program done) (hdone : ∀ F, F ∈ done ↔ program.Reached main F)
    (hnumbered : Numbered program main order) (henv : env.Documented)
    (hnoelle : noelle.Documented) (sortInDepthOrderFns : DepthSort order.fnOrder)
    (firstAddress : Fn → Nat) (profiles : Option (LoopStructure → Bool)) :
    let preOrderedLoops := preOrderedLoopsOf noelle order firstAddress program.bodies
    let loopsToCheck := getLoopsToInline profiles preOrderedLoops
    ∃ skipped, PassInv program main env order preOrderedLoops
      (fnsToVisit order program.functions sortInDepthOrderFns loopsToCheck) skipped
      (inlineCallsInvolvedInLoopCarriedDataDependences env noelle
        (noelle.doesItBelongToAnSCC program.bodies) order program.functions sortInDepthOrderFns
        loopsToCheck (InlinerState.collected program graph preOrderedLoops)) := by
  intro preOrderedLoops loopsToCheck
  have hstart : PassInv program main env order preOrderedLoops [] ∅
      ⟨InlinerState.collected program graph preOrderedLoops, loopsToCheck, ∅, false⟩ :=
    pass_inv_start (tracks_collected hgraph hdone preOrderedLoops) rfl rfl loopsToCheck
  refine hstart.foldl hnumbered henv hnoelle ?_ ?_ fun F hF => ?_
  · exact (sortInDepthOrderFns.perm _).nodup_iff.mpr (program.nodup_functions.filter _)
  · exact sortInDepthOrderFns.sorted _
  · exact reached_of_loops_to_check hnumbered
      ((mem_fns_to_visit program.mem_functions).mp hF)

end Result

/-- The pass inlines one call at most in a function, always a body that the pass has not changed
into one that it has not changed. -/
theorem pass_inlines_original_bodies (program : Program Fn) (main : Fn) {env : Environment Fn}
    (henv : env.Documented) {noelle : Noelle Fn} (hnoelle : noelle.Documented) :
    ∃ graph order,
      (∀ fuel ≥ program.functions.length, collectFnGraph program main fuel = some graph) ∧
      (∀ fuel ≥ program.functions.length,
        collectInDepthOrderFns graph main fuel = some order) ∧
      ∀ sortInDepthOrderFns firstAddress profiles,
        let preOrderedLoops := preOrderedLoopsOf noelle order firstAddress program.bodies
        let loopsToCheck := getLoopsToInline profiles preOrderedLoops
        PassResult program env order preOrderedLoops loopsToCheck
          (inlineCallsInvolvedInLoopCarriedDataDependences env noelle
            (noelle.doesItBelongToAnSCC program.bodies) order program.functions
            sortInDepthOrderFns loopsToCheck
            (InlinerState.collected program graph preOrderedLoops)) := by
  obtain ⟨done, graph, state, hgraph, hdone, hfinished, hcollect, horder⟩ :=
    exists_depth_order program main
  refine ⟨graph, state.toDepthOrder, hcollect, horder, ?_⟩
  intro sortInDepthOrderFns firstAddress profiles preOrderedLoops loopsToCheck
  have hnumbered := hfinished.numbered hgraph hdone
  obtain ⟨skipped, hinv⟩ := exists_pass_inv hgraph hdone hnumbered henv hnoelle
    sortInDepthOrderFns firstAddress profiles
  refine ⟨hinv.tracks.unaffected, fun F hF => ?_, fun F hF P hchain => ?_, hinv.loops,
    hinv.inlined⟩
  · obtain ⟨hvisited, -, honce⟩ := hinv.affected F hF
    exact ⟨(mem_fns_to_visit program.mem_functions).mp hvisited, honce⟩
  · -- Every caller on the way is skipped.
    have hskipped : P ∈ skipped := by
      induction hchain with
      | single hcaller =>
          exact hinv.callers F (.inl hF) _
            ((mem_fns_to_visit program.mem_functions).mpr hcaller.1) hcaller.2.1 hcaller.2.2
      | tail _ hcaller ih =>
          exact hinv.callers _ (.inr ih) _
            ((mem_fns_to_visit program.mem_functions).mpr hcaller.1) hcaller.2.1 hcaller.2.2
    exact fun haffected => (hinv.affected P haffected).2.1 hskipped

namespace Chain

/-- The header of the loop of a function, if it has one. -/
def loopHeaders : Chain → List Nat
  | .main => [0]
  | .outer => [1]
  | .inner => []

/-- A component of the loop of the outer function: its first call, with a dependence through
memory. -/
def innerComponent : SCC Chain := ⟨2, [⟨callInner, [.memory, .variable]⟩]⟩

/-- Analyses that find the component as long as the call is there. A function that calls nothing is
on no cycle. -/
def noelle : Noelle Chain where
  numberOfProgramInstructions _ := 3
  loopHeaders _ := loopHeaders
  getLoopStructures _ F := (loopHeaders F).map fun header => ⟨header, header⟩
  getLoopContents bodies F :=
    if F = .outer ∧ callInner ∈ instructions (bodies .outer) then
      [⟨⟨⟨1, 1⟩, []⟩, [innerComponent], fun _ => false, 5⟩]
    else []
  canBeAppliedToLoop _ _ := false
  doesItBelongToAnSCC bodies F := !(calledFns bodies F).isEmpty
  isIntrinsic _ := false

/-- The analyses are as they should be. -/
theorem noelle_documented : noelle.Documented where
  nodes bodies F LDI hLDI scc hscc node hnode _ := by
    have hif : LDI ∈ if F = .outer ∧ callInner ∈ instructions (bodies .outer) then
        [(⟨⟨⟨1, 1⟩, []⟩, [innerComponent], fun _ => false, 5⟩ : LoopSCCs Chain)] else [] := hLDI
    split_ifs at hif with houter
    · obtain rfl := List.mem_singleton.mp hif
      obtain rfl := List.mem_singleton.mp hscc
      obtain rfl := List.mem_singleton.mp hnode
      rw [houter.1]
      exact houter.2
    · cases hif
  loops _ _ F _ hnone := List.map_eq_nil_iff.mp hnone
  cycles bodies F G _ hleads _ := by
    obtain ⟨callF, hcall, -⟩ := TransGen.head'_iff.mp hleads
    show (!(calledFns bodies F).isEmpty) = true
    rw [Bool.not_eq_true', List.isEmpty_eq_false_iff]
    exact List.ne_nil_of_mem hcall

/-- The loops of the chain. -/
def chainLoops : LoopLists Chain := preOrderedLoopsOf noelle order (fun _ => 10) program.bodies

/-- The pass over the chain. -/
def inlinerPass : PassState Chain :=
  inlineCallsInvolvedInLoopCarriedDataDependences .splicing noelle
    (noelle.doesItBelongToAnSCC program.bodies) order program.functions (.stable order.fnOrder)
    (getLoopsToInline none chainLoops) (InlinerState.collected program graph chainLoops)

/-- The first call of the outer function is inlined, with the body of the inner function, and main
stays as it is. -/
theorem inner_inlined_once : inlinerPass.tracked.fnsAffected = {.outer} ∧
    InlinedOnce .splicing program inlinerPass.tracked.bodies .outer ∧
    .main ∉ inlinerPass.tracked.fnsAffected ∧ inlinerPass.tracked.preOrderedLoops = chainLoops := by
  obtain ⟨other, otherOrder, hcollect, horder, hresult⟩ := pass_inlines_original_bodies program
    .main (Environment.copying_documented id) noelle_documented
  have hgraph : collectFnGraph program .main 3 = some graph := rfl
  obtain rfl : graph = other := Option.some.inj (hgraph.symm.trans (hcollect 3 (by decide)))
  have hfirst : collectInDepthOrderFns graph .main 3 = some order := rfl
  obtain rfl : order = otherOrder := Option.some.inj (hfirst.symm.trans (horder 3 (by decide)))
  have hpass : PassResult program .splicing order chainLoops (getLoopsToInline none chainLoops)
      inlinerPass := hresult (.stable order.fnOrder) (fun _ => 10) none
  have haffected : inlinerPass.tracked.fnsAffected = {.outer} := by decide
  have houter : .outer ∈ inlinerPass.tracked.fnsAffected := by rw [haffected]; decide
  refine ⟨haffected, (hpass.affected .outer houter).2, ?_, hpass.loops⟩
  exact hpass.callers .outer houter .main (.single ⟨by decide, by decide, by decide⟩)

end Chain

end Gino.Inliner
