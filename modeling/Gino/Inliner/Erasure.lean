import Gino.Inliner.Hoisting

/-!
# The functions that the hoisting pass erases

`Inliner::inlineFnsOfLoopsToCGRoot` erases a function from the set of functions to check when no
attempt to inline it fails. Callers into which nothing may be inlined any more count as done, and so
do callers of which only the first call was inlined. A function that is erased is called by none of
its callers at the end if and only if the turns of the loop meet a condition on what they find
(`erased_completely_iff`).
-/

namespace Gino.Inliner

open Machine Relation

variable {Fn : Type} [DecidableEq Fn]

/-- The maps describe the functions that main reaches, and no other functions. -/
structure Tracks (program : Program Fn) (main : Fn) (tracked : InlinerState Fn) : Prop
    extends Mirrors program main tracked where
  others : ∀ P, ¬ program.Reached main P → tracked.graph.childrenFns P = []

section Tracks

variable {program : Program Fn} {main : Fn} {env : Environment Fn} {order : DepthOrder Fn}
  {tracked tracked' : InlinerState Fn} {P F childF : Fn}

/-- The graph that is collected describes the functions that main reaches. -/
theorem tracks_collected {done : List Fn} {graph : FnGraph Fn}
    (h : graph.Describes program done) (hdone : ∀ F, F ∈ done ↔ program.Reached main F)
    (preOrderedLoops : LoopLists Fn) :
    Tracks program main (InlinerState.collected program graph preOrderedLoops) :=
  ⟨mirrors_collected h hdone preOrderedLoops,
    fun P hP => h.others P fun hin => hP ((hdone P).mp hin)⟩

/-- The callers of a function into which nothing was inlined are the reached functions that call
it. -/
theorem Tracks.mem_parents_iff (h : Tracks program main tracked)
    (hunaffected : P ∉ tracked.fnsAffected) :
    P ∈ tracked.graph.parentFns F ↔ program.Reached main P ∧ program.Calls P F := by
  rw [h.parents]
  by_cases hP : program.Reached main P
  · rw [h.children P hP, mem_fresh, h.called P hP hunaffected, h.unaffected P hunaffected]
    simp [hP, Program.Calls]
  · rw [h.others P hP]
    simp [hP]

/-- A caller into which nothing was inlined has a call to the function. -/
theorem Tracks.exists_call (h : Tracks program main tracked)
    (hparent : P ∈ tracked.graph.parentFns F) (hunaffected : P ∉ tracked.fnsAffected) :
    ∃ call ∈ tracked.graph.orderedCalls P, call.calledFunction = some F := by
  obtain ⟨hP, hin⟩ := (h.mem_parents_iff hunaffected).mp hparent
  rw [h.calls P hP]
  exact List.mem_filterMap.mp hin

/-- Another number of attempts changes nothing in the maps. -/
theorem Tracks.attempts (h : Tracks program main tracked) (attempts : Nat) :
    Tracks program main { tracked with attempts := attempts } :=
  ⟨⟨h.calls, h.called, h.children, h.parents, h.unaffected⟩, h.others⟩

/-- Inlining a call of a caller keeps the maps as they should be, and leaves the bodies of other
functions. -/
theorem Tracks.inlines_call (h : Tracks program main tracked) (henv : env.Documented)
    {call : Inst Fn} (hparent : P ∈ tracked.graph.parentFns childF) (hother : P ≠ childF)
    (hcall : call ∈ tracked.graph.orderedCalls P) (hcalled : call.calledFunction = some childF)
    (hinlines : InlinesCall env order.recursiveChainEntranceFns tracked P childF call tracked') :
    Tracks program main tracked' ∧ program.isDirectCall call = true ∧
      ∃ copied, Inlined tracked.bodies tracked'.bodies P call copied := by
  obtain ⟨hP, -⟩ := (h.mem_parents_iff hinlines.unaffected).mp hparent
  have hbody := h.unaffected P hinlines.unaffected
  rw [h.calls P hP, Program.directCalls, List.mem_filter] at hcall
  obtain ⟨hmirrors, copied, hsplices⟩ := h.toMirrors.inlines_call henv
    ⟨hP, hbody ▸ hcall.1, hcall.2, hcalled, hother.symm⟩ hinlines
  refine ⟨⟨hmirrors, fun X hX => ?_⟩, hcall.2, copied, hsplices.inlined⟩
  obtain ⟨earlier, later, hbefore, hindex, -⟩ := hsplices.lists
  obtain ⟨-, -, hchildren, -⟩ := adjust_fn_graph_eq tracked.graph hbefore hindex
  rw [← hinlines.graph] at hchildren
  have hne : X ≠ P := fun heq => hX (heq ▸ hP)
  rw [hchildren, Function.update_of_ne hne, h.others X hX]

end Tracks

/-! ## What a turn does -/

/-- Some attempt inlined the function in this caller. -/
def InlinedIn (attempts : List (Attempt Fn)) (P : Fn) : Prop :=
  ∃ attempt ∈ attempts, attempt.parentF = P ∧ true ∈ attempt.outcomes

/-- What trying a function in some of its callers did: a caller in which it was inlined has calls
that were copied in the place of a call, and other bodies are as before. -/
structure TriedIn (program : Program Fn) (main : Fn) (order : DepthOrder Fn) (childF : Fn)
    (before : InlinerState Fn) (fnsToCheck : Finset Fn) (seen : List Fn) (visit : VisitState Fn) :
    Prop where
  tracks : Tracks program main visit.tracked
  eligible : ∀ attempt ∈ visit.attempts, attempt.parentF ∈ seen ∧
    CanHoist order attempt.parentF childF ∧ attempt.parentF ∉ before.fnsAffected
  tried : ∀ P ∈ seen, CanHoist order P childF → P ∉ before.fnsAffected →
    ∃ attempt ∈ visit.attempts, attempt.parentF = P ∧ attempt.outcomes ≠ []
  affected : ∀ X, X ∈ visit.tracked.fnsAffected ↔
    X ∈ before.fnsAffected ∨ InlinedIn visit.attempts X
  kept : ∀ X, ¬ InlinedIn visit.attempts X → visit.tracked.bodies X = before.bodies X
  spliced : ∀ X, InlinedIn visit.attempts X → ∃ call copied,
    program.isDirectCall call = true ∧ call.calledFunction = some childF ∧
      CopiedFor call copied (before.bodies X) (visit.tracked.bodies X)
  inParents : visit.inlinedInParents = true ↔
    ∀ attempt ∈ visit.attempts, false ∉ attempt.outcomes
  fnsToCheck : visit.fnsToCheck = fnsToCheck

section TriedIn

variable {program : Program Fn} {main : Fn} {env : Environment Fn} {order : DepthOrder Fn}
  {childF P : Fn} {before : InlinerState Fn} {fnsToCheck : Finset Fn} {seen : List Fn}
  {visit visit' : VisitState Fn} {attempts : List (Attempt Fn)} {outcomes : List Bool}

omit [DecidableEq Fn] in
/-- One more caller is tried. -/
theorem inlined_in_append {X : Fn} :
    InlinedIn (attempts ++ [⟨P, outcomes⟩]) X ↔ InlinedIn attempts X ∨ P = X ∧ true ∈ outcomes := by
  simp [InlinedIn, or_and_right, exists_or]

/-- Before any caller is tried nothing has changed. -/
theorem tried_in_nil {state : HoistState Fn} (htracks : Tracks program main state.tracked) :
    TriedIn program main order childF state.tracked state.fnsToCheck [] ⟨state, true, []⟩ := by
  have hnone : ∀ X, ¬ InlinedIn ([] : List (Attempt Fn)) X :=
    fun X ⟨_, hin, _⟩ => List.not_mem_nil hin
  exact ⟨htracks, fun _ hin => (List.not_mem_nil hin).elim,
    fun _ hin => (List.not_mem_nil hin).elim, fun X => (or_iff_left (hnone X)).symm,
    fun _ _ => rfl, fun X hX => absurd hX (hnone X),
    ⟨fun _ _ hin => (List.not_mem_nil hin).elim, fun _ => rfl⟩, rfl⟩

/-- The function was not inlined in a caller that was not seen yet. -/
theorem TriedIn.unseen (h : TriedIn program main order childF before fnsToCheck seen visit)
    (hP : P ∉ seen) : ¬ InlinedIn visit.attempts P :=
  fun ⟨attempt, hin, hsame, _⟩ => hP (hsame ▸ (h.eligible attempt hin).1)

/-- A caller that is left alone has no part in what was done. -/
theorem TriedIn.skip (h : TriedIn program main order childF before fnsToCheck seen visit)
    (hP : P ∉ seen)
    (hskip : ¬ (CanHoist order P childF ∧ P ∉ visit.tracked.fnsAffected)) :
    TriedIn program main order childF before fnsToCheck (seen ++ [P]) visit := by
  refine ⟨h.tracks, fun attempt hin => ?_, fun X hX hcan hunaffected => ?_, h.affected, h.kept,
    h.spliced, h.inParents, h.fnsToCheck⟩
  · obtain ⟨hseen, hrest⟩ := h.eligible attempt hin
    exact ⟨List.mem_append_left _ hseen, hrest⟩
  · rcases List.mem_append.mp hX with hseen | hlast
    · exact h.tried X hseen hcan hunaffected
    · rw [List.mem_singleton] at hlast
      subst hlast
      refine absurd ⟨hcan, fun haffected => ?_⟩ hskip
      exact ((h.affected X).mp haffected).elim hunaffected (h.unseen hP)

/-- What the attempts for a caller change: the body of the caller, and only if one of them inlines.
-/
theorem Tracks.hoists_into (h : Tracks program main visit.tracked) (henv : env.Documented)
    (hparent : P ∈ visit.tracked.graph.parentFns childF)
    (hinto : HoistsInto env order childF P outcomes visit visit') :
    Tracks program main visit'.tracked ∧
      (∀ X, X ∈ visit'.tracked.fnsAffected ↔
        X ∈ visit.tracked.fnsAffected ∨ P = X ∧ true ∈ outcomes) ∧
      (∀ X, ¬ (P = X ∧ true ∈ outcomes) →
        visit'.tracked.bodies X = visit.tracked.bodies X) ∧
      (true ∈ outcomes → ∃ call copied, program.isDirectCall call = true ∧
        call.calledFunction = some childF ∧
          CopiedFor call copied (visit.tracked.bodies P) (visit'.tracked.bodies P)) := by
  obtain ⟨count, ⟨hfailed, hsame⟩ | ⟨hsome, call, hin, hcalled, hinlines⟩⟩ := hinto.inlines
  · rw [hsame]
    exact ⟨h.attempts count, fun X => by simp [hfailed], fun _ _ => rfl,
      fun hsome => absurd hsome hfailed⟩
  · obtain ⟨htracks, hdirect, copied, hinlined⟩ := (h.attempts count).inlines_call henv hparent
      hinto.eligible.2.1 hin hcalled hinlines
    refine ⟨htracks, fun X => ?_, fun X hX => ?_,
      fun _ => ⟨call, copied, hdirect, hcalled, hinlined.spliced⟩⟩
    · rw [hinlines.affected, Finset.mem_insert, or_comm, eq_comm]
      simp [hsome]
    · exact hinlined.others X fun heq => hX ⟨heq.symm, hsome⟩

/-- One more caller is tried. -/
theorem TriedIn.hoists_into (h : TriedIn program main order childF before fnsToCheck seen visit)
    (henv : env.Documented) (hP : P ∉ seen)
    (hparent : P ∈ before.graph.parentFns childF)
    (htracks : Tracks program main before)
    (hinto : HoistsInto env order childF P outcomes visit visit') :
    TriedIn program main order childF before fnsToCheck (seen ++ [P]) visit' := by
  have hunseen := h.unseen hP
  have hbefore : P ∉ before.fnsAffected := fun haffected =>
    hinto.unaffected ((h.affected P).mpr (.inl haffected))
  have hparent' : P ∈ visit.tracked.graph.parentFns childF := by
    rw [h.tracks.mem_parents_iff hinto.unaffected]
    exact (htracks.mem_parents_iff hbefore).mp hparent
  -- A parent has a call, so that at least one attempt is made.
  have hcalls : outcomes ≠ [] := fun hnone => by
    obtain ⟨call, hin, hcalled⟩ := h.tracks.exists_call hparent' hinto.unaffected
    exact hinto.noCalls.mp hnone call hin hcalled
  obtain ⟨htracks', haffected', hothers, hsplice⟩ := h.tracks.hoists_into henv hparent' hinto
  refine ⟨htracks', fun attempt hin => ?_, fun X hX hcan hunaffected => ?_, fun X => ?_,
    fun X hX => ?_, fun X hX => ?_, ?_, hinto.fnsToCheck.trans h.fnsToCheck⟩
  · rw [hinto.attempts, List.mem_append, List.mem_singleton] at hin
    rcases hin with hold | rfl
    · obtain ⟨hseen, hrest⟩ := h.eligible attempt hold
      exact ⟨List.mem_append_left _ hseen, hrest⟩
    · exact ⟨List.mem_append_right _ (List.mem_singleton_self P), hinto.eligible, hbefore⟩
  · rw [hinto.attempts]
    rcases List.mem_append.mp hX with hseen | hlast
    · obtain ⟨attempt, hin, hattempt⟩ := h.tried X hseen hcan hunaffected
      exact ⟨attempt, List.mem_append_left _ hin, hattempt⟩
    · exact ⟨⟨P, outcomes⟩, List.mem_append_right _ (List.mem_singleton_self _),
        (List.mem_singleton.mp hlast).symm, hcalls⟩
  · rw [haffected', h.affected, hinto.attempts, inlined_in_append, or_assoc]
  · rw [hinto.attempts, inlined_in_append, not_or] at hX
    rw [hothers X hX.2, h.kept X hX.1]
  · rw [hinto.attempts, inlined_in_append] at hX
    rcases hX with hold | ⟨rfl, hsome⟩
    · have hne : ¬ (P = X ∧ true ∈ outcomes) := fun ⟨heq, _⟩ => hunseen (heq ▸ hold)
      rw [hothers X hne]
      exact h.spliced X hold
    · rw [← h.kept P hunseen]
      exact hsplice hsome
  · rw [hinto.inParents, hinto.attempts, Bool.and_eq_true, h.inParents]
    simp only [List.mem_append, List.mem_singleton, or_imp, forall_and, forall_eq,
      List.all_eq_true, id]
    refine and_congr_right fun _ => ⟨fun hall hin => ?_, fun hall outcome hin => ?_⟩
    · cases hall false hin
    · cases outcome with
      | false => exact absurd hin hall
      | true => rfl

/-- Trying all callers. -/
theorem TriedIn.foldl {parents : List Fn} (henv : env.Documented)
    (htracks : Tracks program main before)
    (hparents : ∀ P ∈ parents, P ∈ before.graph.parentFns childF)
    (h : TriedIn program main order childF before fnsToCheck seen visit)
    (hnodup : (seen ++ parents).Nodup) :
    TriedIn program main order childF before fnsToCheck (seen ++ parents)
      (parents.foldl (hoistIntoParent env order childF) visit) := by
  induction parents generalizing seen visit with
  | nil => rwa [List.append_nil]
  | cons P rest ih =>
      have hP : P ∉ seen := fun hin =>
        (List.nodup_append.mp hnodup).2.2 P hin P List.mem_cons_self rfl
      rw [List.append_cons] at hnodup ⊢
      refine ih (fun X hX => hparents X (List.mem_cons_of_mem _ hX)) ?_ hnodup
      rcases @hoist_into_parent_cases Fn _ env order P childF visit with
        ⟨hskip, hsame⟩ | ⟨outcomes, hinto⟩
      · rw [hsame]
        exact h.skip hP hskip
      · exact h.hoists_into henv hP (hparents P List.mem_cons_self) htracks hinto

/-- What visiting a function does, if it is not avoided. -/
theorem visit_fn_tried (program : Program Fn) (henv : env.Documented) {state : HoistState Fn}
    (htracks : Tracks program main state.tracked) (havoid : childF ∉ state.fnsToAvoid) :
    ∃ visit, TriedIn program main order childF state.tracked state.fnsToCheck
        (program.functions.filter (· ∈ state.tracked.graph.parentFns childF)) visit ∧
      (visitFn program.functions env order state childF).2 = visit.attempts ∧
      (visitFn program.functions env order state childF).1.tracked = visit.tracked ∧
      (visitFn program.functions env order state childF).1.fnsToCheck =
        if visit.inlinedInParents then state.fnsToCheck.erase childF else state.fnsToCheck := by
  have htried := @TriedIn.foldl Fn _ program main env order childF state.tracked state.fnsToCheck []
    ⟨state, true, []⟩ (program.functions.filter (· ∈ state.tracked.graph.parentFns childF)) henv
    htracks (fun P hP => by simpa using (List.mem_filter.mp hP).2) (tried_in_nil htracks)
    (program.nodup_functions.filter _)
  refine ⟨_, htried, ?_⟩
  unfold visitFn
  rw [if_neg havoid]
  refine ⟨rfl, ?_, ?_⟩
  · dsimp only
    split_ifs
    · rfl
    · rfl
  · rw [← htried.fnsToCheck]
    dsimp only
    split_ifs
    · rfl
    · rfl

end TriedIn

/-! ## What is left at the end -/

/-- What is copied into a caller in a turn calls the function. -/
def Visit.CopiesCall (program : Program Fn) (visit : Visit Fn) (P F : Fn) : Prop :=
  ∃ call copied, call.calledFunction = some visit.childF ∧
    CopiedFor call copied (visit.before.tracked.bodies P) (visit.after.tracked.bodies P) ∧
      F ∈ copied.filterMap program.definedCallee

/-- What a turn finds, where `fnsToCheck` are the functions to check at the start. If no attempt
fails, then nothing was inlined before in the callers of the function that is taken, they call it
once, and what is copied into them does not call it. And what is copied into a caller of an erased
function does not call that function. -/
structure Visit.HoistsCompletely (program : Program Fn) (main : Fn) (order : DepthOrder Fn)
    (fnsToCheck : Finset Fn) (visit : Visit Fn) : Prop where
  erased : visit.childF ∈ visit.before.fnsToCheck → visit.childF ∉ visit.before.fnsToAvoid →
    (∀ attempt ∈ visit.attempts, false ∉ attempt.outcomes) →
    ∀ P, program.Reached main P → CanHoist order P visit.childF →
      visit.childF ∈ program.directCallees (visit.before.tracked.bodies P) →
      P ∉ visit.before.tracked.fnsAffected ∧
        (program.directCallees (visit.before.tracked.bodies P)).count visit.childF = 1 ∧
        ¬ visit.CopiesCall program P visit.childF
  added : ∀ P, InlinedIn visit.attempts P → ∀ F ∈ fnsToCheck, F ∉ visit.before.fnsToCheck →
    CanHoist order P F → ¬ visit.CopiesCall program P F

/-- No caller of a function that was erased calls it. -/
def HoistedAway (program : Program Fn) (main : Fn) (order : DepthOrder Fn) (fnsToCheck : Finset Fn)
    (state : HoistState Fn) : Prop :=
  ∀ F ∈ fnsToCheck, F ∉ state.fnsToCheck → ∀ P, program.Reached main P → CanHoist order P F →
    F ∉ program.directCallees (state.tracked.bodies P)

/-- Some caller of a function that was erased calls it, and nothing is inlined in it any more. -/
def LeftBehind (program : Program Fn) (main : Fn) (order : DepthOrder Fn) (fnsToCheck : Finset Fn)
    (state : HoistState Fn) : Prop :=
  ∃ F ∈ fnsToCheck, F ∉ state.fnsToCheck ∧ ∃ P, program.Reached main P ∧ CanHoist order P F ∧
    P ∈ state.tracked.fnsAffected ∧ F ∈ program.directCallees (state.tracked.bodies P)

section Turn

variable {program : Program Fn} {main : Fn} {env : Environment Fn} {order : DepthOrder Fn}
  {fnsToCheck : Finset Fn} {childF P F : Fn} {before : InlinerState Fn} {visit : VisitState Fn}
  {state state' : HoistState Fn} {seen : List Fn}

omit [DecidableEq Fn] in
/-- What is copied is called. -/
theorem CopiedFor.mem_callees {call : Inst Fn} {copied : List (Option Fn)}
    {body body' : List (BasicBlock Fn)} (h : CopiedFor call copied body body')
    (hF : F ∈ copied.filterMap program.definedCallee) : F ∈ program.directCallees body' := by
  obtain ⟨before, after, -, hcopied⟩ := h
  rw [direct_callees_eq, hcopied, List.filterMap_append, List.filterMap_append]
  exact List.mem_append_left _ (List.mem_append_right _ hF)

/-- A caller in which a function was inlined calls what it called besides the one call, and what is
copied. -/
theorem CopiedFor.mem_callees_iff {call : Inst Fn} {copied : List (Option Fn)}
    {body body' : List (BasicBlock Fn)} (h : CopiedFor call copied body body')
    (hnodup : (instructions body).Nodup) (hdirect : program.isDirectCall call = true)
    (hcalled : call.calledFunction = some childF) :
    childF ∈ program.directCallees body ∧ (F ∈ program.directCallees body' ↔
      F ∈ (program.directCallees body).erase childF ∨
        F ∈ copied.filterMap program.definedCallee) := by
  obtain ⟨earlier, later, hbefore, -, hafter⟩ := h.direct_callees hnodup hdirect hcalled
  have hperm : ((earlier ++ childF :: later).erase childF).Perm (earlier ++ later) := by
    have hmiddle := (@List.perm_middle _ childF earlier later).erase childF
    rwa [List.erase_cons_head] at hmiddle
  rw [hafter, hbefore, hperm.mem_iff]
  simp only [List.mem_append, List.mem_cons]
  tauto

/-- If no attempt fails, the function was inlined in all callers that were not affected. -/
theorem TriedIn.inlined_in (h : TriedIn program main order childF before fnsToCheck seen visit)
    (hall : ∀ attempt ∈ visit.attempts, false ∉ attempt.outcomes) (hP : P ∈ seen)
    (hcan : CanHoist order P childF) (hunaffected : P ∉ before.fnsAffected) :
    InlinedIn visit.attempts P := by
  obtain ⟨attempt, hin, hsame, hsome⟩ := h.tried P hP hcan hunaffected
  refine ⟨attempt, hin, hsame, ?_⟩
  obtain ⟨outcome, rest, houtcomes⟩ := List.exists_cons_of_ne_nil hsome
  have hfirst : outcome ∈ attempt.outcomes := houtcomes ▸ List.mem_cons_self
  cases outcome with
  | false => exact absurd hfirst (hall attempt hin)
  | true => exact hfirst

/-- What a turn leaves. -/
structure Turned (program : Program Fn) (main : Fn) (order : DepthOrder Fn) (childF : Fn)
    (state : HoistState Fn) (attempts : List (Attempt Fn)) (state' : HoistState Fn) : Prop where
  tracks : Tracks program main state'.tracked
  reached : ∀ P, InlinedIn attempts P →
    program.Reached main P ∧ P ∉ state.tracked.fnsAffected ∧ CanHoist order P childF
  all : childF ∉ state.fnsToAvoid → (∀ attempt ∈ attempts, false ∉ attempt.outcomes) →
    ∀ P, program.Reached main P → CanHoist order P childF → P ∉ state.tracked.fnsAffected →
    childF ∈ program.directCallees (state.tracked.bodies P) → InlinedIn attempts P
  affected : ∀ P, P ∈ state'.tracked.fnsAffected ↔
    P ∈ state.tracked.fnsAffected ∨ InlinedIn attempts P
  kept : ∀ P, ¬ InlinedIn attempts P → state'.tracked.bodies P = state.tracked.bodies P
  spliced : ∀ P, InlinedIn attempts P → ∃ call copied,
    program.isDirectCall call = true ∧ call.calledFunction = some childF ∧
      CopiedFor call copied (state.tracked.bodies P) (state'.tracked.bodies P)
  fnsToCheck : ∀ F, F ∈ state'.fnsToCheck ↔ F ∈ state.fnsToCheck ∧
    ¬ (F = childF ∧ childF ∉ state.fnsToAvoid ∧ ∀ attempt ∈ attempts, false ∉ attempt.outcomes)

/-- What visiting a function leaves. -/
theorem visit_fn_turned (henv : env.Documented) (htracks : Tracks program main state.tracked) :
    Turned program main order childF state (visitFn program.functions env order state childF).2
      (visitFn program.functions env order state childF).1 := by
  by_cases havoid : childF ∈ state.fnsToAvoid
  · have hnone : ∀ P, ¬ InlinedIn ([] : List (Attempt Fn)) P :=
      fun P ⟨_, hin, _⟩ => List.not_mem_nil hin
    unfold visitFn
    rw [if_pos havoid]
    exact ⟨htracks, fun P hP => absurd hP (hnone P), fun hnot => absurd havoid hnot,
      fun P => (or_iff_left (hnone P)).symm, fun _ _ => rfl, fun P hP => absurd hP (hnone P),
      fun F => (and_iff_left fun h => h.2.1 havoid).symm⟩
  obtain ⟨visit, htried, hattempts, htracked, hcheck⟩ :=
    @visit_fn_tried Fn _ main env order childF program henv state htracks havoid
  have hseen : ∀ P ∉ state.tracked.fnsAffected,
      (P ∈ program.functions.filter (· ∈ state.tracked.graph.parentFns childF) ↔
        program.Reached main P ∧ program.Calls P childF) := by
    intro P hunaffected
    rw [List.mem_filter, decide_eq_true_eq, htracks.mem_parents_iff hunaffected]
    exact and_iff_right (program.mem_functions P)
  rw [hattempts]
  refine ⟨htracked ▸ htried.tracks, fun P hP => ?_,
    fun _ hall P hP hcan hunaffected hcalled => ?_, fun P => ?_, fun P hP => ?_,
    fun P hP => ?_, fun F => ?_⟩
  · obtain ⟨attempt, hin, rfl, -⟩ := hP
    obtain ⟨hparent, hcan, hunaffected⟩ := htried.eligible attempt hin
    obtain ⟨hreached, hcalls⟩ := (hseen _ hunaffected).mp hparent
    exact ⟨hreached, hunaffected, hcan⟩
  · rw [htracks.unaffected P hunaffected] at hcalled
    exact htried.inlined_in hall ((hseen P hunaffected).mpr ⟨hP, hcalled⟩) hcan hunaffected
  · rw [htracked]
    exact htried.affected P
  · rw [htracked]
    exact htried.kept P hP
  · rw [htracked]
    exact htried.spliced P hP
  · rw [hcheck, ← htried.inParents]
    split_ifs with hinParents
    · rw [Finset.mem_erase, and_comm]
      simp [havoid, hinParents]
    · simp [hinParents]

variable {attempts : List (Attempt Fn)}

/-- Nothing is inlined in a caller that was affected before the turn. -/
theorem Turned.not_inlined_in (h : Turned program main order childF state attempts state')
    (haffected : P ∈ state.tracked.fnsAffected) : ¬ InlinedIn attempts P :=
  fun hinlined => (h.reached P hinlined).2.1 haffected

/-- A caller in which the function was inlined called it. It calls what it called besides the one
call, and what is copied. -/
theorem Turned.called (h : Turned program main order childF state attempts state')
    (htracks : Tracks program main state.tracked) (hinlined : InlinedIn attempts P) :
    childF ∈ program.directCallees (state.tracked.bodies P) ∧
      (F ∈ program.directCallees (state'.tracked.bodies P) ↔
        F ∈ (program.directCallees (state.tracked.bodies P)).erase childF ∨
          Visit.CopiesCall program ⟨state, childF, attempts, state'⟩ P F) := by
  obtain ⟨call, copied, hdirect, hcalled, hcopied⟩ := h.spliced P hinlined
  have hnodup : (instructions (state.tracked.bodies P)).Nodup := by
    rw [htracks.unaffected P (h.reached P hinlined).2.1]
    exact program.nodup_instructions P
  obtain ⟨hmem, hiff⟩ := @CopiedFor.mem_callees_iff Fn _ program childF F call copied _ _ hcopied
    hnodup hdirect hcalled
  refine ⟨hmem, fun hin => ?_, fun hcases => ?_⟩
  · exact (hiff.mp hin).imp_right fun hF => ⟨call, copied, hcalled, hcopied, hF⟩
  · rcases hcases with hrest | ⟨call', copied', -, hcopied', hF⟩
    · exact hiff.mpr (.inl hrest)
    · exact hcopied'.mem_callees hF

/-- A turn that finds what it should leaves no call to an erased function. -/
theorem Turned.hoisted_away (h : Turned program main order childF state attempts state')
    (htracks : Tracks program main state.tracked) (hbefore : HoistedAway program main order
      fnsToCheck state)
    (hcomplete : Visit.HoistsCompletely program main order fnsToCheck
      ⟨state, childF, attempts, state'⟩) :
    HoistedAway program main order fnsToCheck state' := by
  intro F hF herased P hP hcan hcalled
  rw [h.fnsToCheck, not_and, not_not] at herased
  by_cases hinlined : InlinedIn attempts P
  · obtain ⟨hcaller, hiff⟩ := @Turned.called Fn _ program main order childF P F state state'
      attempts h htracks hinlined
    by_cases hgone : F ∈ state.fnsToCheck
    · -- The turn erases the function: the caller called it once, and it is inlined there.
      obtain ⟨rfl, havoid, hall⟩ := herased hgone
      obtain ⟨-, hcount, hself⟩ := hcomplete.erased hgone havoid hall P hP hcan hcaller
      rcases hiff.mp hcalled with hrest | hcopied
      · have hnone := List.count_erase_self (a := F)
          (l := program.directCallees (state.tracked.bodies P))
        rw [hcount] at hnone
        exact absurd hrest (List.count_eq_zero.mp hnone)
      · exact hself hcopied
    · rcases hiff.mp hcalled with hrest | hcopied
      · exact hbefore F hF hgone P hP hcan (List.mem_of_mem_erase hrest)
      · exact hcomplete.added P hinlined F hF hgone hcan hcopied
  · rw [h.kept P hinlined] at hcalled
    by_cases hgone : F ∈ state.fnsToCheck
    · obtain ⟨rfl, havoid, hall⟩ := herased hgone
      obtain ⟨hunaffected, -⟩ := hcomplete.erased hgone havoid hall P hP hcan hcalled
      exact hinlined (h.all havoid hall P hP hcan hunaffected hcalled)
    · exact hbefore F hF hgone P hP hcan hcalled

/-- A call to an erased function stays in a function into which nothing is inlined any more. -/
theorem Turned.left_behind (h : Turned program main order childF state attempts state')
    (hbefore : LeftBehind program main order fnsToCheck state) :
    LeftBehind program main order fnsToCheck state' := by
  obtain ⟨F, hF, hgone, P, hP, hcan, haffected, hcalled⟩ := hbefore
  refine ⟨F, hF, fun hin => hgone ((h.fnsToCheck F).mp hin).1, P, hP, hcan,
    (h.affected P).mpr (.inl haffected), ?_⟩
  rwa [h.kept P (h.not_inlined_in haffected)]

/-- A turn that does not find what it should leaves a call to an erased function. -/
theorem Turned.left_behind_of_not (h : Turned program main order childF state attempts state')
    (htracks : Tracks program main state.tracked) (hsub : state.fnsToCheck ⊆ fnsToCheck)
    (hcomplete : ¬ Visit.HoistsCompletely program main order fnsToCheck
      ⟨state, childF, attempts, state'⟩) :
    LeftBehind program main order fnsToCheck state' := by
  by_contra hnone
  have hleft : ∀ F ∈ fnsToCheck, F ∉ state'.fnsToCheck → ∀ P, program.Reached main P →
      CanHoist order P F → P ∈ state'.tracked.fnsAffected →
      F ∉ program.directCallees (state'.tracked.bodies P) :=
    fun F hF hgone P hP hcan haffected hcalled =>
      hnone ⟨F, hF, hgone, P, hP, hcan, haffected, hcalled⟩
  refine hcomplete ⟨fun hcheck havoid hall P hP hcan hcalled => ?_, fun P hP F hF hgone hcan => ?_⟩
  · have hgone : childF ∉ state'.fnsToCheck := fun hin =>
      ((h.fnsToCheck childF).mp hin).2 ⟨rfl, havoid, hall⟩
    -- A caller that was changed before keeps its call of the function that is erased.
    have hunaffected : P ∉ state.tracked.fnsAffected := by
      intro haffected
      refine hleft childF (hsub hcheck) hgone P hP hcan ((h.affected P).mpr (.inl haffected)) ?_
      rwa [h.kept P (h.not_inlined_in haffected)]
    have hinlined := h.all havoid hall P hP hcan hunaffected hcalled
    have hafter := hleft childF (hsub hcheck) hgone P hP hcan ((h.affected P).mpr (.inr hinlined))
    rw [(h.called htracks hinlined).2, not_or] at hafter
    refine ⟨hunaffected, ?_, hafter.2⟩
    have hcount := List.count_eq_zero.mpr hafter.1
    rw [List.count_erase_self] at hcount
    have hpos : 0 < (program.directCallees (state.tracked.bodies P)).count childF :=
      List.count_pos_iff.mpr hcalled
    show (program.directCallees (state.tracked.bodies P)).count childF = 1
    omega
  · have hafter := hleft F hF (fun hin => hgone ((h.fnsToCheck F).mp hin).1) P
      (h.reached P hP).1 hcan ((h.affected P).mpr (.inr hP))
    rw [(h.called htracks hP).2, not_or] at hafter
    exact hafter.2

/-- What holds of the turns so far: they all found what they should and no call to an erased
function is left, or some turn did not and a call is left. -/
structure HoistInv (program : Program Fn) (main : Fn) (order : DepthOrder Fn)
    (fnsToCheck : Finset Fn) (run : HoistState Fn × List (Visit Fn)) : Prop where
  tracks : Tracks program main run.1.tracked
  sub : run.1.fnsToCheck ⊆ fnsToCheck
  split : (∀ visit ∈ run.2, visit.HoistsCompletely program main order fnsToCheck) ∧
      HoistedAway program main order fnsToCheck run.1 ∨
    (∃ visit ∈ run.2, ¬ visit.HoistsCompletely program main order fnsToCheck) ∧
      LeftBehind program main order fnsToCheck run.1

/-- A turn of the loop keeps the invariant. -/
theorem HoistInv.turn {run run' : HoistState Fn × List (Visit Fn)}
    (h : HoistInv program main order fnsToCheck run) (henv : env.Documented)
    (hturn : Turn (takeNextFn program.functions env order) run run') :
    HoistInv program main order fnsToCheck run' := by
  unfold Turn takeNextFn at hturn
  cases hnext : run.1.orderedFns[run.1.fnIndex]? with
  | none => simp [hnext] at hturn
  | some childF =>
      rw [hnext] at hturn
      dsimp only at hturn
      cases hturn
      have hvisit := @visit_fn_turned Fn _ program main env order childF
        { run.1 with fnIndex := run.1.fnIndex + 1 } henv h.tracks
      generalize visitFn program.functions env order { run.1 with fnIndex := run.1.fnIndex + 1 }
        childF = result at hvisit
      obtain ⟨state', attempts⟩ := result
      have hturned : Turned program main order childF run.1 attempts state' :=
        ⟨hvisit.tracks, hvisit.reached, hvisit.all, hvisit.affected, hvisit.kept,
          hvisit.spliced, hvisit.fnsToCheck⟩
      refine ⟨hturned.tracks, fun F hF => h.sub ((hturned.fnsToCheck F).mp hF).1, ?_⟩
      dsimp only
      simp only [List.mem_append, List.mem_singleton, or_imp, forall_and, forall_eq]
      rcases h.split with ⟨hall, haway⟩ | ⟨⟨visit, hvisit, hnot⟩, hleft⟩
      · by_cases hcomplete : Visit.HoistsCompletely program main order fnsToCheck
            ⟨run.1, childF, attempts, state'⟩
        · exact .inl ⟨⟨hall, hcomplete⟩, hturned.hoisted_away h.tracks haway hcomplete⟩
        · exact .inr ⟨⟨_, .inr rfl, hcomplete⟩,
            hturned.left_behind_of_not h.tracks h.sub hcomplete⟩
      · exact .inr ⟨⟨visit, .inl hvisit, hnot⟩, hturned.left_behind hleft⟩

end Turn

/-- When the pass ends, no function that is not deeper than an erased function calls it, entrances
and the function itself aside, exactly when every turn finds what it should. -/
theorem erased_completely_iff (program : Program Fn) (main : Fn) {env : Environment Fn}
    (henv : env.Documented) (order : DepthOrder Fn)
    (sortInDepthOrderFns : DepthSort order.fnOrder) (fnsToCheck : Finset Fn)
    {tracked : InlinerState Fn} (htracks : Tracks program main tracked) :
    ∃ last visits,
      (∀ fuel ≥ program.functions.length, inlineFnsOfLoopsToCGRoot program.functions env order
        sortInDepthOrderFns fnsToCheck tracked fuel = some (last, visits)) ∧
      ((∀ F ∈ fnsToCheck, F ∉ last.fnsToCheck → ∀ P, program.Reached main P → P ≠ F →
          order.fnOrder P ≤ order.fnOrder F → F ∉ order.recursiveChainEntranceFns →
          F ∉ program.directCallees (last.tracked.bodies P)) ↔
        ∀ visit ∈ visits, visit.HoistsCompletely program main order fnsToCheck) := by
  obtain ⟨last, visits, hrun, -, hinv, -⟩ := exists_hoisting_end program env sortInDepthOrderFns
    fnsToCheck tracked (HoistInv program main order fnsToCheck)
    (fun run run' h hturn => h.turn henv hturn)
    ⟨htracks, Finset.Subset.refl _, .inl ⟨fun _ hin => (List.not_mem_nil hin).elim,
      fun F hF hgone => absurd hF hgone⟩⟩
  refine ⟨last, visits, hrun, ?_⟩
  rcases hinv.split with ⟨hall, haway⟩ | ⟨⟨visit, hvisit, hnot⟩, hleft⟩
  · exact iff_of_true (fun F hF hgone P hP hne hle hentrance =>
      haway F hF hgone P hP ⟨hentrance, hne, hle⟩) hall
  · obtain ⟨F, hF, hgone, P, hP, ⟨hentrance, hne, hle⟩, -, hcalled⟩ := hleft
    exact iff_of_false (fun h => h F hF hgone P hP hne hle hentrance hcalled)
      fun h => hnot (h visit hvisit)

namespace Chain

/-- The maps describe the chain before anything is inlined. -/
theorem collected_tracks : Tracks program .main collected := by
  obtain ⟨done, other, hother, hdone, hcollect⟩ := exists_collect_fn_graph program .main
  have hgraph : collectFnGraph program .main 3 = some graph := rfl
  obtain rfl : graph = other := Option.some.inj (hgraph.symm.trans (hcollect 3 (by decide)))
  exact tracks_collected hother hdone fun _ => none

/-- The pass that starts with the outer function. -/
def hoistOuter : Option (HoistState Chain × List (Visit Chain)) :=
  inlineFnsOfLoopsToCGRoot program.functions .splicing order (.stable order.fnOrder) {.outer}
    collected 3

/-- The outer function is erased, and every turn of the pass finds what it should. -/
theorem outer_hoisted_completely :
    hoistOuter.map (fun run => run.1.fnsToCheck) = some ∅ ∧
    ∃ last visits, hoistOuter = some (last, visits) ∧
      ∀ visit ∈ visits, visit.HoistsCompletely program .main order {.outer} := by
  obtain ⟨last, visits, hrun, hiff⟩ := erased_completely_iff program .main
    (Environment.copying_documented id) order (.stable order.fnOrder) {.outer} collected_tracks
  have hsome : hoistOuter = some (last, visits) := hrun 3 (by decide)
  have hcalled : hoistOuter.map (fun run => program.directCallees (run.1.tracked.bodies .main)) =
      some [.inner, .inner] := by decide
  rw [hsome, Option.map_some, Option.some.injEq] at hcalled
  dsimp only at hcalled
  refine ⟨by decide, last, visits, hsome, hiff.mp ?_⟩
  intro F hF _ P _ hne hle _
  obtain rfl := Finset.mem_singleton.mp hF
  cases P with
  | main =>
      rw [hcalled]
      decide
  | outer => exact absurd rfl hne
  | inner => exact absurd hle (by decide)

/-- The outer function calls the inner one twice. One of the calls is inlined and the inner function
is erased, but the outer function still calls it at the end. -/
theorem inner_erased_but_called :
    hoistInner.map (fun run => run.1.fnsToCheck) = some ∅ ∧
    hoistInner.map (fun run => program.directCallees (run.1.tracked.bodies .outer)) =
      some [.inner] ∧
    ¬ ∀ run, hoistInner = some run → ∀ F ∈ ({.inner} : Finset Chain), F ∉ run.1.fnsToCheck →
      ∀ P, program.Reached .main P → P ≠ F → order.fnOrder P ≤ order.fnOrder F →
        F ∉ order.recursiveChainEntranceFns →
        F ∉ program.directCallees (run.1.tracked.bodies P) := by
  have herased : hoistInner.map (fun run => run.1.fnsToCheck) = some ∅ := by decide
  have hcalled : hoistInner.map (fun run => program.directCallees (run.1.tracked.bodies .outer)) =
      some [.inner] := by decide
  refine ⟨herased, hcalled, fun h => ?_⟩
  obtain ⟨run, hrun, hbody⟩ := Option.map_eq_some_iff.mp hcalled
  rw [hrun, Option.map_some, Option.some.injEq] at herased
  have houter : program.Reached .main .outer := .single (by decide : program.Calls .main .outer)
  refine h run hrun .inner (by decide) (by rw [herased]; decide) .outer houter (by decide)
    (by decide) (by decide) ?_
  rw [hbody]
  decide

end Chain

end Gino.Inliner
