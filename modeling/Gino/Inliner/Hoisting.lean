import Gino.Inliner.DepthOrder
import Gino.Inliner.InlineCall
import Gino.Machine.Loop
import Mathlib.Data.Finset.Lattice.Basic
import Mathlib.Data.List.Sort

/-!
# Hoisting loops to main

`Inliner::inlineFnsOfLoopsToCGRoot` takes functions from a vector, the deepest first, and inlines
each in the functions that call it. A caller is inserted in the vector while an index runs through
it. The search for the place of the caller never moves the index of insertion, so the caller comes
first in the vector, is never taken, and moves a function that was taken back to the index
(`hoisting_takes_each_once_iff`).
-/

namespace Gino.Inliner

open Machine

/-- A caller in which a function was tried, with the outcomes of the attempts on its calls. -/
structure Attempt (Fn : Type) where
  parentF : Fn
  outcomes : List Bool

/-- The variables of the pass. -/
structure HoistState (Fn : Type) where
  tracked : InlinerState Fn
  fnsToCheck : Finset Fn
  orderedFns : List Fn
  fnIndex : Nat
  fnsWillCheck : Finset Fn
  fnsToAvoid : Finset Fn
  inlined : Bool

/-- The variables while a function is inlined in its callers, with the attempts for it so far. -/
structure VisitState (Fn : Type) extends HoistState Fn where
  inlinedInParents : Bool
  attempts : List (Attempt Fn)

/-- The variables while the calls of one caller are tried, with the outcomes so far. -/
structure CallsState (Fn : Type) where
  tracked : InlinerState Fn
  inlined : Bool
  inlinedCalls : Bool
  outcomes : List Bool

/-- One turn of the loop: the function that is taken, the attempts, and the states before and after.
-/
structure Visit (Fn : Type) where
  before : HoistState Fn
  childF : Fn
  attempts : List (Attempt Fn)
  after : HoistState Fn

/-- A sort of functions by decreasing numbers, which may leave functions with the same number in any
order. -/
structure DepthSort {Fn : Type} (fnOrder : Fn → Nat) where
  sort : List Fn → List Fn
  perm : ∀ fns, (sort fns).Perm fns
  sorted : ∀ fns, (sort fns).Pairwise fun earlier later => fnOrder later ≤ fnOrder earlier

variable {Fn : Type} [DecidableEq Fn]

/-- The number of a function, which is zero if it has none. -/
def DepthOrder.fnOrder (order : DepthOrder Fn) (F : Fn) : Nat := (order.fnOrders F).getD 0

/-- Try to inline the calls of a caller to a function, until something was inlined. -/
def inlineCalls (env : Environment Fn) (recursiveChainEntranceFns : Finset Fn)
    (parentF childF : Fn) : List (Inst Fn) → CallsState Fn → CallsState Fn
  | [], state => state
  | call :: rest, state =>
      if call.calledFunction ≠ some childF then
        inlineCalls env recursiveChainEntranceFns parentF childF rest state
      else
        let (inlinedCall, tracked) :=
          inlineFunctionCall env recursiveChainEntranceFns state.tracked parentF childF call
        let state' : CallsState Fn :=
          ⟨tracked, state.inlined || inlinedCall, state.inlinedCalls && inlinedCall,
            state.outcomes ++ [inlinedCall]⟩
        if state'.inlined then state'
        else inlineCalls env recursiveChainEntranceFns parentF childF rest state'

/-- The search for the place of a caller among the functions of the vector. -/
def searchInsertIndex (fnOrder : Fn → Nat) (parentFnOrder : Nat) (insertIndex : Nat) :
    List Fn → Nat
  | [] => insertIndex
  | currentFunction :: rest =>
      if fnOrder currentFunction > parentFnOrder then insertIndex
      else searchInsertIndex fnOrder parentFnOrder insertIndex rest

/-- Inline a function in one of its callers. -/
def hoistIntoParent (env : Environment Fn) (order : DepthOrder Fn) (childF : Fn)
    (visit : VisitState Fn) (parentF : Fn) : VisitState Fn :=
  if parentF ∈ visit.tracked.fnsAffected then visit
  else if ¬ canInlineWithoutRecursiveLoop order.recursiveChainEntranceFns childF then visit
  else if parentF = childF then visit
  else if order.fnOrder parentF > order.fnOrder childF then visit
  else
    let cachedCalls := (visit.tracked.graph.orderedCalls parentF).dedup.insertionSort
      fun call later => call.address ≤ later.address
    let calls := inlineCalls env order.recursiveChainEntranceFns parentF childF cachedCalls
      ⟨visit.tracked, visit.inlined, true, []⟩
    let visit' : VisitState Fn :=
      { visit with
        tracked := calls.tracked
        inlined := calls.inlined
        inlinedInParents := visit.inlinedInParents && calls.inlinedCalls
        attempts := visit.attempts ++ [⟨parentF, calls.outcomes⟩] }
    if ¬ calls.inlinedCalls then
      { visit' with fnsToAvoid := insert parentF visit.fnsToAvoid }
    else if parentF ∈ visit.fnsWillCheck then visit'
    else
      let insertIndex :=
        searchInsertIndex order.fnOrder (order.fnOrder parentF) 0 visit.orderedFns
      { visit' with
        fnsWillCheck := insert parentF visit.fnsWillCheck
        orderedFns := visit.orderedFns.insertIdx insertIndex parentF }

/-- Inline a function in its callers, or avoid them if the function is avoided. -/
def visitFn (functions : List Fn) (env : Environment Fn) (order : DepthOrder Fn)
    (state : HoistState Fn) (childF : Fn) : HoistState Fn × List (Attempt Fn) :=
  if childF ∈ state.fnsToAvoid then
    ({ state with fnsToAvoid := state.fnsToAvoid ∪ state.tracked.graph.parentFns childF }, [])
  else
    let parents := functions.filter (· ∈ state.tracked.graph.parentFns childF)
    let visit := parents.foldl (hoistIntoParent env order childF) ⟨state, true, []⟩
    (if visit.inlinedInParents then
        { visit.toHoistState with fnsToCheck := visit.fnsToCheck.erase childF }
      else visit.toHoistState,
      visit.attempts)

/-- Take the next function of the vector, if there is one. -/
def takeNextFn (functions : List Fn) (env : Environment Fn) (order : DepthOrder Fn)
    (run : HoistState Fn × List (Visit Fn)) : Option (HoistState Fn × List (Visit Fn)) :=
  match run.1.orderedFns[run.1.fnIndex]? with
  | none => none
  | some childF =>
      let (next, attempts) :=
        visitFn functions env order { run.1 with fnIndex := run.1.fnIndex + 1 } childF
      some (next, run.2 ++ [⟨run.1, childF, attempts, next⟩])

/-- The state before the first function is taken. -/
def HoistState.start {order : DepthOrder Fn} (functions : List Fn)
    (sortInDepthOrderFns : DepthSort order.fnOrder) (fnsToCheck : Finset Fn)
    (tracked : InlinerState Fn) : HoistState Fn where
  tracked := tracked
  fnsToCheck := fnsToCheck
  orderedFns := sortInDepthOrderFns.sort (functions.filter (· ∈ fnsToCheck))
  fnIndex := 0
  fnsWillCheck := fnsToCheck
  fnsToAvoid := ∅
  inlined := false

/-- The pass, with the turns of its loop. It gives nothing where the fuel does not suffice. -/
def inlineFnsOfLoopsToCGRoot (functions : List Fn) (env : Environment Fn) (order : DepthOrder Fn)
    (sortInDepthOrderFns : DepthSort order.fnOrder) (fnsToCheck : Finset Fn)
    (tracked : InlinerState Fn) (fuel : Nat) : Option (HoistState Fn × List (Visit Fn)) :=
  loop (takeNextFn functions env order) fuel
    (HoistState.start functions sortInDepthOrderFns fnsToCheck tracked, [])

/-! ## What a turn does -/

section Turns

variable {env : Environment Fn} {order : DepthOrder Fn} {parentF childF : Fn}

/-- A function may be inlined in a caller that is no deeper. -/
def CanHoist (order : DepthOrder Fn) (parentF childF : Fn) : Prop :=
  childF ∉ order.recursiveChainEntranceFns ∧ parentF ≠ childF ∧
    order.fnOrder parentF ≤ order.fnOrder childF

/-- Some attempt succeeded: a call of the caller is inlined after some number of attempts. Otherwise
nothing but the number of attempts changes. -/
def InlinesOne (env : Environment Fn) (order : DepthOrder Fn) (parentF childF : Fn)
    (calls : List (Inst Fn)) (outcomes : List Bool) (tracked tracked' : InlinerState Fn) : Prop :=
  ∃ attempts,
    (true ∉ outcomes ∧ tracked' = { tracked with attempts := attempts }) ∨
    (true ∈ outcomes ∧ ∃ call ∈ calls, call.calledFunction = some childF ∧
      InlinesCall env order.recursiveChainEntranceFns { tracked with attempts := attempts }
        parentF childF call tracked')

/-- The call that is inlined is one of more calls. -/
theorem InlinesOne.mono {calls more : List (Inst Fn)} {outcomes : List Bool}
    {tracked tracked' : InlinerState Fn} (hsub : calls ⊆ more)
    (h : InlinesOne env order parentF childF calls outcomes tracked tracked') :
    InlinesOne env order parentF childF more outcomes tracked tracked' := by
  obtain ⟨attempts, hfailed | ⟨hsome, call, hin, hone⟩⟩ := h
  · exact ⟨attempts, .inl hfailed⟩
  · exact ⟨attempts, .inr ⟨hsome, call, hsub hin, hone⟩⟩

/-- What trying the calls of a caller does. -/
theorem inline_calls_cases (calls : List (Inst Fn)) (state : CallsState Fn) :
    ∃ outcomes,
      (inlineCalls env order.recursiveChainEntranceFns parentF childF calls state).outcomes =
        state.outcomes ++ outcomes ∧
      (inlineCalls env order.recursiveChainEntranceFns parentF childF calls state).inlinedCalls =
        (state.inlinedCalls && outcomes.all id) ∧
      (outcomes = [] ↔ ∀ call ∈ calls, call.calledFunction ≠ some childF) ∧
      InlinesOne env order parentF childF calls outcomes state.tracked
        (inlineCalls env order.recursiveChainEntranceFns parentF childF calls state).tracked := by
  induction calls generalizing state with
  | nil =>
      refine ⟨[], (List.append_nil _).symm, (Bool.and_true _).symm, by simp, state.tracked.attempts,
        .inl ⟨List.not_mem_nil, rfl⟩⟩
  | cons call rest ih =>
      unfold inlineCalls
      split_ifs with hcalled
      · obtain ⟨outcomes, houtcomes, hinlined, hnone, hone⟩ := ih state
        refine ⟨outcomes, houtcomes, hinlined, ?_, hone.mono (List.subset_cons_self _ _)⟩
        rw [hnone, List.forall_mem_cons]
        exact (and_iff_right hcalled).symm
      · rw [not_not] at hcalled
        cases hattempt : inlineFunctionCall env order.recursiveChainEntranceFns state.tracked
            parentF childF call with
        | mk inlinedCall tracked =>
            rcases inline_function_call_cases hattempt with
              ⟨rfl, hinlines⟩ | ⟨rfl, attempts, rfl⟩
            · -- The attempt succeeds and ends the loop.
              dsimp only
              rw [Bool.or_true, if_pos rfl]
              exact ⟨[true], rfl, rfl, by simp [hcalled], state.tracked.attempts,
                .inr ⟨List.mem_singleton_self _, call, List.mem_cons_self, hcalled, hinlines⟩⟩
            · dsimp only
              rw [Bool.or_false, Bool.and_false]
              split_ifs with hinlined
              · -- The attempt fails, but an earlier success ends the loop.
                exact ⟨[false], rfl, (Bool.and_false _).symm, by simp [hcalled], attempts,
                  .inl ⟨by simp, rfl⟩⟩
              · obtain ⟨outcomes, houtcomes, hinlinedCalls, -, attempts', hone⟩ := ih
                  ⟨{ state.tracked with attempts := attempts }, state.inlined, false,
                    state.outcomes ++ [false]⟩
                refine ⟨false :: outcomes, houtcomes.trans (List.append_assoc _ _ _), ?_,
                  by simp [hcalled], attempts', ?_⟩
                · rw [hinlinedCalls]
                  simp
                · rcases hone with ⟨hnone, hfailed⟩ | ⟨hsome, call', hin, hone⟩
                  · exact .inl ⟨by simpa using hnone, hfailed⟩
                  · exact .inr ⟨List.mem_cons_of_mem _ hsome, call',
                      List.mem_cons_of_mem _ hin, hone⟩

omit [DecidableEq Fn] in
/-- The search never moves the index of insertion. -/
theorem search_insert_index_eq (fnOrder : Fn → Nat) (parentFnOrder insertIndex : Nat)
    (fns : List Fn) : searchInsertIndex fnOrder parentFnOrder insertIndex fns = insertIndex := by
  induction fns with
  | nil => rfl
  | cons currentFunction rest ih =>
      unfold searchInsertIndex
      split_ifs
      · rfl
      · exact ih

/-- What trying the calls of a caller leaves: it is inserted at the front of the vector if no
attempt fails and it was not in the vector. -/
structure HoistsInto (env : Environment Fn) (order : DepthOrder Fn) (childF parentF : Fn)
    (outcomes : List Bool) (visit visit' : VisitState Fn) : Prop where
  eligible : CanHoist order parentF childF
  unaffected : parentF ∉ visit.tracked.fnsAffected
  noCalls : outcomes = [] ↔
    ∀ call ∈ visit.tracked.graph.orderedCalls parentF, call.calledFunction ≠ some childF
  inlines : InlinesOne env order parentF childF (visit.tracked.graph.orderedCalls parentF) outcomes
    visit.tracked visit'.tracked
  attempts : visit'.attempts = visit.attempts ++ [⟨parentF, outcomes⟩]
  inParents : visit'.inlinedInParents = (visit.inlinedInParents && outcomes.all id)
  fnsToCheck : visit'.fnsToCheck = visit.fnsToCheck
  fnIndex : visit'.fnIndex = visit.fnIndex
  inserted : false ∉ outcomes → parentF ∉ visit.fnsWillCheck →
    visit'.orderedFns = parentF :: visit.orderedFns ∧
      visit'.fnsWillCheck = insert parentF visit.fnsWillCheck
  kept : false ∈ outcomes ∨ parentF ∈ visit.fnsWillCheck →
    visit'.orderedFns = visit.orderedFns ∧ visit'.fnsWillCheck = visit.fnsWillCheck

/-- A caller is left alone, or its calls are tried. -/
theorem hoist_into_parent_cases (visit : VisitState Fn) :
    ¬ (CanHoist order parentF childF ∧ parentF ∉ visit.tracked.fnsAffected) ∧
        hoistIntoParent env order childF visit parentF = visit ∨
      ∃ outcomes, HoistsInto env order childF parentF outcomes visit
        (hoistIntoParent env order childF visit parentF) := by
  unfold hoistIntoParent canInlineWithoutRecursiveLoop
  by_cases haffected : parentF ∈ visit.tracked.fnsAffected
  · exact .inl ⟨fun h => h.2 haffected, if_pos haffected⟩
  rw [if_neg haffected]
  by_cases hentrance : childF ∈ order.recursiveChainEntranceFns
  · exact .inl ⟨fun h => h.1.1 hentrance, if_pos (by simpa using hentrance)⟩
  rw [if_neg (by simpa using hentrance)]
  by_cases hself : parentF = childF
  · exact .inl ⟨fun h => h.1.2.1 hself, if_pos hself⟩
  rw [if_neg hself]
  by_cases hdeeper : order.fnOrder parentF > order.fnOrder childF
  · exact .inl ⟨fun h => by have := h.1.2.2; omega, if_pos hdeeper⟩
  rw [if_neg hdeeper]
  right
  have heligible : CanHoist order parentF childF := ⟨hentrance, hself, by omega⟩
  dsimp only
  obtain ⟨outcomes, houtcomes, hinlinedCalls, hnone, hone⟩ := @inline_calls_cases Fn _ env order
    parentF childF ((visit.tracked.graph.orderedCalls parentF).dedup.insertionSort
      fun call later => call.address ≤ later.address) ⟨visit.tracked, visit.inlined, true, []⟩
  rw [List.nil_append] at houtcomes
  rw [Bool.true_and] at hinlinedCalls
  simp only [List.mem_insertionSort, List.mem_dedup] at hnone
  have hsub : (visit.tracked.graph.orderedCalls parentF).dedup.insertionSort
      (fun call later => call.address ≤ later.address) ⊆ visit.tracked.graph.orderedCalls parentF :=
    fun call hcall => List.mem_dedup.mp ((List.mem_insertionSort _).mp hcall)
  have hall : outcomes.all id = true ↔ false ∉ outcomes := by
    simp [List.all_eq_true]
  refine ⟨outcomes, ?_⟩
  rw [houtcomes, hinlinedCalls]
  by_cases hfailed : false ∈ outcomes
  · rw [if_pos fun h => hall.mp h hfailed]
    exact ⟨heligible, haffected, hnone, hone.mono hsub, rfl, rfl, rfl, rfl,
      fun hinserted => absurd hfailed hinserted, fun _ => ⟨rfl, rfl⟩⟩
  rw [if_neg (not_not.mpr (hall.mpr hfailed))]
  by_cases hinside : parentF ∈ visit.fnsWillCheck
  · rw [if_pos hinside]
    exact ⟨heligible, haffected, hnone, hone.mono hsub, rfl, rfl, rfl, rfl,
      fun _ hnew => absurd hinside hnew, fun _ => ⟨rfl, rfl⟩⟩
  · rw [if_neg hinside, search_insert_index_eq]
    exact ⟨heligible, haffected, hnone, hone.mono hsub, rfl, rfl, rfl, rfl, fun _ _ => ⟨rfl, rfl⟩,
      fun hkept => (hkept.elim hfailed hinside).elim⟩

end Turns

/-! ## Which functions are taken -/

section Schedule

variable {env : Environment Fn} {order : DepthOrder Fn} {parentF childF : Fn}
  {initial taken : List Fn} {attempts : List (Attempt Fn)} {state : HoistState Fn}

/-- Some function that is not listed had a function inlined without a failing attempt. -/
def Hoisted (initial : List Fn) (attempts : List (Attempt Fn)) : Prop :=
  ∃ attempt ∈ attempts, attempt.parentF ∉ initial ∧ false ∉ attempt.outcomes

/-- What holds of the vector. As long as no function outside the initial ones was inserted, those
before the index are the ones that were taken. Afterwards the first one is not taken any more. -/
structure Scheduled (initial taken : List Fn) (attempts : List (Attempt Fn))
    (state : HoistState Fn) : Prop where
  nodup : state.orderedFns.Nodup
  willCheck : ∀ F, F ∈ state.fnsWillCheck ↔ F ∈ state.orderedFns
  initial_sub : initial ⊆ state.orderedFns
  taken_sub : taken ⊆ state.orderedFns
  kept : ¬ Hoisted initial attempts →
    state.orderedFns = initial ∧ taken = initial.take state.fnIndex
  lost : Hoisted initial attempts →
    0 < state.fnIndex ∧ ∃ first rest, state.orderedFns = first :: rest ∧ first ∉ taken

omit [DecidableEq Fn] in
/-- Functions had a function inlined before, or in the last attempts. -/
theorem hoisted_append {attempt : Attempt Fn} :
    Hoisted initial (attempts ++ [attempt]) ↔
      Hoisted initial attempts ∨ attempt.parentF ∉ initial ∧ false ∉ attempt.outcomes := by
  simp [Hoisted, or_and_right, exists_or]

/-- Trying one caller keeps the schedule. -/
theorem Scheduled.hoist_into_parent {visit : VisitState Fn}
    (h : Scheduled initial taken (attempts ++ visit.attempts) visit.toHoistState)
    (hindex : 0 < visit.fnIndex) :
    Scheduled initial taken
      (attempts ++ (hoistIntoParent env order childF visit parentF).attempts)
      (hoistIntoParent env order childF visit parentF).toHoistState ∧
    (hoistIntoParent env order childF visit parentF).fnIndex = visit.fnIndex := by
  rcases @hoist_into_parent_cases Fn _ env order parentF childF visit with
    ⟨-, hsame⟩ | ⟨outcomes, hinto⟩
  · rw [hsame]
    exact ⟨h, rfl⟩
  refine ⟨?_, hinto.fnIndex⟩
  rw [hinto.attempts, ← List.append_assoc]
  by_cases hinserted : false ∉ outcomes ∧ parentF ∉ visit.fnsWillCheck
  · -- The caller comes first in the vector, before all functions that were taken.
    obtain ⟨hfns, hwill⟩ := hinto.inserted hinserted.1 hinserted.2
    have hnew : parentF ∉ visit.orderedFns := fun hin => hinserted.2 ((h.willCheck _).mpr hin)
    have hhoisted : Hoisted initial (attempts ++ visit.attempts ++ [⟨parentF, outcomes⟩]) :=
      hoisted_append.mpr (.inr ⟨fun hin => hnew (h.initial_sub hin), hinserted.1⟩)
    refine ⟨?_, fun F => ?_, ?_, ?_, fun hnone => absurd hhoisted hnone, fun _ => ⟨?_, ?_⟩⟩
    · rw [hfns]
      exact List.nodup_cons.mpr ⟨hnew, h.nodup⟩
    · rw [hwill, hfns, Finset.mem_insert, h.willCheck, List.mem_cons]
    · rw [hfns]
      exact List.subset_cons_of_subset _ h.initial_sub
    · rw [hfns]
      exact List.subset_cons_of_subset _ h.taken_sub
    · rw [hinto.fnIndex]
      exact hindex
    · exact ⟨parentF, visit.orderedFns, hfns, fun hin => hnew (h.taken_sub hin)⟩
  · rw [not_and_or, not_not, not_not] at hinserted
    obtain ⟨hfns, hwill⟩ := hinto.kept hinserted
    have hsame : Hoisted initial (attempts ++ visit.attempts ++ [⟨parentF, outcomes⟩]) ↔
        Hoisted initial (attempts ++ visit.attempts) := by
      rw [hoisted_append, or_iff_left_iff_imp]
      intro ⟨houtside, hall⟩
      by_contra hnone
      have hin := (h.willCheck _).mp (hinserted.resolve_left hall)
      rw [(h.kept hnone).1] at hin
      exact houtside hin
    refine ⟨?_, ?_, ?_, ?_, ?_, ?_⟩
    · rw [hfns]
      exact h.nodup
    · rw [hfns, hwill]
      exact h.willCheck
    · rw [hfns]
      exact h.initial_sub
    · rw [hfns]
      exact h.taken_sub
    · rw [hfns, hinto.fnIndex, hsame]
      exact h.kept
    · rw [hfns, hinto.fnIndex, hsame]
      exact h.lost

/-- Trying all callers keeps the schedule. -/
theorem Scheduled.foldl {parents : List Fn} {visit : VisitState Fn}
    (h : Scheduled initial taken (attempts ++ visit.attempts) visit.toHoistState)
    (hindex : 0 < visit.fnIndex) :
    Scheduled initial taken
      (attempts ++ (parents.foldl (hoistIntoParent env order childF) visit).attempts)
      (parents.foldl (hoistIntoParent env order childF) visit).toHoistState ∧
    (parents.foldl (hoistIntoParent env order childF) visit).fnIndex = visit.fnIndex := by
  induction parents generalizing visit with
  | nil => exact ⟨h, rfl⟩
  | cons parentF rest ih =>
      obtain ⟨hnext, hfnIndex⟩ := @Scheduled.hoist_into_parent Fn _ env order parentF childF
        initial taken attempts visit h hindex
      obtain ⟨hlast, hlastIndex⟩ := ih hnext (hfnIndex ▸ hindex)
      exact ⟨hlast, hlastIndex.trans hfnIndex⟩

/-- Visiting a function keeps the schedule. -/
theorem Scheduled.visit_fn {functions : List Fn} (h : Scheduled initial taken attempts state)
    (hindex : 0 < state.fnIndex) :
    Scheduled initial taken (attempts ++ (visitFn functions env order state childF).2)
      (visitFn functions env order state childF).1 ∧
    (visitFn functions env order state childF).1.fnIndex = state.fnIndex := by
  unfold visitFn
  split_ifs
  · rw [List.append_nil]
    exact ⟨⟨h.nodup, h.willCheck, h.initial_sub, h.taken_sub, h.kept, h.lost⟩, rfl⟩
  · dsimp only
    obtain ⟨hlast, hlastIndex⟩ := @Scheduled.foldl Fn _ env order childF initial taken attempts
      (functions.filter (· ∈ state.tracked.graph.parentFns childF)) ⟨state, true, []⟩
      (by rwa [List.append_nil]) hindex
    split_ifs
    · exact ⟨⟨hlast.nodup, hlast.willCheck, hlast.initial_sub, hlast.taken_sub, hlast.kept,
        hlast.lost⟩, hlastIndex⟩
    · exact ⟨hlast, hlastIndex⟩

omit [DecidableEq Fn] in
/-- Taking the next function keeps the schedule. -/
theorem Scheduled.take (h : Scheduled initial taken attempts state)
    (hnext : state.orderedFns[state.fnIndex]? = some childF) :
    Scheduled initial (taken ++ [childF]) attempts { state with fnIndex := state.fnIndex + 1 } := by
  refine ⟨h.nodup, h.willCheck, h.initial_sub, ?_, fun hnone => ?_, fun hhoisted => ?_⟩
  · exact List.append_subset.mpr
      ⟨h.taken_sub, List.cons_subset.mpr ⟨List.mem_of_getElem? hnext, List.nil_subset _⟩⟩
  · obtain ⟨hfns, htaken⟩ := h.kept hnone
    refine ⟨hfns, ?_⟩
    rw [hfns] at hnext
    rw [htaken, List.take_add_one, hnext]
    rfl
  · obtain ⟨hpos, first, rest, hfns, hfirst⟩ := h.lost hhoisted
    refine ⟨Nat.succ_pos _, first, rest, hfns, fun hin => ?_⟩
    rcases List.mem_append.mp hin with hbefore | hlast
    · exact hfirst hbefore
    · -- The vector has no function twice, and the index is past the first one.
      rw [List.mem_singleton] at hlast
      subst hlast
      have hnodup := h.nodup
      obtain ⟨index, hindex⟩ : ∃ index, state.fnIndex = index + 1 :=
        ⟨state.fnIndex - 1, by omega⟩
      rw [hfns] at hnodup hnext
      rw [hindex, List.getElem?_cons_succ] at hnext
      exact (List.nodup_cons.mp hnodup).1 (List.mem_of_getElem? hnext)

/-- The invariant of the loop. -/
def RunScheduled (initial : List Fn) (run : HoistState Fn × List (Visit Fn)) : Prop :=
  Scheduled initial (run.2.map Visit.childF) (run.2.flatMap Visit.attempts) run.1

/-- A turn of the loop keeps the schedule and moves the index on. -/
theorem RunScheduled.turn {functions : List Fn} {run run' : HoistState Fn × List (Visit Fn)}
    (h : RunScheduled initial run) (hturn : Turn (takeNextFn functions env order) run run') :
    RunScheduled initial run' ∧ run'.1.fnIndex = run.1.fnIndex + 1 ∧
      run.1.fnIndex < run.1.orderedFns.length := by
  unfold Turn takeNextFn at hturn
  cases hnext : run.1.orderedFns[run.1.fnIndex]? with
  | none => simp [hnext] at hturn
  | some childF =>
      rw [hnext] at hturn
      dsimp only at hturn
      cases hturn
      obtain ⟨hlast, hindex⟩ := @Scheduled.visit_fn Fn _ env order childF initial _ _ _ functions
        (Scheduled.take h hnext) (Nat.succ_pos _)
      refine ⟨?_, hindex, (List.getElem?_eq_some_iff.mp hnext).1⟩
      unfold RunScheduled
      rw [List.map_append, List.flatMap_append, List.flatMap_singleton]
      exact hlast

end Schedule

/-- At the start the vector is sorted, and nothing is taken. -/
theorem run_scheduled_start {order : DepthOrder Fn} (program : Program Fn)
    (sortInDepthOrderFns : DepthSort order.fnOrder) (fnsToCheck : Finset Fn)
    (tracked : InlinerState Fn) :
    RunScheduled (sortInDepthOrderFns.sort (program.functions.filter (· ∈ fnsToCheck)))
      (HoistState.start program.functions sortInDepthOrderFns fnsToCheck tracked, []) where
  nodup := (sortInDepthOrderFns.perm _).nodup_iff.mpr (program.nodup_functions.filter _)
  willCheck F := by
    show F ∈ fnsToCheck ↔ F ∈ sortInDepthOrderFns.sort _
    rw [(sortInDepthOrderFns.perm _).mem_iff, List.mem_filter, decide_eq_true_eq]
    exact (and_iff_right (program.mem_functions F)).symm
  initial_sub := List.Subset.refl _
  taken_sub := List.nil_subset _
  kept _ := ⟨rfl, rfl⟩
  lost hhoisted := by
    obtain ⟨attempt, hin, -⟩ := hhoisted
    cases hin

/-- The pass ends, past the end of the vector and with every invariant of its turns. -/
theorem exists_hoisting_end {order : DepthOrder Fn} (program : Program Fn) (env : Environment Fn)
    (sortInDepthOrderFns : DepthSort order.fnOrder) (fnsToCheck : Finset Fn)
    (tracked : InlinerState Fn) (Inv : HoistState Fn × List (Visit Fn) → Prop)
    (hturn : ∀ run run', Inv run →
      Turn (takeNextFn program.functions env order) run run' → Inv run')
    (hstart : Inv (HoistState.start program.functions sortInDepthOrderFns fnsToCheck tracked, [])) :
    ∃ last visits,
      (∀ fuel ≥ program.functions.length, inlineFnsOfLoopsToCGRoot program.functions env order
        sortInDepthOrderFns fnsToCheck tracked fuel = some (last, visits)) ∧
      last.orderedFns.length ≤ last.fnIndex ∧ Inv (last, visits) ∧
      RunScheduled (sortInDepthOrderFns.sort (program.functions.filter (· ∈ fnsToCheck)))
        (last, visits) := by
  obtain ⟨⟨last, visits⟩, hrun, ⟨hscheduled, hinv⟩, hend, -⟩ := exists_loop_end
    (fun run => RunScheduled _ run ∧ Inv run)
    (fun run => program.functions.length - run.1.fnIndex)
    (fun run next ⟨hscheduled, hinv⟩ hstep => by
      obtain ⟨hnext, hindex, hless⟩ := hscheduled.turn hstep
      have hlength := (hscheduled.nodup.subperm fun F _ => program.mem_functions F).length_le
      exact ⟨⟨hnext, hturn run next hinv hstep⟩, by omega⟩)
    ⟨run_scheduled_start program sortInDepthOrderFns fnsToCheck tracked, hstart⟩
  refine ⟨last, visits, hrun, ?_, hinv, hscheduled⟩
  unfold takeNextFn at hend
  dsimp only at hend
  split at hend
  · case _ hnone => exact List.getElem?_eq_none_iff.mp hnone
  · cases hend

/-- The pass ends, and takes every function of the vector once and the deepest first, exactly when
every function outside the initial ones in which calls are tried has a failing attempt. -/
theorem hoisting_takes_each_once_iff (program : Program Fn) (env : Environment Fn)
    (order : DepthOrder Fn) (sortInDepthOrderFns : DepthSort order.fnOrder)
    (fnsToCheck : Finset Fn) (tracked : InlinerState Fn) :
    ∃ last visits,
      (∀ fuel ≥ program.functions.length, inlineFnsOfLoopsToCGRoot program.functions env order
        sortInDepthOrderFns fnsToCheck tracked fuel = some (last, visits)) ∧
      ((∀ F ∈ last.orderedFns, (visits.map Visit.childF).count F = 1) ∧
          (visits.map Visit.childF).Pairwise
            (fun earlier later => order.fnOrder later ≤ order.fnOrder earlier) ↔
        ∀ visit ∈ visits, ∀ attempt ∈ visit.attempts, attempt.parentF ∉ fnsToCheck →
          false ∈ attempt.outcomes) := by
  obtain ⟨last, visits, hrun, hpast, -, hlast⟩ := exists_hoisting_end program env
    sortInDepthOrderFns fnsToCheck tracked (fun _ => True) (fun _ _ _ _ => trivial) trivial
  refine ⟨last, visits, hrun, ?_⟩
  have hinitial : ∀ F, F ∈ sortInDepthOrderFns.sort (program.functions.filter (· ∈ fnsToCheck)) ↔
      F ∈ fnsToCheck := fun F =>
    ((run_scheduled_start program sortInDepthOrderFns fnsToCheck tracked).willCheck F).symm
  have hsorted := sortInDepthOrderFns.sorted (program.functions.filter (· ∈ fnsToCheck))
  generalize sortInDepthOrderFns.sort (program.functions.filter (· ∈ fnsToCheck)) = initial at *
  have hcondition : (∀ visit ∈ visits, ∀ attempt ∈ visit.attempts, attempt.parentF ∉ fnsToCheck →
      false ∈ attempt.outcomes) ↔ ¬ Hoisted initial (visits.flatMap Visit.attempts) := by
    constructor
    · intro h ⟨attempt, hattempt, houtside, hall⟩
      obtain ⟨visit, hvisit, hin⟩ := List.mem_flatMap.mp hattempt
      exact hall (h visit hvisit attempt hin (mt (hinitial _).mpr houtside))
    · intro h visit hvisit attempt hattempt houtside
      by_contra hall
      exact h ⟨attempt, List.mem_flatMap.mpr ⟨visit, hvisit, hattempt⟩,
        mt (hinitial _).mp houtside, hall⟩
  rw [hcondition]
  constructor
  · intro hall hhoisted
    -- The function at the front is not among those that were taken.
    obtain ⟨-, first, rest, hfns, hfirst⟩ := hlast.lost hhoisted
    have hcount := hall.1 first (by rw [hfns]; exact List.mem_cons_self)
    rw [List.count_eq_zero.mpr hfirst] at hcount
    cases hcount
  · intro hnone
    obtain ⟨hfns, htaken⟩ := hlast.kept hnone
    rw [List.take_of_length_le (hfns ▸ hpast)] at htaken
    rw [htaken]
    refine ⟨fun F hF => ?_, hsorted⟩
    exact List.count_eq_one_of_mem (hfns ▸ hlast.nodup) (hfns ▸ hF)

/-! ## A caller that is inserted -/

/-- The sort that keeps functions with the same number as they are. -/
def DepthSort.stable (fnOrder : Fn → Nat) : DepthSort fnOrder where
  sort fns := fns.insertionSort fun earlier later => fnOrder later ≤ fnOrder earlier
  perm fns := fns.perm_insertionSort _
  sorted fns :=
    haveI : Std.Total fun earlier later : Fn => fnOrder later ≤ fnOrder earlier :=
      ⟨fun _ _ => Nat.le_total _ _⟩
    haveI : IsTrans Fn fun earlier later => fnOrder later ≤ fnOrder earlier :=
      ⟨fun _ _ _ hfirst hsecond => Nat.le_trans hsecond hfirst⟩
    fns.pairwise_insertionSort _

namespace Chain

/-- The depth order of the chain. -/
def order : DepthOrder Chain := (collectInDepthOrderFns graph .main 3).get rfl

/-- The pass that starts with the inner function. -/
def hoistInner : Option (HoistState Chain × List (Visit Chain)) :=
  inlineFnsOfLoopsToCGRoot program.functions .splicing order (.stable order.fnOrder) {.inner}
    collected 3

/-- The inner function is inlined into the outer one, which is inserted in front of it. So the inner
function is taken twice, and the outer function never. -/
theorem inner_taken_twice :
    hoistInner.map (fun run => (run.1.orderedFns, run.2.map Visit.childF)) =
      some ([.outer, .inner], [.inner, .inner]) ∧
    ¬ ∀ run, hoistInner = some run →
      ∀ F ∈ run.1.orderedFns, (run.2.map Visit.childF).count F = 1 := by
  have hrun : hoistInner.map (fun run => (run.1.orderedFns, run.2.map Visit.childF)) =
      some ([.outer, .inner], [.inner, .inner]) := by decide
  refine ⟨hrun, fun h => ?_⟩
  obtain ⟨run, hsome, hpair⟩ := Option.map_eq_some_iff.mp hrun
  obtain ⟨hfns, htaken⟩ := Prod.mk.inj hpair
  have hcount := h run hsome .outer (by rw [hfns]; decide)
  rw [htaken] at hcount
  cases hcount

end Chain

end Gino.Inliner
