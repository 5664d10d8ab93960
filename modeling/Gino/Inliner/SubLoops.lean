import Gino.Inliner.LoopOrder
import Mathlib.Data.List.Pairwise

/-!
# The sub-loops of DOALL loops

`Inliner::inlineCallsInvolvedInLoopCarriedDataDependences` takes the sub-loops of a DOALL loop out
of the list of enabled loops. The list has summaries of its own, whereas the sub-loops are other
objects with the same headers, so none is found. A sub-loop that were found would be moved over, but
the list would keep its length. So the list is as it should be only if no enabled loop is a sub-loop
of a DOALL loop (`sub_loops_disabled_iff`).
-/

namespace Gino.Inliner

/-- The contents of a loop: its structure, and those of its proper sub-loops in the order in which
they are iterated over. -/
structure LoopContent where
  loopStructure : LoopStructure
  subLoops : List LoopStructure
  deriving DecidableEq

/-- What happens to an enabled loop: its sub-loops are disabled, or its calls are tried. -/
inductive LoopEvent where
  | disabled (LDI : LoopContent) (before after : List LoopStructure)
  | tried (LDI : LoopContent)
  deriving DecidableEq

/-- The variables while the loops of a function are checked, with the events so far. -/
structure LoopsState where
  toCheck : List LoopStructure
  inlined : Bool
  events : List LoopEvent

/-- Summaries of the loops of a function, in the order of their headers. They are allocated one
after the other. -/
def createPreOrderedLoopSummariesFor (firstAddress : Nat) (headerBlocks : List Nat) :
    List LoopStructure :=
  headerBlocks.mapIdx fun i header => ⟨firstAddress + i, header⟩

/-- The loops of a function to check: those that are hot enough if there are profiles, or all. -/
def getLoopsToInline {Fn : Type} (profiles : Option (LoopStructure → Bool))
    (preOrderedLoops : LoopLists Fn) (F : Fn) : List LoopStructure :=
  match profiles with
  | some hotEnough => (loopsOf preOrderedLoops F).filter hotEnough
  | none => loopsOf preOrderedLoops F

/-- Move the other items of an array to its front. The items past them stay where they are. -/
def removeInPlace {α : Type} [DecidableEq α] (items : List α) (value : α) : List α :=
  let kept := items.filter (· ≠ value)
  kept ++ items.drop kept.length

/-- Call a function for the sub-loops of a loop, until it says to stop. -/
def iterateOverSubLoops {σ : Type} (funcToInvoke : σ → LoopStructure → Bool × σ) :
    List LoopStructure → σ → σ
  | [], state => state
  | child :: rest, state =>
      match funcToInvoke state child with
      | (true, state') => state'
      | (false, state') => iterateOverSubLoops funcToInvoke rest state'

/-- Disable a sub-loop. -/
def disableSubLoop (toCheck : List LoopStructure) (child : LoopStructure) :
    Bool × List LoopStructure :=
  if child ∉ toCheck then (false, toCheck) else (false, removeInPlace toCheck child)

/-- Disable all sub-loops of a loop. -/
def disableSubLoops (LDI : LoopContent) (toCheck : List LoopStructure) : List LoopStructure :=
  iterateOverSubLoops disableSubLoop LDI.subLoops toCheck

/-- The loop is enabled. -/
def isEnabled (toCheck : List LoopStructure) (LDI : LoopContent) : Bool :=
  toCheck.any fun enabledLoop => enabledLoop.header = LDI.loopStructure.header

/-- Check the loops of a function, until a call of one is inlined. Whether a loop is a DOALL loop
and whether a call of it is inlined, after a number of events, is given. -/
def checkLoops (canBeAppliedToLoop : LoopContent → Bool)
    (inlineCallsWithinLoop : Nat → LoopContent → Bool) :
    List LoopContent → LoopsState → LoopsState
  | [], state => state
  | LDI :: rest, state =>
      if ¬ isEnabled state.toCheck LDI then
        checkLoops canBeAppliedToLoop inlineCallsWithinLoop rest state
      else if LDI.subLoops.length ≥ 1 ∧ canBeAppliedToLoop LDI then
        let toCheck := disableSubLoops LDI state.toCheck
        checkLoops canBeAppliedToLoop inlineCallsWithinLoop rest
          { state with
            toCheck := toCheck
            events := state.events ++ [.disabled LDI state.toCheck toCheck] }
      else
        let inlinedCall := inlineCallsWithinLoop state.events.length LDI
        let state' : LoopsState :=
          ⟨state.toCheck, state.inlined || inlinedCall, state.events ++ [.tried LDI]⟩
        if state'.inlined then state'
        else checkLoops canBeAppliedToLoop inlineCallsWithinLoop rest state'

/-- The headers of loops. -/
def headers (loops : List LoopStructure) : List Nat := loops.map LoopStructure.header

/-- After its sub-loops are disabled, the list has the other loops that it had. -/
def LoopEvent.DisablesSubLoops : LoopEvent → Prop
  | .disabled LDI before after =>
      headers after = (headers before).filter (· ∉ headers LDI.subLoops)
  | .tried _ => True

/-- A loop whose calls are tried later is no sub-loop of a loop whose sub-loops were disabled. -/
def LoopEvent.Separate : LoopEvent → LoopEvent → Prop
  | .disabled LDI _ _, .tried LDI' => LDI'.loopStructure.header ∉ headers LDI.subLoops
  | _, _ => True

/-- No loop of a list is a sub-loop of a loop whose sub-loops are disabled. -/
def LoopEvent.NoneEnabled (toCheck : List LoopStructure) : LoopEvent → Prop
  | .disabled LDI _ _ => ∀ header ∈ headers toCheck, header ∉ headers LDI.subLoops
  | .tried _ => True

/-! ## What disabling sub-loops does -/

/-- Moving items in an array keeps its length. -/
theorem length_remove_in_place {α : Type} [DecidableEq α] (items : List α) (value : α) :
    (removeInPlace items value).length = items.length := by
  have hle := items.length_filter_le (· ≠ value)
  unfold removeInPlace
  rw [List.length_append, List.length_drop]
  omega

/-- Disabling sub-loops keeps the length of the list. -/
theorem length_disable_sub_loops (LDI : LoopContent) (toCheck : List LoopStructure) :
    (disableSubLoops LDI toCheck).length = toCheck.length := by
  unfold disableSubLoops
  induction LDI.subLoops generalizing toCheck with
  | nil => rfl
  | cons child rest ih =>
      unfold iterateOverSubLoops disableSubLoop
      by_cases hchild : child ∉ toCheck
      · rw [if_pos hchild]
        exact ih toCheck
      · rw [if_neg hchild]
        exact (ih _).trans (length_remove_in_place toCheck child)

/-- Where no sub-loop is in the list, disabling the sub-loops leaves it alone. -/
theorem disable_sub_loops_eq {LDI : LoopContent} {toCheck : List LoopStructure}
    (h : ∀ child ∈ LDI.subLoops, child ∉ toCheck) : disableSubLoops LDI toCheck = toCheck := by
  unfold disableSubLoops
  revert h
  induction LDI.subLoops with
  | nil => exact fun _ => rfl
  | cons child rest ih =>
      intro h
      rw [List.forall_mem_cons] at h
      unfold iterateOverSubLoops disableSubLoop
      rw [if_pos h.1]
      exact ih h.2

/-- What disabling sub-loops does to a list: it leaves the list that it should leave exactly if no
loop of the list is a sub-loop. Then it leaves the list alone. -/
theorem headers_disable_sub_loops_iff (LDI : LoopContent) (toCheck : List LoopStructure) :
    (headers (disableSubLoops LDI toCheck) =
        (headers toCheck).filter (· ∉ headers LDI.subLoops) ↔
      ∀ header ∈ headers toCheck, header ∉ headers LDI.subLoops) ∧
    ((∀ header ∈ headers toCheck, header ∉ headers LDI.subLoops) →
      disableSubLoops LDI toCheck = toCheck) := by
  have hsame : (∀ header ∈ headers toCheck, header ∉ headers LDI.subLoops) →
      disableSubLoops LDI toCheck = toCheck := fun h =>
    disable_sub_loops_eq fun child hchild hin =>
      h child.header (List.mem_map_of_mem hin) (List.mem_map_of_mem hchild)
  refine ⟨⟨fun h => ?_, fun h => ?_⟩, hsame⟩
  · -- The list keeps its length, so that nothing is filtered out.
    have hlength := congrArg List.length h
    rw [headers, List.length_map, length_disable_sub_loops, ← List.length_map LoopStructure.header]
      at hlength
    have hall := List.length_filter_eq_length_iff.mp hlength.symm
    exact fun header hin => of_decide_eq_true (hall header hin)
  · rw [hsame h]
    exact (List.filter_eq_self.mpr fun header hin => decide_eq_true (h header hin)).symm

/-! ## Runs -/

section Runs

variable {canBeAppliedToLoop : LoopContent → Bool}
  {inlineCallsWithinLoop : Nat → LoopContent → Bool} {toCheck : List LoopStructure}

/-- What holds of the events so far. If no loop to check is a sub-loop of a loop whose sub-loops
were disabled, the list has not changed, and the loops that were tried are enabled in it. Otherwise
some sub-loops were disabled as they should not. -/
def EventsInv (toCheck : List LoopStructure) (state : LoopsState) : Prop :=
  ((∀ event ∈ state.events, event.NoneEnabled toCheck ∧ event.DisablesSubLoops ∧
      ∀ LDI, event = .tried LDI → isEnabled toCheck LDI = true) ∧ state.toCheck = toCheck) ∨
    ((∃ event ∈ state.events, ¬ event.NoneEnabled toCheck) ∧
      ∃ event ∈ state.events, ¬ event.DisablesSubLoops)

/-- Another event after others that are not as they should be. -/
theorem events_inv_bad {state : LoopsState} {event : LoopEvent}
    (h : (∃ event ∈ state.events, ¬ event.NoneEnabled toCheck) ∧
      ∃ event ∈ state.events, ¬ event.DisablesSubLoops) (list : List LoopStructure)
    (inlined : Bool) : EventsInv toCheck ⟨list, inlined, state.events ++ [event]⟩ := by
  obtain ⟨⟨first, hfirst, hnot⟩, second, hsecond, hnot'⟩ := h
  exact .inr ⟨⟨first, List.mem_append_left _ hfirst, hnot⟩, second,
    List.mem_append_left _ hsecond, hnot'⟩

/-- Disabling the sub-loops of a loop. -/
theorem EventsInv.disabled {state : LoopsState} (h : EventsInv toCheck state) (LDI : LoopContent) :
    EventsInv toCheck { state with
      toCheck := disableSubLoops LDI state.toCheck
      events := state.events ++
        [.disabled LDI state.toCheck (disableSubLoops LDI state.toCheck)] } := by
  rcases h with ⟨hgood, hsame⟩ | hbad
  · obtain ⟨hiff, hkept⟩ := headers_disable_sub_loops_iff LDI toCheck
    by_cases hnone : ∀ header ∈ headers toCheck, header ∉ headers LDI.subLoops
    · refine .inl ⟨fun event hevent => ?_, by rw [hsame]; exact hkept hnone⟩
      rcases List.mem_append.mp hevent with hold | hlast
      · exact hgood event hold
      · obtain rfl := List.mem_singleton.mp hlast
        refine ⟨hnone, ?_, fun _ heq => by cases heq⟩
        rw [hsame]
        exact hiff.mpr hnone
    · refine .inr ⟨⟨_, List.mem_append_right _ (List.mem_singleton_self _), hnone⟩,
        _, List.mem_append_right _ (List.mem_singleton_self _), ?_⟩
      rw [hsame]
      exact mt hiff.mp hnone
  · exact events_inv_bad hbad _ _

/-- Trying the calls of an enabled loop. -/
theorem EventsInv.tried {state : LoopsState} (h : EventsInv toCheck state) {LDI : LoopContent}
    (henabled : isEnabled state.toCheck LDI = true) (inlined : Bool) :
    EventsInv toCheck ⟨state.toCheck, inlined, state.events ++ [.tried LDI]⟩ := by
  rcases h with ⟨hgood, hsame⟩ | hbad
  · refine .inl ⟨fun event hevent => ?_, hsame⟩
    rcases List.mem_append.mp hevent with hold | hlast
    · exact hgood event hold
    · obtain rfl := List.mem_singleton.mp hlast
      refine ⟨trivial, trivial, fun _ heq => ?_⟩
      cases heq
      rwa [← hsame]
  · exact events_inv_bad hbad _ _

/-- Checking loops keeps what holds of the events. -/
theorem EventsInv.check_loops {allLoops : List LoopContent} {state : LoopsState}
    (h : EventsInv toCheck state) :
    EventsInv toCheck (checkLoops canBeAppliedToLoop inlineCallsWithinLoop allLoops state) := by
  induction allLoops generalizing state with
  | nil => exact h
  | cons LDI rest ih =>
      unfold checkLoops
      split_ifs with henabled hdoall
      · exact ih (h.disabled LDI)
      · dsimp only
        split_ifs
        · exact h.tried henabled _
        · exact ih (h.tried henabled _)
      · exact ih h

/-- Good events are in order: a loop that is tried is enabled, so it is no sub-loop of another. -/
theorem separate_of_good {first second : LoopEvent} (hfirst : first.NoneEnabled toCheck)
    (hsecond : ∀ LDI, second = .tried LDI → isEnabled toCheck LDI = true) :
    first.Separate second := by
  cases first with
  | tried LDI => trivial
  | disabled LDI before after =>
      cases second with
      | disabled LDI' before' after' => trivial
      | tried LDI' =>
          obtain ⟨enabledLoop, hin, hheader⟩ := List.any_eq_true.mp (hsecond LDI' rfl)
          have hmem := hfirst enabledLoop.header (List.mem_map_of_mem hin)
          rw [of_decide_eq_true hheader] at hmem
          exact hmem

end Runs

/-- When the loops of a function are checked, disabling the sub-loops of a DOALL loop leaves the
other loops of the list and no others, and no call of a sub-loop of a DOALL loop is tried later,
exactly when no loop to check is a sub-loop of such a loop. -/
theorem sub_loops_disabled_iff (canBeAppliedToLoop : LoopContent → Bool)
    (inlineCallsWithinLoop : Nat → LoopContent → Bool) (allLoops : List LoopContent)
    (toCheck : List LoopStructure) :
    let events := (checkLoops canBeAppliedToLoop inlineCallsWithinLoop allLoops
      ⟨toCheck, false, []⟩).events
    (∀ event ∈ events, event.DisablesSubLoops) ∧ events.Pairwise LoopEvent.Separate ↔
      ∀ event ∈ events, event.NoneEnabled toCheck := by
  dsimp only
  have hstart : EventsInv toCheck ⟨toCheck, false, []⟩ :=
    .inl ⟨fun _ hin => (List.not_mem_nil hin).elim, rfl⟩
  have hrun : EventsInv toCheck (checkLoops canBeAppliedToLoop inlineCallsWithinLoop allLoops
      ⟨toCheck, false, []⟩) := hstart.check_loops
  -- Either no event was wrong and the list never changed, or two events tell what went wrong.
  rcases hrun with
    ⟨hgood, -⟩ | ⟨⟨first, hfirst, hnone⟩, second, hsecond, hdisables⟩
  · refine iff_of_true ⟨fun event hevent => (hgood event hevent).2.1, ?_⟩
      fun event hevent => (hgood event hevent).1
    exact List.pairwise_of_forall_mem_list fun first hfirst second hsecond =>
      separate_of_good (hgood first hfirst).1 (hgood second hsecond).2.2
  · exact iff_of_false (fun h => hdisables (h.1 second hsecond))
      fun h => hnone (h first hfirst)

/-- Where the sub-loops are other objects than the loops to check, the list never changes. -/
theorem to_check_never_changes (canBeAppliedToLoop : LoopContent → Bool)
    (inlineCallsWithinLoop : Nat → LoopContent → Bool) {allLoops : List LoopContent}
    {toCheck : List LoopStructure} {state : LoopsState} (hstate : state.toCheck = toCheck)
    (hother : ∀ LDI ∈ allLoops, ∀ child ∈ LDI.subLoops, child ∉ toCheck) :
    (checkLoops canBeAppliedToLoop inlineCallsWithinLoop allLoops state).toCheck = toCheck := by
  induction allLoops generalizing state with
  | nil => exact hstate
  | cons LDI rest ih =>
      rw [List.forall_mem_cons] at hother
      unfold checkLoops
      split_ifs
      · exact ih (by rw [hstate]; exact disable_sub_loops_eq hother.1) hother.2
      · dsimp only
        split_ifs
        · exact hstate
        · exact ih hstate hother.2
      · exact ih hstate hother.2

/-- The loops to check are summaries that the inliner allocated. -/
theorem address_of_loop_to_inline {Fn : Type} {profiles : Option (LoopStructure → Bool)}
    {preOrderedLoops : LoopLists Fn} {F : Fn} {firstAddress : Nat} {headerBlocks : List Nat}
    (hlist : preOrderedLoops F =
      some (createPreOrderedLoopSummariesFor firstAddress headerBlocks))
    {loop : LoopStructure} (hloop : loop ∈ getLoopsToInline profiles preOrderedLoops F) :
    firstAddress ≤ loop.address ∧ loop.address < firstAddress + headerBlocks.length := by
  have hin : loop ∈ createPreOrderedLoopSummariesFor firstAddress headerBlocks := by
    unfold getLoopsToInline loopsOf at hloop
    rw [hlist] at hloop
    cases profiles with
    | none => exact hloop
    | some hotEnough => exact (List.mem_filter.mp hloop).1
  obtain ⟨i, hi, rfl⟩ := List.mem_mapIdx.mp hin
  exact ⟨Nat.le_add_right _ _, by dsimp only; omega⟩

/-- The sub-loops that are iterated over are no summaries of the inliner, so that none of the loops
to check is ever disabled. -/
theorem no_summary_disabled {Fn : Type} (canBeAppliedToLoop : LoopContent → Bool)
    (inlineCallsWithinLoop : Nat → LoopContent → Bool) {allLoops : List LoopContent}
    (profiles : Option (LoopStructure → Bool)) {preOrderedLoops : LoopLists Fn} {F : Fn}
    {firstAddress : Nat} {headerBlocks : List Nat}
    (hlist : preOrderedLoops F =
      some (createPreOrderedLoopSummariesFor firstAddress headerBlocks))
    (hother : ∀ LDI ∈ allLoops, ∀ child ∈ LDI.subLoops,
      child.address < firstAddress ∨ firstAddress + headerBlocks.length ≤ child.address) :
    (checkLoops canBeAppliedToLoop inlineCallsWithinLoop allLoops
      ⟨getLoopsToInline profiles preOrderedLoops F, false, []⟩).toCheck =
      getLoopsToInline profiles preOrderedLoops F := by
  refine to_check_never_changes canBeAppliedToLoop inlineCallsWithinLoop rfl
    fun LDI hLDI child hchild hin => ?_
  have haddress := address_of_loop_to_inline hlist hin
  have houtside := hother LDI hLDI child hchild
  omega

/-! ## A loop in a DOALL loop -/

namespace Nest

/-- The summaries of a loop and of a loop in it, for the one function of a program. -/
def summaries : LoopLists Unit := fun _ => some (createPreOrderedLoopSummariesFor 10 [0, 1])

/-- Both loops are enabled. -/
def toCheck : List LoopStructure := getLoopsToInline none summaries ()

/-- The contents of the outer loop. -/
def outer : LoopContent := ⟨⟨20, 0⟩, [⟨21, 1⟩]⟩

/-- The contents of the inner loop. -/
def inner : LoopContent := ⟨⟨22, 1⟩, []⟩

/-- The loops are checked, where the outer one is a DOALL loop and no call is inlined. -/
def checked : LoopsState :=
  checkLoops (· = outer) (fun _ _ => false) [outer, inner] ⟨toCheck, false, []⟩

/-- The inner loop is still enabled after the sub-loops of the outer one are disabled, and its calls
are tried. -/
theorem inner_still_enabled :
    checked.events = [.disabled outer toCheck toCheck, .tried inner] ∧
    headers toCheck = [0, 1] ∧
    ¬ ((∀ event ∈ checked.events, event.DisablesSubLoops) ∧
      checked.events.Pairwise LoopEvent.Separate) := by
  have hevents : checked.events = [.disabled outer toCheck toCheck, .tried inner] := by decide
  refine ⟨hevents, by decide, fun h => ?_⟩
  have hdisables := h.1 (.disabled outer toCheck toCheck) (by
    rw [hevents]
    exact List.mem_cons_self)
  exact absurd hdisables (by unfold LoopEvent.DisablesSubLoops; decide)

end Nest

end Gino.Inliner
