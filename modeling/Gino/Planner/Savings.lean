import Gino.Planner.LoopForest
import Mathlib.Algebra.BigOperators.Group.Finset.Basic
import Mathlib.Algebra.Order.BigOperators.Group.Finset
import Mathlib.Data.BitVec

/-!
# The time that a plan can save

`evaluateSavings` of the planner and of the time-saved tool, which estimate the most time that
loops of a tree can save when no two nested ones are parallelized. Loops that are not to be
considered also hide the loops inside them: `evaluate_savings_iff` says when the estimate is the
maximum all the same.
-/

namespace Gino.Planner

open LoopForest

/-- A loop with the forest of the loops in it. Every loop is there once. -/
structure LoopTree (Loop : Type*) where
  loop : Loop
  children : LoopForest Loop
  nodup : (loop :: children.loops).Nodup

variable {Loop : Type*}

/-- The tree as a forest of one tree. -/
def LoopTree.forest (tree : LoopTree Loop) : LoopForest Loop := .tree tree.loop tree.children .nil

/-- Every loop is in the forest once. -/
theorem LoopTree.forest_nodup (tree : LoopTree Loop) : tree.forest.loops.Nodup := by
  unfold LoopTree.forest LoopForest.loops
  rw [LoopForest.loops, List.append_nil]
  exact tree.nodup

variable [DecidableEq Loop]

/-! ## The estimate -/

section Estimate

variable (timeSaved : Loop → BitVec 64) (considerLoop : Loop → Bool)

/-- What is known of the considered ones of the loops nested directly in a loop, added up. -/
def childrenSaved (maxTimeSaved : Loop → BitVec 64) (children : List Loop) : BitVec 64 :=
  children.foldl (fun maxChildrenSaved nestedLoop =>
    if considerLoop nestedLoop then maxChildrenSaved + maxTimeSaved nestedLoop
    else maxChildrenSaved) 0

/-- What the visitor does at a loop: the larger of the time saved by the loop and by the loops
nested directly in it. A loop that is not considered has no entry, which reads as zero. -/
def visitLoop (maxTimeSaved : Loop → BitVec 64) (ls : Loop) (children : List Loop) :
    Loop → BitVec 64 :=
  if considerLoop ls then
    let maxChildrenSaved := childrenSaved considerLoop maxTimeSaved children
    let loopSaved := timeSaved ls
    Function.update maxTimeSaved ls
      (if maxChildrenSaved < loopSaved then loopSaved else maxChildrenSaved)
  else maxTimeSaved

/-- The estimate of a tree: what is known of its root after a traversal in post-order. -/
def evaluateSavingsOf (tree : LoopTree Loop) : BitVec 64 :=
  tree.forest.visitPostOrder (visitLoop timeSaved considerLoop) (fun _ => 0) tree.loop

end Estimate

/-- `Planner::evaluateSavings`. -/
def evaluateSavings (tree : LoopTree Loop) (timeSaved : Loop → BitVec 64)
    (considerLoop : Loop → Bool) : BitVec 64 :=
  evaluateSavingsOf timeSaved considerLoop tree

/-- `TimeSaved::evaluateSavings`, the copy in the time-saved tool. -/
def TimeSaved.evaluateSavings (tree : LoopTree Loop) (timeSaved : Loop → BitVec 64)
    (considerLoop : Loop → Bool) : BitVec 64 :=
  evaluateSavingsOf timeSaved considerLoop tree

/-- `Planner::evaluateSavings` for all techniques and for DOALL only. -/
def evaluateSavingsPair (tree : LoopTree Loop) (timeSaved : Loop → BitVec 64)
    (doallLoops : Loop → Bool) : BitVec 64 × BitVec 64 :=
  (evaluateSavings tree timeSaved fun _ => true, evaluateSavings tree timeSaved doallLoops)

/-! ## Choices of loops -/

/-- Loops that are considered, no two of them nested. -/
structure Choice (forest : LoopForest Loop) (considerLoop : Loop → Bool) (chosen : Finset Loop) :
    Prop where
  mem : ∀ loop ∈ chosen, loop ∈ forest.loops
  considered : ∀ loop ∈ chosen, considerLoop loop = true
  apart : ∀ outer ∈ chosen, ∀ inner ∈ chosen, ¬ forest.NestedIn outer inner

/-- A choice of loops in none that is not considered. -/
structure ExposedChoice (forest : LoopForest Loop) (considerLoop : Loop → Bool)
    (chosen : Finset Loop) : Prop extends Choice forest considerLoop chosen where
  exposed : ∀ loop ∈ chosen, ∀ outer, forest.NestedIn outer loop → considerLoop outer = true

/-- The time a choice saves. -/
def savedBy (timeSaved : Loop → BitVec 64) (chosen : Finset Loop) : Nat :=
  ∑ loop ∈ chosen, (timeSaved loop).toNat

/-- A value is the most that a choice saves. -/
def IsBestSaving (tree : LoopTree Loop) (timeSaved : Loop → BitVec 64)
    (considerLoop : Loop → Bool) (value : BitVec 64) : Prop :=
  IsGreatest {saved | ∃ chosen, Choice tree.forest considerLoop chosen ∧
    saved = savedBy timeSaved chosen} value.toNat

/-- The most that loops in none that is not considered save. -/
def exposedSaving (timeSaved : Loop → BitVec 64) (considerLoop : Loop → Bool) :
    LoopForest Loop → Nat
  | .nil => 0
  | .tree loop children siblings =>
      (if considerLoop loop then
        max (exposedSaving timeSaved considerLoop children) (timeSaved loop).toNat else 0) +
      exposedSaving timeSaved considerLoop siblings

/-! ## What loops in none that is not considered save -/

section Exposed

variable {timeSaved : Loop → BitVec 64} {considerLoop : Loop → Bool} {loop : Loop}
  {children siblings : LoopForest Loop} {chosen : Finset Loop}

/-- The part of a choice that is in the trees next to the first one. -/
theorem ExposedChoice.of_siblings
    (h : ExposedChoice (.tree loop children siblings) considerLoop chosen) :
    ExposedChoice siblings considerLoop (chosen.filter (· ∈ siblings.loops)) where
  mem _ hother := (Finset.mem_filter.mp hother).2
  considered other hother := h.considered other (Finset.mem_filter.mp hother).1
  apart outer houter inner hinner hnested :=
    h.apart outer (Finset.mem_filter.mp houter).1 inner (Finset.mem_filter.mp hinner).1
      (.inr (.inr hnested))
  exposed other hother outer hnested :=
    h.exposed other (Finset.mem_filter.mp hother).1 outer (.inr (.inr hnested))

/-- The part of a choice that is in the first tree is its root or among the loops in the root. -/
theorem ExposedChoice.of_first
    (h : ExposedChoice (.tree loop children siblings) considerLoop chosen) :
    chosen.filter (· ∉ siblings.loops) ⊆ {loop} ∨
      ExposedChoice children considerLoop (chosen.filter (· ∉ siblings.loops)) := by
  have hmem : ∀ other ∈ chosen.filter (· ∉ siblings.loops),
      other ∈ chosen ∧ (other = loop ∨ other ∈ children.loops) := by
    intro other hother
    obtain ⟨hchosen, hsiblings⟩ := Finset.mem_filter.mp hother
    have hall := h.mem other hchosen
    rw [LoopForest.loops, List.mem_cons, List.mem_append] at hall
    tauto
  by_cases hroot : loop ∈ chosen
  · -- Nothing in the root is chosen next to it.
    left
    intro other hother
    obtain ⟨hchosen, heq | hchild⟩ := hmem other hother
    · exact Finset.mem_singleton.mpr heq
    · exact absurd (.inl ⟨rfl, hchild⟩) (h.apart loop hroot other hchosen)
  · right
    have hchild : ∀ other ∈ chosen.filter (· ∉ siblings.loops), other ∈ children.loops := by
      intro other hother
      obtain ⟨hchosen, rfl | hchild⟩ := hmem other hother
      · exact absurd hchosen hroot
      · exact hchild
    refine ⟨⟨hchild, fun other hother => h.considered other (hmem other hother).1, ?_⟩, ?_⟩
    · intro outer houter inner hinner hnested
      exact h.apart outer (hmem outer houter).1 inner (hmem inner hinner).1 (.inr (.inl hnested))
    · intro other hother outer hnested
      exact h.exposed other (hmem other hother).1 outer (.inr (.inl hnested))

/-- No choice of loops in none that is not considered saves more. -/
theorem exposed_choice_le {forest : LoopForest Loop} {chosen : Finset Loop}
    (h : ExposedChoice forest considerLoop chosen) :
    savedBy timeSaved chosen ≤ exposedSaving timeSaved considerLoop forest := by
  induction forest generalizing chosen with
  | nil =>
      have hempty : chosen = ∅ := Finset.eq_empty_of_forall_notMem fun loop hloop => by
        simpa [LoopForest.loops] using h.mem loop hloop
      rw [hempty]
      exact Nat.zero_le _
  | tree loop children siblings ihChildren ihSiblings =>
      have hsplit : savedBy timeSaved chosen =
          savedBy timeSaved (chosen.filter (· ∉ siblings.loops)) +
            savedBy timeSaved (chosen.filter (· ∈ siblings.loops)) := by
        unfold savedBy
        rw [add_comm, Finset.sum_filter_add_sum_filter_not]
      rw [hsplit, exposedSaving]
      refine Nat.add_le_add ?_ (ihSiblings h.of_siblings)
      split_ifs with hloop
      · rcases h.of_first with hroot | hchildren
        · have hle : savedBy timeSaved (chosen.filter (· ∉ siblings.loops)) ≤
              savedBy timeSaved {loop} := Finset.sum_le_sum_of_subset hroot
          refine hle.trans ?_
          rw [savedBy, Finset.sum_singleton]
          exact Nat.le_max_right _ _
        · exact (ihChildren hchildren).trans (Nat.le_max_left _ _)
      · -- Nothing in a root that is not considered is chosen.
        have hempty : chosen.filter (· ∉ siblings.loops) = ∅ := by
          refine Finset.eq_empty_of_forall_notMem fun other hother => ?_
          obtain ⟨hchosen, hsiblings⟩ := Finset.mem_filter.mp hother
          have hall := h.mem other hchosen
          rw [LoopForest.loops, List.mem_cons, List.mem_append] at hall
          rcases hall with rfl | hchild | hsibling
          · exact hloop (h.considered _ hchosen)
          · exact hloop (h.exposed other hchosen loop (.inl ⟨rfl, hchild⟩))
          · exact hsiblings hsibling
        rw [hempty]
        exact Nat.le_refl _

/-- Choices in the first tree and in the trees next to it make up a choice. -/
theorem ExposedChoice.union {first : Finset Loop}
    (hnodup : (LoopForest.tree loop children siblings).loops.Nodup)
    (hfirst : ExposedChoice (.tree loop children .nil) considerLoop first)
    (hrest : ExposedChoice siblings considerLoop chosen) :
    Disjoint first chosen ∧
      ExposedChoice (.tree loop children siblings) considerLoop (first ∪ chosen) := by
  have hapart : ∀ other, other = loop ∨ other ∈ children.loops → other ∉ siblings.loops := by
    rw [LoopForest.loops, ← List.cons_append, List.nodup_append] at hnodup
    intro other hother hsibling
    exact hnodup.2.2 other (List.mem_cons.mpr hother) other hsibling rfl
  have hmem : ∀ other ∈ first, other = loop ∨ other ∈ children.loops := by
    intro other hother
    simpa [LoopForest.loops] using hfirst.mem other hother
  refine ⟨Finset.disjoint_left.mpr fun other hother hchosen =>
    hapart other (hmem other hother) (hrest.mem other hchosen), ⟨?_, ?_, ?_⟩, ?_⟩
  · intro other hother
    rw [LoopForest.loops, List.mem_cons, List.mem_append]
    rcases Finset.mem_union.mp hother with hother | hother
    · exact (hmem other hother).imp_right .inl
    · exact .inr (.inr (hrest.mem other hother))
  · intro other hother
    rcases Finset.mem_union.mp hother with hother | hother
    · exact hfirst.considered other hother
    · exact hrest.considered other hother
  · intro outer houter inner hinner hnested
    -- Both loops are where the nesting is.
    have hfrom : ∀ other ∈ first ∪ chosen, other = loop ∨ other ∈ children.loops →
        other ∈ first := by
      intro other hother htree
      exact (Finset.mem_union.mp hother).resolve_right fun hchosen =>
        hapart other htree (hrest.mem other hchosen)
    rcases hnested with ⟨heq, hchild⟩ | hnested | hnested
    · exact hfirst.apart outer (hfrom outer houter (.inl heq)) inner
        (hfrom inner hinner (.inr hchild)) (.inl ⟨heq, hchild⟩)
    · exact hfirst.apart outer (hfrom outer houter (.inr hnested.mem.1)) inner
        (hfrom inner hinner (.inr hnested.mem.2)) (.inr (.inl hnested))
    · have hin : ∀ other ∈ first ∪ chosen, other ∈ siblings.loops → other ∈ chosen := by
        intro other hother hsibling
        exact (Finset.mem_union.mp hother).resolve_left fun hfirst =>
          hapart other (hmem other hfirst) hsibling
      exact hrest.apart outer (hin outer houter hnested.mem.1) inner
        (hin inner hinner hnested.mem.2) hnested
  · intro other hother outer hnested
    rcases Finset.mem_union.mp hother with hother | hother
    · refine hfirst.exposed other hother outer ?_
      rcases hnested with hroot | hnested | hnested
      · exact .inl hroot
      · exact .inr (.inl hnested)
      · exact absurd hnested.mem.2 (hapart other (hmem other hother))
    · refine hrest.exposed other hother outer ?_
      have hsibling := hrest.mem other hother
      rcases hnested with ⟨-, hchild⟩ | hnested | hnested
      · exact absurd hsibling (hapart other (.inr hchild))
      · exact absurd hsibling (hapart other (.inr hnested.mem.2))
      · exact hnested

/-- Some choice of loops in none that is not considered saves as much. -/
theorem exists_exposed_choice (timeSaved : Loop → BitVec 64) (considerLoop : Loop → Bool)
    {forest : LoopForest Loop} (hnodup : forest.loops.Nodup) :
    ∃ chosen, ExposedChoice forest considerLoop chosen ∧
      savedBy timeSaved chosen = exposedSaving timeSaved considerLoop forest := by
  induction forest with
  | nil => exact ⟨∅, ⟨⟨by simp, by simp, by simp⟩, by simp⟩, rfl⟩
  | tree loop children siblings ihChildren ihSiblings =>
      have hparts := hnodup
      rw [LoopForest.loops, List.nodup_cons, List.nodup_append] at hparts
      obtain ⟨hroot, hchildren, hsiblings, -⟩ := hparts
      have hroot : loop ∉ children.loops := fun hmem => hroot (List.mem_append_left _ hmem)
      obtain ⟨below, hbelow, hbelowSaves⟩ := ihChildren hchildren
      obtain ⟨rest, hrest, hrestSaves⟩ := ihSiblings hsiblings
      suffices hfirst : ∃ first, ExposedChoice (.tree loop children .nil) considerLoop first ∧
          savedBy timeSaved first = if considerLoop loop then
            max (exposedSaving timeSaved considerLoop children) (timeSaved loop).toNat else 0 by
        obtain ⟨first, hfirst, hfirstSaves⟩ := hfirst
        obtain ⟨hdisjoint, hunion⟩ := hfirst.union hnodup hrest
        refine ⟨first ∪ rest, hunion, ?_⟩
        rw [exposedSaving, ← hfirstSaves, ← hrestSaves, savedBy, Finset.sum_union hdisjoint]
        rfl
      split_ifs with hloop
      · rcases le_total (timeSaved loop).toNat (exposedSaving timeSaved considerLoop children)
          with hle | hle
        · -- The loops in the root save more.
          rw [max_eq_left hle, ← hbelowSaves]
          refine ⟨below, ⟨⟨fun other hother => ?_, hbelow.considered, ?_⟩, ?_⟩, rfl⟩
          · simpa [LoopForest.loops] using Or.inr (hbelow.mem other hother)
          · intro outer houter inner hinner hnested
            rcases hnested with ⟨rfl, -⟩ | hnested | hnested
            · exact hroot (hbelow.mem outer houter)
            · exact hbelow.apart outer houter inner hinner hnested
            · exact hnested
          · intro other hother outer hnested
            rcases hnested with ⟨rfl, -⟩ | hnested | hnested
            · exact hloop
            · exact hbelow.exposed other hother outer hnested
            · exact hnested.elim
        · -- The root saves more.
          rw [max_eq_right hle]
          have halone : ∀ outer, ¬ (LoopForest.tree loop children .nil).NestedIn outer loop := by
            rintro outer (⟨-, hchild⟩ | hnested | hnested)
            · exact hroot hchild
            · exact hroot hnested.mem.2
            · exact hnested
          refine ⟨{loop}, ⟨⟨?_, ?_, ?_⟩, ?_⟩, Finset.sum_singleton _ _⟩
          · simp [LoopForest.loops]
          · simpa using hloop
          · intro outer _ inner hinner
            rw [Finset.mem_singleton.mp hinner]
            exact halone outer
          · intro other hother outer hnested
            rw [Finset.mem_singleton.mp hother] at hnested
            exact absurd hnested (halone outer)
      · exact ⟨∅, ⟨⟨by simp, by simp, by simp⟩, by simp⟩, rfl⟩

end Exposed

/-! ## The estimate is what loops in none that is not considered save -/

section Visit

/-- The first loop and the other ones. -/
theorem children_saved_cons {Loop : Type*} {considerLoop : Loop → Bool}
    {maxTimeSaved : Loop → BitVec 64} (loop : Loop) (loops : List Loop) :
    childrenSaved considerLoop maxTimeSaved (loop :: loops) =
      (if considerLoop loop then maxTimeSaved loop else 0) +
        childrenSaved considerLoop maxTimeSaved loops := by
  have hshift : ∀ (loops : List Loop) (saved : BitVec 64), loops.foldl (fun saved nestedLoop =>
      if considerLoop nestedLoop then saved + maxTimeSaved nestedLoop else saved) saved =
        saved + childrenSaved considerLoop maxTimeSaved loops := by
    intro loops
    induction loops with
    | nil => exact fun saved => (add_zero saved).symm
    | cons first rest ih =>
        intro saved
        rw [childrenSaved, List.foldl_cons, List.foldl_cons, ih,
          ih (if considerLoop first then 0 + maxTimeSaved first else 0)]
        split_ifs
        · rw [zero_add, add_assoc]
        · rw [zero_add]
  rw [childrenSaved, List.foldl_cons, hshift, zero_add]

/-- The larger of two numbers. -/
theorem to_nat_larger (first second : BitVec 64) :
    (if first < second then second else first).toNat = max first.toNat second.toNat := by
  split_ifs with hlt
  · exact (max_eq_right (BitVec.le_of_lt hlt)).symm
  · exact (max_eq_left (BitVec.not_lt.mp hlt)).symm

variable {timeSaved : Loop → BitVec 64} {considerLoop : Loop → Bool} {forest : LoopForest Loop}
  {maxTimeSaved : Loop → BitVec 64}

/-- A traversal leaves the entries of other loops alone. -/
theorem visit_other (maxTimeSaved : Loop → BitVec 64) {other : Loop}
    (hother : other ∉ forest.loops) :
    forest.visitPostOrder (visitLoop timeSaved considerLoop) maxTimeSaved other =
      maxTimeSaved other := by
  induction forest generalizing maxTimeSaved with
  | nil => rfl
  | tree loop children siblings ihChildren ihSiblings =>
      rw [LoopForest.loops, List.mem_cons, List.mem_append] at hother
      push Not at hother
      obtain ⟨hne, hchildren, hsiblings⟩ := hother
      rw [LoopForest.visitPostOrder, ihSiblings _ hsiblings, visitLoop]
      split_ifs
      · rw [Function.update_of_ne hne, ihChildren _ hchildren]
      · exact ihChildren _ hchildren

/-- After a traversal the considered roots add up to what the forest saves. -/
theorem visit_roots (maxTimeSaved : Loop → BitVec 64) (hnodup : forest.loops.Nodup)
    (hfits : exposedSaving timeSaved considerLoop forest < 2 ^ 64) :
    (childrenSaved considerLoop
      (forest.visitPostOrder (visitLoop timeSaved considerLoop) maxTimeSaved) forest.roots).toNat =
      exposedSaving timeSaved considerLoop forest := by
  induction forest generalizing maxTimeSaved with
  | nil => rfl
  | tree loop children siblings ihChildren ihSiblings =>
      rw [LoopForest.loops, List.nodup_cons, List.nodup_append] at hnodup
      obtain ⟨hroot, hchildren, hsiblings, -⟩ := hnodup
      have hroot : loop ∉ siblings.loops := fun hmem => hroot (List.mem_append_right _ hmem)
      rw [exposedSaving] at hfits ⊢
      -- The other trees leave the entry of the root alone.
      rw [LoopForest.visitPostOrder, LoopForest.roots, children_saved_cons, visit_other _ hroot,
        BitVec.toNat_add, ihSiblings _ hsiblings (by omega)]
      split_ifs at hfits ⊢ with hloop
      · have hbelow := ihChildren maxTimeSaved hchildren (by omega)
        rw [visitLoop, if_pos hloop, Function.update_self, to_nat_larger, hbelow]
        exact Nat.mod_eq_of_lt hfits
      · exact Nat.mod_eq_of_lt hfits

end Visit

/-! ## When the estimate is the maximum -/

section Best

variable (tree : LoopTree Loop) (timeSaved : Loop → BitVec 64)

variable (considerLoop : Loop → Bool)

/-- The estimate is what loops in none that is not considered save, where 64 bits suffice. -/
theorem evaluate_savings_to_nat
    (hfits : exposedSaving timeSaved considerLoop tree.forest < 2 ^ 64) :
    (evaluateSavings tree timeSaved considerLoop).toNat =
      exposedSaving timeSaved considerLoop tree.forest := by
  by_cases hloop : considerLoop tree.loop = true
  · have hroots := visit_roots (fun _ => 0) tree.forest_nodup hfits
    have hforest : tree.forest.roots = [tree.loop] := rfl
    rw [hforest, children_saved_cons, if_pos hloop, childrenSaved, List.foldl_nil, add_zero]
      at hroots
    exact hroots
  · -- The root has no entry.
    have hroot : tree.loop ∉ tree.children.loops := (List.nodup_cons.mp tree.nodup).1
    have hnone : evaluateSavings tree timeSaved considerLoop = 0 := by
      unfold evaluateSavings evaluateSavingsOf LoopTree.forest LoopForest.visitPostOrder
      rw [visitLoop, if_neg hloop, LoopForest.visitPostOrder, visit_other _ hroot]
    rw [hnone, LoopTree.forest, exposedSaving, if_neg hloop]
    rfl

/-- Sums of the time saved by loops that are considered and not nested fit 64 bits, and loops in
none that is not considered save as much. -/
def SavingsAreExposed : Prop :=
  ∀ chosen, Choice tree.forest considerLoop chosen → savedBy timeSaved chosen < 2 ^ 64 ∧
    ∃ other, ExposedChoice tree.forest considerLoop other ∧
      savedBy timeSaved chosen ≤ savedBy timeSaved other

/-- The estimate is the most that a choice saves exactly where the savings are exposed. -/
theorem best_saving_iff :
    IsBestSaving tree timeSaved considerLoop (evaluateSavings tree timeSaved considerLoop) ↔
      SavingsAreExposed tree timeSaved considerLoop := by
  obtain ⟨best, hbest, hsaves⟩ := exists_exposed_choice timeSaved considerLoop tree.forest_nodup
  constructor
  · rintro ⟨-, hupper⟩ chosen hchosen
    have hfits : ∀ chosen, Choice tree.forest considerLoop chosen →
        savedBy timeSaved chosen < 2 ^ 64 :=
      fun chosen hchosen => (hupper ⟨chosen, hchosen, rfl⟩).trans_lt (BitVec.isLt _)
    refine ⟨hfits chosen hchosen, best, hbest, ?_⟩
    have hvalue := evaluate_savings_to_nat tree timeSaved considerLoop
      (hsaves ▸ hfits best hbest.toChoice)
    rw [hsaves, ← hvalue]
    exact hupper ⟨chosen, hchosen, rfl⟩
  · intro hexposed
    have hvalue := evaluate_savings_to_nat tree timeSaved considerLoop
      (hsaves ▸ (hexposed best hbest.toChoice).1)
    refine ⟨⟨best, hbest.toChoice, hvalue.trans hsaves.symm⟩, ?_⟩
    rintro _ ⟨chosen, hchosen, rfl⟩
    obtain ⟨other, hother, hle⟩ := (hexposed chosen hchosen).2
    rw [hvalue]
    exact hle.trans (exposed_choice_le hother)

/-- The estimates for all techniques and for some loops only are the most that choices save, agree
with the copy in the time-saved tool, and the second is at most the first, exactly where the time
saved by loops that are not nested adds up within 64 bits and every choice of considered loops is
matched by one of loops in none that is not considered. -/
theorem evaluate_savings_iff :
    (IsBestSaving tree timeSaved (fun _ => true)
        (evaluateSavingsPair tree timeSaved considerLoop).1 ∧
      IsBestSaving tree timeSaved considerLoop
        (evaluateSavingsPair tree timeSaved considerLoop).2 ∧
      TimeSaved.evaluateSavings tree timeSaved considerLoop =
        evaluateSavings tree timeSaved considerLoop ∧
      (evaluateSavingsPair tree timeSaved considerLoop).2 ≤
        (evaluateSavingsPair tree timeSaved considerLoop).1) ↔
    (∀ chosen, Choice tree.forest (fun _ => true) chosen →
        savedBy timeSaved chosen < 2 ^ 64) ∧
      ∀ chosen, Choice tree.forest considerLoop chosen →
        ∃ other, ExposedChoice tree.forest considerLoop other ∧
          savedBy timeSaved chosen ≤ savedBy timeSaved other := by
  have hall : ∀ {chosen}, Choice tree.forest considerLoop chosen →
      Choice tree.forest (fun _ => true) chosen :=
    fun hchosen => ⟨hchosen.mem, fun _ _ => rfl, hchosen.apart⟩
  unfold evaluateSavingsPair
  rw [best_saving_iff, best_saving_iff]
  constructor
  · rintro ⟨hfits, hexposed, -, -⟩
    exact ⟨fun chosen hchosen => (hfits chosen hchosen).1,
      fun chosen hchosen => (hexposed chosen hchosen).2⟩
  · rintro ⟨hfits, hmatched⟩
    have hbest : SavingsAreExposed tree timeSaved fun _ => true :=
      fun chosen hchosen => ⟨hfits chosen hchosen, chosen,
        ⟨hchosen, fun _ _ _ _ => rfl⟩, Nat.le_refl _⟩
    have hsome : SavingsAreExposed tree timeSaved considerLoop :=
      fun chosen hchosen => ⟨hfits chosen (hall hchosen), hmatched chosen hchosen⟩
    refine ⟨hbest, hsome, rfl, ?_⟩
    -- The choice that the second estimate stands for is one for the first.
    obtain ⟨chosen, hchosen, hvalue⟩ := ((best_saving_iff tree timeSaved considerLoop).mpr hsome).1
    rw [BitVec.le_def, hvalue]
    exact ((best_saving_iff tree timeSaved _).mpr hbest).2 ⟨chosen, hall hchosen, rfl⟩

/-- A loop that is not DOALL around one that is: the estimate for DOALL only is zero. -/
theorem evaluate_savings_hides_nested :
    ∃ (tree : LoopTree Bool) (timeSaved : Bool → BitVec 64) (doallLoops : Bool → Bool),
      (evaluateSavingsPair tree timeSaved doallLoops).2 = 0 ∧
      ¬ IsBestSaving tree timeSaved doallLoops
        (evaluateSavingsPair tree timeSaved doallLoops).2 := by
  refine ⟨⟨true, .tree false .nil .nil, by decide⟩, fun _ => 5, fun loop => !loop, by decide, ?_⟩
  rintro ⟨-, hupper⟩
  have hchoice : Choice (.tree true (.tree false .nil .nil) .nil) (fun loop => !loop) {false} :=
    ⟨by decide, by decide, by simp [LoopForest.NestedIn, LoopForest.loops]⟩
  have hle := hupper ⟨{false}, hchoice, rfl⟩
  exact absurd hle (by decide)

end Best

end Gino.Planner
