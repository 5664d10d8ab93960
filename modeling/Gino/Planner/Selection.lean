import Gino.Planner.Savings
import Mathlib.Data.List.Forall2
import Mathlib.Data.List.Nodup
import Mathlib.Data.List.TakeWhile

/-!
# The order of the loops to parallelize

`selectTheOrderOfLoopsToParallelize` sorts the loops of a tree that save enough time, and
`runOnModule` of the planner numbers them across the trees and leaves the number of a loop as text
on the loop. The loops of a tree come out of a map with pointers for keys, and the sort is not
stable: both are a `Platform`, which is any that does what the C++ library promises.
-/

namespace Gino.Planner

open LoopForest

/-! ## The C++ library -/

/-- The relation is a strict weak order. -/
structure StrictWeakOrder {α : Type*} (compare : α → α → Bool) : Prop where
  irrefl : ∀ x, compare x x = false
  trans : ∀ x y z, compare x y = true → compare y z = true → compare x z = true
  incomparable_trans : ∀ x y z, compare x y = false → compare y x = false →
    compare y z = false → compare z y = false → compare x z = false ∧ compare z x = false

/-- What the C++ library leaves open: the order in which a map with pointers for keys is iterated,
and where a sort puts elements that compare as equivalent. -/
structure Platform (Loop : Type*) where
  mapOrder : List Loop → List Loop
  mapOrder_perm : ∀ loops, (mapOrder loops).Perm loops
  sort : (Loop → Loop → Bool) → List Loop → List Loop
  sort_perm : ∀ compare loops, StrictWeakOrder compare → (sort compare loops).Perm loops
  sort_sorted : ∀ compare loops, StrictWeakOrder compare →
    (sort compare loops).Pairwise fun l1 l2 => compare l2 l1 = false

/-- `std::to_string` of an unsigned number of 32 bits. -/
def toString32 (number : BitVec 32) : String := Nat.repr number.toNat

/-- `std::stoi`: blanks, a sign and decimal digits. No digit, and a number that an `int` does not
hold, is an exception. -/
def stoi (text : String) : Option Int :=
  let chars := text.toList.dropWhile Char.isWhitespace
  let negative := chars.head? == some '-'
  let unsigned := if negative || chars.head? == some '+' then chars.drop 1 else chars
  let digits := unsigned.takeWhile Char.isDigit
  let magnitude : Int := Nat.ofDigitChars 10 digits 0
  let number := if negative then -magnitude else magnitude
  if digits.isEmpty then none
  else if -2 ^ 31 ≤ number ∧ number < 2 ^ 31 then some number
  else none

/-- A blank is not a digit. -/
theorem blank_not_digit {c : Char} (h : c.isWhitespace = true) : c.isDigit = false := by
  simp only [Char.isWhitespace, Bool.or_eq_true, decide_eq_true_eq] at h
  rcases h with ((rfl | rfl) | rfl) | rfl <;> rfl

/-- A number comes back from its text, if an `int` holds it. -/
theorem stoi_to_string (number : BitVec 32) :
    stoi (toString32 number) =
      if number.toNat < 2 ^ 31 then some (number.toNat : Int) else none := by
  have hdigits : ∀ c ∈ Nat.toDigits 10 number.toNat, c.isDigit = true :=
    fun c hc => Nat.isDigit_of_mem_toDigits (by decide) (by decide) hc
  have hchars : (Nat.toDigits 10 number.toNat).dropWhile Char.isWhitespace =
      Nat.toDigits 10 number.toNat := by
    rw [List.dropWhile_eq_self_iff]
    intro hlength hblank
    have hdigit := hdigits _ (List.getElem_mem hlength)
    exact Bool.false_ne_true ((blank_not_digit hblank).symm.trans hdigit)
  have hsign : ∀ sign : Char, sign.isDigit = false →
      ((Nat.toDigits 10 number.toNat).head? == some sign) = false := by
    intro sign hsign
    rw [beq_eq_false_iff_ne]
    intro hhead
    rw [hdigits sign (List.mem_of_head? hhead)] at hsign
    exact Bool.noConfusion hsign
  have htake : (Nat.toDigits 10 number.toNat).takeWhile Char.isDigit =
      Nat.toDigits 10 number.toNat := List.takeWhile_eq_self_iff.mpr hdigits
  have hempty : (Nat.toDigits 10 number.toNat).isEmpty = false :=
    List.isEmpty_eq_false_iff.mpr Nat.toDigits_ne_nil
  unfold stoi toString32
  rw [Nat.toList_repr]
  simp only [hchars, hsign '-' (by decide), hsign '+' (by decide), htake, hempty, Bool.or_self,
    Bool.false_eq_true, ↓reduceIte, Nat.ofDigitChars_ten_toDigits]
  have hrange : ((-2 ^ 31 : Int) ≤ (number.toNat : Int) ∧ (number.toNat : Int) < 2 ^ 31) ↔
      number.toNat < 2 ^ 31 := by omega
  simp only [hrange]

/-! ## The planner -/

variable {Loop Block : Type*}

/-- What the planner and the Parallelizer know of a program: the forest the planner is left with
after its filters, the forest of all enabled loops, and the data of the loops. Loops with a common
block are in one tree. -/
structure Program (Loop Block : Type*) where
  planned : List (LoopTree Loop)
  enabled : List (LoopTree Loop)
  basicBlocks : Loop → List Block
  timeSaved : Loop → BitVec 64
  nestingLevel : Loop → Nat
  doallLoops : Loop → Bool
  planned_nodup : (planned.flatMap fun tree => tree.forest.loops).Nodup
  planned_enabled : ∀ tree ∈ planned, ∀ loop ∈ tree.forest.loops,
    ∃ enabledTree ∈ enabled, loop ∈ enabledTree.forest.loops
  sharing : ∀ tree ∈ planned, ∀ other ∈ planned, ∀ loop ∈ tree.forest.loops,
    ∀ otherLoop ∈ other.forest.loops, ∀ bb ∈ basicBlocks loop, bb ∈ basicBlocks otherLoop →
      tree = other

/-- Which loops save enough: the option that forces parallelization, and the test of the share of
the time of the program that a loop saves, which is computed in floating point. -/
structure Worth where
  forceParallelization : Bool
  savesEnough : BitVec 64 → Bool

/-- The loop is worth parallelizing it. -/
def Worth.keeps (worth : Worth) (timeSaved : BitVec 64) : Bool :=
  worth.forceParallelization || worth.savesEnough timeSaved

/-- The order of the sort: more time saved first, and at equal time saved the outer level first. -/
def compareOperator (program : Program Loop Block) (l1 l2 : Loop) : Bool :=
  let s1 := program.timeSaved l1
  let s2 := program.timeSaved l2
  if s1 ≠ s2 then decide (s2 < s1)
  else decide (program.nestingLevel l1 < program.nestingLevel l2)

/-! ## The sort -/

section Compare

variable {program : Program Loop Block} {l1 l2 l3 : Loop}

/-- The first loop saves at least as much time, and at equal time saved it is not deeper. -/
def BestFirst (program : Program Loop Block) (l1 l2 : Loop) : Prop :=
  program.timeSaved l2 ≤ program.timeSaved l1 ∧
    (program.timeSaved l1 = program.timeSaved l2 →
      program.nestingLevel l1 ≤ program.nestingLevel l2)

/-- Neither loop is to be sorted before the other. -/
def Tied (program : Program Loop Block) (l1 l2 : Loop) : Prop :=
  program.timeSaved l1 = program.timeSaved l2 ∧ program.nestingLevel l1 = program.nestingLevel l2

/-- A loop is not sorted before another one exactly when that one is at least as good. -/
theorem compare_eq_false_iff :
    compareOperator program l2 l1 = false ↔ BestFirst program l1 l2 := by
  unfold compareOperator BestFirst
  by_cases heq : program.timeSaved l2 = program.timeSaved l1
  · simp [heq]
  · have hne : program.timeSaved l1 ≠ program.timeSaved l2 := Ne.symm heq
    simp only [ne_eq, heq, not_false_eq_true, ↓reduceIte, decide_eq_false_iff_not, hne,
      false_implies, and_true, BitVec.lt_def, BitVec.le_def, not_lt]

/-- `BestFirst` is transitive. -/
theorem BestFirst.trans (h : BestFirst program l1 l2) (hnext : BestFirst program l2 l3) :
    BestFirst program l1 l3 := by
  obtain ⟨hle, hlevel⟩ := h
  obtain ⟨hnextLe, hnextLevel⟩ := hnext
  refine ⟨BitVec.le_trans hnextLe hle, fun heq => ?_⟩
  have hmid : program.timeSaved l1 = program.timeSaved l2 :=
    BitVec.le_antisymm (heq ▸ hnextLe) hle
  exact (hlevel hmid).trans (hnextLevel (hmid ▸ heq))

/-- Of any two loops one is at least as good. -/
theorem best_first_total (program : Program Loop Block) (l1 l2 : Loop) :
    BestFirst program l1 l2 ∨ BestFirst program l2 l1 := by
  unfold BestFirst
  simp only [BitVec.le_def, ← BitVec.toNat_inj]
  omega

/-- Two loops that are as good as each other are tied. -/
theorem BestFirst.tied (h : BestFirst program l1 l2) (hback : BestFirst program l2 l1) :
    Tied program l1 l2 := by
  have heq := BitVec.le_antisymm hback.1 h.1
  exact ⟨heq, Nat.le_antisymm (h.2 heq) (hback.2 heq.symm)⟩

/-- The order of the sort is a strict weak order. -/
theorem compare_strict_weak_order (program : Program Loop Block) :
    StrictWeakOrder (compareOperator program) where
  irrefl x := compare_eq_false_iff.mpr ((best_first_total program x x).elim id id)
  trans x y z hxy hyz := by
    by_contra hxz
    have hzx := compare_eq_false_iff.mp (Bool.eq_false_iff.mpr hxz)
    -- From `z` at least as good as `x`, one of the two strict facts fails.
    rcases best_first_total program x y with h | h
    · have hyz' := compare_eq_false_iff.mpr (hzx.trans h)
      rw [hyz] at hyz'
      exact Bool.noConfusion hyz'
    · rw [compare_eq_false_iff.mpr h] at hxy
      exact Bool.noConfusion hxy
  incomparable_trans x y z hxy hyx hyz hzy := by
    rw [compare_eq_false_iff] at *
    rw [compare_eq_false_iff]
    exact ⟨hyz.trans hxy, hyx.trans hzy⟩

/-- Two orders of one list that are both best first have loops that are tied in the same places. -/
theorem tied_of_perm {loops others : List Loop}
    (hperm : loops.Perm others) (hloops : loops.Pairwise (BestFirst program))
    (hothers : others.Pairwise (BestFirst program)) :
    List.Forall₂ (Tied program) loops others := by
  let key := fun ls => (program.timeSaved ls, program.nestingLevel ls)
  let le := fun k k' : BitVec 64 × Nat => k'.1 ≤ k.1 ∧ (k.1 = k'.1 → k.2 ≤ k'.2)
  have hloopKeys : (loops.map key).Pairwise le := List.pairwise_map.mpr hloops
  have hotherKeys : (others.map key).Pairwise le := List.pairwise_map.mpr hothers
  have hkeys : loops.map key = others.map key := by
    refine List.Perm.eq_of_pairwise (fun k k' _ _ h h' => ?_) hloopKeys hotherKeys (hperm.map key)
    have heq := BitVec.le_antisymm h'.1 h.1
    exact Prod.ext heq (Nat.le_antisymm (h.2 heq) (h'.2 heq.symm))
  have hforall : List.Forall₂ (fun ls other => key ls = key other) loops others := by
    rw [← List.forall₂_map_right_iff, ← List.forall₂_map_left_iff, hkeys]
    exact List.forall₂_same.mpr fun _ _ => rfl
  exact hforall.imp fun ls other h => Prod.ext_iff.mp h

end Compare

/-! ## The numbers -/

/-- `Planner::selectTheOrderOfLoopsToParallelize`: the loops in the order to parallelize them, the
most time the tree can save, and the most it can save with DOALL only. -/
def selectTheOrderOfLoopsToParallelize [DecidableEq Loop] (platform : Platform Loop)
    (program : Program Loop Block) (worth : Worth) (tree : LoopTree Loop) :
    List Loop × BitVec 64 × BitVec 64 :=
  let timeSavedLoops := tree.forest.visitPreOrder (fun loops ls => loops ++ [ls]) []
  let selectedLoops := (platform.mapOrder timeSavedLoops).filter
    fun ldi => worth.keeps (program.timeSaved ldi)
  if selectedLoops.isEmpty then ([], 0, 0)
  else (platform.sort (compareOperator program) selectedLoops,
    evaluateSavingsPair tree program.timeSaved program.doallLoops)

/-- The state of `Planner::runOnModule`: the next number, the metadata of the loops, what the
trees save together, and whether metadata was added. -/
structure PlannerState (Loop : Type*) where
  parallelizationOrderIndex : BitVec 32
  looporder : Loop → Option String
  programMaxTimeSaved : BitVec 64
  programMaxTimeSavedWithDOALLOnly : BitVec 64
  modified : Bool

/-- Before the first tree. -/
def PlannerState.start : PlannerState Loop := ⟨0, fun _ => none, 0, 0, false⟩

variable [DecidableEq Loop]

/-- Attach the next number to a loop. -/
def attachLoopOrder (state : PlannerState Loop) (ls : Loop) : PlannerState Loop :=
  { state with
    parallelizationOrderIndex := state.parallelizationOrderIndex + 1
    looporder := Function.update state.looporder ls
      (some (toString32 state.parallelizationOrderIndex))
    modified := true }

/-- Plan the loops of a tree. -/
def planTree (platform : Platform Loop) (program : Program Loop Block) (worth : Worth)
    (state : PlannerState Loop) (tree : LoopTree Loop) : PlannerState Loop :=
  let (loopsToParallelize, maxTimeSaved, maxTimeSavedWithDOALLOnly) :=
    selectTheOrderOfLoopsToParallelize platform program worth tree
  loopsToParallelize.foldl attachLoopOrder
    { state with
      programMaxTimeSaved := state.programMaxTimeSaved + maxTimeSaved
      programMaxTimeSavedWithDOALLOnly :=
        state.programMaxTimeSavedWithDOALLOnly + maxTimeSavedWithDOALLOnly }

/-- `Planner::runOnModule`. -/
def runOnModule (platform : Platform Loop) (program : Program Loop Block) (worth : Worth) :
    PlannerState Loop :=
  program.planned.foldl (planTree platform program worth) .start

/-- The loops that the planner numbers, in the order of the numbers. -/
def listedLoops (platform : Platform Loop) (program : Program Loop Block) (worth : Worth) :
    List Loop :=
  program.planned.flatMap fun tree =>
    (selectTheOrderOfLoopsToParallelize platform program worth tree).1

/-! ## What the numbers are -/

section Numbers

variable {loops : List Loop} {state : PlannerState Loop} {ls : Loop}

/-- Attaching numbers to loops advances the next number by as many. -/
theorem attach_index :
    (loops.foldl attachLoopOrder state).parallelizationOrderIndex =
      state.parallelizationOrderIndex + BitVec.ofNat 32 loops.length := by
  induction loops generalizing state with
  | nil => simp
  | cons loop loops ih =>
      rw [List.foldl_cons, ih]
      show state.parallelizationOrderIndex + 1 + BitVec.ofNat 32 loops.length = _
      rw [List.length_cons, Nat.add_comm, BitVec.ofNat_add, BitVec.add_assoc]
      rfl

/-- A loop that is not among those numbered keeps its metadata. -/
theorem attach_of_not_mem (h : ls ∉ loops) :
    (loops.foldl attachLoopOrder state).looporder ls = state.looporder ls := by
  induction loops generalizing state with
  | nil => rfl
  | cons loop loops ih =>
      rw [List.mem_cons, not_or] at h
      rw [List.foldl_cons, ih h.2]
      exact Function.update_of_ne h.1 _ _

/-- A loop has its place among the loops numbered as its number. -/
theorem attach_of_mem {i : Nat} (hnodup : loops.Nodup) (h : loops[i]? = some ls) :
    (loops.foldl attachLoopOrder state).looporder ls =
      some (toString32 (state.parallelizationOrderIndex + BitVec.ofNat 32 i)) := by
  induction loops generalizing state i with
  | nil => simp at h
  | cons loop loops ih =>
      obtain ⟨hnew, hrest⟩ := List.nodup_cons.mp hnodup
      rw [List.foldl_cons]
      cases i with
      | zero =>
          rw [List.getElem?_cons_zero, Option.some.injEq] at h
          subst h
          rw [attach_of_not_mem hnew]
          show Function.update state.looporder loop _ loop = _
          rw [Function.update_self]
          simp
      | succ i =>
          rw [List.getElem?_cons_succ] at h
          rw [ih hrest h]
          show some (toString32 (state.parallelizationOrderIndex + 1 + BitVec.ofNat 32 i)) = _
          rw [Nat.add_comm, BitVec.ofNat_add, BitVec.add_assoc]
          rfl

/-- Numbering tree by tree numbers the listed loops of all trees one after the other. -/
theorem foldl_plan_tree (platform : Platform Loop) (program : Program Loop Block) (worth : Worth)
    (trees : List (LoopTree Loop)) {state other : PlannerState Loop}
    (hindex : state.parallelizationOrderIndex = other.parallelizationOrderIndex)
    (horder : state.looporder = other.looporder) :
    (trees.foldl (planTree platform program worth) state).looporder =
      ((trees.flatMap fun tree => (selectTheOrderOfLoopsToParallelize platform program worth
        tree).1).foldl attachLoopOrder other).looporder := by
  have hsame : ∀ (loops : List Loop) (state other : PlannerState Loop),
      state.parallelizationOrderIndex = other.parallelizationOrderIndex →
      state.looporder = other.looporder →
      (loops.foldl attachLoopOrder state).looporder =
        (loops.foldl attachLoopOrder other).looporder := by
    intro loops
    induction loops with
    | nil => exact fun _ _ _ horder => horder
    | cons loop loops ih =>
        intro state other hindex horder
        refine ih _ _ ?_ ?_
        · show _ + 1 = _ + 1
          rw [hindex]
        · show Function.update _ _ _ = Function.update _ _ _
          rw [hindex, horder]
  induction trees generalizing state other with
  | nil => exact horder
  | cons tree trees ih =>
      rw [List.foldl_cons, List.flatMap_cons, List.foldl_append]
      apply ih
      · unfold planTree
        rw [attach_index, attach_index]
        exact congrArg (· + _) hindex
      · exact hsame _ _ _ hindex horder

end Numbers

/-! ## What is listed -/

section Listed

/-- The loops listed for a tree are those of the tree worth parallelizing it. -/
theorem selected_perm (platform : Platform Loop) (program : Program Loop Block) (worth : Worth)
    (tree : LoopTree Loop) :
    (selectTheOrderOfLoopsToParallelize platform program worth tree).1.Perm
      (tree.forest.loops.filter fun ldi => worth.keeps (program.timeSaved ldi)) := by
  have hvisit : tree.forest.visitPreOrder (fun loops ls => loops ++ [ls]) [] =
      tree.forest.loops := by
    rw [visit_pre_order_eq_foldl, List.foldl_append_eq_append, List.nil_append, ← List.flatMap_def,
      List.flatMap_singleton']
  have hkept := (platform.mapOrder_perm tree.forest.loops).filter
    fun ldi => worth.keeps (program.timeSaved ldi)
  unfold selectTheOrderOfLoopsToParallelize
  dsimp only
  rw [hvisit]
  by_cases hempty : ((platform.mapOrder tree.forest.loops).filter
      fun ldi => worth.keeps (program.timeSaved ldi)).isEmpty
  · rw [List.isEmpty_iff] at hempty
    rw [hempty] at hkept ⊢
    exact hkept
  · simp only [hempty, Bool.false_eq_true, ↓reduceIte]
    exact (platform.sort_perm _ _ (compare_strict_weak_order program)).trans hkept

/-- The loops listed for a tree are listed best first. -/
theorem selected_pairwise (platform : Platform Loop) (program : Program Loop Block)
    (worth : Worth) (tree : LoopTree Loop) :
    (selectTheOrderOfLoopsToParallelize platform program worth tree).1.Pairwise
      (BestFirst program) := by
  unfold selectTheOrderOfLoopsToParallelize
  dsimp only
  split
  · exact .nil
  · exact (platform.sort_sorted _ _ (compare_strict_weak_order program)).imp
      fun h => compare_eq_false_iff.mp h

/-- The loops listed are those of the planned trees worth parallelizing it. -/
theorem listed_perm (platform : Platform Loop) (program : Program Loop Block) (worth : Worth) :
    (listedLoops platform program worth).Perm
      ((program.planned.flatMap fun tree => tree.forest.loops).filter
        fun ldi => worth.keeps (program.timeSaved ldi)) := by
  unfold listedLoops
  rw [List.filter_flatMap]
  exact List.Perm.flatMap_left _ fun tree _ => selected_perm platform program worth tree

/-- No loop is listed twice. -/
theorem listed_nodup (platform : Platform Loop) (program : Program Loop Block) (worth : Worth) :
    (listedLoops platform program worth).Nodup :=
  (listed_perm platform program worth).nodup_iff.mpr (program.planned_nodup.filter _)

/-- A loop listed for a tree is a loop of that tree. -/
theorem mem_of_mem_selected {platform : Platform Loop} {program : Program Loop Block}
    {worth : Worth} {tree : LoopTree Loop} {ls : Loop}
    (h : ls ∈ (selectTheOrderOfLoopsToParallelize platform program worth tree).1) :
    ls ∈ tree.forest.loops :=
  List.mem_of_mem_filter ((selected_perm platform program worth tree).mem_iff.mp h)

/-- Listed loops with a common block are listed best first. -/
theorem listed_pairwise (platform : Platform Loop) (program : Program Loop Block)
    (worth : Worth) :
    (listedLoops platform program worth).Pairwise fun l1 l2 =>
      (∃ bb ∈ program.basicBlocks l1, bb ∈ program.basicBlocks l2) → BestFirst program l1 l2 := by
  have hnodup := program.planned_nodup
  rw [List.nodup_flatMap] at hnodup
  have hpairwise : program.planned.Pairwise fun tree other =>
      ∀ l1 ∈ (selectTheOrderOfLoopsToParallelize platform program worth tree).1,
        ∀ l2 ∈ (selectTheOrderOfLoopsToParallelize platform program worth other).1,
          (∃ bb ∈ program.basicBlocks l1, bb ∈ program.basicBlocks l2) →
            BestFirst program l1 l2 := by
    refine hnodup.2.imp_of_mem fun {tree other} htree hother hdisjoint l1 h1 l2 h2 hbb => ?_
    -- A common block puts both loops into one tree, and the trees have no common loop.
    obtain ⟨bb, hbb1, hbb2⟩ := hbb
    have hsame := program.sharing tree htree other hother l1 (mem_of_mem_selected h1) l2
      (mem_of_mem_selected h2) bb hbb1 hbb2
    subst hsame
    exact (hdisjoint (mem_of_mem_selected h1) (mem_of_mem_selected h1)).elim
  unfold listedLoops
  rw [List.pairwise_flatMap]
  refine ⟨fun tree _ => ?_, hpairwise⟩
  apply (selected_pairwise platform program worth tree).imp
  intro l1 l2 hbest _
  exact hbest

/-- The metadata depend on the listed loops only. -/
theorem looporder_eq (platform : Platform Loop) (program : Program Loop Block) (worth : Worth) :
    (runOnModule platform program worth).looporder =
      ((listedLoops platform program worth).foldl attachLoopOrder .start).looporder := by
  unfold runOnModule listedLoops
  exact foldl_plan_tree platform program worth program.planned rfl rfl

/-- A listed loop has its place in the list as its number. -/
theorem looporder_of_listed {platform : Platform Loop} {program : Program Loop Block}
    {worth : Worth} {i : Nat} {ls : Loop} (h : (listedLoops platform program worth)[i]? = some ls) :
    (runOnModule platform program worth).looporder ls = some (toString32 (BitVec.ofNat 32 i)) := by
  rw [looporder_eq]
  refine (attach_of_mem (listed_nodup platform program worth) h).trans ?_
  show some (toString32 (0#32 + _)) = _
  rw [BitVec.zero_add]

/-- A loop that is not listed has no number. -/
theorem looporder_of_not_listed {platform : Platform Loop} {program : Program Loop Block}
    {worth : Worth} {ls : Loop} (h : ls ∉ listedLoops platform program worth) :
    (runOnModule platform program worth).looporder ls = none := by
  rw [looporder_eq]
  exact attach_of_not_mem h

/-- On any two platforms, the loops with one number are in one tree and tied. -/
theorem listed_tied (platform other : Platform Loop) (program : Program Loop Block)
    (worth : Worth) :
    List.Forall₂ (fun ls otherLs => Tied program ls otherLs ∧
      ∃ tree ∈ program.planned, ls ∈ tree.forest.loops ∧ otherLs ∈ tree.forest.loops)
      (listedLoops platform program worth) (listedLoops other program worth) := by
  have hall : ∀ trees : List (LoopTree Loop), (∀ tree ∈ trees, tree ∈ program.planned) →
      List.Forall₂ (fun ls otherLs => Tied program ls otherLs ∧
        ∃ tree ∈ program.planned, ls ∈ tree.forest.loops ∧ otherLs ∈ tree.forest.loops)
        (trees.flatMap fun tree =>
          (selectTheOrderOfLoopsToParallelize platform program worth tree).1)
        (trees.flatMap fun tree =>
          (selectTheOrderOfLoopsToParallelize other program worth tree).1) := by
    intro trees hsub
    induction trees with
    | nil => exact .nil
    | cons tree trees ih =>
        rw [List.flatMap_cons, List.flatMap_cons]
        refine List.rel_append ?_ (ih fun t ht => hsub t (List.mem_cons_of_mem _ ht))
        have hperm := (selected_perm platform program worth tree).trans
          (selected_perm other program worth tree).symm
        have htied := tied_of_perm hperm (selected_pairwise platform program worth tree)
          (selected_pairwise other program worth tree)
        rw [List.forall₂_iff_zip] at htied ⊢
        refine ⟨htied.1, fun {ls otherLs} hmem => ⟨htied.2 hmem, tree, ?_, ?_⟩⟩
        · exact hsub tree List.mem_cons_self
        · exact ⟨mem_of_mem_selected (List.of_mem_zip hmem).1,
            mem_of_mem_selected (List.of_mem_zip hmem).2⟩
  exact hall program.planned fun _ h => h

/-- Platforms that list tied loops of a tree in one order list all loops in one order. -/
theorem listed_eq {platform other : Platform Loop} {program : Program Loop Block} {worth : Worth}
    {tieOrder : Loop → Loop → Prop} (hasymm : ∀ l1 l2, tieOrder l1 l2 → ¬ tieOrder l2 l1)
    (hties : ∀ tree ∈ program.planned, ∀ p : Platform Loop, p = platform ∨ p = other →
      (selectTheOrderOfLoopsToParallelize p program worth tree).1.Pairwise fun l1 l2 =>
        Tied program l1 l2 → tieOrder l1 l2) :
    listedLoops platform program worth = listedLoops other program worth := by
  unfold listedLoops
  apply List.flatMap_congr
  intro tree htree
  have hordered : ∀ p : Platform Loop, p = platform ∨ p = other →
      (selectTheOrderOfLoopsToParallelize p program worth tree).1.Pairwise fun l1 l2 =>
        BestFirst program l1 l2 ∧ (Tied program l1 l2 → tieOrder l1 l2) :=
    fun p hp => List.pairwise_and_iff.mpr
      ⟨selected_pairwise p program worth tree, hties tree htree p hp⟩
  refine List.Perm.eq_of_pairwise ?_ (hordered platform (.inl rfl)) (hordered other (.inr rfl))
    ((selected_perm platform program worth tree).trans
      (selected_perm other program worth tree).symm)
  intro l1 l2 _ _ h h'
  have htied := h.1.tied h'.1
  exact (hasymm _ _ (h.2 htied) (h'.2 ⟨htied.1.symm, htied.2.symm⟩)).elim

end Listed

end Gino.Planner
