import Gino.Planner.Selection
import Std.Data.TreeMap

/-!
# The loops that the Parallelizer chooses

`Parallelizer::parallelizeLoops`: read the numbers that the planner left on the loops, drop the
loops the lists of indexes exclude, and try the others in the order of the numbers, except a loop
with a block of one that was parallelized before. Whether an attempt succeeds is left open.
-/

namespace Gino.Parallelizer

open Planner LoopForest

variable {Loop Block : Type*}

/-- The lists of indexes of the options. -/
structure LoopIndexes where
  whiteList : List Int
  blackList : List Int

/-- The white list decides if it is not empty, and else the black list. -/
def LoopIndexes.isSelected (indexes : LoopIndexes) (i : Int) : Bool :=
  if indexes.whiteList ≠ [] then decide (i ∈ indexes.whiteList)
  else if indexes.blackList ≠ [] then decide (i ∉ indexes.blackList)
  else true

/-- The loops to parallelize, by their numbers. -/
abbrev LoopParallelizationOrder (Loop : Type*) := Std.TreeMap Nat Loop

/-- What the visitor does at a loop. It fails where `std::stoi` throws. -/
def selectLoop (indexes : LoopIndexes) (looporder : Loop → Option String)
    (order : Option (LoopParallelizationOrder Loop)) (ls : Loop) :
    Option (LoopParallelizationOrder Loop) :=
  match looporder ls with
  | none => order
  | some text =>
      order.bind fun loopParallelizationOrder =>
        (stoi text).map fun parallelizationOrderIndex =>
          if indexes.isSelected parallelizationOrderIndex then
            loopParallelizationOrder.insert (parallelizationOrderIndex % 2 ^ 32).toNat ls
          else loopParallelizationOrder

/-- Determine the parallelization order from the metadata. -/
def loopParallelizationOrder (program : Program Loop Block) (indexes : LoopIndexes)
    (looporder : Loop → Option String) : Option (LoopParallelizationOrder Loop) :=
  program.enabled.foldl
    (fun order tree => tree.forest.visitPreOrder (selectLoop indexes looporder) order) (some ∅)

/-- What the Parallelizer keeps track of: the blocks it modified and the attempts with their
outcomes, the first one first. -/
structure Attempts (Loop Block : Type*) where
  modifiedBBs : Block → Bool
  attempts : List (Loop × Bool)

/-- Before the first attempt. -/
def Attempts.start : Attempts Loop Block := ⟨fun _ => false, []⟩

/-- The loops that were parallelized, the first one first. -/
def Attempts.parallelized (state : Attempts Loop Block) : List Loop :=
  (state.attempts.filter (·.2)).map (·.1)

/-- Whether the program was modified, which is what `parallelizeLoops` returns. -/
def Attempts.modified (state : Attempts Loop Block) : Bool :=
  !state.parallelized.isEmpty

variable [DecidableEq Block]

/-- Parallelize a loop unless one of its blocks was modified. The outcome of an attempt may depend
on all attempts before it. -/
def attemptLoop (program : Program Loop Block) (parallelizeLoop : List (Loop × Bool) → Loop → Bool)
    (state : Attempts Loop Block) (ls : Loop) : Attempts Loop Block :=
  if (program.basicBlocks ls).any state.modifiedBBs then state
  else
    let loopIsParallelized := parallelizeLoop state.attempts ls
    { modifiedBBs := fun bb =>
        state.modifiedBBs bb || loopIsParallelized && decide (bb ∈ program.basicBlocks ls)
      attempts := state.attempts ++ [(ls, loopIsParallelized)] }

/-- `Parallelizer::parallelizeLoops`. -/
def parallelizeLoops (program : Program Loop Block) (indexes : LoopIndexes)
    (looporder : Loop → Option String) (parallelizeLoop : List (Loop × Bool) → Loop → Bool) :
    Option (Attempts Loop Block) :=
  (loopParallelizationOrder program indexes looporder).map fun order =>
    (order.toList.map (·.2)).foldl (attemptLoop program parallelizeLoop) .start

/-! ## The order read from the metadata -/

section Order

omit [DecidableEq Block]

variable {program : Program Loop Block} {indexes : LoopIndexes}
  {looporder : Loop → Option String} {listed visited : List Loop}

/-- The trees are visited as one list of loops. -/
theorem order_eq_foldl (program : Program Loop Block) (indexes : LoopIndexes)
    (looporder : Loop → Option String) :
    loopParallelizationOrder program indexes looporder =
      (program.enabled.flatMap fun tree => tree.forest.loops).foldl
        (selectLoop indexes looporder) (some ∅) := by
  unfold loopParallelizationOrder
  rw [List.foldl_flatMap]
  simp only [visit_pre_order_eq_foldl]

/-- After an exception there is no order. -/
theorem foldl_select_none : visited.foldl (selectLoop indexes looporder) none = none := by
  induction visited with
  | nil => rfl
  | cons ls visited ih =>
      rw [List.foldl_cons]
      have hnone : selectLoop indexes looporder none ls = none := by
        unfold selectLoop
        cases looporder ls <;> rfl
      rw [hnone, ih]

/-- A number that an `int` does not hold leaves no order. -/
theorem foldl_select_overflow {ls : Loop} {number : BitVec 32} (hmem : ls ∈ visited)
    (horder : looporder ls = some (toString32 number)) (hbig : 2 ^ 31 ≤ number.toNat)
    (order : Option (LoopParallelizationOrder Loop)) :
    visited.foldl (selectLoop indexes looporder) order = none := by
  obtain ⟨before, after, rfl⟩ := List.append_of_mem hmem
  rw [List.foldl_append, List.foldl_cons]
  have hnone : ∀ order, selectLoop indexes looporder order ls = none := by
    intro order
    unfold selectLoop
    rw [horder]
    dsimp only
    rw [stoi_to_string, if_neg (Nat.not_lt.mpr hbig)]
    cases order <;> rfl
  rw [hnone, foldl_select_none]

/-- The metadata are the places in a list that an `int` can count. -/
structure Numbered (looporder : Loop → Option String) (listed : List Loop) : Prop where
  nodup : listed.Nodup
  fits : listed.length ≤ 2 ^ 31
  of_listed : ∀ i ls, listed[i]? = some ls →
    looporder ls = some (toString32 (BitVec.ofNat 32 i))
  of_not_listed : ∀ ls, ls ∉ listed → looporder ls = none

/-- The visitor at a listed loop enters it under its number if the lists select that. -/
theorem select_listed (hnumbered : Numbered looporder listed) {i : Nat} {ls : Loop}
    (h : listed[i]? = some ls) (order : LoopParallelizationOrder Loop) :
    selectLoop indexes looporder (some order) ls =
      some (if indexes.isSelected i then order.insert i ls else order) := by
  have hlt : i < 2 ^ 31 :=
    (List.getElem?_eq_some_iff.mp h).1.trans_le hnumbered.fits
  have hnat : (BitVec.ofNat 32 i).toNat = i := by
    rw [BitVec.toNat_ofNat]
    exact Nat.mod_eq_of_lt (hlt.trans (by decide))
  unfold selectLoop
  rw [hnumbered.of_listed i ls h]
  dsimp only
  rw [stoi_to_string, hnat, if_pos hlt]
  have hkey : ((i : Int) % 2 ^ 32).toNat = i := by omega
  rw [Option.bind_some, Option.map_some, hkey]

/-- The order has the listed loops that were visited and are selected, under their numbers. -/
theorem foldl_select (hnumbered : Numbered looporder listed) (indexes : LoopIndexes)
    (visited : List Loop) :
    ∃ order, visited.foldl (selectLoop indexes looporder) (some ∅) = some order ∧
      ∀ (i : Nat) (ls : Loop), order[i]? = some ls ↔
        ls ∈ visited ∧ listed[i]? = some ls ∧ indexes.isSelected i = true := by
  induction visited using List.reverseRecOn with
  | nil => exact ⟨∅, rfl, fun i ls => by simp⟩
  | append_singleton visited ls ih =>
      obtain ⟨order, hfold, hspec⟩ := ih
      rw [List.foldl_append, hfold, List.foldl_cons, List.foldl_nil]
      by_cases hlisted : ls ∈ listed
      · obtain ⟨i, hget⟩ := List.getElem?_of_mem hlisted
        rw [select_listed hnumbered hget]
        refine ⟨_, rfl, fun k other => ?_⟩
        -- Only under its own number can the loop be new in the order.
        have hinj : listed[k]? = some ls → i = k := fun hk =>
          (List.getElem?_inj (List.getElem?_eq_some_iff.mp hget).1 hnumbered.nodup).mp
            (hget.trans hk.symm)
        by_cases hselected : indexes.isSelected i = true
        · rw [if_pos hselected, Std.TreeMap.getElem?_insert]
          by_cases hkey : i = k
          · subst hkey
            simp only [Std.compare_self, ↓reduceIte, Option.some.injEq, List.mem_append,
              List.mem_singleton, hget, hselected, and_true]
            tauto
          · have hne : compare i k ≠ .eq := fun h => hkey (Nat.compare_eq_eq.mp h)
            rw [if_neg hne, hspec]
            simp only [List.mem_append, List.mem_singleton]
            grind
        · rw [if_neg hselected, hspec]
          simp only [List.mem_append, List.mem_singleton]
          grind
      · refine ⟨order, ?_, fun k other => ?_⟩
        · unfold selectLoop
          rw [hnumbered.of_not_listed ls hlisted]
        · rw [hspec]
          have hnot : listed[k]? = some other → other ≠ ls :=
            fun hk heq => hlisted (heq ▸ List.mem_of_getElem? hk)
          simp only [List.mem_append, List.mem_singleton]
          tauto

/-- The planner numbers the listed loops, as long as an `int` can count them. -/
theorem planner_numbers [DecidableEq Loop] {platform : Platform Loop} {worth : Worth}
    (h : (listedLoops platform program worth).length ≤ 2 ^ 31) :
    Numbered (runOnModule platform program worth).looporder
      (listedLoops platform program worth) where
  nodup := listed_nodup platform program worth
  fits := h
  of_listed _ _ hget := looporder_of_listed hget
  of_not_listed _ hmem := looporder_of_not_listed hmem

/-- A listed loop is a loop of an enabled tree. -/
theorem listed_enabled [DecidableEq Loop] {platform : Platform Loop} {worth : Worth} {ls : Loop}
    (h : ls ∈ listedLoops platform program worth) :
    ls ∈ program.enabled.flatMap fun tree => tree.forest.loops := by
  unfold listedLoops at h
  obtain ⟨tree, htree, hmem⟩ := List.mem_flatMap.mp h
  exact List.mem_flatMap.mpr (program.planned_enabled tree htree ls (mem_of_mem_selected hmem))

end Order

/-! ## The attempts -/

section Attempts

variable {program : Program Loop Block} {parallelizeLoop : List (Loop × Bool) → Loop → Bool}
  {loops done : List Loop} {state : Attempts Loop Block} {ls : Loop} {R : Loop → Loop → Prop}

/-- A common block. -/
def ShareBlock (program : Program Loop Block) (l1 l2 : Loop) : Prop :=
  ∃ bb ∈ program.basicBlocks l1, bb ∈ program.basicBlocks l2

/-- What holds after the loops `done` were tried in this order, in which an earlier loop is related
to a later one by `R`. -/
structure TriedInOrder (program : Program Loop Block) (R : Loop → Loop → Prop) (done : List Loop)
    (state : Attempts Loop Block) : Prop where
  modified_iff : ∀ bb, state.modifiedBBs bb = true ↔
    ∃ ls ∈ state.parallelized, bb ∈ program.basicBlocks ls
  disjoint : state.parallelized.Pairwise fun l1 l2 => ¬ ShareBlock program l1 l2
  attempted_done : ∀ attempt ∈ state.attempts, attempt.1 ∈ done
  tried : ∀ ls ∈ done, (∃ outcome, (ls, outcome) ∈ state.attempts) ∨
    ∃ earlier ∈ state.parallelized, R earlier ls ∧ ShareBlock program earlier ls

omit [DecidableEq Block] in
/-- A parallelized loop was attempted. -/
theorem mem_parallelized : ls ∈ state.parallelized ↔ (ls, true) ∈ state.attempts := by
  unfold Attempts.parallelized
  simp

omit [DecidableEq Block] in
/-- Before the first attempt. -/
theorem tried_start (program : Program Loop Block) (R : Loop → Loop → Prop) :
    TriedInOrder program R [] .start where
  modified_iff bb := by simp [Attempts.start, Attempts.parallelized]
  disjoint := .nil
  attempted_done attempt h := by simp [Attempts.start] at h
  tried ls h := by simp at h

/-- The state after an attempt with an outcome. -/
def Attempts.after (state : Attempts Loop Block) (program : Program Loop Block) (ls : Loop)
    (outcome : Bool) : Attempts Loop Block where
  modifiedBBs bb := state.modifiedBBs bb || outcome && decide (bb ∈ program.basicBlocks ls)
  attempts := state.attempts ++ [(ls, outcome)]

/-- An attempt may parallelize its loop. -/
theorem parallelized_after (outcome : Bool) :
    (state.after program ls outcome).parallelized =
      state.parallelized ++ if outcome then [ls] else [] := by
  unfold Attempts.parallelized Attempts.after
  cases outcome <;> simp

omit [DecidableEq Block] in
/-- A loop with a modified block is not attempted: the block is one of an earlier loop that was
parallelized. -/
theorem TriedInOrder.skip (h : TriedInOrder program R done state)
    (hR : ∀ earlier ∈ done, R earlier ls)
    (hmodified : ∃ bb ∈ program.basicBlocks ls, state.modifiedBBs bb = true) :
    TriedInOrder program R (done ++ [ls]) state := by
  obtain ⟨bb, hbb, hmodified⟩ := hmodified
  obtain ⟨earlier, hparallelized, hblock⟩ := (h.modified_iff bb).mp hmodified
  have hearlier : earlier ∈ done := h.attempted_done _ (mem_parallelized.mp hparallelized)
  refine ⟨h.modified_iff, h.disjoint,
    fun attempt hmem => List.mem_append_left _ (h.attempted_done attempt hmem), ?_⟩
  intro other hother
  rcases List.mem_append.mp hother with hdone | hnew
  · exact h.tried other hdone
  · obtain rfl := List.mem_singleton.mp hnew
    exact .inr ⟨earlier, hparallelized, hR earlier hearlier, bb, hblock, hbb⟩

/-- A loop without modified blocks is attempted, with any outcome. -/
theorem TriedInOrder.after (h : TriedInOrder program R done state)
    (hclean : ∀ bb ∈ program.basicBlocks ls, ¬ state.modifiedBBs bb = true) (outcome : Bool) :
    TriedInOrder program R (done ++ [ls]) (state.after program ls outcome) := by
  refine ⟨fun bb => ?_, ?_, fun attempt hmem => ?_, fun other hother => ?_⟩
  · rw [parallelized_after]
    show (_ || _) = true ↔ _
    rw [Bool.or_eq_true, h.modified_iff]
    cases outcome <;> simp [or_and_right, exists_or]
  · rw [parallelized_after, List.pairwise_append]
    refine ⟨h.disjoint, by cases outcome <;> simp, ?_⟩
    -- A block in common with an earlier loop would be a modified one.
    intro earlier hmem other hother ⟨bb, hblock, hbb⟩
    obtain rfl : other = ls := by
      cases outcome <;> simp_all
    exact hclean bb hbb ((h.modified_iff bb).mpr ⟨earlier, hmem, hblock⟩)
  · rcases List.mem_append.mp hmem with hold | hnew
    · exact List.mem_append_left _ (h.attempted_done attempt hold)
    · obtain rfl := List.mem_singleton.mp hnew
      exact List.mem_append_right _ (List.mem_singleton_self ls)
  · rcases List.mem_append.mp hother with hdone | hnew
    · rcases h.tried other hdone with ⟨result, hattempt⟩ | ⟨earlier, hmem, hrest⟩
      · exact .inl ⟨result, List.mem_append_left _ hattempt⟩
      · rw [parallelized_after]
        exact .inr ⟨earlier, List.mem_append_left _ hmem, hrest⟩
    · obtain rfl := List.mem_singleton.mp hnew
      exact .inl ⟨outcome, List.mem_append_right _ (List.mem_singleton_self _)⟩

/-- Trying the next loop. -/
theorem TriedInOrder.attempt (h : TriedInOrder program R done state)
    (hR : ∀ earlier ∈ done, R earlier ls) :
    TriedInOrder program R (done ++ [ls]) (attemptLoop program parallelizeLoop state ls) := by
  unfold attemptLoop
  by_cases hany : (program.basicBlocks ls).any state.modifiedBBs = true
  · rw [if_pos hany]
    exact h.skip hR (List.any_eq_true.mp hany)
  · rw [if_neg hany]
    exact h.after (fun bb hbb hmodified => hany (List.any_eq_true.mpr ⟨bb, hbb, hmodified⟩)) _

/-- All loops in order. -/
theorem tried_in_order (program : Program Loop Block)
    (parallelizeLoop : List (Loop × Bool) → Loop → Bool) (hR : loops.Pairwise R) :
    TriedInOrder program R loops
      (loops.foldl (attemptLoop program parallelizeLoop) .start) := by
  induction loops using List.reverseRecOn with
  | nil => exact tried_start program R
  | append_singleton loops ls ih =>
      obtain ⟨hloops, -, hlast⟩ := List.pairwise_append.mp hR
      rw [List.foldl_append, List.foldl_cons, List.foldl_nil]
      exact (ih hloops).attempt fun earlier hmem => hlast earlier hmem ls List.mem_cons_self

end Attempts

/-- The planner and then the Parallelizer. -/
def planAndParallelize [DecidableEq Loop] (platform : Platform Loop) (program : Program Loop Block)
    (worth : Worth) (indexes : LoopIndexes)
    (parallelizeLoop : List (Loop × Bool) → Loop → Bool) : Option (Attempts Loop Block) :=
  parallelizeLoops program indexes (runOnModule platform program worth).looporder parallelizeLoop

/-! ## Best first -/

section BestFirst

variable [DecidableEq Loop] {platform : Platform Loop} {program : Program Loop Block}
  {worth : Worth} {indexes : LoopIndexes} {parallelizeLoop : List (Loop × Bool) → Loop → Bool}

/-- With more listed loops than an `int` can count, `std::stoi` throws. -/
theorem plan_overflow (h : 2 ^ 31 < (listedLoops platform program worth).length) :
    planAndParallelize platform program worth indexes parallelizeLoop = none := by
  unfold planAndParallelize parallelizeLoops
  have hget := List.getElem?_eq_getElem h
  rw [order_eq_foldl, foldl_select_overflow (listed_enabled (List.getElem_mem h))
    (looporder_of_listed hget) (by decide)]
  rfl

/-- The loops are tried in the order in which they are listed. -/
theorem plan_tries_in_order (indexes : LoopIndexes)
    (parallelizeLoop : List (Loop × Bool) → Loop → Bool)
    (h : (listedLoops platform program worth).length ≤ 2 ^ 31) :
    ∃ loops state, planAndParallelize platform program worth indexes parallelizeLoop = some state ∧
      (∀ ls, ls ∈ loops ↔ ∃ i : Nat, (listedLoops platform program worth)[i]? = some ls ∧
        indexes.isSelected i = true) ∧
      TriedInOrder program (fun earlier ls => ∃ j i : Nat, j < i ∧
        (listedLoops platform program worth)[j]? = some earlier ∧
        (listedLoops platform program worth)[i]? = some ls) loops state := by
  obtain ⟨order, hfold, hspec⟩ := foldl_select (planner_numbers h) indexes
    (program.enabled.flatMap fun tree => tree.forest.loops)
  have hentry : ∀ entry ∈ order.toList, (listedLoops platform program worth)[entry.1]? =
      some entry.2 ∧ indexes.isSelected entry.1 = true := by
    intro entry hmem
    exact ((hspec entry.1 entry.2).mp (Std.TreeMap.mem_toList_iff_getElem?_eq_some.mp hmem)).2
  refine ⟨order.toList.map (·.2), _, ?_, fun ls => ?_, tried_in_order program parallelizeLoop ?_⟩
  · unfold planAndParallelize parallelizeLoops
    rw [order_eq_foldl, hfold, Option.map_some]
  · rw [List.mem_map]
    constructor
    · intro ⟨entry, hmem, heq⟩
      exact ⟨entry.1, heq ▸ hentry entry hmem⟩
    · intro ⟨i, hget, hselected⟩
      have hvisited := listed_enabled (List.mem_of_getElem? hget)
      exact ⟨(i, ls), Std.TreeMap.mem_toList_iff_getElem?_eq_some.mpr
        ((hspec i ls).mpr ⟨hvisited, hget, hselected⟩), rfl⟩
  · rw [List.pairwise_map]
    refine Std.TreeMap.ordered_keys_toList.imp_of_mem fun {earlier later} hearlier hlater hlt => ?_
    exact ⟨earlier.1, later.1, Nat.compare_eq_lt.mp hlt, (hentry earlier hearlier).1,
      (hentry later hlater).1⟩

omit [DecidableEq Block] in
/-- A loop listed before another one with a common block is at least as good. -/
theorem listed_best_first {i j : Nat} {earlier ls : Loop} (hlt : j < i)
    (hearlier : (listedLoops platform program worth)[j]? = some earlier)
    (hls : (listedLoops platform program worth)[i]? = some ls)
    (hshare : ShareBlock program earlier ls) : BestFirst program earlier ls := by
  obtain ⟨hj, rfl⟩ := List.getElem?_eq_some_iff.mp hearlier
  obtain ⟨hi, rfl⟩ := List.getElem?_eq_some_iff.mp hls
  exact List.pairwise_iff_getElem.mp (listed_pairwise platform program worth) j i hj hi hlt hshare

/-- For every forest, every lists of indexes and every outcome of the attempts, the planner and
the Parallelizer give a result unless an `int` cannot count the listed loops. Each listed loop has
its place in the list as its number. No two parallelized loops share a block, only listed loops
that the lists select are attempted, and each of them is, or it shares a block with a loop that
was parallelized before and is at least as good. On two platforms the loops with one number are
tied loops of one tree, and where both list tied loops in one order they do the same. -/
theorem plan_and_parallelize_best_first (program : Program Loop Block) (worth : Worth)
    (indexes : LoopIndexes) (parallelizeLoop : List (Loop × Bool) → Loop → Bool) :
    (∀ platform : Platform Loop,
      ((planAndParallelize platform program worth indexes parallelizeLoop).isSome ↔
        (listedLoops platform program worth).length ≤ 2 ^ 31) ∧
      (∀ (i : Nat) ls, (listedLoops platform program worth)[i]? = some ls →
        (runOnModule platform program worth).looporder ls =
          some (toString32 (BitVec.ofNat 32 i))) ∧
      ∀ state, planAndParallelize platform program worth indexes parallelizeLoop = some state →
        state.parallelized.Pairwise (fun l1 l2 => ¬ ShareBlock program l1 l2) ∧
        (∀ attempt ∈ state.attempts, ∃ i : Nat,
          (listedLoops platform program worth)[i]? = some attempt.1 ∧
            indexes.isSelected i = true) ∧
        ∀ (i : Nat) ls, (listedLoops platform program worth)[i]? = some ls →
          indexes.isSelected i = true →
          (∃ outcome, (ls, outcome) ∈ state.attempts) ∨
            ∃ (j : Nat) (earlier : Loop), j < i ∧
              (listedLoops platform program worth)[j]? = some earlier ∧
              earlier ∈ state.parallelized ∧ ShareBlock program earlier ls ∧
              BestFirst program earlier ls) ∧
    ∀ platform other : Platform Loop,
      List.Forall₂ (fun ls otherLs => Tied program ls otherLs ∧
        ∃ tree ∈ program.planned, ls ∈ tree.forest.loops ∧ otherLs ∈ tree.forest.loops)
        (listedLoops platform program worth) (listedLoops other program worth) ∧
      ∀ tieOrder : Loop → Loop → Prop, (∀ l1 l2, tieOrder l1 l2 → ¬ tieOrder l2 l1) →
        (∀ tree ∈ program.planned, ∀ p : Platform Loop, p = platform ∨ p = other →
          (selectTheOrderOfLoopsToParallelize p program worth tree).1.Pairwise fun l1 l2 =>
            Tied program l1 l2 → tieOrder l1 l2) →
        planAndParallelize platform program worth indexes parallelizeLoop =
          planAndParallelize other program worth indexes parallelizeLoop := by
  refine ⟨fun platform => ⟨?_, fun i ls => looporder_of_listed, ?_⟩, fun platform other =>
    ⟨listed_tied platform other program worth, fun tieOrder hasymm hties => ?_⟩⟩
  · constructor
    · intro hsome
      by_contra hlong
      rw [plan_overflow (Nat.lt_of_not_le hlong)] at hsome
      exact Bool.noConfusion hsome
    · intro hfits
      obtain ⟨loops, state, hstate, -⟩ := plan_tries_in_order indexes parallelizeLoop hfits
      rw [hstate]
      rfl
  · intro state hstate
    by_cases hfits : (listedLoops platform program worth).length ≤ 2 ^ 31
    · obtain ⟨loops, found, hfound, hloops, htried⟩ :=
        plan_tries_in_order indexes parallelizeLoop hfits
      obtain rfl : found = state := Option.some.inj (hfound.symm.trans hstate)
      refine ⟨htried.disjoint, fun attempt hmem => (hloops _).mp (htried.attempted_done _ hmem), ?_⟩
      intro i ls hget hselected
      rcases htried.tried ls ((hloops ls).mpr ⟨i, hget, hselected⟩) with
        hattempt | ⟨earlier, hmem, ⟨j, k, hlt, hearlier, hls⟩, hshare⟩
      · exact .inl hattempt
      · have hplace : i = k := (List.getElem?_inj (List.getElem?_eq_some_iff.mp hget).1
          (listed_nodup platform program worth)).mp (hget.trans hls.symm)
        exact .inr ⟨j, earlier, hplace ▸ hlt, hearlier, hmem, hshare,
          listed_best_first hlt hearlier hls hshare⟩
    · rw [plan_overflow (Nat.lt_of_not_le hfits)] at hstate
      cases hstate
  · unfold planAndParallelize
    rw [looporder_eq, looporder_eq, listed_eq hasymm hties]

end BestFirst

end Gino.Parallelizer
