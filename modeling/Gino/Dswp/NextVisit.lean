import Gino.Dswp.LoopProgram
import Mathlib.Data.Nat.Find

/-!
# Where the loop is when a stage jumps

A stage jumps from a block without its terminator to the immediate post-dominator of the block. The
sequential loop comes to that block after blocks on which nothing of the stage depends, or stays in
such blocks forever (`next_visit`).
-/

namespace Gino.Dswp.LoopProgram

open Relation Graph Machine

variable {Inst Block Value Region Content : Type*} [DecidableEq Inst] [DecidableEq Region]
  [DecidableEq Block] (program : LoopProgram Inst Block Value Region Content)

/-- The blocks of some visits from one on. -/
def blocksFrom (n length : Nat) : List Block :=
  (List.range' n length).map fun i => (program.sequential i).block

variable {program}

/-- The visits of blocks of the loop are a walk of the loop. -/
theorem walk_blocks_from (n length : Nat)
    (h : ∀ i, n ≤ i → i < n + length → (program.sequential i).block ∈ program.basicBlocks) :
    Walk program.LoopStep (program.blocksFrom n (length + 1)) (program.sequential n).block
      (program.sequential (n + length)).block := by
  induction length generalizing n with
  | zero => exact .single _
  | succ length ih =>
      have hrest := ih (n + 1) fun i hle hlt => h i (by omega) (by omega)
      have hB := h n (Nat.le_refl n) (by omega)
      rw [Nat.add_right_comm n 1 length] at hrest
      exact hrest.cons ⟨hB, (successor_of_visit hB).1⟩

/-- From a block without its terminator the loop comes to the immediate post-dominator before it
comes to a block with the branches that it depends on. -/
theorem exists_visit_of_controlled {subset : List Inst} (hclosed : program.toLoopCFG.Closed subset)
    {n k : Nat} {P : Block} (hkeeps : program.keeps subset (program.sequential n).block = false)
    (hpost : program.postDominatingBB (program.sequential n).block = some P) (hlt : n < k)
    (hloop : ∀ i, n ≤ i → i < k → (program.sequential i).block ∈ program.basicBlocks)
    (hcontrolled : program.Controlled subset (program.sequential k).block) :
    ∃ m, n < m ∧ m ≤ k ∧ (program.sequential m).block = P := by
  obtain ⟨length, rfl⟩ := Nat.exists_eq_add_of_lt hlt
  have hwalk := walk_blocks_from n (length + 1) fun i hle hi => hloop i hle (by omega)
  have hblocks : program.blocksFrom n (length + 1 + 1) = (program.sequential n).block ::
      program.blocksFrom (n + 1) length ++ [(program.sequential (n + length + 1)).block] := by
    unfold blocksFrom
    rw [List.range'_succ, List.range'_concat, List.map_cons, List.map_append, List.cons_append,
      List.map_singleton, Nat.one_mul, Nat.add_right_comm n 1 length]
  rw [hblocks] at hwalk
  obtain ⟨near, hnear, himmediate⟩ := hclosed.meets_post_dominator hwalk hkeeps hcontrolled
  rw [hpost] at himmediate
  cases himmediate
  rcases List.mem_append.mp hnear with hmem | hmem
  · obtain ⟨m, hm, heq⟩ := List.mem_map.mp hmem
    have hrange := List.mem_range'_1.mp hm
    exact ⟨m, by omega, by omega, heq⟩
  · exact ⟨n + length + 1, by omega, Nat.le_refl _, (List.mem_singleton.mp hmem).symm⟩

/-- A run that is in the loop at some visit was in the loop before. -/
theorem mem_basic_blocks_of_le {n k : Nat} (h : (program.sequential k).block ∈ program.basicBlocks)
    (hle : n ≤ k) : (program.sequential n).block ∈ program.basicBlocks := by
  by_contra hleaves
  rw [sequential_of_leaves hleaves hle] at h
  exact hleaves h

/-- The next visit of the immediate post-dominator of a block without its terminator. -/
theorem next_visit {subset : List Inst} (hclosed : program.toLoopCFG.Closed subset) {n : Nat}
    {P : Block} (hloop : (program.sequential n).block ∈ program.basicBlocks)
    (hkeeps : program.keeps subset (program.sequential n).block = false)
    (hpost : program.postDominatingBB (program.sequential n).block = some P)
    (hP : P ∈ program.basicBlocks) :
    (∃ m, n < m ∧ (program.sequential m).block = P ∧ ∀ i, n < i → i < m →
      ¬ program.Controlled subset (program.sequential i).block) ∨
    ∀ k, n < k → (program.sequential k).block ∈ program.basicBlocks ∧
      ¬ program.Controlled subset (program.sequential k).block := by
  by_cases hvisit : ∃ m, n < m ∧ (program.sequential m).block = P
  · left
    classical
    obtain ⟨hlt, hblock⟩ := Nat.find_spec hvisit
    refine ⟨Nat.find hvisit, hlt, hblock, fun i hi him hcontrolled => ?_⟩
    have hfound : (program.sequential (Nat.find hvisit)).block ∈ program.basicBlocks := by
      rw [hblock]
      exact hP
    have hinside := fun j (_ : n ≤ j) (hj : j < i) =>
      mem_basic_blocks_of_le hfound (Nat.le_of_lt (hj.trans him))
    obtain ⟨m, hm, hmi, heq⟩ :=
      exists_visit_of_controlled hclosed hkeeps hpost hi hinside hcontrolled
    exact Nat.find_min hvisit (Nat.lt_of_le_of_lt hmi him) ⟨hm, heq⟩
  · right
    push Not at hvisit
    have hnot : ∀ k, n < k → (∀ i, n ≤ i → i < k →
        (program.sequential i).block ∈ program.basicBlocks) →
          ¬ program.Controlled subset (program.sequential k).block := by
      intro k hk hinside hcontrolled
      obtain ⟨m, hm, -, heq⟩ :=
        exists_visit_of_controlled hclosed hkeeps hpost hk hinside hcontrolled
      exact hvisit m hm heq
    -- The branch that leaves the loop is kept, so it is neither here nor later.
    have hinside : ∀ k, n ≤ k → (program.sequential k).block ∈ program.basicBlocks := by
      intro k hk
      induction k, hk using Nat.le_induction with
      | base => exact hloop
      | succ k hk ih =>
          by_contra houtside
          have hexit := hclosed.exits _ ih _ (successor_of_visit ih).1 houtside
          have hkept := LoopCFG.keeps_iff.mpr hexit
          rcases Nat.eq_or_lt_of_le hk with rfl | hlt
          · rw [hkept] at hkeeps
            cases hkeeps
          · exact hnot k hlt (fun i _ hi => mem_basic_blocks_of_le ih (Nat.le_of_lt hi))
              (hclosed.controlled (LoopCFG.holds_of_keeps hkept))
    exact fun k hk => ⟨hinside k (Nat.le_of_lt hk), hnot k hk fun i hi _ => hinside i hi⟩

end Gino.Dswp.LoopProgram
