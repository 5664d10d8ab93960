import Gino.Dswp.StageCFG
import Gino.Machine.Channel
import Mathlib.Logic.Function.Basic

/-!
# What the sequential loop computes

A block runs its PHIs at once, then its other instructions in order, and then its branch. A run of
the loop is described by its visits of blocks: `sequential n` is the state after `n` of them, and
`executions P n` are the values that an instruction had until then. Memory is split into regions
such that instructions with a memory dependence are in one region.
-/

namespace Gino.Dswp

open Relation Graph Machine

/-- A loop whose instructions are deterministic. What a PHI takes depends on the block before, which
is not there on entry to the loop. -/
structure LoopProgram (Inst Block Value Region Content : Type*) extends LoopCFG Inst Block where
  phis : Block → List Inst
  body : Block → List Inst
  operands : Inst → List Inst
  incoming : Inst → Option Block → Inst ⊕ Value
  region : Inst → Option Region
  result : Inst → List Value → Option Content → Value
  update : Inst → List Value → Content → Content
  branch : Block → List Value → Block
  undefined : Value
  initialMemory : Region → Content
  parent_phi : ∀ B, ∀ I ∈ phis B, parent I = B
  parent_body : ∀ B, ∀ I ∈ body B, parent I = B
  not_phi : ∀ B, ∀ I ∈ body B, I ∉ phis B
  nodup_phis : ∀ B, (phis B).Nodup
  nodup_body : ∀ B, (body B).Nodup
  /-- An instruction other than a PHI uses what its block defined before it. -/
  defined_before : ∀ B before I after, body B = before ++ I :: after →
    ∀ P ∈ operands I, P ∉ I :: after
  branch_mem : ∀ B ∈ basicBlocks, ∀ arguments, branch B arguments ∈ successors B

/-- The state between two visits: the block visited before and the one to visit. -/
structure LoopState (Inst Block Value Region Content : Type*) where
  pred : Option Block
  block : Block
  values : Inst → Value
  memory : Region → Content

namespace LoopProgram

variable {Inst Block Value Region Content : Type*}
  (program : LoopProgram Inst Block Value Region Content)

/-- The value of an instruction. -/
def value (I : Inst) (arguments : List Value) (memory : Region → Content) : Value :=
  program.result I arguments ((program.region I).map memory)

/-- What a PHI takes. -/
def phiValue (I : Inst) (pred : Option Block) (values : Inst → Value) : Value :=
  match program.incoming I pred with
  | .inl P => values P
  | .inr value => value

section Effect

variable [DecidableEq Region]

/-- What an instruction does to the memory. -/
def effect (I : Inst) (arguments : List Value) (memory : Region → Content) : Region → Content :=
  match program.region I with
  | none => memory
  | some region => Function.update memory region (program.update I arguments (memory region))

variable {program} in
/-- An instruction changes its region only. -/
theorem effect_of_ne {I : Inst} {region : Region} (h : program.region I ≠ some region)
    (arguments : List Value) (memory : Region → Content) :
    program.effect I arguments memory region = memory region := by
  unfold effect
  cases hregion : program.region I with
  | none => rfl
  | some other =>
      refine Function.update_of_ne (fun heq => h ?_) _ _
      rw [hregion, heq]

variable {program} in
/-- What an instruction does to a region depends on that region only. -/
theorem effect_congr (I : Inst) {memory other : Region → Content} {region : Region}
    (h : memory region = other region) (arguments : List Value) :
    program.effect I arguments memory region = program.effect I arguments other region := by
  unfold effect
  cases hregion : program.region I with
  | none => exact h
  | some own =>
      by_cases heq : region = own
      · subst heq
        dsimp only
        rw [Function.update_self, Function.update_self, h]
      · dsimp only
        rw [Function.update_of_ne heq, Function.update_of_ne heq, h]

end Effect

variable {program} in
/-- The value of an instruction depends on its region only. -/
theorem value_congr {I : Inst} {memory other : Region → Content}
    (hown : ∀ own, program.region I = some own → memory own = other own) (arguments : List Value) :
    program.value I arguments memory = program.value I arguments other := by
  unfold value
  cases hregion : program.region I with
  | none => rfl
  | some own => rw [Option.map_some, Option.map_some, hown own hregion]

variable [DecidableEq Inst]

/-- The values after the PHIs of a block. -/
def enterBlock (pred : Option Block) (B : Block) (values : Inst → Value) : Inst → Value :=
  fun I => if I ∈ program.phis B then program.phiValue I pred values else values I

variable {program} in
/-- A PHI of another block keeps its value. -/
theorem enter_block_of_ne {I : Inst} {pred : Option Block} {B : Block} {values : Inst → Value}
    (h : program.parent I ≠ B) : program.enterBlock pred B values I = values I :=
  if_neg fun hphi => h (program.parent_phi B I hphi)

variable [DecidableEq Region]

/-- Execute an instruction. -/
def execute (state : (Inst → Value) × (Region → Content)) (I : Inst) :
    (Inst → Value) × (Region → Content) :=
  let arguments := (program.operands I).map state.1
  (Function.update state.1 I (program.value I arguments state.2),
    program.effect I arguments state.2)

variable {program} in
/-- An instruction that is executed gets its value. -/
theorem execute_self (state : (Inst → Value) × (Region → Content)) (I : Inst) :
    (program.execute state I).1 I =
      program.value I ((program.operands I).map state.1) state.2 :=
  Function.update_self _ _ _

variable {program} in
/-- The other instructions keep theirs. -/
theorem execute_of_ne (state : (Inst → Value) × (Region → Content)) {I other : Inst}
    (h : other ≠ I) : (program.execute state I).1 other = state.1 other :=
  Function.update_of_ne h _ _

variable {program} in
/-- An instruction that is not executed keeps its value. -/
theorem values_foldl_execute {code : List Inst} {I : Inst} (h : I ∉ code)
    (state : (Inst → Value) × (Region → Content)) :
    (code.foldl program.execute state).1 I = state.1 I := by
  induction code generalizing state with
  | nil => rfl
  | cons first rest ih =>
      have hne : I ≠ first := fun heq => h (heq ▸ List.mem_cons_self)
      rw [List.foldl_cons, ih (fun hmem => h (List.mem_cons_of_mem _ hmem)), execute_of_ne _ hne]

variable {program} in
/-- A region that no instruction accesses keeps its contents. -/
theorem memory_foldl_execute {code : List Inst} {region : Region}
    (h : ∀ I ∈ code, program.region I ≠ some region)
    (state : (Inst → Value) × (Region → Content)) :
    (code.foldl program.execute state).2 region = state.2 region := by
  induction code generalizing state with
  | nil => rfl
  | cons first rest ih =>
      rw [List.foldl_cons, ih fun I hI => h I (List.mem_cons_of_mem _ hI)]
      exact effect_of_ne (h first List.mem_cons_self) _ _

variable [DecidableEq Block]

/-- Visit a block of the loop. Nothing changes after the loop. -/
def visit (state : LoopState Inst Block Value Region Content) :
    LoopState Inst Block Value Region Content :=
  if state.block ∈ program.basicBlocks then
    let (values, memory) := (program.body state.block).foldl program.execute
      (program.enterBlock state.pred state.block state.values, state.memory)
    { pred := some state.block
      block := program.branch state.block
        ((program.operands (program.terminator state.block)).map values)
      values, memory }
  else state

/-- The state after some visits. -/
def sequential : Nat → LoopState Inst Block Value Region Content
  | 0 => ⟨none, program.header, fun _ => program.undefined, program.initialMemory⟩
  | n + 1 => program.visit (sequential n)

/-- The values that an instruction had during some visits, in order. -/
def executions (P : Inst) : Nat → List Value
  | 0 => []
  | n + 1 =>
      if (program.sequential n).block ∈ program.basicBlocks ∧
        (program.sequential n).block = program.parent P
      then executions P n ++ [(program.sequential (n + 1)).values P]
      else executions P n

/-- The loop is left after some visits. -/
def LeavesAt (n : Nat) : Prop := (program.sequential n).block ∉ program.basicBlocks

/-! ## Blocks that are not visited -/

variable {program}

/-- A block does not change the values of other blocks. -/
theorem visit_values {state : LoopState Inst Block Value Region Content} {I : Inst}
    (h : program.parent I ≠ state.block) : (program.visit state).values I = state.values I := by
  unfold visit
  split
  · have hbody : I ∉ program.body state.block := fun hmem => h (program.parent_body _ I hmem)
    exact (values_foldl_execute hbody _).trans (enter_block_of_ne h)
  · rfl

/-- A block of the loop changes the regions that its instructions access. -/
theorem visit_memory {state : LoopState Inst Block Value Region Content} {region : Region}
    (h : state.block ∈ program.basicBlocks →
      ∀ I ∈ program.body state.block, program.region I ≠ some region) :
    (program.visit state).memory region = state.memory region := by
  unfold visit
  split
  · case _ hB => exact memory_foldl_execute (h hB) _
  · rfl

/-- A region that no instruction accesses keeps its contents. -/
theorem sequential_memory_of_not_accessed {region : Region}
    (h : ∀ B ∈ program.basicBlocks, ∀ I ∈ program.body B, program.region I ≠ some region)
    (n : Nat) : (program.sequential n).memory region = program.initialMemory region := by
  induction n with
  | zero => rfl
  | succ n ih => exact (visit_memory (h _)).trans ih

/-! ## Runs of the loop -/

/-- After a block the run is in one of its successors. -/
theorem successor_of_visit {state : LoopState Inst Block Value Region Content}
    (h : state.block ∈ program.basicBlocks) :
    (program.visit state).block ∈ program.successors state.block ∧
      (program.visit state).pred = some state.block := by
  unfold visit
  rw [if_pos h]
  exact ⟨program.branch_mem _ h _, rfl⟩

/-- After a block the run is where its branch goes. -/
theorem block_of_visit {state : LoopState Inst Block Value Region Content}
    (h : state.block ∈ program.basicBlocks) :
    (program.visit state).block = program.branch state.block
      ((program.operands (program.terminator state.block)).map (program.visit state).values) := by
  unfold visit
  rw [if_pos h]

/-- A run that has left the loop stays. -/
theorem sequential_of_leaves {n k : Nat} (h : program.LeavesAt n) (hle : n ≤ k) :
    program.sequential k = program.sequential n := by
  induction k, hle using Nat.le_induction with
  | base => rfl
  | succ k _ ih =>
      have hleft : (program.sequential k).block ∉ program.basicBlocks := by
        rw [ih]
        exact h
      exact (if_neg hleft).trans ih

/-- The values of an instruction are those until any later visit. -/
theorem executions_mono {P : Inst} {n k : Nat} (h : n ≤ k) :
    program.executions P n <+: program.executions P k := by
  induction k, h using Nat.le_induction with
  | base => exact List.prefix_refl _
  | succ k _ ih =>
      refine ih.trans ?_
      rw [executions]
      split
      · exact List.prefix_append _ _
      · exact List.prefix_refl _

/-- The histories of an instruction agree. -/
theorem executions_agree (P : Inst) (n k : Nat) :
    Agree (program.executions P n) (program.executions P k) := by
  rcases Nat.le_total n k with hle | hle
  · exact .inl (executions_mono hle)
  · exact .inr (executions_mono hle)

/-- An instruction whose block is not visited is not executed. -/
theorem executions_of_not_visited {P : Inst} {n k : Nat} (h : n ≤ k)
    (hvisited : ∀ i, n ≤ i → i < k → (program.sequential i).block ∈ program.basicBlocks →
      (program.sequential i).block ≠ program.parent P) :
    program.executions P k = program.executions P n := by
  induction k, h using Nat.le_induction with
  | base => rfl
  | succ k hle ih =>
      rw [executions, if_neg fun hand => hvisited k hle k.lt_succ_self hand.1 hand.2]
      exact ih fun i hi hlt => hvisited i hi (hlt.trans k.lt_succ_self)

/-- After the loop is left nothing is executed. -/
theorem executions_of_leaves {P : Inst} {n k : Nat} (h : program.LeavesAt n) (hle : n ≤ k) :
    program.executions P k = program.executions P n :=
  executions_of_not_visited hle fun i hi _ hloop _ => by
    rw [sequential_of_leaves h hi] at hloop
    exact h hloop

/-- Until the loop is left an instruction has the same values wherever that is noticed. -/
theorem executions_eq_of_leaves {P : Inst} {n k : Nat} (h : program.LeavesAt n)
    (hk : program.LeavesAt k) : program.executions P n = program.executions P k := by
  rcases Nat.le_total n k with hle | hle
  · exact (executions_of_leaves h hle).symm
  · exact executions_of_leaves hk hle

/-- When the loop is left every execution has happened. -/
theorem executions_prefix_of_leaves {P : Inst} {n : Nat} (h : program.LeavesAt n) (k : Nat) :
    program.executions P k <+: program.executions P n := by
  rcases Nat.le_total k n with hle | hle
  · exact executions_mono hle
  · rw [executions_of_leaves h hle]

/-- The loop is left in one state. -/
theorem sequential_eq_of_leaves {n k : Nat} (h : program.LeavesAt n) (hk : program.LeavesAt k) :
    program.sequential n = program.sequential k := by
  rcases Nat.le_total n k with hle | hle
  · exact (sequential_of_leaves h hle).symm
  · exact sequential_of_leaves hk hle

end LoopProgram

end Gino.Dswp
