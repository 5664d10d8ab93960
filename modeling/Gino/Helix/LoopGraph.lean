import Gino.Graph.Dominance
import Gino.Machine.Worklist
import Mathlib.Data.List.ReduceOption
import Mathlib.Data.Set.Lattice

/-!
# The instructions of a loop

A loop in simplified form as its blocks and its instructions: the PHIs of a block come first and
its terminator last. `Step` goes from an instruction to the next one of the same iteration, so no
step enters the header. The analyses of the compiler library are parameters, and
`Analyses.Documented` says what they compute; `Analyses.reference` computes it. Inner loops are
natural loops (`InInnerLoop`), so a cycle that is entered at two blocks is in none.
-/

namespace Gino.Helix

open Graph Machine Relation

/-- A loop in simplified form. A block has PHIs, other instructions and a terminator, which may be
a branch or another instruction. A successor is `none` outside the loop. Every block is part of an
iteration, no edge is critical, and as the pre-header is before the header too, a latch has no
other successor. -/
structure LoopCFG (Block : Type*) where
  header : Block
  blocks : List Block
  numPHIs : Block → Nat
  numOthers : Block → Nat
  terminatorIsBranch : Block → Bool
  successors : Block → List (Option Block)
  mem_blocks : ∀ block, block ∈ blocks
  from_header : ∀ block, ReflTransGen
    (fun block next => some next ∈ successors block ∧ next ≠ header) header block
  to_latch : ∀ block, ∃ latch, some header ∈ successors latch ∧ ReflTransGen
    (fun block next => some next ∈ successors block ∧ next ≠ header) block latch
  simple_edges : ∀ block, (successors block).reduceOption.Nodup
  no_critical_edges : ∀ block next other, 2 ≤ (successors block).length →
    some next ∈ successors block → some next ∈ successors other → other = block
  latch_successors : ∀ latch, some header ∈ successors latch → successors latch = [some header]

variable {Block : Type*}

namespace LoopCFG

variable (loop : LoopCFG Block)

/-- The position of the terminator of a block. -/
def size (block : Block) : Nat := loop.numPHIs block + loop.numOthers block

/-- An instruction of the loop, by its position in its block. -/
structure Instr where
  block : Block
  index : Nat
  valid : index ≤ loop.size block

instance [DecidableEq Block] : DecidableEq loop.Instr := fun i j =>
  decidable_of_iff (i.block = j.block ∧ i.index = j.index) (by
    cases i
    cases j
    simp)

instance [DecidableEq Block] : LawfulBEq loop.Instr := instLawfulBEq

/-- The first instruction of a block. -/
def first (block : Block) : loop.Instr := ⟨block, 0, Nat.zero_le _⟩

/-- The first instruction of a block that is no PHI. -/
def getFirstNonPHI (block : Block) : loop.Instr :=
  ⟨block, loop.numPHIs block, Nat.le_add_right _ _⟩

/-- The terminator of a block. -/
def getTerminator (block : Block) : loop.Instr := ⟨block, loop.size block, Nat.le_refl _⟩

end LoopCFG

namespace LoopCFG.Instr

variable {loop : LoopCFG Block} (inst : loop.Instr)

/-- Two instructions at the same position are the same. -/
theorem ext' {inst other : loop.Instr} (hblock : inst.block = other.block)
    (hindex : inst.index = other.index) : inst = other := by
  cases inst
  cases other
  cases hblock
  cases hindex
  rfl

/-- An instruction at position zero is the first of its block. -/
theorem eq_first {inst : loop.Instr} (h : inst.index = 0) : inst = loop.first inst.block :=
  ext' rfl h

/-- Whether the instruction is a PHI. -/
def IsPHI : Prop := inst.index < loop.numPHIs inst.block

instance : Decidable inst.IsPHI := inferInstanceAs (Decidable (_ < _))

/-- Whether the instruction is the terminator of its block. -/
def IsTerminator : Prop := inst.index = loop.size inst.block

instance : Decidable inst.IsTerminator := inferInstanceAs (Decidable (_ = _))

/-- A block has one terminator. -/
theorem IsTerminator.eq {inst : loop.Instr} (h : inst.IsTerminator) :
    inst = loop.getTerminator inst.block :=
  ext' rfl h

/-- The instruction after this one in its block. -/
def getNextNonDebugInstruction : Option loop.Instr :=
  if h : inst.index < loop.size inst.block then some ⟨inst.block, inst.index + 1, h⟩ else none

/-- The instruction before this one in its block. -/
def getPrevNonDebugInstruction : Option loop.Instr :=
  if inst.index = 0 then none
  else some ⟨inst.block, inst.index - 1, (Nat.sub_le _ _).trans inst.valid⟩

/-- The instructions that may be executed next, of the next iteration too. -/
def nextInstructions : List loop.Instr :=
  match inst.getNextNonDebugInstruction with
  | some next => [next]
  | none => (loop.successors inst.block).reduceOption.map loop.first

/-- The instructions that may be executed just before. -/
def previousInstructions [DecidableEq Block] : List loop.Instr :=
  match inst.getPrevNonDebugInstruction with
  | some previous => [previous]
  | none => (loop.blocks.filter (some inst.block ∈ loop.successors ·)).map loop.getTerminator

end LoopCFG.Instr

namespace LoopCFG

variable (loop : LoopCFG Block)

/-- The instructions of the loop. -/
def instructions : List loop.Instr :=
  loop.blocks.flatMap fun block =>
    (List.finRange (loop.size block + 1)).map fun index : Fin _ =>
      (⟨block, index.1, Nat.le_of_lt_succ index.2⟩ : loop.Instr)

/-- A step to the next instruction of the same iteration. -/
def Step (inst next : loop.Instr) : Prop :=
  next ∈ inst.nextInstructions ∧ next ≠ loop.first loop.header

instance [DecidableEq Block] : DecidableRel loop.Step := fun _ _ =>
  inferInstanceAs (Decidable (_ ∧ _))

variable {loop}

/-- Every instruction is listed. -/
theorem mem_instructions (inst : loop.Instr) : inst ∈ loop.instructions := by
  refine List.mem_flatMap.mpr ⟨inst.block, loop.mem_blocks _, List.mem_map.mpr
    ⟨⟨inst.index, Nat.lt_succ_of_le inst.valid⟩, List.mem_finRange _, rfl⟩⟩

/-- What may be executed next: the next instruction of the block, or the first one of a block
after the terminator. -/
theorem mem_next_instructions {inst next : loop.Instr} :
    next ∈ inst.nextInstructions ↔
      (next.block = inst.block ∧ next.index = inst.index + 1) ∨
      (inst.IsTerminator ∧ next.index = 0 ∧ some next.block ∈ loop.successors inst.block) := by
  have hvalid := inst.valid
  unfold Instr.nextInstructions Instr.getNextNonDebugInstruction Instr.IsTerminator
  by_cases hlt : inst.index < loop.size inst.block
  · rw [dif_pos hlt]
    simp only [List.mem_singleton]
    constructor
    · rintro rfl
      exact .inl ⟨rfl, rfl⟩
    · rintro (⟨hblock, hindex⟩ | ⟨hterminator, -⟩)
      · exact Instr.ext' hblock hindex
      · omega
  · rw [dif_neg hlt]
    simp only [List.mem_map, List.reduceOption_mem_iff]
    constructor
    · rintro ⟨block, hblock, rfl⟩
      exact .inr ⟨by omega, rfl, hblock⟩
    · rintro (⟨hblock, hindex⟩ | ⟨-, hindex, hblock⟩)
      · have := next.valid
        rw [hblock] at this
        omega
      · exact ⟨_, hblock, Instr.ext' rfl hindex.symm⟩

/-- The instructions just before are those with this one just after. -/
theorem mem_previous_instructions [DecidableEq Block] {inst previous : loop.Instr} :
    previous ∈ inst.previousInstructions ↔ inst ∈ previous.nextInstructions := by
  have hvalid := previous.valid
  rw [mem_next_instructions]
  unfold Instr.previousInstructions Instr.getPrevNonDebugInstruction Instr.IsTerminator
  by_cases hzero : inst.index = 0
  · rw [if_pos hzero]
    simp only [List.mem_map, List.mem_filter, decide_eq_true_eq]
    constructor
    · rintro ⟨block, ⟨-, hblock⟩, rfl⟩
      exact .inr ⟨rfl, hzero, hblock⟩
    · rintro (⟨hblock, hindex⟩ | ⟨hterminator, -, hblock⟩)
      · omega
      · exact ⟨_, ⟨loop.mem_blocks _, hblock⟩, Instr.ext' rfl hterminator.symm⟩
  · rw [if_neg hzero]
    simp only [List.mem_singleton]
    constructor
    · rintro rfl
      exact .inl ⟨rfl, by show inst.index = inst.index - 1 + 1; omega⟩
    · rintro (⟨hblock, hindex⟩ | ⟨-, hindex, -⟩)
      · exact Instr.ext' hblock.symm (by show previous.index = inst.index - 1; omega)
      · exact absurd hindex hzero

/-! ## Steps of an iteration -/

/-- The steps within a block and between blocks. -/
theorem step_iff {inst next : loop.Instr} :
    loop.Step inst next ↔
      (next.block = inst.block ∧ next.index = inst.index + 1) ∨
      (inst.IsTerminator ∧ next.index = 0 ∧ some next.block ∈ loop.successors inst.block ∧
        next.block ≠ loop.header) := by
  unfold Step
  rw [mem_next_instructions]
  constructor
  · rintro ⟨hwithin | ⟨hterminator, hindex, hblock⟩, hne⟩
    · exact .inl hwithin
    · exact .inr ⟨hterminator, hindex, hblock, fun hheader => hne (Instr.ext' hheader hindex)⟩
  · rintro (⟨hblock, hindex⟩ | ⟨hterminator, hindex, hblock, hne⟩)
    · refine ⟨.inl ⟨hblock, hindex⟩, fun heq => ?_⟩
      have hzero : next.index = 0 := by rw [heq]; rfl
      omega
    · exact ⟨.inr ⟨hterminator, hindex, hblock⟩, fun heq => hne (by rw [heq]; rfl)⟩

/-- A block of the loop is passed from its earlier to its later instructions. -/
theorem reaches_within {inst later : loop.Instr} (hblock : later.block = inst.block)
    (hle : inst.index ≤ later.index) : ReflTransGen loop.Step inst later := by
  obtain ⟨distance, hdistance⟩ := Nat.le.dest hle
  induction distance generalizing later with
  | zero =>
      rw [Instr.ext' hblock (by omega)]
  | succ distance ih =>
      have hvalid := later.valid
      let before : loop.Instr := ⟨later.block, later.index - 1, by omega⟩
      have hindex : later.index = before.index + 1 := by
        show later.index = later.index - 1 + 1
        omega
      have hbefore : ReflTransGen loop.Step inst before := ih hblock
        (by show inst.index ≤ later.index - 1; omega)
        (by show inst.index + distance = later.index - 1; omega)
      exact hbefore.tail (step_iff.mpr (.inl ⟨rfl, hindex⟩))

/-- The first instruction of a block reaches the others. -/
theorem first_reaches (inst : loop.Instr) :
    ReflTransGen loop.Step (loop.first inst.block) inst :=
  reaches_within rfl (Nat.zero_le _)

/-- The instructions of a block reach its terminator. -/
theorem reaches_terminator (inst : loop.Instr) :
    ReflTransGen loop.Step inst (loop.getTerminator inst.block) :=
  reaches_within rfl inst.valid

/-- A block is entered at its first instruction. -/
theorem reaches_first {inst later : loop.Instr} (h : TransGen loop.Step inst later) :
    (later.block = inst.block ∧ inst.index < later.index) ∨
      TransGen loop.Step inst (loop.first later.block) := by
  induction h with
  | single hstep =>
      rcases step_iff.mp hstep with ⟨hblock, hindex⟩ | ⟨-, hindex, -, -⟩
      · exact .inl ⟨hblock, by omega⟩
      · refine .inr (.single ?_)
        rwa [← Instr.eq_first hindex]
  | tail hreach hstep ih =>
      rcases step_iff.mp hstep with ⟨hblock, hindex⟩ | ⟨-, hindex, -, -⟩
      · rcases ih with ⟨hsame, hlt⟩ | hfirst
        · exact .inl ⟨hblock.trans hsame, by omega⟩
        · rw [hblock]
          exact .inr hfirst
      · refine .inr (hreach.tail ?_)
        rwa [← Instr.eq_first hindex]

/-- A block is left at its terminator. -/
theorem leaves_terminator {inst later : loop.Instr} (h : TransGen loop.Step inst later) :
    (later.block = inst.block ∧ inst.index < later.index) ∨
      TransGen loop.Step (loop.getTerminator inst.block) later := by
  induction h using TransGen.head_induction_on with
  | single hstep =>
      rcases step_iff.mp hstep with ⟨hblock, hindex⟩ | ⟨hterminator, -⟩
      · exact .inl ⟨hblock, by omega⟩
      · refine .inr (.single ?_)
        rwa [← hterminator.eq]
  | head hstep hreach ih =>
      rcases step_iff.mp hstep with ⟨hblock, hindex⟩ | ⟨hterminator, -⟩
      · rcases ih with ⟨hsame, hlt⟩ | hlast
        · exact .inl ⟨hsame.trans hblock, by omega⟩
        · rw [← hblock]
          exact .inr hlast
      · refine .inr (TransGen.head ?_ hreach)
        rwa [← hterminator.eq]

/-- The header is not entered again. -/
theorem not_step_header {inst : loop.Instr} : ¬ loop.Step inst (loop.first loop.header) :=
  fun h => h.2 rfl

/-- An iteration ends with a latch. -/
theorem not_step_latch {latch : Block} (hlatch : some loop.header ∈ loop.successors latch)
    {next : loop.Instr} : ¬ loop.Step (loop.getTerminator latch) next := by
  intro h
  rcases step_iff.mp h with ⟨hblock, hindex⟩ | ⟨-, -, hblock, hne⟩
  · have hvalid := next.valid
    rw [hblock] at hvalid
    have hsize : (loop.getTerminator latch).index = loop.size latch := rfl
    have hsame : (loop.getTerminator latch).block = latch := rfl
    rw [hsame] at hvalid
    omega
  · have hsame : (loop.getTerminator latch).block = latch := rfl
    rw [hsame, loop.latch_successors latch hlatch, List.mem_singleton] at hblock
    exact hne (Option.some.inj hblock)

/-- The steps between blocks are those of the instructions. -/
theorem reaches_of_blocks {block later : Block} (h : ReflTransGen
    (fun block next => some next ∈ loop.successors block ∧ next ≠ loop.header) block later) :
    ReflTransGen loop.Step (loop.first block) (loop.first later) := by
  induction h with
  | refl => exact .refl
  | @tail middle later _ hedge ih =>
      exact (ih.trans (reaches_terminator (loop.first middle))).tail
        (step_iff.mpr (.inr ⟨rfl, rfl, hedge⟩))

/-- Every instruction is reached from the header. -/
theorem header_reaches (inst : loop.Instr) :
    ReflTransGen loop.Step (loop.first loop.header) inst :=
  (reaches_of_blocks (loop.from_header inst.block)).trans (first_reaches inst)

/-- Every instruction reaches a latch. -/
theorem reaches_latch (inst : loop.Instr) :
    ∃ latch, some loop.header ∈ loop.successors latch ∧
      ReflTransGen loop.Step inst (loop.getTerminator latch) := by
  obtain ⟨latch, hlatch, hreach⟩ := loop.to_latch inst.block
  refine ⟨latch, hlatch, ?_⟩
  rcases hreach.cases_head with heq | ⟨next, hedge, hreach⟩
  · subst heq
    exact reaches_terminator inst
  · have hleave : loop.Step (loop.getTerminator inst.block) (loop.first next) :=
      step_iff.mpr (.inr ⟨rfl, rfl, hedge⟩)
    exact (((reaches_terminator inst).tail hleave).trans (reaches_of_blocks hreach)).trans
      (reaches_terminator (loop.first latch))

/-- Two different next instructions come after a terminator with several successors. -/
theorem two_successors {inst next other : loop.Instr} (hnext : loop.Step inst next)
    (hother : loop.Step inst other) (hne : next ≠ other) :
    inst.IsTerminator ∧ 2 ≤ (loop.successors inst.block).length ∧ next.index = 0 ∧
      some next.block ∈ loop.successors inst.block := by
  have hvalid := next.valid
  have hvalid' := other.valid
  rcases step_iff.mp hnext with ⟨hblock, hindex⟩ | ⟨hterminator, hindex, hblock, -⟩
  · rcases step_iff.mp hother with ⟨hblock', hindex'⟩ | ⟨hterminator, -⟩
    · exact absurd (Instr.ext' (hblock.trans hblock'.symm) (hindex.trans hindex'.symm)) hne
    · rw [hblock] at hvalid
      unfold Instr.IsTerminator at hterminator
      omega
  · rcases step_iff.mp hother with ⟨hblock', hindex'⟩ | ⟨-, hindex', hblock', -⟩
    · rw [hblock'] at hvalid'
      unfold Instr.IsTerminator at hterminator
      omega
    · refine ⟨hterminator, ?_, hindex, hblock⟩
      by_contra hshort
      have hblocks : next.block ≠ other.block := fun heq =>
        hne (Instr.ext' heq (hindex.trans hindex'.symm))
      -- With at most one successor the two would be the same.
      match hlist : loop.successors inst.block with
      | [] => simp [hlist] at hblock
      | [only] =>
          rw [hlist, List.mem_singleton] at hblock hblock'
          exact hblocks (Option.some.inj (hblock.trans hblock'.symm))
      | _ :: _ :: _ => simp [hlist] at hshort

/-- A successor of a block with several has no other predecessor. -/
theorem only_predecessor_of_several {block next : Block}
    (hseveral : 2 ≤ (loop.successors block).length)
    (hnext : some next ∈ loop.successors block) :
    OnlyPredecessor loop.Step (loop.getTerminator block) (loop.first next) := by
  intro other hother
  rcases step_iff.mp hother with ⟨-, hindex⟩ | ⟨hterminator, -, hedge, -⟩
  · exact absurd hindex (Nat.succ_ne_zero _).symm
  · rw [hterminator.eq, loop.no_critical_edges block next other.block hseveral hnext hedge]

/-- No step between instructions is critical. -/
theorem no_critical_steps : NoCriticalEdges loop.Step := by
  intro inst next other hnext hother hne
  obtain ⟨hterminator, hseveral, hindex, hblock⟩ := two_successors hnext hother hne
  rw [hterminator.eq, Instr.eq_first hindex]
  exact only_predecessor_of_several hseveral hblock

/-- The instructions of a block are on cycles together. -/
theorem on_cycle_of_block {inst other : loop.Instr} (h : OnCycle loop.Step inst)
    (hblock : other.block = inst.block) : OnCycle loop.Step other := by
  have hfirst : TransGen loop.Step inst (loop.first inst.block) :=
    (reaches_first h).resolve_left (by simp)
  have hlast : TransGen loop.Step (loop.getTerminator inst.block) inst :=
    (leaves_terminator h).resolve_left (by simp)
  have hother : ReflTransGen loop.Step (loop.first inst.block) other :=
    reaches_within hblock (Nat.zero_le _)
  have hother' : ReflTransGen loop.Step other (loop.getTerminator inst.block) :=
    reaches_within hblock.symm (by rw [← hblock]; exact other.valid)
  exact TransGen.trans_right hother' (TransGen.trans_left (hlast.trans hfirst) hother)

/-! ## Walks through blocks -/

/-- A walk that is in a block goes on to a later instruction of it, unless it ends before. -/
theorem mem_of_later {path : List loop.Instr} {source target inst later : loop.Instr}
    (h : Walk loop.Step path source target) (hinst : inst ∈ path)
    (hblock : later.block = inst.block) (hle : inst.index ≤ later.index)
    (hend : target.block = inst.block → later.index ≤ target.index) : later ∈ path := by
  induction hdistance : later.index - inst.index generalizing inst with
  | zero => rwa [Instr.ext' hblock (by omega : later.index = inst.index)]
  | succ distance ih =>
      have hne : inst ≠ target := by
        rintro rfl
        have := hend rfl
        omega
      obtain ⟨next, hnext, hstep⟩ := h.exists_successor hinst hne
      rcases step_iff.mp hstep with ⟨hsame, hindex⟩ | ⟨hterminator, -⟩
      · exact ih hnext (hblock.trans hsame.symm) (by omega)
          (fun heq => hend (heq.trans hsame)) (by omega)
      · have hvalid := later.valid
        rw [hblock, ← hterminator] at hvalid
        omega

/-- A walk from the header that is in a block has been at the earlier instructions of it. -/
theorem mem_of_earlier {path : List loop.Instr} {target inst later : loop.Instr}
    (h : Walk loop.Step path (loop.first loop.header) target) (hlater : later ∈ path)
    (hblock : inst.block = later.block) (hle : inst.index ≤ later.index) : inst ∈ path := by
  induction hdistance : later.index - inst.index generalizing later with
  | zero => rwa [Instr.ext' hblock (by omega : inst.index = later.index)]
  | succ distance ih =>
      have hne : later ≠ loop.first loop.header := by
        rintro rfl
        have : (loop.first loop.header).index = 0 := rfl
        omega
      obtain ⟨before, hbefore, hstep⟩ := h.exists_predecessor hlater hne
      rcases step_iff.mp hstep with ⟨hsame, hindex⟩ | ⟨-, hindex, -⟩
      · exact ih hbefore (hblock.trans hsame) (by omega) (by omega)
      · omega

/-! ## Inner loops -/

/-- An edge of the iteration back to a block that is on every walk to where the edge begins. -/
structure IsBackEdge (loop : LoopCFG Block) (latch header : Block) : Prop where
  edge : some header ∈ loop.successors latch
  inner : header ≠ loop.header
  dominates : Dominates loop.Step (loop.first loop.header) (loop.first header)
    (loop.getTerminator latch)

/-- The instruction is in an inner loop: in the header of a back edge, or on the way to the back
edge past the header. -/
def InInnerLoop (inst : loop.Instr) : Prop :=
  ∃ header latch, loop.IsBackEdge latch header ∧ (inst.block = header ∨
    ∃ path, Walk loop.Step path inst (loop.getTerminator latch) ∧ loop.first header ∉ path)

/-- Along a back edge the header comes after the latch. -/
theorem IsBackEdge.step {latch header : Block} (h : loop.IsBackEdge latch header) :
    loop.Step (loop.getTerminator latch) (loop.first header) :=
  step_iff.mpr (.inr ⟨rfl, rfl, h.edge, h.inner⟩)

/-- An instruction of an inner loop is on a cycle. -/
theorem InInnerLoop.on_cycle {inst : loop.Instr} (h : InInnerLoop inst) :
    OnCycle loop.Step inst := by
  obtain ⟨header, latch, hback, hblock | ⟨rest, hrest, hpast⟩⟩ := h
  · obtain ⟨path, hpath⟩ := exists_walk (header_reaches (loop.getTerminator latch))
    have hreach := hpath.reaches_target (hback.dominates path hpath)
    exact on_cycle_of_block (TransGen.tail' hreach hback.step) hblock
  · -- The header is on every walk to the instruction, since it is not on the rest of the walk.
    obtain ⟨path, hpath⟩ := exists_walk (header_reaches inst)
    have hheader : loop.first header ∈ path :=
      (List.mem_append.mp (hback.dominates _ (hpath.trans hrest))).resolve_right
        fun hmem => hpast (List.mem_of_mem_tail hmem)
    exact TransGen.trans_left (TransGen.tail' (hrest.reaches_target hrest.source_mem) hback.step)
      (hpath.reaches_target hheader)

end LoopCFG

end Gino.Helix
