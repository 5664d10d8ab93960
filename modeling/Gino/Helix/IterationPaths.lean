import Gino.Helix.Synchronizations
import Gino.Machine.Counting

/-!
# Signals along an iteration

Lemmas about one iteration. `count_collectExit` and `count_injectSignal` say that each exit of a
walk leads to one signal on it.
-/

namespace Gino.Helix

open Graph Machine Relation LoopCFG

variable {Block : Type*} {loop : LoopCFG Block}

/-! ## The instructions of a walk -/

/-- Every walk from the header to an instruction that is no PHI passes the first such one. -/
theorem firstNonPHI_mem {path : List loop.Instr} {target : loop.Instr}
    (h : Walk loop.Step path (loop.first loop.header) target) (hphi : ¬ target.IsPHI) :
    loop.getFirstNonPHI loop.header ∈ path := by
  refine mem_of_later h h.source_mem rfl (Nat.zero_le _) fun hblock => ?_
  unfold Instr.IsPHI at hphi
  rw [hblock] at hphi
  exact Nat.le_of_not_lt hphi

section Iteration

variable {path : List loop.Instr} (hpath : IterationPath loop path)

include hpath

/-- An iteration executes the blocks it enters as a whole. -/
theorem mem_iff_first_mem (inst : loop.Instr) :
    inst ∈ path ↔ loop.first inst.block ∈ path := by
  obtain ⟨latch, -, hwalk⟩ := hpath
  constructor
  · exact fun hinst => mem_of_earlier hwalk hinst rfl (Nat.zero_le _)
  · intro hfirst
    refine mem_of_later hwalk hfirst rfl (Nat.zero_le _) fun hblock => ?_
    have hsame : latch = inst.block := hblock
    have hvalid := inst.valid
    rw [← hsame] at hvalid
    exact hvalid

/-- Instructions of one block are executed together. -/
theorem mem_iff_of_block {inst other : loop.Instr} (hblock : inst.block = other.block) :
    inst ∈ path ↔ other ∈ path := by
  rw [mem_iff_first_mem hpath, hblock, ← mem_iff_first_mem hpath]

end Iteration

/-- Every block has a successor. -/
theorem two_le_of_ne_one {block : Block} (h : (loop.successors block).length ≠ 1) :
    2 ≤ (loop.successors block).length := by
  have hne : loop.successors block ≠ [] := by
    obtain ⟨latch, hlatch, hreach⟩ := loop.to_latch block
    rcases hreach.cases_head with rfl | ⟨next, hnext, -⟩
    · exact List.ne_nil_of_mem hlatch
    · exact List.ne_nil_of_mem hnext.1
  have := List.length_pos_iff.mpr hne
  omega

/-- A successor of a block with several is entered by a step. -/
theorem step_to_successor {block next : Block} (hseveral : (loop.successors block).length ≠ 1)
    (hnext : some next ∈ loop.successors block) :
    loop.Step (loop.getTerminator block) (loop.first next) := by
  refine step_iff.mpr (.inr ⟨rfl, rfl, hnext, ?_⟩)
  rintro rfl
  rw [loop.latch_successors block hnext] at hseveral
  exact hseveral rfl

/-- A successor of a block with several is on no cycle unless the block is. -/
theorem successor_acyclic {block next : Block} (hseveral : (loop.successors block).length ≠ 1)
    (hnext : some next ∈ loop.successors block)
    (hacyclic : ¬ OnCycle loop.Step (loop.getTerminator block)) {inst : loop.Instr}
    (hinst : inst.block = next) : ¬ OnCycle loop.Step inst := by
  intro hcycle
  have hfirst : OnCycle loop.Step (loop.first next) := on_cycle_of_block hcycle hinst.symm
  have honly := only_predecessor_of_several (two_le_of_ne_one hseveral) hnext
  exact hacyclic (TransGen.head' (step_to_successor hseveral hnext) (honly.reaches hfirst))

/-- A block that ends on a cycle has a successor on the cycle. -/
theorem successor_on_cycle {block : Block} (h : OnCycle loop.Step (loop.getTerminator block)) :
    ∃ next, some next ∈ loop.successors block ∧
      ∀ inst : loop.Instr, inst.block = next → OnCycle loop.Step inst := by
  obtain ⟨first, hstep, hreach⟩ := TransGen.head'_iff.mp h
  rcases step_iff.mp hstep with ⟨hblock, hindex⟩ | ⟨-, -, hedge, -⟩
  · have hvalid := first.valid
    rw [hblock] at hvalid
    exact absurd (hindex ▸ hvalid) (Nat.not_succ_le_self _)
  · exact ⟨first.block, hedge, fun inst hinst =>
      on_cycle_of_block (TransGen.tail' hreach hstep) hinst⟩

section Counts

variable [DecidableEq Block] {path : List loop.Instr} (hpath : IterationPath loop path)

include hpath

/-- An iteration goes on from a block with several successors. -/
theorem exists_successor_mem {block : Block} (hseveral : (loop.successors block).length ≠ 1)
    (hblock : loop.first block ∈ path) :
    ∃ next ∈ (loop.successors block).reduceOption, loop.first next ∈ path := by
  have hterminator : loop.getTerminator block ∈ path :=
    (mem_iff_first_mem hpath (loop.getTerminator block)).mpr hblock
  obtain ⟨latch, hlatch, hwalk⟩ := hpath
  have hne : loop.getTerminator block ≠ loop.getTerminator latch := by
    intro heq
    have hsame : block = latch := congrArg Instr.block heq
    rw [hsame, loop.latch_successors latch hlatch] at hseveral
    exact hseveral rfl
  obtain ⟨next, hnext, hstep⟩ := hwalk.exists_successor hterminator hne
  rcases step_iff.mp hstep with ⟨hsame, hindex⟩ | ⟨-, hindex, hedge, -⟩
  · have hvalid := next.valid
    rw [hsame] at hvalid
    have hlast : (loop.getTerminator block).index = loop.size block := rfl
    have hsame' : (loop.getTerminator block).block = block := rfl
    rw [hsame'] at hvalid
    omega
  · exact ⟨next.block, List.reduceOption_mem_iff.mpr hedge, Instr.eq_first hindex ▸ hnext⟩

/-- An iteration goes on from a block with several successors to one of them. -/
theorem count_successors {block : Block} (hseveral : (loop.successors block).length ≠ 1)
    (hacyclic : ¬ OnCycle loop.Step (loop.getTerminator block)) :
    (loop.successors block).reduceOption.countP (fun next => loop.first next ∈ path) =
      if loop.first block ∈ path then 1 else 0 := by
  obtain ⟨latch, hlatch, hwalk⟩ := id hpath
  have honly := fun next (hnext : some next ∈ loop.successors block) =>
    only_predecessor_of_several (two_le_of_ne_one hseveral) hnext
  split_ifs with hblock
  · obtain ⟨next, hnext, hmem⟩ := exists_successor_mem hpath hseveral hblock
    refine countP_eq_one (loop.simple_edges block) hnext (by simpa using hmem)
      fun other hother hother_mem => ?_
    have hedge := List.reduceOption_mem_iff.mp hnext
    have hedge' := List.reduceOption_mem_iff.mp hother
    exact congrArg Instr.block (hwalk.eq_of_only_predecessor (of_decide_eq_true hother_mem) hmem
      (step_to_successor hseveral hedge') (step_to_successor hseveral hedge) (honly _ hedge')
      (honly _ hedge) hacyclic)
  · refine List.countP_eq_zero.mpr fun next hnext hmem => hblock ?_
    have hedge := List.reduceOption_mem_iff.mp hnext
    have hne : loop.first next ≠ loop.first loop.header := fun heq =>
      not_step_header (heq ▸ step_to_successor hseveral hedge)
    exact (mem_iff_first_mem hpath _).mp
      (hwalk.only_predecessor_mem (of_decide_eq_true hmem) hne (honly _ hedge)).1

end Counts

/-! ## Collected exits and insert points -/

section Exits

/-- Terminators with several successors. -/
theorem ends_in_several_iff {inst : loop.Instr} : endsInSeveral inst = true ↔
    inst.IsTerminator ∧ (loop.successors inst.block).length ≠ 1 := by
  unfold endsInSeveral
  rw [Bool.and_eq_true, decide_eq_true_eq, bne_iff_ne]

/-- An instruction without a next one in its block is the terminator. -/
theorem isTerminator_of_next {inst : loop.Instr} (h : inst.getNextNonDebugInstruction = none) :
    inst.IsTerminator := by
  have hvalid := inst.valid
  unfold Instr.getNextNonDebugInstruction at h
  unfold Instr.IsTerminator
  split_ifs at h
  omega

/-- The next instruction of a block is in the block. -/
theorem next_block {inst next : loop.Instr} (h : inst.getNextNonDebugInstruction = some next) :
    next.block = inst.block ∧ next.index = inst.index + 1 := by
  unfold Instr.getNextNonDebugInstruction at h
  split_ifs at h
  cases h
  exact ⟨rfl, rfl⟩

/-- The signal of an exit within a block. -/
theorem injectSignal_next {inst next : loop.Instr}
    (h : inst.getNextNonDebugInstruction = some next) :
    injectSignal (.original inst) = [⟨next, false⟩] := by
  simp only [injectSignal, h]

/-- The signals of an exit at the end of a block. -/
theorem injectSignal_terminator {inst : loop.Instr} (h : inst.getNextNonDebugInstruction = none) :
    injectSignal (.original inst) =
      if loop.terminatorIsBranch inst.block && endsInSeveral inst
      then (loop.successors inst.block).reduceOption.map fun successor =>
        ⟨loop.getFirstNonPHI successor, false⟩
      else [⟨inst, true⟩] := by
  simp only [injectSignal, h]

/-- The instruction of the loop at a collected exit. -/
def ExitInstruction.inst : ExitInstruction loop → loop.Instr
  | .original inst => inst
  | .injected inst => inst

/-- A signal is inserted after its collected exit, or in front of it after its wait when this is a
terminator. -/
theorem injectSignal_acyclic {collected : ExitInstruction loop}
    (hacyclic : ¬ OnCycle loop.Step collected.inst) {point : InsertPoint loop}
    (h : point ∈ injectSignal collected) :
    ¬ OnCycle loop.Step point.inst ∧ ReflTransGen loop.Step collected.inst point.inst ∧
      (point.inst = collected.inst → (∃ inst, collected = .injected inst) ∨
        point.afterWait = true ∧ point.inst.IsTerminator) := by
  cases collected with
  | injected inst =>
      obtain rfl := List.mem_singleton.mp h
      exact ⟨hacyclic, .refl, fun _ => .inl ⟨inst, rfl⟩⟩
  | original inst =>
      cases hnext : inst.getNextNonDebugInstruction with
      | some next =>
          rw [injectSignal_next hnext] at h
          obtain rfl := List.mem_singleton.mp h
          obtain ⟨hblock, hindex⟩ := next_block hnext
          refine ⟨fun hcycle => hacyclic (on_cycle_of_block hcycle hblock.symm),
            .single (step_iff.mpr (.inl ⟨hblock, hindex⟩)), fun heq => ?_⟩
          have heq' : next = inst := heq
          rw [heq'] at hindex
          omega
      | none =>
          rw [injectSignal_terminator hnext] at h
          have hterminator := isTerminator_of_next hnext
          -- A terminator has the signal in front of it, or in each successor where it has several.
          split_ifs at h with hseveral
          · obtain ⟨-, hlength⟩ := ends_in_several_iff.mp (Bool.and_eq_true_iff.mp hseveral).2
            obtain ⟨next, hnext, rfl⟩ := List.mem_map.mp h
            have hedge := List.reduceOption_mem_iff.mp hnext
            have hacyclic' : ¬ OnCycle loop.Step (loop.getTerminator inst.block) :=
              hterminator.eq ▸ hacyclic
            have hreach : TransGen loop.Step inst (loop.getFirstNonPHI next) := by
              rw [hterminator.eq]
              exact TransGen.head' (step_to_successor hlength hedge)
                (first_reaches (loop.getFirstNonPHI next))
            refine ⟨successor_acyclic hlength hedge hacyclic' rfl, hreach.to_reflTransGen,
              fun heq => absurd ?_ hacyclic⟩
            have heq' : loop.getFirstNonPHI next = inst := heq
            rw [heq'] at hreach
            exact hreach
          · obtain rfl := List.mem_singleton.mp h
            exact ⟨hacyclic, .refl, fun _ => .inr ⟨rfl, hterminator⟩⟩

variable [DecidableEq Block]

/-- The beginning of a block is at its first instruction that is no PHI. -/
theorem beginning_inst (waits : List loop.Instr) (context : SegmentContext loop)
    (successor : Block) :
    (beginningOfSuccessor waits context successor).inst = loop.getFirstNonPHI successor := by
  simp only [beginningOfSuccessor]
  split_ifs <;> rfl

/-- The block of the beginning of a block. -/
theorem beginning_block {waits : List loop.Instr} {context : SegmentContext loop}
    {successor : Block} {collected : ExitInstruction loop}
    (h : beginningOfSuccessor waits context successor = collected) :
    collected.inst.block = successor := by
  rw [← h, beginning_inst]
  rfl

/-- What an exit is collected as comes at or right after it, and only after it. -/
theorem collectExit_acyclic {waits : List loop.Instr} {context : SegmentContext loop}
    {exit : loop.Instr} (hacyclic : ¬ OnCycle loop.Step exit) {collected : ExitInstruction loop}
    (h : collected ∈ collectExit waits context exit) :
    ¬ OnCycle loop.Step collected.inst ∧ ReflTransGen loop.Step exit collected.inst := by
  unfold collectExit at h
  split_ifs at h with hseveral
  · obtain ⟨hterminator, hlength⟩ := ends_in_several_iff.mp hseveral
    obtain ⟨next, hnext, rfl⟩ := List.mem_map.mp h
    have hedge := List.reduceOption_mem_iff.mp hnext
    rw [hterminator.eq] at hacyclic
    rw [beginning_inst]
    refine ⟨successor_acyclic hlength hedge hacyclic rfl, ?_⟩
    rw [hterminator.eq]
    exact ReflTransGen.head (step_to_successor hlength hedge)
      (first_reaches (loop.getFirstNonPHI next))
  · obtain rfl := List.mem_singleton.mp h
    exact ⟨hacyclic, .refl⟩

/-- An exit on a cycle is collected as an instruction on it, among others. -/
theorem collectExit_on_cycle (waits : List loop.Instr) (context : SegmentContext loop)
    {exit : loop.Instr} (h : OnCycle loop.Step exit) :
    ∃ collected ∈ collectExit waits context exit, OnCycle loop.Step collected.inst := by
  unfold collectExit
  split_ifs with hseveral
  · obtain ⟨hterminator, -⟩ := ends_in_several_iff.mp hseveral
    obtain ⟨next, hnext, hcycle⟩ := successor_on_cycle (hterminator.eq ▸ h)
    refine ⟨_, List.mem_map_of_mem (List.reduceOption_mem_iff.mpr hnext), hcycle _ ?_⟩
    rw [beginning_inst]
    rfl
  · exact ⟨_, List.mem_singleton_self _, h⟩

omit [DecidableEq Block] in
/-- The signal of an exit collected on a cycle is on it, or one of them is. -/
theorem injectSignal_on_cycle {collected : ExitInstruction loop}
    (h : OnCycle loop.Step collected.inst) :
    ∃ point ∈ injectSignal collected, OnCycle loop.Step point.inst := by
  cases collected with
  | injected inst => exact ⟨_, List.mem_singleton_self _, h⟩
  | original inst =>
      cases hnext : inst.getNextNonDebugInstruction with
      | some next =>
          rw [injectSignal_next hnext]
          exact ⟨_, List.mem_singleton_self _, on_cycle_of_block h (next_block hnext).1⟩
      | none =>
          rw [injectSignal_terminator hnext]
          split_ifs with hseveral
          · have hcycle : OnCycle loop.Step (loop.getTerminator inst.block) :=
              on_cycle_of_block h rfl
            obtain ⟨successor, hedge, hcycle⟩ := successor_on_cycle hcycle
            exact ⟨_, List.mem_map_of_mem (List.reduceOption_mem_iff.mpr hedge), hcycle _ rfl⟩
          · exact ⟨_, List.mem_singleton_self _, h⟩

variable {path : List loop.Instr} (hpath : IterationPath loop path)

include hpath

/-- Blocks are on the walk with the instructions signals are put at. -/
theorem count_beginnings {α : Type*} (inst : α → loop.Instr) {beginning : Block → α}
    (hbeginning : ∀ block, inst (beginning block) = loop.getFirstNonPHI block)
    (blocks : List Block) :
    (blocks.map beginning).countP (fun point => inst point ∈ path) =
      blocks.countP (fun next => loop.first next ∈ path) := by
  rw [List.countP_map]
  refine List.countP_congr fun next _ => ?_
  simp only [Function.comp_apply, hbeginning, decide_eq_true_eq]
  exact mem_iff_first_mem hpath _

/-- An exit on the walk is collected as one instruction on it, others as none. -/
theorem count_collectExit (waits : List loop.Instr) (context : SegmentContext loop)
    {exit : loop.Instr} (hacyclic : ¬ OnCycle loop.Step exit) :
    (collectExit waits context exit).countP (fun collected => collected.inst ∈ path) =
      if exit ∈ path then 1 else 0 := by
  unfold collectExit
  split_ifs with hseveral hmem hmem
  · obtain ⟨hterminator, hlength⟩ := ends_in_several_iff.mp hseveral
    rw [hterminator.eq] at hacyclic
    rw [count_beginnings hpath _ (beginning_inst waits context),
      count_successors hpath hlength hacyclic, if_pos ((mem_iff_first_mem hpath exit).mp hmem)]
  · obtain ⟨hterminator, hlength⟩ := ends_in_several_iff.mp hseveral
    rw [hterminator.eq] at hacyclic
    rw [count_beginnings hpath _ (beginning_inst waits context),
      count_successors hpath hlength hacyclic,
      if_neg fun hfirst => hmem ((mem_iff_first_mem hpath exit).mpr hfirst)]
  · simp [ExitInstruction.inst, hmem]
  · simp [ExitInstruction.inst, hmem]

/-- An exit is on the walk if what it is collected as is. -/
theorem mem_of_collected {waits : List loop.Instr} {context : SegmentContext loop}
    {exit : loop.Instr} (hacyclic : ¬ OnCycle loop.Step exit) {collected : ExitInstruction loop}
    (hcollected : collected ∈ collectExit waits context exit) (hmem : collected.inst ∈ path) :
    exit ∈ path := by
  by_contra hoff
  have hnone := count_collectExit hpath waits context hacyclic
  rw [if_neg hoff, List.countP_eq_zero] at hnone
  exact hnone collected hcollected (decide_eq_true hmem)

/-- A collected exit on the walk leads to one signal on it, others to none. -/
theorem count_injectSignal {collected : ExitInstruction loop}
    (hacyclic : ¬ OnCycle loop.Step collected.inst) :
    (injectSignal collected).countP (fun point => point.inst ∈ path) =
      if collected.inst ∈ path then 1 else 0 := by
  cases collected with
  | injected inst =>
      by_cases hmem : inst ∈ path <;> simp [injectSignal, ExitInstruction.inst, hmem]
  | original inst =>
      cases hnext : inst.getNextNonDebugInstruction with
      | some next =>
          rw [injectSignal_next hnext]
          have hiff := mem_iff_of_block hpath (next_block hnext).1
          by_cases hmem : inst ∈ path <;> simp [ExitInstruction.inst, hiff, hmem]
      | none =>
          have hterminator := isTerminator_of_next hnext
          have hacyclic' : ¬ OnCycle loop.Step (loop.getTerminator inst.block) :=
            hterminator.eq ▸ hacyclic
          rw [injectSignal_terminator hnext]
          show _ = if inst ∈ path then 1 else 0
          by_cases hseveral : (loop.terminatorIsBranch inst.block && endsInSeveral inst) = true
          · obtain ⟨-, hlength⟩ := ends_in_several_iff.mp (Bool.and_eq_true_iff.mp hseveral).2
            rw [if_pos hseveral, count_beginnings hpath InsertPoint.inst fun _ => rfl,
              count_successors hpath hlength hacyclic']
            exact if_congr (mem_iff_first_mem hpath inst).symm rfl rfl
          · rw [if_neg hseveral]
            by_cases hmem : inst ∈ path <;> simp [hmem]

/-- A collected exit is on the walk if a signal for it is. -/
theorem mem_of_injected {collected : ExitInstruction loop}
    (hacyclic : ¬ OnCycle loop.Step collected.inst) {point : InsertPoint loop}
    (hinjected : point ∈ injectSignal collected) (hmem : point.inst ∈ path) :
    collected.inst ∈ path := by
  by_contra hoff
  have hnone := count_injectSignal hpath hacyclic
  rw [if_neg hoff, List.countP_eq_zero] at hnone
  exact hnone point hinjected (decide_eq_true hmem)

/-- An exit on the walk is collected as an instruction on it. -/
theorem exists_collected (waits : List loop.Instr) (context : SegmentContext loop)
    {exit : loop.Instr} (hmem : exit ∈ path) :
    ∃ collected ∈ collectExit waits context exit, collected.inst ∈ path := by
  unfold collectExit
  split_ifs with hseveral
  · obtain ⟨-, hlength⟩ := ends_in_several_iff.mp hseveral
    obtain ⟨next, hnext, hon⟩ :=
      exists_successor_mem hpath hlength ((mem_iff_first_mem hpath exit).mp hmem)
    refine ⟨_, List.mem_map_of_mem hnext, ?_⟩
    rw [beginning_inst]
    exact (mem_iff_first_mem hpath _).mpr hon
  · exact ⟨_, List.mem_singleton_self _, hmem⟩

/-- A collected exit on the walk leads to a signal on it. -/
theorem exists_inserted {collected : ExitInstruction loop} (hmem : collected.inst ∈ path) :
    ∃ point ∈ injectSignal collected, point.inst ∈ path := by
  cases collected with
  | injected inst => exact ⟨_, List.mem_singleton_self _, hmem⟩
  | original inst =>
      cases hnext : inst.getNextNonDebugInstruction with
      | some next =>
          rw [injectSignal_next hnext]
          exact ⟨_, List.mem_singleton_self _,
            (mem_iff_of_block hpath (next_block hnext).1).mpr hmem⟩
      | none =>
          rw [injectSignal_terminator hnext]
          split_ifs with hseveral
          · obtain ⟨-, hlength⟩ := ends_in_several_iff.mp (Bool.and_eq_true_iff.mp hseveral).2
            obtain ⟨next, hnext, hon⟩ :=
              exists_successor_mem hpath hlength ((mem_iff_first_mem hpath inst).mp hmem)
            exact ⟨_, List.mem_map_of_mem hnext, (mem_iff_first_mem hpath _).mpr hon⟩
          · exact ⟨_, List.mem_singleton_self _, hmem⟩

end Exits

end Gino.Helix
