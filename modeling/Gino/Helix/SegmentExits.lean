import Gino.Graph.Frontier
import Gino.Helix.SequentialSegment
import Mathlib.Data.List.Nodup

/-!
# The exits of a segment

The traversal for exits finds the frontier nodes after the segment, whatever order it visits
instructions in (`findExits_frontier`). Where the segment is left no exit reaches, so the check
against other exits never rejects. It takes the last instruction of the segment for a place where
the segment is left even on a cycle, if no inner loop has it (`mem_findExits`), so the result is the
frontier only where the segment goes on from such cycles.
-/

namespace Gino.Helix

open Graph Machine Relation LoopCFG

variable {Block : Type*} {loop : LoopCFG Block}

/-! ## Frontier points -/

/-- The frontier point of an instruction that is no PHI. -/
theorem point_eq {inst : loop.Instr} (h : ¬ inst.IsPHI) :
    getFrontierInstructionThatDoesNotSplitPHIs inst = inst := if_neg h

/-- The frontier point is in the block of the instruction. -/
theorem point_block (inst : loop.Instr) :
    (getFrontierInstructionThatDoesNotSplitPHIs inst).block = inst.block := by
  unfold getFrontierInstructionThatDoesNotSplitPHIs
  split_ifs <;> rfl

/-- The frontier point is no PHI. -/
theorem point_not_phi (inst : loop.Instr) :
    ¬ (getFrontierInstructionThatDoesNotSplitPHIs inst).IsPHI := by
  unfold getFrontierInstructionThatDoesNotSplitPHIs
  split_ifs with hphi
  · exact Nat.lt_irrefl _
  · exact hphi

/-- The frontier point does not come before the instruction. -/
theorem le_point (inst : loop.Instr) :
    inst.index ≤ (getFrontierInstructionThatDoesNotSplitPHIs inst).index := by
  unfold getFrontierInstructionThatDoesNotSplitPHIs
  split_ifs with hphi
  · exact Nat.le_of_lt hphi
  · exact Nat.le_refl _

/-- The instruction goes on to its frontier point. -/
theorem reaches_point (inst : loop.Instr) :
    ReflTransGen loop.Step inst (getFrontierInstructionThatDoesNotSplitPHIs inst) :=
  reaches_within (point_block inst) (le_point inst)

/-- The frontier point of the first instruction of a block is its first one that is no PHI. -/
theorem point_first (block : Block) :
    getFrontierInstructionThatDoesNotSplitPHIs (loop.first block) = loop.getFirstNonPHI block := by
  unfold getFrontierInstructionThatDoesNotSplitPHIs
  split_ifs with hphi
  · rfl
  · have hzero : loop.numPHIs block = 0 := Nat.eq_zero_of_not_pos hphi
    exact Instr.ext' rfl hzero.symm

/-- What comes before the frontier point comes before the instruction, PHIs apart. -/
theorem reaches_of_reaches_point {before inst : loop.Instr} (hphi : ¬ before.IsPHI)
    (h : TransGen loop.Step before (getFrontierInstructionThatDoesNotSplitPHIs inst)) :
    TransGen loop.Step before inst := by
  by_cases hinst : inst.IsPHI
  · have hpoint : getFrontierInstructionThatDoesNotSplitPHIs inst =
        loop.getFirstNonPHI inst.block := if_pos hinst
    rw [hpoint] at h
    rcases reaches_first h with ⟨hblock, hlt⟩ | hfirst
    · refine absurd ?_ hphi
      unfold Instr.IsPHI
      rw [← hblock]
      exact hlt
    · exact TransGen.trans_left hfirst (first_reaches inst)
  · rwa [point_eq hinst] at h

/-- What another block is reached from, its frontier point is reached from. -/
theorem point_reaches_first {inst : loop.Instr} {block : Block}
    (h : TransGen loop.Step inst (loop.first block)) :
    TransGen loop.Step (getFrontierInstructionThatDoesNotSplitPHIs inst) (loop.first block) := by
  rcases leaves_terminator h with ⟨-, hlt⟩ | hlast
  · exact absurd hlt (Nat.not_lt_zero _)
  · refine TransGen.trans_right ?_ hlast
    rw [← point_block inst]
    exact reaches_terminator _

/-! ## Queues and visited items -/

/-- Moving an item that was visited out of the queue. -/
theorem mem_or_of_visited {inst item : loop.Instr} {queue visited : List loop.Instr}
    (hitem : item ∈ visited) (h : inst ∈ item :: queue ∨ inst ∈ visited) :
    inst ∈ queue ∨ inst ∈ visited := by
  rcases h with hqueue | hvisited
  · rcases List.mem_cons.mp hqueue with rfl | hqueue
    · exact .inr hitem
    · exact .inl hqueue
  · exact .inr hvisited

/-- Visiting the first item of the queue. -/
theorem mem_or_visit {inst item : loop.Instr} {queue visited pushed : List loop.Instr} :
    inst ∈ queue ++ pushed ∨ inst ∈ item :: visited ↔
      (inst ∈ item :: queue ∨ inst ∈ visited) ∨ inst ∈ pushed := by
  simp only [List.mem_append, List.mem_cons]
  tauto

/-! ## The traversal for exits -/

/-- Where an iteration leaves the segment. -/
abbrev AtFrontier (ssInstructions : List loop.Instr) (inst : loop.Instr) : Prop :=
  Frontier loop.Step (· ∈ ssInstructions) (loop.first loop.header) inst

/-- From an instruction of the segment on a cycle that is in no inner loop, the iteration comes to
another one. -/
def CyclesGoOn (ssInstructions : List loop.Instr) : Prop :=
  ∀ inst ∈ ssInstructions, OnCycle loop.Step inst → ¬ InInnerLoop inst →
    ReachesOther loop.Step (· ∈ ssInstructions) inst

variable {ssInstructions : List loop.Instr}

/-- The header does not come after a segment it is not in. -/
theorem ne_header_of_reached {inst : loop.Instr}
    (h : ReachedBySet loop.Step (· ∈ ssInstructions) inst) (hmem : inst ∉ ssInstructions) :
    inst ≠ loop.first loop.header := by
  rintro rfl
  obtain ⟨start, hstart, hreach⟩ := h
  rcases hreach.cases_tail with heq | ⟨last, -, hinto⟩
  · exact hmem (heq ▸ hstart)
  · exact not_step_header hinto

/-- What the traversal for exits keeps, with the items of the queue and the visited ones. -/
structure ExitTraversal (ssInstructions queue visited exits : List loop.Instr) : Prop where
  reached : ∀ inst, inst ∈ queue ∨ inst ∈ visited →
    ReachedBySet loop.Step (· ∈ ssInstructions) inst
  frontier : ∀ inst, inst ∈ queue ∨ inst ∈ visited → Leaves loop.Step (· ∈ ssInstructions) inst →
    AtFrontier ssInstructions inst
  reaches : ∀ inst, inst ∈ queue ∨ inst ∈ visited → ¬ Leaves loop.Step (· ∈ ssInstructions) inst →
    ReachesSet loop.Step (· ∈ ssInstructions) inst
  mem_exits : ∀ exit, exit ∈ exits ↔ ∃ inst ∈ visited,
    Leaves loop.Step (· ∈ ssInstructions) inst ∧
      exit = getFrontierInstructionThatDoesNotSplitPHIs inst
  nodup : exits.Nodup
  segment : ∀ inst ∈ ssInstructions, inst ∈ queue ∨ inst ∈ visited
  closed : ∀ inst ∈ visited, ¬ Leaves loop.Step (· ∈ ssInstructions) inst → ∀ next,
    loop.Step inst next → next ∈ queue ∨ next ∈ visited

/-- The traversal starts with the segment. -/
theorem ExitTraversal.initial : ExitTraversal ssInstructions ssInstructions [] [] where
  reached inst hinst := ⟨inst, by simpa using hinst, .refl⟩
  frontier inst hinst hleaves := ⟨hleaves, .inl (by simpa using hinst)⟩
  reaches inst hinst _ := ⟨inst, by simpa using hinst, .refl⟩
  mem_exits := by simp
  nodup := List.nodup_nil
  segment inst hinst := .inl hinst
  closed := by simp

/-- A visited item is skipped. -/
theorem ExitTraversal.skip {item : loop.Instr} {queue visited exits : List loop.Instr}
    (hitem : item ∈ visited) (h : ExitTraversal ssInstructions (item :: queue) visited exits) :
    ExitTraversal ssInstructions queue visited exits where
  reached inst hinst := h.reached inst (hinst.imp_left (List.mem_cons_of_mem _))
  frontier inst hinst := h.frontier inst (hinst.imp_left (List.mem_cons_of_mem _))
  reaches inst hinst := h.reaches inst (hinst.imp_left (List.mem_cons_of_mem _))
  mem_exits := h.mem_exits
  nodup := h.nodup
  segment inst hinst := mem_or_of_visited hitem (h.segment inst hinst)
  closed inst hinst hleaves next hnext :=
    mem_or_of_visited hitem (h.closed inst hinst hleaves next hnext)

/-- After a terminator that has not left the segment comes no header. -/
theorem step_of_not_leaves {inst next : loop.Instr}
    (hleaves : ¬ Leaves loop.Step (· ∈ ssInstructions) inst)
    (hnext : next ∈ inst.nextInstructions) :
    loop.Step inst next := by
  refine ⟨hnext, fun hheader => hleaves ?_⟩
  rw [hheader] at hnext
  rcases mem_next_instructions.mp hnext with ⟨-, hindex⟩ | ⟨hterminator, -, hlatch⟩
  · exact absurd hindex (Nat.succ_ne_zero _).symm
  · have hlast : ∀ later, ¬ loop.Step inst later := by
      intro later
      rw [hterminator.eq]
      exact not_step_latch hlatch
    constructor
    · intro hcycle
      obtain ⟨later, hstep, -⟩ := TransGen.head'_iff.mp hcycle
      exact hlast later hstep
    · rintro ⟨_, -, -, hreach⟩
      obtain ⟨later, hstep, -⟩ := TransGen.head'_iff.mp hreach
      exact hlast later hstep

/-- At its end the traversal has visited what comes after the segment and has not left it. -/
theorem ExitTraversal.mem_visited {visited exits : List loop.Instr}
    (h : ExitTraversal ssInstructions [] visited exits) {inst : loop.Instr}
    (hreached : ReachedBySet loop.Step (· ∈ ssInstructions) inst)
    (hleaves : ¬ Leaves loop.Step (· ∈ ssInstructions) inst)
    (hreaches : ReachesSet loop.Step (· ∈ ssInstructions) inst) : inst ∈ visited := by
  obtain ⟨start, hstart, hreach⟩ := hreached
  induction hreach with
  | refl => exact (h.segment _ hstart).resolve_left (by simp)
  | @tail before inst hreach hstep ih =>
      have hbefore : ReachesSet loop.Step (· ∈ ssInstructions) before :=
        hreaches.of_reaches (.single hstep)
      have hstill : ¬ Leaves loop.Step (· ∈ ssInstructions) before := fun hbefore_leaves =>
        hbefore_leaves.not_reaches hleaves hreaches (.single hstep)
      exact (h.closed before (ih hstill hbefore) hstill inst hstep).resolve_left (by simp)

/-! ## The checks -/

variable {analyses : Analyses loop}

section Checks

variable (hanalyses : analyses.Documented)

include hanalyses

/-- The check against other entries. -/
theorem dominated_iff {entries : List loop.Instr} {inst : loop.Instr} :
    isDominatedByOtherEntry analyses entries inst = true ↔ ∃ entry ∈ entries, entry ≠ inst ∧
      ∀ path, Walk loop.Step path (loop.first loop.header) inst → entry ∈ path := by
  unfold isDominatedByOtherEntry
  simp only [List.any_eq_true, hanalyses.dominates]

variable [DecidableEq Block]

/-- The instructions before one are those that reach it. -/
theorem mem_before_instructions {before inst : loop.Instr} :
    before ∈ beforeInstructions analyses inst ↔ before ≠ inst ∧ TransGen loop.Step before inst := by
  unfold beforeInstructions
  simp [mem_instructions, hanalyses.mem_out]

/-- The check before the entry frontier. -/
theorem check_before_iff {inst : loop.Instr} :
    checkIfBeforeEntryFrontier analyses ssInstructions inst = true ↔
      ¬ ReachedByOther loop.Step (· ∈ ssInstructions) inst := by
  unfold checkIfBeforeEntryFrontier ReachedByOther
  simp only [List.all_eq_true, mem_before_instructions hanalyses, decide_eq_true_eq]
  constructor
  · rintro h ⟨other, hmem, hne, hreach⟩
    exact (h other ⟨hne, hreach⟩).elim hne fun hnot => hnot hmem
  · rintro h other ⟨hne, hreach⟩
    exact .inr fun hmem => h ⟨other, hmem, hne, hreach⟩

/-- The check after the exit frontier. -/
theorem check_after_iff {inst : loop.Instr} :
    checkIfAfterExitFrontier analyses ssInstructions inst = true ↔
      ¬ ReachesOther loop.Step (· ∈ ssInstructions) inst := by
  unfold checkIfAfterExitFrontier ReachesOther
  simp only [List.all_eq_true, hanalyses.mem_out, decide_eq_true_eq]
  constructor
  · rintro h ⟨other, hmem, hne, hreach⟩
    exact (h other hreach).elim (fun heq => hne heq.symm) fun hnot => hnot hmem
  · intro h other hreach
    by_cases heq : inst = other
    · exact .inl heq
    · exact .inr fun hmem => h ⟨other, hmem, Ne.symm heq, hreach⟩

/-- The check against other exits. -/
theorem reachable_iff {exits : List loop.Instr} {inst : loop.Instr} :
    isReachableFromOtherExit analyses exits inst = true ↔
      ∃ exit ∈ exits, exit ≠ inst ∧ TransGen loop.Step exit inst := by
  unfold isReachableFromOtherExit
  simp only [List.any_eq_true, mem_before_instructions hanalyses, decide_eq_true_eq]
  constructor
  · rintro ⟨exit, ⟨hne, hreach⟩, hmem⟩
    exact ⟨exit, hmem, hne, hreach⟩
  · rintro ⟨exit, hmem, hne, hreach⟩
    exact ⟨exit, ⟨hne, hreach⟩, hmem⟩

/-- The two checks on a potential exit say whether the segment is left there, unless it is the
last instruction of the segment on a cycle that is in no inner loop. -/
theorem leaves_iff {inst : loop.Instr} (hgoes : OnCycle loop.Step inst → ¬ InInnerLoop inst →
      ReachesOther loop.Step (· ∈ ssInstructions) inst) :
    (analyses.nestedMostLoopIsRoot inst && checkIfAfterExitFrontier analyses ssInstructions inst) =
      true ↔ Leaves loop.Step (· ∈ ssInstructions) inst := by
  rw [Bool.and_eq_true, hanalyses.nestedMostLoopIsRoot, check_after_iff hanalyses]
  constructor
  · rintro ⟨hinner, hother⟩
    exact ⟨fun hcycle => hother (hgoes hcycle hinner), hother⟩
  · rintro ⟨hacyclic, hother⟩
    exact ⟨fun hinner => hacyclic hinner.on_cycle, hother⟩

end Checks

variable [DecidableEq Block]

/-! ## The exits -/

/-- Where the segment is left no exit reaches. -/
theorem ExitTraversal.not_reachable (hanalyses : analyses.Documented) {item : loop.Instr}
    {queue visited exits : List loop.Instr}
    (h : ExitTraversal ssInstructions (item :: queue) visited exits)
    (hleaves : Leaves loop.Step (· ∈ ssInstructions) item) :
    isReachableFromOtherExit analyses exits item = false := by
  rw [Bool.eq_false_iff]
  intro hreachable
  obtain ⟨exit, hmem, -, hreach⟩ := (reachable_iff hanalyses).mp hreachable
  -- An exit that reached the item would be where a walk leaves the segment before it.
  obtain ⟨inst, hinst, hinst_leaves, rfl⟩ := (h.mem_exits exit).mp hmem
  exact hinst_leaves.not_reaches_frontier no_critical_steps (fun _ => not_step_header)
    (h.frontier item (.inl List.mem_cons_self) hleaves)
    (TransGen.trans_right (reaches_point inst) hreach)

omit [DecidableEq Block] in
/-- From an item on a cycle that is in no inner loop the iteration comes to another instruction of
the segment. -/
theorem ExitTraversal.goes_on (hcycles : CyclesGoOn ssInstructions) {item : loop.Instr}
    {queue visited exits : List loop.Instr}
    (h : ExitTraversal ssInstructions (item :: queue) visited exits)
    (hcycle : OnCycle loop.Step item) (hinner : ¬ InInnerLoop item) :
    ReachesOther loop.Step (· ∈ ssInstructions) item := by
  obtain ⟨other, hother, hreach⟩ :=
    h.reaches item (.inl List.mem_cons_self) fun hleaves => hleaves.1 hcycle
  rcases reflTransGen_iff_eq_or_transGen.mp hreach with rfl | hreach
  · exact hcycles other hother hcycle hinner
  · by_cases heq : other = item
    · exact hcycles item (heq ▸ hother) hcycle hinner
    · exact ⟨other, hother, heq, hreach⟩

/-- Visiting an item decides whether the segment is left there. -/
theorem ExitTraversal.visit_eq (hanalyses : analyses.Documented)
    (hcycles : CyclesGoOn ssInstructions) {item : loop.Instr}
    {queue visited exits : List loop.Instr}
    (h : ExitTraversal ssInstructions (item :: queue) visited exits) :
    (Leaves loop.Step (· ∈ ssInstructions) item ∧
      visitPotentialExit analyses ssInstructions exits item =
        (exits.insert (getFrontierInstructionThatDoesNotSplitPHIs item), [])) ∨
    (¬ Leaves loop.Step (· ∈ ssInstructions) item ∧
      visitPotentialExit analyses ssInstructions exits item = (exits, item.nextInstructions)) := by
  have hchecks := leaves_iff hanalyses (h.goes_on hcycles)
  unfold visitPotentialExit
  by_cases hleaves : Leaves loop.Step (· ∈ ssInstructions) item
  · refine .inl ⟨hleaves, if_pos ?_⟩
    rw [hchecks.mpr hleaves, h.not_reachable hanalyses hleaves]
    rfl
  · refine .inr ⟨hleaves, if_neg ?_⟩
    rw [Bool.and_eq_true, hchecks]
    exact fun hboth => hleaves hboth.1

/-- Visiting an item keeps the traversal. -/
theorem ExitTraversal.visit (hanalyses : analyses.Documented)
    (hcycles : CyclesGoOn ssInstructions) {item : loop.Instr}
    {queue visited exits : List loop.Instr}
    (h : ExitTraversal ssInstructions (item :: queue) visited exits) :
    ExitTraversal ssInstructions
      (queue ++ (visitPotentialExit analyses ssInstructions exits item).2) (item :: visited)
      (visitPotentialExit analyses ssInstructions exits item).1 := by
  rcases h.visit_eq hanalyses hcycles with ⟨hleaves, heq⟩ | ⟨hleaves, heq⟩
  · rw [heq]
    constructor
    · exact fun inst hinst => h.reached inst ((mem_or_visit.mp hinst).resolve_right (by simp))
    · exact fun inst hinst => h.frontier inst ((mem_or_visit.mp hinst).resolve_right (by simp))
    · exact fun inst hinst => h.reaches inst ((mem_or_visit.mp hinst).resolve_right (by simp))
    · intro exit
      rw [List.mem_insert_iff, h.mem_exits]
      constructor
      · rintro (rfl | ⟨inst, hinst, hinst'⟩)
        · exact ⟨item, List.mem_cons_self, hleaves, rfl⟩
        · exact ⟨inst, List.mem_cons_of_mem _ hinst, hinst'⟩
      · rintro ⟨inst, hinst, hinst'⟩
        rcases List.mem_cons.mp hinst with rfl | hinst
        · exact .inl hinst'.2
        · exact .inr ⟨inst, hinst, hinst'⟩
    · exact List.Nodup.insert h.nodup
    · exact fun inst hinst => mem_or_visit.mpr (.inl (h.segment inst hinst))
    · intro inst hinst hstill next hnext
      rcases List.mem_cons.mp hinst with rfl | hinst
      · exact absurd hleaves hstill
      · exact mem_or_visit.mpr (.inl (h.closed inst hinst hstill next hnext))
  · rw [heq]
    have hitem := h.reaches item (.inl List.mem_cons_self) hleaves
    constructor
    · intro inst hinst
      rcases mem_or_visit.mp hinst with hold | hpushed
      · exact h.reached inst hold
      · exact (h.reached item (.inl List.mem_cons_self)).of_reaches
          (.single (step_of_not_leaves hleaves hpushed))
    · intro inst hinst hinst_leaves
      rcases mem_or_visit.mp hinst with hold | hpushed
      · exact h.frontier inst hold hinst_leaves
      · exact ⟨hinst_leaves, .inr (.inr ⟨item, step_of_not_leaves hleaves hpushed, hleaves, hitem⟩)⟩
    · intro inst hinst hinst_leaves
      rcases mem_or_visit.mp hinst with hold | hpushed
      · exact h.reaches inst hold hinst_leaves
      · exact reachesSet_of_not_leaves no_critical_steps (step_of_not_leaves hleaves hpushed)
          hleaves hitem hinst_leaves
    · intro exit
      rw [h.mem_exits]
      constructor
      · rintro ⟨inst, hinst, hinst'⟩
        exact ⟨inst, List.mem_cons_of_mem _ hinst, hinst'⟩
      · rintro ⟨inst, hinst, hinst'⟩
        rcases List.mem_cons.mp hinst with rfl | hinst
        · exact absurd hinst'.1 hleaves
        · exact ⟨inst, hinst, hinst'⟩
    · exact h.nodup
    · exact fun inst hinst => mem_or_visit.mpr (.inl (h.segment inst hinst))
    · intro inst hinst hstill next hnext
      rcases List.mem_cons.mp hinst with rfl | hinst
      · exact mem_or_visit.mpr (.inr hnext.1)
      · exact mem_or_visit.mpr (.inl (h.closed inst hinst hstill next hnext))

/-- The traversal for exits comes to an end. -/
theorem exists_findExits (analyses : Analyses loop) (ssInstructions : List loop.Instr) :
    ∃ exits, findExits analyses ssInstructions = some exits := by
  have hpush : ∀ exits inst, (visitPotentialExit analyses ssInstructions exits inst).2.length ≤
      inst.nextInstructions.length := by
    intro exits inst
    unfold visitPotentialExit
    split_ifs
    · exact Nat.zero_le _
    · exact Nat.le_refl _
  exact exists_worklist (visitPotentialExit analyses ssInstructions)
    (fun inst => inst.nextInstructions.length) mem_instructions hpush ssInstructions []
    ([] : List loop.Instr) (Nat.le_refl _)

/-- The traversal for exits finds the frontier after the segment. -/
theorem findExits_frontier (hanalyses : analyses.Documented) (hcycles : CyclesGoOn ssInstructions)
    {exits : List loop.Instr} (hexits : findExits analyses ssInstructions = some exits) :
    exits.Nodup ∧ ∀ exit, exit ∈ exits ↔ ∃ inst, AtFrontier ssInstructions inst ∧
      ReachedBySet loop.Step (· ∈ ssInstructions) inst ∧
      exit = getFrontierInstructionThatDoesNotSplitPHIs inst := by
  obtain ⟨visited, h⟩ := worklist_invariant (ExitTraversal ssInstructions)
    (fun _ _ _ _ hitem h => h.skip hitem) (fun _ _ _ _ _ h => h.visit hanalyses hcycles)
    ExitTraversal.initial hexits
  refine ⟨h.nodup, fun exit => ?_⟩
  rw [h.mem_exits]
  constructor
  · rintro ⟨inst, hinst, hleaves, heq⟩
    exact ⟨inst, h.frontier inst (.inr hinst) hleaves, h.reached inst (.inr hinst), heq⟩
  · rintro ⟨inst, hfrontier, hreached, heq⟩
    refine ⟨inst, ?_, hfrontier.1, heq⟩
    by_cases hmem : inst ∈ ssInstructions
    · exact (h.segment inst hmem).resolve_left (by simp)
    · obtain ⟨start, hstart, hreach⟩ := hreached
      -- The traversal came to the only instruction before this one, and went on from there.
      obtain ⟨before, hstep, honly, hstill, hset⟩ := hfrontier.only_predecessor no_critical_steps
        hmem (ne_header_of_reached ⟨start, hstart, hreach⟩ hmem)
      have hbefore := honly.reaches_of_ne hreach fun heq => hmem (heq ▸ hstart)
      exact (h.closed before (h.mem_visited ⟨start, hstart, hbefore⟩ hstill hset) hstill inst
        hstep).resolve_left (by simp)

/-! ## The last instructions of the segment -/

/-- What the traversal keeps of the instructions it has accepted. -/
structure AcceptedExits (ssInstructions queue visited exits : List loop.Instr) : Prop where
  points : ∀ exit ∈ exits, ∃ inst, ¬ ReachesOther loop.Step (· ∈ ssInstructions) inst ∧
    exit = getFrontierInstructionThatDoesNotSplitPHIs inst
  segment : ∀ inst ∈ ssInstructions, inst ∈ queue ∨ inst ∈ visited
  accepted : ∀ inst ∈ visited, inst ∈ ssInstructions → ¬ InInnerLoop inst →
    ¬ ReachesOther loop.Step (· ∈ ssInstructions) inst → inst ∈ exits

/-- No exit leads to an instruction of the segment that it is not. -/
theorem AcceptedExits.not_reachable (hanalyses : analyses.Documented)
    {inst : loop.Instr} {queue visited exits : List loop.Instr}
    (h : AcceptedExits ssInstructions queue visited exits) (hinst : inst ∈ ssInstructions)
    (hphi : ¬ inst.IsPHI) : isReachableFromOtherExit analyses exits inst = false := by
  rw [Bool.eq_false_iff]
  intro hreachable
  obtain ⟨exit, hmem, hne, hreach⟩ := (reachable_iff hanalyses).mp hreachable
  obtain ⟨before, hbefore, rfl⟩ := h.points exit hmem
  by_cases heq : inst = before
  · exact hne (heq ▸ point_eq hphi)
  · exact hbefore ⟨inst, hinst, heq, TransGen.trans_right (reaches_point before) hreach⟩

/-- Visiting an item accepts it when it is a last instruction of the segment. -/
theorem AcceptedExits.visit (hanalyses : analyses.Documented)
    (hphi : ∀ inst ∈ ssInstructions, ¬ inst.IsPHI) {item : loop.Instr}
    {queue visited exits : List loop.Instr}
    (h : AcceptedExits ssInstructions (item :: queue) visited exits) :
    AcceptedExits ssInstructions
      (queue ++ (visitPotentialExit analyses ssInstructions exits item).2) (item :: visited)
      (visitPotentialExit analyses ssInstructions exits item).1 := by
  have hsegment : ∀ pushed : List loop.Instr, ∀ inst ∈ ssInstructions,
      inst ∈ queue ++ pushed ∨ inst ∈ item :: visited :=
    fun pushed inst hinst => mem_or_visit.mpr (.inl (h.segment inst hinst))
  unfold visitPotentialExit
  split_ifs with haccept
  · simp only [Bool.and_eq_true, check_after_iff hanalyses] at haccept
    refine ⟨fun exit hexit => ?_, hsegment _, fun inst hinst hmem hinner hlast => ?_⟩
    · rcases List.mem_insert_iff.mp hexit with rfl | hexit
      · exact ⟨item, haccept.1.2, rfl⟩
      · exact h.points exit hexit
    · rcases List.mem_cons.mp hinst with rfl | hinst
      · rw [point_eq (hphi inst hmem)]
        exact List.mem_insert_self
      · exact List.mem_insert_of_mem (h.accepted inst hinst hmem hinner hlast)
  · refine ⟨h.points, hsegment _, fun inst hinst hmem hinner hlast => ?_⟩
    rcases List.mem_cons.mp hinst with rfl | hinst
    · refine absurd ?_ haccept
      rw [hanalyses.nestedMostLoopIsRoot inst |>.mpr hinner, check_after_iff hanalyses |>.mpr hlast,
        h.not_reachable hanalyses hmem (hphi inst hmem)]
      rfl
    · exact h.accepted inst hinst hmem hinner hlast

/-- An instruction of the segment outside inner loops with no other one after it is an exit. -/
theorem mem_findExits (hanalyses : analyses.Documented)
    (hphi : ∀ inst ∈ ssInstructions, ¬ inst.IsPHI) {exits : List loop.Instr}
    (hexits : findExits analyses ssInstructions = some exits) {inst : loop.Instr}
    (hinst : inst ∈ ssInstructions) (hinner : ¬ InInnerLoop inst)
    (hlast : ¬ ReachesOther loop.Step (· ∈ ssInstructions) inst) : inst ∈ exits := by
  obtain ⟨visited, h⟩ := worklist_invariant (AcceptedExits ssInstructions)
    (fun _ _ _ _ hitem h => ⟨h.points, fun inst hinst => mem_or_of_visited hitem
      (h.segment inst hinst), h.accepted⟩)
    (fun _ _ _ _ _ h => h.visit hanalyses hphi)
    ⟨by simp, fun inst hinst => .inl hinst, by simp⟩ hexits
  exact h.accepted inst ((h.segment inst hinst).resolve_left (by simp)) hinst hinner hlast

end Gino.Helix
