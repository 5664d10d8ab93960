import Gino.Helix.IterationPaths
import Gino.Helix.SegmentFrontier
import Gino.Helix.SegmentTrace

/-!
# When a segment is synchronized

`WaitsOnce` and `SignalsOnce` are the conditions under which every iteration waits once before its
first instruction of a segment and signals once after its last one, and `SignalsOnce.synchronized`
says so. Where the cycles of a segment are those of inner loops, only the unconditional branches and
the order of the last pass count (`waits_once_of_cycles`).
-/

namespace Gino.Helix

open Graph Machine Relation LoopCFG

variable {Block : Type*} {loop : LoopCFG Block} {ssInstructions unreachable : List loop.Instr}

/-! ## Frontier nodes -/

/-- The frontier point of an instruction on no cycle is on none. -/
theorem point_acyclic {inst : loop.Instr} (h : ¬ OnCycle loop.Step inst) :
    ¬ OnCycle loop.Step (getFrontierInstructionThatDoesNotSplitPHIs inst) := fun hcycle =>
  h (on_cycle_of_block hcycle (point_block inst).symm)

/-- Where a walk that was never in the segment leaves it, a block that goes around it begins. -/
theorem frontier_around {inst : loop.Instr}
    (h : AtFrontier ssInstructions inst)
    (hreached : ¬ ReachedBySet loop.Step (· ∈ ssInstructions) inst) :
    inst = loop.first inst.block ∧ GoesAround loop.Step (· ∈ ssInstructions) inst := by
  have hmem : inst ∉ ssInstructions := fun hmem => hreached ⟨inst, hmem, .refl⟩
  have hset : ¬ ReachesSet loop.Step (· ∈ ssInstructions) inst := fun hset =>
    hmem (h.1.mem_of_reaches hset)
  refine ⟨?_, hreached, hset⟩
  by_cases hheader : inst = loop.first loop.header
  · rw [hheader]
    rfl
  obtain ⟨before, hstep, -, -, other, hother, hreach⟩ :=
    h.only_predecessor no_critical_steps hmem hheader
  rcases hreach.cases_head with rfl | ⟨next, hnext, hrest⟩
  · exact absurd ⟨before, hother, .single hstep⟩ hreached
  · have hne : inst ≠ next := fun heq => hset ⟨other, hother, heq ▸ hrest⟩
    exact Instr.eq_first (two_successors hstep hnext hne).2.2.1

/-- A latch ends with an instruction after which nothing of the iteration is executed. -/
theorem latch_leaves {latch : Block} (hlatch : some loop.header ∈ loop.successors latch) :
    Leaves loop.Step (· ∈ ssInstructions) (loop.getTerminator latch) := by
  have hlast : ∀ later, ¬ TransGen loop.Step (loop.getTerminator latch) later := by
    intro later hreach
    obtain ⟨next, hstep, -⟩ := TransGen.head'_iff.mp hreach
    exact not_step_latch hlatch hstep
  exact ⟨hlast _, fun ⟨other, _, _, hreach⟩ => hlast other hreach⟩

/-- Every iteration crosses the frontier. -/
theorem exists_frontier_mem (ssInstructions : List loop.Instr) {path : List loop.Instr}
    (hpath : IterationPath loop path) :
    ∃ inst ∈ path, AtFrontier ssInstructions inst := by
  obtain ⟨latch, hlatch, hwalk⟩ := hpath
  exact hwalk.exists_frontier no_critical_steps (fun _ => not_step_header) (latch_leaves hlatch)

/-- There is an iteration along instructions that reach each other. -/
theorem exists_iteration {inst later : loop.Instr} (h : ReflTransGen loop.Step inst later) :
    ∃ path, IterationPath loop path ∧ inst ∈ path ∧ later ∈ path := by
  obtain ⟨latch, hlatch, hreach⟩ := reaches_latch later
  obtain ⟨path, hwalk, hinst, hlater⟩ := exists_walk_through (header_reaches inst) h hreach
  exact ⟨path, ⟨latch, hlatch, hwalk⟩, hinst, hlater⟩

variable {frontier : EntriesAndExits loop} {context : SegmentContext loop}

/-- A wait is on every way to the segment. -/
theorem wait_before_segment (hphi : ∀ inst ∈ ssInstructions, ¬ inst.IsPHI)
    (hfrontier : EntriesOf ssInstructions unreachable frontier.entries) {inst : loop.Instr}
    (hinst : inst ∈ ssInstructions) {path : List loop.Instr}
    (hpath : Walk loop.Step path (loop.first loop.header) inst) :
    ∃ wait ∈ path, wait ∈ waitInstructions context frontier := by
  unfold waitInstructions
  split_ifs
  · exact ⟨_, firstNonPHI_mem hpath (hphi inst hinst), List.mem_singleton_self _⟩
  · obtain ⟨entry, hentry, hon⟩ := hfrontier.entry_on_walk path inst hpath (hphi inst hinst) inst
      hpath.target_mem (.segment hinst)
    exact ⟨entry, hon, hentry⟩

variable [DecidableEq Block] {analyses : Analyses loop}

section Around

variable (hanalyses : analyses.Documented)
  (horder : UnreachableOrder analyses ssInstructions unreachable)

include hanalyses horder

/-- The unreachable instructions. -/
theorem mem_unreachable {inst : loop.Instr} : inst ∈ unreachable ↔
    inst = loop.first inst.block ∧ GoesAround loop.Step (· ∈ ssInstructions) inst := by
  rw [horder.mem_iff, mem_unreachable_iff hanalyses]

/-- No block that goes around the segment leads to the frontier. -/
theorem not_reaches_of_unreachable {inst later : loop.Instr} (hinst : inst ∈ unreachable)
    (hlater : AtFrontier ssInstructions later) : ¬ TransGen loop.Step inst later :=
  fun hreach => ((mem_unreachable hanalyses horder).mp hinst).2.2
    (hlater.reachesSet_of_reaches no_critical_steps (fun _ => not_step_header) hreach)

/-- Where a walk that was never in the segment leaves it is kept in the last pass. -/
theorem frontier_kept {inst : loop.Instr}
    (h : AtFrontier ssInstructions inst)
    (hreached : ¬ ReachedBySet loop.Step (· ∈ ssInstructions) inst) :
    Kept loop.Step unreachable inst := by
  have hmem := (mem_unreachable hanalyses horder).mpr (frontier_around h hreached)
  obtain ⟨before, after, hsplit⟩ := List.append_of_mem hmem
  refine ⟨before, after, hsplit, fun earlier hearlier => ?_⟩
  exact not_reaches_of_unreachable hanalyses horder (by simp [hsplit, hearlier]) h

/-- A block that goes around the segment is where a walk leaves the segment, or comes after one. -/
theorem exists_root {inst : loop.Instr}
    (hinst : inst ∈ unreachable) : AtFrontier ssInstructions inst ∨
      ∃ root, AtFrontier ssInstructions root ∧ root ∈ unreachable ∧
        Kept loop.Step unreachable root ∧ TransGen loop.Step root inst := by
  obtain ⟨-, haround⟩ := (mem_unreachable hanalyses horder).mp hinst
  obtain ⟨path, hpath, hmem, -⟩ := exists_iteration (.refl : ReflTransGen loop.Step inst inst)
  obtain ⟨root, hroot, hfrontier⟩ := exists_frontier_mem ssInstructions hpath
  by_cases heq : root = inst
  · exact .inl (heq ▸ hfrontier)
  · obtain ⟨latch, -, hwalk⟩ := hpath
    rcases hwalk.reaches_or_reaches hroot hmem heq with hreach | hreach
    · have hreached : ¬ ReachedBySet loop.Step (· ∈ ssInstructions) root := fun hreached =>
        haround.1 (hreached.of_reaches hreach.to_reflTransGen)
      have hkept := frontier_kept hanalyses horder hfrontier hreached
      exact .inr ⟨root, hfrontier, hkept.mem, hkept, hreach⟩
    · exact absurd hreach (not_reaches_of_unreachable hanalyses horder hinst hfrontier)

/-- Every frontier node is an exit. -/
theorem mem_exits_of_frontier (hfrontier : FrontierOf ssInstructions unreachable frontier)
    {inst : loop.Instr} (h : AtFrontier ssInstructions inst) :
    getFrontierInstructionThatDoesNotSplitPHIs inst ∈ frontier.exits := by
  refine (hfrontier.mem_exits _).mpr ⟨inst, rfl, ?_⟩
  by_cases hreached : ReachedBySet loop.Step (· ∈ ssInstructions) inst
  · exact .inl ⟨h, hreached⟩
  · exact .inr (frontier_kept hanalyses horder h hreached)

end Around

/-! ## The waits -/

/-- When the waits of a segment are right: where the segment is left and may have been executed, no
walk leads past what the traversal for entries has to come to. The prologue waits at the header. -/
def WaitsOnce (context : SegmentContext loop) (ssInstructions : List loop.Instr) : Prop :=
  context.isPreamble = false → ∀ inst, AtFrontier ssInstructions inst →
    ReachedBySet loop.Step (· ∈ ssInstructions) inst → ¬ ReachedApart ssInstructions inst

omit [DecidableEq Block] in
/-- The traversal for entries has to come to what lies between instructions of the segment, unless
it finds an entry on a cycle. -/
theorem comes_to_of_cycles
    (h : ∀ inst ∈ ssInstructions, OnCycle loop.Step inst → ¬ MayEnter ssInstructions inst)
    {start inst other : loop.Instr} (hstart : start ∈ ssInstructions)
    (hbefore : ReflTransGen loop.Step start inst) (hother : other ∈ ssInstructions)
    (hafter : ReflTransGen loop.Step inst other) : ComesTo ssInstructions inst := by
  induction hafter using ReflTransGen.head_induction_on with
  | refl => exact .segment hother
  | @head inst next hstep _ ih =>
      have hreach := TransGen.tail' hbefore hstep
      refine .before hstep (fun hmay => ?_) (ih hreach.to_reflTransGen)
      by_cases heq : start = next
      · subst heq
        exact h start hstart hreach hmay
      · exact hmay.2 ⟨start, hstart, heq, hreach⟩

omit [DecidableEq Block] in
/-- The waits are right when an instruction of the segment that may be an entry is on no cycle. -/
theorem waits_once_of_cycles (context : SegmentContext loop)
    (h : ∀ inst ∈ ssInstructions, OnCycle loop.Step inst → ¬ MayEnter ssInstructions inst) :
    WaitsOnce context ssInstructions := by
  rintro - inst hinst hreached ⟨path, hpath, hapart⟩
  by_cases hmem : inst ∈ ssInstructions
  · exact hapart inst hpath.target_mem (.segment hmem)
  · have hne := ne_header_of_reached hreached hmem
    obtain ⟨before, -, honly, -, other, hother, hafter⟩ :=
      hinst.only_predecessor no_critical_steps hmem hne
    obtain ⟨start, hstart, hreach⟩ := hreached
    have hbefore := honly.reaches_of_ne hreach fun heq => hmem (heq ▸ hstart)
    exact hapart before (hpath.only_predecessor_mem hpath.target_mem hne honly).1
      (comes_to_of_cycles h hstart hbefore hother hafter)

/-- A wait is on every way to where a walk leaves the segment. -/
theorem wait_before_frontier (hwaits : WaitsOnce context ssInstructions)
    (hanalyses : analyses.Documented)
    (horder : UnreachableOrder analyses ssInstructions unreachable)
    (hfrontier : FrontierOf ssInstructions unreachable frontier) {inst : loop.Instr}
    (h : AtFrontier ssInstructions inst) {path : List loop.Instr}
    (hpath : Walk loop.Step path (loop.first loop.header)
      (getFrontierInstructionThatDoesNotSplitPHIs inst)) :
    ∃ wait ∈ path, wait ∈ waitInstructions context frontier := by
  unfold waitInstructions
  split_ifs with hpreamble
  · exact ⟨_, firstNonPHI_mem hpath (point_not_phi inst), List.mem_singleton_self _⟩
  · by_cases hreached : ReachedBySet loop.Step (· ∈ ssInstructions) inst
    · have hon : inst ∈ path :=
        mem_of_earlier hpath hpath.target_mem (point_block inst).symm (le_point inst)
      have hcomes : ∃ other ∈ path, ComesTo ssInstructions other := by
        by_contra hnone
        push Not at hnone
        exact hwaits (Bool.eq_false_iff.mpr hpreamble) inst h hreached
          (reachedApart_of_mem hpath hnone hon)
      obtain ⟨other, hother, hcomes⟩ := hcomes
      obtain ⟨entry, hentry, hentry_on⟩ :=
        hfrontier.entry_on_walk path _ hpath (point_not_phi inst) other hother hcomes
      exact ⟨entry, hentry_on, hentry⟩
    · have hkept := frontier_kept hanalyses horder h hreached
      obtain ⟨entry, hentry, hon⟩ := hfrontier.entry_around inst hkept.mem path hpath
      exact ⟨entry, hon, hentry⟩

/-! ## The signals -/

/-- A collected exit at its exit is the exit itself, which does not end in several. -/
theorem collectExit_self {waits : List loop.Instr} {exit : loop.Instr}
    (hacyclic : ¬ OnCycle loop.Step exit) {collected : ExitInstruction loop}
    (h : collected ∈ collectExit waits context exit) (hself : collected.inst = exit) :
    collected = .original exit ∧ endsInSeveral exit = false := by
  unfold collectExit at h
  split_ifs at h with hseveral
  · obtain ⟨hterminator, hlength⟩ := ends_in_several_iff.mp hseveral
    obtain ⟨next, hnext, rfl⟩ := List.mem_map.mp h
    rw [beginning_inst] at hself
    have hstep := step_to_successor hlength (List.reduceOption_mem_iff.mp hnext)
    have hreach : TransGen loop.Step (loop.getTerminator exit.block) (loop.getFirstNonPHI next) :=
      TransGen.head' hstep (first_reaches (loop.getFirstNonPHI next))
    rw [hself, ← hterminator.eq] at hreach
    exact absurd hreach hacyclic
  · exact ⟨List.mem_singleton.mp h, Bool.eq_false_iff.mpr hseveral⟩

/-- How the signal for an exit stands: at or after it, and at the exit itself after a wait and
before an unconditional branch. -/
structure SignalsExit (exit : loop.Instr) (point : InsertPoint loop) : Prop where
  reach : ReflTransGen loop.Step exit point.inst
  acyclic : ¬ OnCycle loop.Step point.inst
  atExit : point.inst = exit → point.afterWait = true ∧ point.inst.IsTerminator ∧
    (loop.successors point.inst.block).length = 1

/-- The signal for an exit stands so. -/
theorem signal_of_exit {waits : List loop.Instr} {exit : loop.Instr}
    (hacyclic : ¬ OnCycle loop.Step exit) {collected : ExitInstruction loop}
    (hcollected : collected ∈ collectExit waits context exit) {point : InsertPoint loop}
    (hinjected : point ∈ injectSignal collected) : SignalsExit exit point := by
  obtain ⟨hcollected_acyclic, hcollected_reach⟩ := collectExit_acyclic hacyclic hcollected
  obtain ⟨hpoint_acyclic, hreach, hself⟩ := injectSignal_acyclic hcollected_acyclic hinjected
  refine ⟨hcollected_reach.trans hreach, hpoint_acyclic, fun hat => ?_⟩
  have hcollected_at : collected.inst = exit := by
    by_contra hne
    refine hacyclic ?_
    have hforth : TransGen loop.Step exit collected.inst :=
      (reflTransGen_iff_eq_or_transGen.mp hcollected_reach).resolve_left hne
    rw [hat] at hreach
    exact TransGen.trans_left hforth hreach
  obtain ⟨horiginal, hone⟩ := collectExit_self hacyclic hcollected hcollected_at
  rcases hself (hat.trans hcollected_at.symm) with ⟨other, hother⟩ | ⟨hlate, hterminator⟩
  · rw [horiginal] at hother
    cases hother
  · refine ⟨hlate, hterminator, ?_⟩
    by_contra hlength
    rw [← hat, ends_in_several_iff.mpr ⟨hterminator, hlength⟩] at hone
    cases hone

/-- A block around the segment that may be visited before the block that leads to it: for the
prologue, the block right after one that consists of PHIs and a terminator with several successors,
if it does not itself and no code of another segment stands in front of it. Both make the same
instruction an exit then. -/
def MayComeEarly (context : SegmentContext loop) (unreachable : List loop.Instr)
    (inst : loop.Instr) : Prop :=
  context.isPreamble = true ∧ loop.getFirstNonPHI inst.block ∉ context.behindEarlierCode ∧
    endsInSeveral (loop.getFirstNonPHI inst.block) = false ∧
    ∃ other ∈ unreachable, endsInSeveral (loop.getFirstNonPHI other.block) = true ∧
      some inst.block ∈ loop.successors other.block ∧
      ∀ before ∈ unreachable, ¬ TransGen loop.Step before other

/-- When the signals of a segment are right: an unconditional branch of it on no cycle has an
instruction of the segment after it, and so has an instruction of it on a cycle that is in no inner
loop; and of the blocks that go around the segment one that a later one of the order leads to comes
after an earlier one that leads to it. -/
structure SignalsOnce (context : SegmentContext loop)
    (ssInstructions unreachable : List loop.Instr) : Prop where
  branches : ∀ inst ∈ ssInstructions, inst.IsTerminator →
    (loop.successors inst.block).length = 1 → ¬ OnCycle loop.Step inst →
    ReachesOther loop.Step (· ∈ ssInstructions) inst
  cycles : CyclesGoOn ssInstructions
  order : ∀ before inst after, unreachable = before ++ inst :: after →
    (∃ later ∈ after, TransGen loop.Step later inst) →
    (∃ earlier ∈ before, TransGen loop.Step earlier inst) ∨
      MayComeEarly context unreachable inst

/-- The exits at the frontier, each once. -/
structure FrontierExits (ssInstructions exits : List loop.Instr) : Prop where
  nodup : exits.Nodup
  mem_iff : ∀ exit, exit ∈ exits ↔ ∃ inst, AtFrontier ssInstructions inst ∧
    exit = getFrontierInstructionThatDoesNotSplitPHIs inst

namespace FrontierExits

variable {exits : List loop.Instr}

omit [DecidableEq Block] in
/-- No exit at the frontier is on a cycle. -/
theorem acyclic (h : FrontierExits ssInstructions exits) {exit : loop.Instr}
    (hexit : exit ∈ exits) : ¬ OnCycle loop.Step exit := by
  obtain ⟨inst, hinst, rfl⟩ := (h.mem_iff exit).mp hexit
  exact point_acyclic hinst.1.1

/-- An iteration has one exit at the frontier. -/
theorem count_exits (h : FrontierExits ssInstructions exits) {path : List loop.Instr}
    (hpath : IterationPath loop path) {inst : loop.Instr} (hinst : inst ∈ path)
    (hinst_frontier : AtFrontier ssInstructions inst) : exits.countP (· ∈ path) = 1 := by
  have hexit : getFrontierInstructionThatDoesNotSplitPHIs inst ∈ exits :=
    (h.mem_iff _).mpr ⟨inst, hinst_frontier, rfl⟩
  have hon := (mem_iff_of_block hpath (point_block inst)).mpr hinst
  refine countP_eq_one h.nodup hexit (decide_eq_true hon) fun exit hexit hexit_on => ?_
  obtain ⟨other, hother, rfl⟩ := (h.mem_iff exit).mp hexit
  have hother_on := (mem_iff_of_block hpath (point_block other)).mp (of_decide_eq_true hexit_on)
  obtain ⟨latch, -, hwalk⟩ := hpath
  rw [hwalk.frontier_unique no_critical_steps (fun _ => not_step_header) hother_on hinst hother
    hinst_frontier]

/-- An iteration has one instruction as which the exits at the frontier are collected. -/
theorem count_collected (h : FrontierExits ssInstructions exits) (waits : List loop.Instr)
    (context : SegmentContext loop) {path : List loop.Instr} (hpath : IterationPath loop path)
    {inst : loop.Instr} (hinst : inst ∈ path) (hinst_frontier : AtFrontier ssInstructions inst) :
    (exits.flatMap (collectExit waits context)).countP (fun collected => collected.inst ∈ path) =
      1 := by
  rw [countP_flatMap_eq (p := fun exit => decide (exit ∈ path)) ?_,
    h.count_exits hpath hinst hinst_frontier]
  intro exit hexit
  rw [count_collectExit hpath waits context (h.acyclic hexit)]
  simp

end FrontierExits

section Signals

variable (hanalyses : analyses.Documented)
  (horder : UnreachableOrder analyses ssInstructions unreachable)
  (hphi : ∀ inst ∈ ssInstructions, ¬ inst.IsPHI)
  (hfrontier : FrontierOf ssInstructions unreachable frontier)

include hanalyses horder hfrontier

/-- Under the condition, whatever is collected is collected from an exit at the frontier. -/
theorem SignalsOnce.collected (h : SignalsOnce context ssInstructions unreachable)
    {exit : loop.Instr} (hexit : exit ∈ frontier.exits) {collected : ExitInstruction loop}
    (hcollected : collected ∈ collectExit (waitInstructions context frontier) context exit) :
    ∃ inst, AtFrontier ssInstructions inst ∧ collected ∈
      collectExit (waitInstructions context frontier) context
        (getFrontierInstructionThatDoesNotSplitPHIs inst) := by
  obtain ⟨inst, rfl, ⟨hinst, -⟩ | hkept⟩ := (hfrontier.mem_exits exit).mp hexit
  · exact ⟨inst, hinst, hcollected⟩
  · rcases exists_root hanalyses horder hkept.mem with hinst |
      ⟨root, hroot, hroot_mem, -, hreach⟩
    · exact ⟨inst, hinst, hcollected⟩
    · obtain ⟨before, after, hsplit, hbefore⟩ := hkept
      have hafter : root ∈ after := by
        rw [hsplit] at hroot_mem
        rcases List.mem_append.mp hroot_mem with hmem | hmem
        · exact absurd hreach (hbefore root hmem)
        · refine (List.mem_cons.mp hmem).resolve_left ?_
          rintro rfl
          exact hroot.1.1 hreach
      obtain ⟨hpreamble, hearlier, hone, other, hother, hseveral, hedge, hnone⟩ :=
        (h.order before inst after hsplit ⟨root, hafter, hreach⟩).resolve_left
          fun ⟨earlier, hmem, hreach⟩ => hbefore earlier hmem hreach
      have hinst_mem : inst ∈ unreachable := by simp [hsplit]
      obtain ⟨hfirst, -⟩ := (mem_unreachable hanalyses horder).mp hinst_mem
      obtain ⟨hother_first, -⟩ := (mem_unreachable hanalyses horder).mp hother
      -- The block before is itself where walks around the segment leave it.
      have hother_frontier : AtFrontier ssInstructions other :=
        (exists_root hanalyses horder hother).resolve_right
          fun ⟨root, _, hmem, _, hreach⟩ => hnone root hmem hreach
      refine ⟨other, hother_frontier, ?_⟩
      have hpoint : getFrontierInstructionThatDoesNotSplitPHIs inst =
          loop.getFirstNonPHI inst.block := by
        rw [hfirst]
        exact point_first _
      have hother_point : getFrontierInstructionThatDoesNotSplitPHIs other =
          loop.getFirstNonPHI other.block := by
        rw [hother_first]
        exact point_first _
      have hunsplit : ¬ (loop.getFirstNonPHI inst.block ∈ waitInstructions context frontier ∨
          loop.getFirstNonPHI inst.block ∈ context.behindEarlierCode) := by
        rintro (hwait | hmem)
        · unfold waitInstructions at hwait
          rw [if_pos hpreamble] at hwait
          have hheader : inst.block = loop.header :=
            congrArg Instr.block (List.mem_singleton.mp hwait)
          rw [hfirst, hheader] at hreach
          exact not_reaches_header _ hreach
        · exact hearlier hmem
      have hbeginning :
          beginningOfSuccessor (waitInstructions context frontier) context inst.block =
          .original (loop.getFirstNonPHI inst.block) := if_neg hunsplit
      rw [hpoint] at hcollected
      unfold collectExit at hcollected ⊢
      rw [if_neg (Bool.eq_false_iff.mp hone)] at hcollected
      rw [hother_point, if_pos hseveral, List.mem_singleton.mp hcollected, ← hbeginning]
      exact List.mem_map_of_mem (List.reduceOption_mem_iff.mpr hedge)

/-- Among the exits are those at the frontier. -/
theorem exists_frontier_exits : ∃ exits, FrontierExits ssInstructions exits := by
  classical
  refine ⟨frontier.exits.filter fun exit => ∃ inst, AtFrontier ssInstructions inst ∧
    exit = getFrontierInstructionThatDoesNotSplitPHIs inst, hfrontier.nodup.filter _,
    fun exit => ?_⟩
  rw [List.mem_filter, decide_eq_true_eq]
  refine ⟨And.right, fun hexit => ⟨?_, hexit⟩⟩
  obtain ⟨inst, hinst, rfl⟩ := hexit
  exact mem_exits_of_frontier hanalyses horder hfrontier hinst

/-- Under the condition the exits collected are those of the frontier. -/
theorem SignalsOnce.mem_collected (h : SignalsOnce context ssInstructions unreachable)
    {exits : List loop.Instr} (hexits : FrontierExits ssInstructions exits)
    (collected : ExitInstruction loop) :
    collected ∈ frontier.exits.flatMap
        (collectExit (waitInstructions context frontier) context) ↔
      collected ∈ exits.flatMap (collectExit (waitInstructions context frontier) context) := by
  rw [List.mem_flatMap, List.mem_flatMap]
  constructor
  · rintro ⟨exit, hexit, hmem⟩
    obtain ⟨inst, hinst, hmem⟩ := h.collected hanalyses horder hfrontier hexit hmem
    exact ⟨_, (hexits.mem_iff _).mpr ⟨inst, hinst, rfl⟩, hmem⟩
  · rintro ⟨exit, hexit, hmem⟩
    obtain ⟨inst, hinst, rfl⟩ := (hexits.mem_iff exit).mp hexit
    exact ⟨_, mem_exits_of_frontier hanalyses horder hfrontier hinst, hmem⟩

/-- Under the condition a signal is that of an exit at the frontier. -/
theorem SignalsOnce.collected_from (h : SignalsOnce context ssInstructions unreachable)
    {exits : List loop.Instr} (hexits : FrontierExits ssInstructions exits)
    {collected : ExitInstruction loop} (hcollected : collected ∈ (frontier.exits.flatMap
      (collectExit (waitInstructions context frontier) context)).dedup) :
    ∃ exit ∈ exits, collected ∈ collectExit (waitInstructions context frontier) context exit :=
  List.mem_flatMap.mp ((h.mem_collected hanalyses horder hfrontier hexits collected).mp
    (List.mem_dedup.mp hcollected))

/-- Under the condition an iteration has one signal. -/
theorem SignalsOnce.count_signals (h : SignalsOnce context ssInstructions unreachable)
    {exits : List loop.Instr} (hexits : FrontierExits ssInstructions exits)
    {path : List loop.Instr} (hpath : IterationPath loop path) {inst : loop.Instr}
    (hinst : inst ∈ path) (hinst_frontier : AtFrontier ssInstructions inst) :
    (addSynchronizations context frontier).signals.countP (fun point => point.inst ∈ path) =
      1 := by
  have hcollected := countP_dedup_eq_one (h.mem_collected hanalyses horder hfrontier hexits)
    (hexits.count_collected _ context hpath hinst hinst_frontier)
  show ((frontier.exits.flatMap (collectExit (waitInstructions context frontier)
    context)).dedup.flatMap injectSignal).countP _ = 1
  rw [countP_flatMap_eq (p := fun collected => decide (collected.inst ∈ path)) ?_, hcollected]
  intro collected hmem
  obtain ⟨exit, hexit, hmem⟩ := h.collected_from hanalyses horder hfrontier hexits hmem
  rw [count_injectSignal hpath (collectExit_acyclic (hexits.acyclic hexit) hmem).1]
  simp

/-- Under the condition an iteration has one signal, at or after where it leaves the segment. -/
theorem SignalsOnce.count (h : SignalsOnce context ssInstructions unreachable)
    {path : List loop.Instr} (hpath : IterationPath loop path) {inst : loop.Instr}
    (hinst : inst ∈ path) (hinst_frontier : AtFrontier ssInstructions inst) :
    ∃ point, (addSynchronizations context frontier).signals.count point = 1 ∧
      point.inst ∈ path ∧
      (∀ other ∈ (addSynchronizations context frontier).signals, other.inst ∈ path →
        other = point) ∧
      SignalsExit (getFrontierInstructionThatDoesNotSplitPHIs inst) point := by
  obtain ⟨exits, hexits⟩ := exists_frontier_exits hanalyses horder hfrontier
  have hsignals := h.count_signals hanalyses horder hfrontier hexits hpath hinst hinst_frontier
  obtain ⟨point, hpoint, hpoint_on⟩ :=
    List.countP_pos_iff.mp (Nat.lt_of_lt_of_eq Nat.zero_lt_one hsignals.symm)
  refine ⟨point, ?_, of_decide_eq_true hpoint_on, fun other hother hother_on =>
    eq_of_countP_eq_one hsignals hother (decide_eq_true hother_on) hpoint hpoint_on, ?_⟩
  · refine le_antisymm ?_ (List.one_le_count_iff.mpr hpoint)
    rw [← hsignals]
    refine List.countP_mono_left fun other _ hother => ?_
    rw [eq_of_beq hother]
    exact hpoint_on
  · -- The signal is that of the one exit at the frontier on the walk.
    obtain ⟨collected, hcollected, hinject⟩ := List.mem_flatMap.mp hpoint
    obtain ⟨exit, hexit, hmem⟩ := h.collected_from hanalyses horder hfrontier hexits hcollected
    have hacyclic := hexits.acyclic hexit
    have hcollected_on : collected.inst ∈ path :=
      mem_of_injected hpath (collectExit_acyclic hacyclic hmem).1 hinject
        (of_decide_eq_true hpoint_on)
    have hexit_on : exit ∈ path := mem_of_collected hpath hacyclic hmem hcollected_on
    have hon := (mem_iff_of_block hpath (point_block inst)).mpr hinst
    have heq : exit = getFrontierInstructionThatDoesNotSplitPHIs inst :=
      eq_of_countP_eq_one (hexits.count_exits hpath hinst hinst_frontier) hexit
        (decide_eq_true hexit_on) ((hexits.mem_iff _).mpr ⟨inst, hinst_frontier, rfl⟩)
        (decide_eq_true hon)
    exact signal_of_exit (heq ▸ hacyclic) (heq ▸ hmem) hinject

omit hanalyses horder hfrontier in
include hphi in
/-- Under the condition nothing of the segment comes after the signal for where it is left. -/
theorem SignalsOnce.segment_before (h : SignalsOnce context ssInstructions unreachable)
    {inst other : loop.Instr} (hinst_frontier : AtFrontier ssInstructions inst)
    {point : InsertPoint loop}
    (hpoint : SignalsExit (getFrontierInstructionThatDoesNotSplitPHIs inst) point)
    (hother : other ∈ ssInstructions) : ¬ ReflTransGen loop.Step point.inst other := by
  intro hlater
  have hforth := (reaches_point inst).trans (hpoint.reach.trans hlater)
  rcases reflTransGen_iff_eq_or_transGen.mp hforth with heq | hforth
  · -- The exit would be an unconditional branch of the segment.
    subst heq
    have hback : point.inst = getFrontierInstructionThatDoesNotSplitPHIs other := by
      by_contra hne
      have hstep := (reflTransGen_iff_eq_or_transGen.mp hpoint.reach).resolve_left hne
      exact hinst_frontier.1.1
        (TransGen.trans_left (TransGen.trans_right (reaches_point other) hstep) hlater)
    obtain ⟨-, hterminator, hone⟩ := hpoint.atExit hback
    rw [point_eq (hphi other hother)] at hback
    rw [hback] at hterminator hone
    exact hinst_frontier.1.2 (h.branches other hother hterminator hone hinst_frontier.1.1)
  · exact hinst_frontier.1.not_before hother hforth

/-- A wait comes before the signal for where the segment is left, or stands at it before it. -/
theorem wait_before_signal (hwaits : WaitsOnce context ssInstructions) {inst : loop.Instr}
    (hinst_frontier : AtFrontier ssInstructions inst)
    {point : InsertPoint loop}
    (hpoint : SignalsExit (getFrontierInstructionThatDoesNotSplitPHIs inst) point)
    {before after : List loop.Instr}
    (hpath : IterationPath loop (before ++ point.inst :: after))
    (hinst : inst ∈ before ++ point.inst :: after) :
    (∃ wait ∈ before, wait ∈ waitInstructions context frontier) ∨
      point.afterWait = true ∧ point.inst ∈ waitInstructions context frontier := by
  have hon : getFrontierInstructionThatDoesNotSplitPHIs inst ∈ before ++ point.inst :: after :=
    (mem_iff_of_block hpath (point_block inst)).mpr hinst
  obtain ⟨latch, -, hwalk⟩ := hpath
  obtain ⟨first, rest, hsplit⟩ := List.append_of_mem hon
  have hprefix := (hwalk.split hsplit).1
  obtain ⟨wait, hwait, hmem⟩ :=
    wait_before_frontier hwaits hanalyses horder hfrontier hinst_frontier hprefix
  have hwait_reach := hprefix.reaches_target hwait
  have hwait_on : wait ∈ before ++ point.inst :: after := by
    rw [hsplit]
    simp only [List.mem_append, List.mem_cons, List.not_mem_nil, or_false] at hwait ⊢
    tauto
  rcases List.mem_append.mp hwait_on with hbefore | hafter
  · exact .inl ⟨wait, hbefore, hmem⟩
  · have hlater := (hwalk.split rfl).2.source_reaches hafter
    have hpoint_eq : point.inst = getFrontierInstructionThatDoesNotSplitPHIs inst := by
      by_contra hne
      exact hpoint.acyclic (TransGen.trans_right (hlater.trans hwait_reach)
        ((reflTransGen_iff_eq_or_transGen.mp hpoint.reach).resolve_left hne))
    have hwait_eq : wait = point.inst := by
      by_contra hne
      exact hpoint.acyclic (TransGen.trans_left ((reflTransGen_iff_eq_or_transGen.mp
        hlater).resolve_left hne) (hwait_reach.trans hpoint.reach))
    exact .inr ⟨(hpoint.atExit hpoint_eq).1, hwait_eq ▸ hmem⟩

include hphi

/-- Under the conditions every iteration waits once, executes the segment and signals once. -/
theorem SignalsOnce.synchronized (h : SignalsOnce context ssInstructions unreachable)
    (hwaits : WaitsOnce context ssInstructions)
    {path : List loop.Instr} (hpath : IterationPath loop path) :
    SynchronizedOnce (addSynchronizations context frontier) ssInstructions path := by
  obtain ⟨inst, hinst, hinst_frontier⟩ := exists_frontier_mem ssInstructions hpath
  obtain ⟨point, hcount, hon, hunique, hpoint⟩ :=
    h.count hanalyses horder hfrontier hpath hinst hinst_frontier
  obtain ⟨latch, -, hwalk⟩ := id hpath
  obtain ⟨before, after, rfl⟩ := List.append_of_mem hon
  have hnot_before : point.inst ∉ before := fun hmem => by
    obtain ⟨first, second, rfl⟩ := List.append_of_mem hmem
    have hsplit : (first ++ point.inst :: second) ++ point.inst :: after =
      first ++ point.inst :: (second ++ point.inst :: after) := by simp
    exact hpoint.acyclic (hwalk.reaches_of_append hsplit (by simp))
  have hnot_after : point.inst ∉ after := fun hmem =>
    hpoint.acyclic (hwalk.reaches_of_append rfl hmem)
  have hquiet : ∀ other ∈ before ++ point.inst :: after, other ≠ point.inst →
      signalsAt (addSynchronizations context frontier) other = 0 := by
    intro other hother hne
    rw [signalsAt_eq, List.countP_eq_zero]
    intro signal hsignal hat
    have hat := of_decide_eq_true hat
    exact hne (by rw [← hat, hunique signal hsignal (hat ▸ hother)])
  refine trace_once ?_ ?_ hcount ?_ ?_ ?_ ?_
  · exact fun other hother => hquiet other (List.mem_append_left _ hother)
      fun heq => hnot_before (heq ▸ hother)
  · exact fun other hother => hquiet other (by simp [hother]) fun heq => hnot_after (heq ▸ hother)
  · refine List.count_eq_zero.mpr fun hmem => ?_
    have heq := congrArg InsertPoint.afterWait (hunique _ hmem (by simp))
    simp at heq
  · intro first other rest hsplit hother
    exact wait_before_segment hphi hfrontier.toEntriesOf hother (hwalk.split hsplit).1
  · intro other hother hmem
    exact h.segment_before hphi hinst_frontier hpoint hmem
      ((hwalk.split rfl).2.source_reaches hother)
  · exact wait_before_signal hanalyses horder hfrontier hwaits hinst_frontier hpoint hpath hinst

end Signals

end Gino.Helix
