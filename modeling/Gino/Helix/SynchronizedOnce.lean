import Gino.Helix.SegmentSignals

/-!
# One wait and one signal per iteration

`synchronized_once_iff` says when every iteration waits once before its first instruction of a
segment and signals once after its last one, whatever order the sets of the source are visited in.
The signals are not right when a block that goes around the segment is visited before every block
around the segment that leads to it: then both signal. Neither are they when the segment ends with
an unconditional branch, which is signalled before. On a cycle that no inner loop has, the segment
may be signalled once for each time around it, and a walk into the cycle may miss its wait.
-/

namespace Gino.Helix

open Graph Machine Relation LoopCFG

variable {Block : Type*} {loop : LoopCFG Block} {ssInstructions unreachable : List loop.Instr}
  {frontier : EntriesAndExits loop} {context : SegmentContext loop}

/-! ## Walks along cycles and frontier points -/

/-- An iteration may go twice through an instruction on a cycle. -/
theorem exists_iteration_twice {inst : loop.Instr} (h : OnCycle loop.Step inst) :
    ∃ before middle after,
      IterationPath loop (before ++ inst :: (middle ++ inst :: after)) := by
  obtain ⟨latch, hlatch, hreach⟩ := reaches_latch inst
  obtain ⟨first, hfirst⟩ := exists_walk (header_reaches inst)
  obtain ⟨middle, hmiddle⟩ := exists_walk_of_steps h
  obtain ⟨last, hlast⟩ := exists_walk hreach
  obtain ⟨before, rfl⟩ := List.getLast?_eq_some_iff.mp hfirst.last
  have hwalk := (hfirst.trans hmiddle).trans hlast
  refine ⟨before, middle, last.tail, latch, hlatch, ?_⟩
  simpa using hwalk

/-- A frontier point on a walk through an instruction is of one passed before it or reached from
it. -/
theorem mem_or_reaches_of_point {path rest : List loop.Instr} {inst item target : loop.Instr}
    (hpath : Walk loop.Step path (loop.first loop.header) inst)
    (hrest : Walk loop.Step rest inst target)
    (hpoint : getFrontierInstructionThatDoesNotSplitPHIs item ∈ path ++ rest.tail) :
    item ∈ path ∨ TransGen loop.Step inst item := by
  have hbefore : getFrontierInstructionThatDoesNotSplitPHIs item ∈ path → item ∈ path := fun hon =>
    mem_of_earlier hpath hon (point_block item).symm (le_point item)
  rcases List.mem_append.mp hpoint with hon | hon
  · exact .inl (hbefore hon)
  · rcases reflTransGen_iff_eq_or_transGen.mp (hrest.source_reaches (List.mem_of_mem_tail hon)) with
      heq | hreach
    · exact .inl (hbefore (heq ▸ hpath.target_mem))
    · rcases reaches_first hreach with ⟨hblock, -⟩ | hfirst
      · rw [point_block] at hblock
        rcases Nat.lt_or_ge inst.index item.index with hlt | hge
        · have hne : item ≠ inst := fun heq => absurd (heq ▸ hlt) (Nat.lt_irrefl _)
          exact .inr ((reflTransGen_iff_eq_or_transGen.mp
            (reaches_within hblock (Nat.le_of_lt hlt))).resolve_left hne)
        · exact .inl (mem_of_earlier hpath hpath.target_mem hblock hge)
      · rw [point_block] at hfirst
        exact .inr (TransGen.trans_left hfirst (first_reaches item))

variable [DecidableEq Block] {analyses : Analyses loop}

/-! ## The conditions are necessary -/

section Frontier

variable (hanalyses : analyses.Documented)
  (horder : UnreachableOrder analyses ssInstructions unreachable)
  (hphi : ∀ inst ∈ ssInstructions, ¬ inst.IsPHI)
  (hfrontier : FrontierOf ssInstructions unreachable frontier)

include hanalyses horder hphi hfrontier

/-- A signal right before an unconditional branch of the segment is too early. -/
theorem branches_of_synchronized
    (h : ∀ path, IterationPath loop path →
      SynchronizedOnce (addSynchronizations context frontier) ssInstructions path)
    {inst : loop.Instr} (hinst : inst ∈ ssInstructions) (hterminator : inst.IsTerminator)
    (hone : (loop.successors inst.block).length = 1) (hacyclic : ¬ OnCycle loop.Step inst) :
    ReachesOther loop.Step (· ∈ ssInstructions) inst := by
  by_contra hlast
  have hinst_frontier : AtFrontier ssInstructions inst :=
    ⟨⟨hacyclic, hlast⟩, .inl hinst⟩
  have hexit := mem_exits_of_frontier hanalyses horder hfrontier hinst_frontier
  rw [point_eq (hphi inst hinst)] at hexit
  have hsingle : endsInSeveral inst = false := by
    rw [Bool.eq_false_iff]
    exact fun hseveral => (ends_in_several_iff.mp hseveral).2 hone
  have hnext : inst.getNextNonDebugInstruction = none := by
    unfold Instr.IsTerminator at hterminator
    unfold Instr.getNextNonDebugInstruction
    rw [dif_neg (by omega)]
  have hsignal : (⟨inst, true⟩ : InsertPoint loop) ∈
      (addSynchronizations context frontier).signals := by
    refine List.mem_flatMap.mpr ⟨.original inst, List.mem_dedup.mpr
      (List.mem_flatMap.mpr ⟨inst, hexit, ?_⟩), ?_⟩
    · unfold collectExit
      rw [hsingle]
      exact List.mem_singleton_self _
    · rw [injectSignal_terminator hnext, hsingle, Bool.and_false]
      exact List.mem_singleton_self _
  obtain ⟨path, hpath, hon, -⟩ := exists_iteration (.refl : ReflTransGen loop.Step inst inst)
  obtain ⟨before, after, rfl⟩ := List.append_of_mem hon
  exact List.count_eq_zero.mp ((h _ hpath).no_signal hinst) hsignal

omit hanalyses horder hphi hfrontier in
/-- On an iteration that is synchronized once, exits are collected as one instruction. -/
theorem eq_of_collected {path : List loop.Instr} (hpath : IterationPath loop path)
    (h : SynchronizedOnce (addSynchronizations context frontier) ssInstructions path)
    {exit other : loop.Instr} (hexit : exit ∈ frontier.exits) (hother : other ∈ frontier.exits)
    {first second : ExitInstruction loop}
    (hfirst : first ∈ collectExit (waitInstructions context frontier) context exit)
    (hsecond : second ∈ collectExit (waitInstructions context frontier) context other)
    (hfirst_on : first.inst ∈ path) (hsecond_on : second.inst ∈ path) : first = second := by
  by_contra hdiffer
  have hdedup : ∀ {exit collected}, exit ∈ frontier.exits →
      collected ∈ collectExit (waitInstructions context frontier) context exit →
      collected ∈ (frontier.exits.flatMap
        (collectExit (waitInstructions context frontier) context)).dedup :=
    fun hexit hmem => List.mem_dedup.mpr (List.mem_flatMap.mpr ⟨_, hexit, hmem⟩)
  have htwo := two_le_countP (p := fun collected => decide (collected.inst ∈ path))
    (hdedup hexit hfirst) (decide_eq_true hfirst_on) (hdedup hother hsecond)
    (decide_eq_true hsecond_on) hdiffer
  have hsignals := countP_le_flatMap (p := fun collected => decide (collected.inst ∈ path))
    (q := fun point => decide (point.inst ∈ path)) (f := injectSignal)
    (fun collected (_ : collected ∈ (frontier.exits.flatMap
        (collectExit (waitInstructions context frontier) context)).dedup) hmem => by
      obtain ⟨point, hpoint, hpoint_on⟩ := exists_inserted hpath (of_decide_eq_true hmem)
      exact List.countP_pos_iff.mpr ⟨point, hpoint, decide_eq_true hpoint_on⟩)
  have htrace := le_count_trace (addSynchronizations context frontier) ssInstructions false path
  have hone := h.count
  have hall := htwo.trans (hsignals.trans htrace)
  omega

omit hphi in
/-- Two exits around the segment are collected as the same instruction only when the second comes
right after the first. -/
theorem may_come_early {root inst : loop.Instr} (hroot : AtFrontier ssInstructions root)
    (hroot_mem : root ∈ unreachable) (hkept : Kept loop.Step unreachable inst)
    (hne : inst.block ≠ root.block) {collected : ExitInstruction loop}
    (hfirst : collected ∈ collectExit (waitInstructions context frontier) context
      (loop.getFirstNonPHI root.block))
    (hsecond : collected ∈ collectExit (waitInstructions context frontier) context
      (loop.getFirstNonPHI inst.block)) : MayComeEarly context unreachable inst := by
  obtain ⟨hinst_first, -⟩ := (mem_unreachable hanalyses horder).mp hkept.mem
  obtain ⟨hroot_first, -⟩ := (mem_unreachable hanalyses horder).mp hroot_mem
  unfold collectExit at hfirst hsecond
  by_cases hroot_several : endsInSeveral (loop.getFirstNonPHI root.block) = true
  · rw [if_pos hroot_several] at hfirst
    obtain ⟨next, hnext, hbeginning⟩ := List.mem_map.mp hfirst
    have hedge := List.reduceOption_mem_iff.mp hnext
    have hlength := (ends_in_several_iff.mp hroot_several).2
    by_cases hinst_several : endsInSeveral (loop.getFirstNonPHI inst.block) = true
    · -- There would be an edge between two blocks with several edges.
      rw [if_pos hinst_several] at hsecond
      obtain ⟨other, hother, hbeginning'⟩ := List.mem_map.mp hsecond
      have hblock : next = other :=
        (beginning_block hbeginning).symm.trans (beginning_block hbeginning')
      exact (hne (loop.no_critical_edges root.block next inst.block (two_le_of_ne_one hlength)
        hedge (hblock ▸ List.reduceOption_mem_iff.mp hother))).elim
    · rw [if_neg hinst_several] at hsecond
      rw [List.mem_singleton.mp hsecond] at hbeginning
      obtain rfl : inst.block = next := beginning_block hbeginning
      have hunsplit : ¬ (loop.getFirstNonPHI inst.block ∈ waitInstructions context frontier ∨
          loop.getFirstNonPHI inst.block ∈ context.behindEarlierCode) := by
        intro hsplit
        have hinjected : beginningOfSuccessor (waitInstructions context frontier) context
          inst.block = .injected (loop.getFirstNonPHI inst.block) := if_pos hsplit
        rw [hinjected] at hbeginning
        cases hbeginning
      push Not at hunsplit
      refine ⟨?_, hunsplit.2, Bool.eq_false_iff.mpr hinst_several, root, hroot_mem,
        hroot_several, hedge, fun other hother =>
          not_reaches_of_unreachable hanalyses horder hother hroot⟩
      by_contra hpreamble
      refine hunsplit.1 ?_
      unfold waitInstructions
      rw [if_neg hpreamble, ← point_first, ← hinst_first]
      exact hfrontier.entry_kept inst hkept
  · rw [if_neg hroot_several] at hfirst
    obtain rfl := List.mem_singleton.mp hfirst
    by_cases hinst_several : endsInSeveral (loop.getFirstNonPHI inst.block) = true
    · rw [if_pos hinst_several] at hsecond
      obtain ⟨next, hnext, hbeginning⟩ := List.mem_map.mp hsecond
      have hedge := List.reduceOption_mem_iff.mp hnext
      have hblock : root.block = next := beginning_block hbeginning
      -- The block after this one would be where walks leave the segment.
      refine (not_reaches_of_unreachable hanalyses horder hkept.mem hroot ?_).elim
      have hstep := step_to_successor (ends_in_several_iff.mp hinst_several).2 hedge
      rw [← hblock, ← hroot_first] at hstep
      exact TransGen.tail' (reaches_terminator inst) hstep
    · rw [if_neg hinst_several] at hsecond
      exact (hne (congrArg Instr.block
        (ExitInstruction.original.inj (List.mem_singleton.mp hsecond))).symm).elim

omit hphi in
/-- Of the blocks around the segment one that a later one leads to comes after an earlier one that
leads to it, or it may come early. -/
theorem order_of_synchronized
    (h : ∀ path, IterationPath loop path →
      SynchronizedOnce (addSynchronizations context frontier) ssInstructions path)
    {before after : List loop.Instr} {inst : loop.Instr}
    (hsplit : unreachable = before ++ inst :: after)
    (hlater : ∃ later ∈ after, TransGen loop.Step later inst) :
    (∃ earlier ∈ before, TransGen loop.Step earlier inst) ∨
      MayComeEarly context unreachable inst := by
  refine or_iff_not_imp_left.mpr fun hbefore => ?_
  push Not at hbefore
  have hkept : Kept loop.Step unreachable inst := ⟨before, after, hsplit, hbefore⟩
  obtain ⟨hfirst, haround⟩ := (mem_unreachable hanalyses horder).mp hkept.mem
  -- The block where the walks to this one leave the segment is an exit as well.
  obtain ⟨root, hroot, hroot_mem, hroot_kept, hreach⟩ :=
    (exists_root hanalyses horder hkept.mem).resolve_left fun hinst => by
      obtain ⟨later, hmem, hreach⟩ := hlater
      exact not_reaches_of_unreachable hanalyses horder (by simp [hsplit, hmem]) hinst hreach
  obtain ⟨hroot_first, -⟩ := (mem_unreachable hanalyses horder).mp hroot_mem
  have hne : inst.block ≠ root.block := by
    intro heq
    rw [hfirst, heq, ← hroot_first] at hreach
    exact hroot.1.1 hreach
  obtain ⟨path, hpath, hroot_on, hinst_on⟩ := exists_iteration hreach.to_reflTransGen
  have hroot_exit : loop.getFirstNonPHI root.block ∈ frontier.exits := by
    rw [← point_first, ← hroot_first]
    exact mem_exits_of_frontier hanalyses horder hfrontier hroot
  have hinst_exit : loop.getFirstNonPHI inst.block ∈ frontier.exits := by
    rw [← point_first, ← hfirst]
    exact (hfrontier.mem_exits _).mpr ⟨inst, rfl, .inr hkept⟩
  have hon : ∀ {inst : loop.Instr}, inst ∈ path → loop.getFirstNonPHI inst.block ∈ path :=
    fun {inst} hmem => (mem_iff_first_mem hpath (loop.getFirstNonPHI inst.block)).mpr
      ((mem_iff_first_mem hpath inst).mp hmem)
  obtain ⟨first, hfirst_mem, hfirst_on⟩ :=
    exists_collected hpath (waitInstructions context frontier) context (hon hroot_on)
  obtain ⟨second, hsecond_mem, hsecond_on⟩ :=
    exists_collected hpath (waitInstructions context frontier) context (hon hinst_on)
  obtain rfl : first = second := eq_of_collected hpath (h path hpath) hroot_exit hinst_exit
    hfirst_mem hsecond_mem hfirst_on hsecond_on
  exact may_come_early hanalyses horder hfrontier hroot hroot_mem hkept hne hfirst_mem hsecond_mem

end Frontier

section Cycles

variable (hanalyses : analyses.Documented)
  (hdetermined : determineEntryAndExitFrontier analyses ssInstructions unreachable = some frontier)

include hanalyses hdetermined

/-- The last instruction of the segment on a cycle that is in no inner loop is an exit, and an
iteration that goes around the cycle twice signals twice. -/
theorem cycles_of_synchronized (hphi : ∀ inst ∈ ssInstructions, ¬ inst.IsPHI)
    (h : ∀ path, IterationPath loop path →
      SynchronizedOnce (addSynchronizations context frontier) ssInstructions path) :
    CyclesGoOn ssInstructions := by
  intro inst hinst hcycle hinner
  by_contra hlast
  have hexit := mem_exits_of_last hanalyses hdetermined hphi hinst hinner hlast
  obtain ⟨collected, hcollected, hcollected_cycle⟩ :=
    collectExit_on_cycle (waitInstructions context frontier) context hcycle
  obtain ⟨point, hpoint, hpoint_cycle⟩ := injectSignal_on_cycle hcollected_cycle
  have hsignal : point ∈ (addSynchronizations context frontier).signals :=
    List.mem_flatMap.mpr ⟨collected, List.mem_dedup.mpr
      (List.mem_flatMap.mpr ⟨inst, hexit, hcollected⟩), hpoint⟩
  obtain ⟨before, middle, after, hpath⟩ := exists_iteration_twice hpoint_cycle
  have htwo := two_le_count_trace ssInstructions false before middle after hsignal
  have hone := (h _ hpath).count
  omega

variable (horder : UnreachableOrder analyses ssInstructions unreachable)

include horder

/-- Where the segment is left after it may have been executed, no walk leads past what the traversal
for entries has to come to: there would be no wait on it. -/
theorem waits_of_synchronized
    (h : ∀ path, IterationPath loop path →
      SynchronizedOnce (addSynchronizations context frontier) ssInstructions path) :
    WaitsOnce context ssInstructions := by
  rintro hpreamble inst hinst hreached ⟨path, hpath, hapart⟩
  have hentries := entries_of_determined hanalyses hdetermined horder
  obtain ⟨latch, hlatch, hreach⟩ := reaches_latch inst
  obtain ⟨rest, hrest⟩ := exists_walk hreach
  have hsynchronized := h _ ⟨latch, hlatch, hpath.trans hrest⟩
  obtain ⟨entry, hon, hwait⟩ := exists_wait_of_trace (hsynchronized.symm ▸ List.mem_cons_self :
    .wait ∈ trace (addSynchronizations context frontier) ssInstructions false (path ++ rest.tail))
  have hentry : entry ∈ frontier.entries := by
    have hwaits : (addSynchronizations context frontier).waits = frontier.entries :=
      if_neg (Bool.eq_false_iff.mp hpreamble)
    exact hwaits ▸ hwait
  obtain ⟨item, rfl, hitem⟩ := hentries.entry_point entry hentry
  rcases mem_or_reaches_of_point hpath hrest hon with hbefore | hafter
  · rcases hitem with ⟨-, hitem⟩ | hitem
    · exact hitem (reachedApart_of_mem hpath hapart hbefore)
    · rcases reflTransGen_iff_eq_or_transGen.mp (hpath.reaches_target hbefore) with rfl | hreach
      · exact ((mem_unreachable hanalyses horder).mp hitem).2.1 hreached
      · exact not_reaches_of_unreachable hanalyses horder hitem hinst hreach
  · rcases hitem with ⟨⟨other, hother, hlater⟩, -⟩ | hitem
    · exact hinst.1.not_before hother (TransGen.trans_left hafter hlater)
    · exact ((mem_unreachable hanalyses horder).mp hitem).2.1
        (hreached.of_reaches hafter.to_reflTransGen)

end Cycles

/-- A segment has its frontier, and every iteration waits once, executes its instructions of the
segment and then signals once, exactly when the conditions on its waits and its signals hold. -/
theorem synchronized_once_iff (hanalyses : analyses.Documented)
    (horder : UnreachableOrder analyses ssInstructions unreachable)
    (hphi : ∀ inst ∈ ssInstructions, ¬ inst.IsPHI)
    (context : SegmentContext loop) :
    ∃ frontier, determineEntryAndExitFrontier analyses ssInstructions unreachable =
        some frontier ∧
      ((∀ path, IterationPath loop path →
          SynchronizedOnce (addSynchronizations context frontier) ssInstructions path) ↔
        WaitsOnce context ssInstructions ∧ SignalsOnce context ssInstructions unreachable) := by
  obtain ⟨frontier, hdetermined⟩ := exists_frontier analyses ssInstructions unreachable
  refine ⟨frontier, hdetermined, fun h => ?_, fun ⟨hwaits, hsignals⟩ path hpath => ?_⟩
  · have hcycles := cycles_of_synchronized hanalyses hdetermined hphi h
    have hfrontier := frontier_of_determined hanalyses hdetermined horder hcycles
    refine ⟨waits_of_synchronized hanalyses hdetermined horder h, ?_, hcycles, ?_⟩
    · exact fun inst hinst hterminator hone hacyclic =>
        branches_of_synchronized hanalyses horder hphi hfrontier h hinst hterminator hone hacyclic
    · exact fun before inst after hsplit hlater =>
        order_of_synchronized hanalyses horder hfrontier h hsplit hlater
  · have hfrontier := frontier_of_determined hanalyses hdetermined horder hsignals.cycles
    exact hsignals.synchronized hanalyses horder hphi hfrontier hwaits hpath

/-! ## A loop with two blocks around its segment -/

/-- A header that branches to a block with the segment and to two blocks in a row around it. -/
def bypassLoop : LoopCFG (Fin 5) where
  header := 0
  blocks := [0, 1, 2, 3, 4]
  numPHIs _ := 0
  numOthers block := if block = 1 then 1 else 0
  terminatorIsBranch _ := true
  successors
    | 0 => [some 1, some 2]
    | 1 => [some 4]
    | 2 => [some 3]
    | 3 => [some 4]
    | 4 => [some 0]
  mem_blocks := by decide
  from_header
    | 0 => .refl
    | 1 => .single (by decide)
    | 2 => .single (by decide)
    | 3 => .head (b := 2) (by decide) (.single (by decide))
    | 4 => .head (b := 1) (by decide) (.single (by decide))
  to_latch
    | 0 => ⟨4, by decide, .head (b := 1) (by decide) (.single (by decide))⟩
    | 1 => ⟨4, by decide, .single (by decide)⟩
    | 2 => ⟨4, by decide, .head (b := 3) (by decide) (.single (by decide))⟩
    | 3 => ⟨4, by decide, .single (by decide)⟩
    | 4 => ⟨4, by decide, .refl⟩
  simple_edges := by decide
  no_critical_edges := by decide
  latch_successors := by decide

/-- The instruction of the segment. -/
def bypassSegment : List bypassLoop.Instr := [bypassLoop.first 1]

/-- The two blocks go around the segment. -/
theorem bypass_unreachable :
    instructionsUnreachableToAndFromSS (Analyses.reference bypassLoop) bypassSegment =
      [bypassLoop.first 2, bypassLoop.first 3] := by
  decide +kernel

/-- Visited from the first block on, the loop is synchronized once. -/
theorem bypass_synchronized : ∃ frontier,
    determineEntryAndExitFrontier (Analyses.reference bypassLoop) bypassSegment
        [bypassLoop.first 2, bypassLoop.first 3] = some frontier ∧
      ∀ path, IterationPath bypassLoop path →
        SynchronizedOnce (addSynchronizations ⟨false, []⟩ frontier) bypassSegment path := by
  have hlater : ¬ TransGen bypassLoop.Step (bypassLoop.first 3) (bypassLoop.first 2) := by
    rw [← mem_reference_out]
    decide +kernel
  have horder : UnreachableOrder (Analyses.reference bypassLoop) bypassSegment
      [bypassLoop.first 2, bypassLoop.first 3] :=
    ⟨by decide, fun inst => by rw [bypass_unreachable]⟩
  obtain ⟨frontier, hrun, hiff⟩ := synchronized_once_iff
    (Analyses.reference_documented bypassLoop) horder (by decide) ⟨false, []⟩
  have hacyclic : ∀ inst ∈ bypassSegment, ¬ OnCycle bypassLoop.Step inst := by
    intro inst hinst
    obtain rfl := List.mem_singleton.mp hinst
    exact mem_reference_out.not.mp (by decide +kernel)
  refine ⟨frontier, hrun, hiff.mpr ⟨waits_once_of_cycles _ fun inst hinst hcycle =>
    absurd hcycle (hacyclic inst hinst), fun inst hinst hterminator => ?_,
    fun inst hinst hcycle => absurd hcycle (hacyclic inst hinst),
    fun before inst after hsplit hafter => ?_⟩⟩
  · obtain rfl := List.mem_singleton.mp hinst
    exact absurd hterminator (by decide)
  · obtain ⟨later, hmem, hreach⟩ := hafter
    match before, hsplit with
    | [], hsplit =>
        cases hsplit
        obtain rfl := List.mem_singleton.mp hmem
        exact absurd hreach hlater
    | [_], hsplit =>
        cases hsplit
        simp at hmem
    | _ :: _ :: _, hsplit => simp at hsplit

/-- Visited from the second block on, an iteration around the segment signals twice. -/
theorem bypass_signals_twice :
    UnreachableOrder (Analyses.reference bypassLoop) bypassSegment
        [bypassLoop.first 3, bypassLoop.first 2] ∧
      ∃ frontier path, determineEntryAndExitFrontier (Analyses.reference bypassLoop) bypassSegment
          [bypassLoop.first 3, bypassLoop.first 2] = some frontier ∧
        IterationPath bypassLoop path ∧
        ¬ SynchronizedOnce (addSynchronizations ⟨false, []⟩ frontier) bypassSegment path := by
  refine ⟨⟨by decide, fun inst => by rw [bypass_unreachable]; simp [or_comm]⟩,
    ⟨[bypassLoop.first 2, bypassLoop.first 3, bypassLoop.first 1],
      [bypassLoop.first 2, bypassLoop.first 3, bypassLoop.first 1]⟩,
    [bypassLoop.first 0, bypassLoop.first 2, bypassLoop.first 3, bypassLoop.first 4],
    by decide +kernel, ⟨4, by decide, by decide, rfl, rfl⟩, by decide +kernel⟩

end Gino.Helix
