import Gino.Helix.SegmentExits

/-!
# What the frontier of a segment is

The traversal for entries puts an entry on every way to the segment and none that a block going
around the segment comes after (`findEntries_found`). What it comes to whatever its order is
`ComesTo`; on a walk that is at no such instruction there is no entry. The last pass adds the blocks
that go around the segment. Of those it makes exits of the ones that no earlier one of its order
reaches, so here the order matters (`exits_of_determined`).
-/

namespace Gino.Helix

open Graph Machine Relation LoopCFG

variable {Block : Type*} {loop : LoopCFG Block} {analyses : Analyses loop}
  {ssInstructions : List loop.Instr}

/-! ## Where the traversal for entries comes to -/

/-- The instruction is in no inner loop, and no other one of the segment comes before it. -/
def MayEnter (ssInstructions : List loop.Instr) (inst : loop.Instr) : Prop :=
  ¬ InInnerLoop inst ∧ ¬ ReachedByOther loop.Step (· ∈ ssInstructions) inst

/-- The traversal for entries comes to the instruction whatever its order: it is in the segment, or
before one that cannot be an entry. -/
inductive ComesTo (ssInstructions : List loop.Instr) : loop.Instr → Prop
  | segment {inst : loop.Instr} (hinst : inst ∈ ssInstructions) : ComesTo ssInstructions inst
  | before {inst next : loop.Instr} (hstep : loop.Step inst next)
      (hnext : ¬ MayEnter ssInstructions next) (hcomes : ComesTo ssInstructions next) :
      ComesTo ssInstructions inst

/-- A walk from the header to the instruction is nowhere the traversal has to come to. -/
def ReachedApart (ssInstructions : List loop.Instr) (inst : loop.Instr) : Prop :=
  ∃ path, Walk loop.Step path (loop.first loop.header) inst ∧
    ∀ other ∈ path, ¬ ComesTo ssInstructions other

/-- The instructions on such a walk are reached by one. -/
theorem reachedApart_of_mem {path : List loop.Instr} {inst target : loop.Instr}
    (hpath : Walk loop.Step path (loop.first loop.header) target)
    (hapart : ∀ other ∈ path, ¬ ComesTo ssInstructions other) (hinst : inst ∈ path) :
    ReachedApart ssInstructions inst := by
  obtain ⟨before, after, hsplit⟩ := List.append_of_mem hinst
  refine ⟨before ++ [inst], (hpath.split hsplit).1, fun other hother => hapart other ?_⟩
  rw [hsplit]
  simp only [List.mem_append, List.mem_cons, List.not_mem_nil, or_false] at hother ⊢
  tauto

/-! ## The traversal for entries -/

/-- What the traversal for entries keeps. -/
structure EntryTraversal (ssInstructions queue visited entries : List loop.Instr) : Prop where
  reaches : ∀ inst, inst ∈ queue ∨ inst ∈ visited →
    ReachesSet loop.Step (· ∈ ssInstructions) inst
  around : ∀ inst, inst ∈ queue ∨ inst ∈ visited → ∀ around,
    GoesAround loop.Step (· ∈ ssInstructions) around → ¬ ReflTransGen loop.Step inst around
  apart : ∀ inst, inst ∈ queue ∨ inst ∈ visited → ¬ ReachedApart ssInstructions inst
  accepted : ∀ entry ∈ entries, ∃ inst ∈ visited,
    entry = getFrontierInstructionThatDoesNotSplitPHIs inst
  segment : ∀ inst ∈ ssInstructions, inst ∈ queue ∨ inst ∈ visited
  closed : ∀ inst ∈ visited,
    (MayEnter ssInstructions inst ∧ getFrontierInstructionThatDoesNotSplitPHIs inst ∈ entries) ∨
    inst ≠ loop.first loop.header ∧ ∀ previous, loop.Step previous inst →
      previous ∈ queue ∨ previous ∈ visited

/-- The traversal starts with the segment. -/
theorem EntryTraversal.initial : EntryTraversal ssInstructions ssInstructions [] [] where
  reaches inst hinst := ⟨inst, by simpa using hinst, .refl⟩
  around inst hinst around haround hreach :=
    haround.1 ⟨inst, by simpa using hinst, hreach⟩
  apart inst hinst := by
    rintro ⟨path, hpath, hapart⟩
    exact hapart inst hpath.target_mem (.segment (by simpa using hinst))
  accepted := by simp
  segment inst hinst := .inl hinst
  closed := by simp

/-- A visited item is skipped. -/
theorem EntryTraversal.skip {item : loop.Instr} {queue visited entries : List loop.Instr}
    (hitem : item ∈ visited) (h : EntryTraversal ssInstructions (item :: queue) visited entries) :
    EntryTraversal ssInstructions queue visited entries where
  reaches inst hinst := h.reaches inst (hinst.imp_left (List.mem_cons_of_mem _))
  around inst hinst := h.around inst (hinst.imp_left (List.mem_cons_of_mem _))
  apart inst hinst := h.apart inst (hinst.imp_left (List.mem_cons_of_mem _))
  accepted := h.accepted
  segment inst hinst := mem_or_of_visited hitem (h.segment inst hinst)
  closed inst hinst := (h.closed inst hinst).imp_right fun hclosed => ⟨hclosed.1,
    fun previous hprevious => mem_or_of_visited hitem (hclosed.2 previous hprevious)⟩

/-- Nothing of the iteration comes before the first instruction of the header. -/
theorem not_reaches_header (before : loop.Instr) :
    ¬ TransGen loop.Step before (loop.first loop.header) := by
  intro hreach
  obtain ⟨_, -, hstep⟩ := TransGen.tail'_iff.mp hreach
  exact not_step_header hstep

/-- The first instruction of the header is dominated by no entry. -/
theorem header_not_dominated (hanalyses : analyses.Documented) (entries : List loop.Instr) :
    ¬ isDominatedByOtherEntry analyses entries (loop.first loop.header) = true := by
  intro hdominated
  obtain ⟨entry, -, hne, hpaths⟩ := (dominated_iff hanalyses).mp hdominated
  exact hne (List.mem_singleton.mp (hpaths _ (Walk.single _)))

/-- Why the traversal goes on before an item. -/
def GoesOnBefore (analyses : Analyses loop) (ssInstructions entries : List loop.Instr)
    (item : loop.Instr) : Prop :=
  ¬ MayEnter ssInstructions item ∨ isDominatedByOtherEntry analyses entries item = true

/-- Before an item the traversal goes on from comes nothing that leads to a block around the
segment. -/
theorem EntryTraversal.around_before (hanalyses : analyses.Documented) {item previous : loop.Instr}
    {queue visited entries : List loop.Instr}
    (h : EntryTraversal ssInstructions (item :: queue) visited entries)
    (hreason : GoesOnBefore analyses ssInstructions entries item)
    (hprevious : loop.Step previous item) {around : loop.Instr}
    (haround : GoesAround loop.Step (· ∈ ssInstructions) around) :
    ¬ ReflTransGen loop.Step previous around := by
  intro hreach
  have hitem := h.around item (.inl List.mem_cons_self) around haround
  have hset := h.reaches item (.inl List.mem_cons_self)
  rcases hreach.cases_head with heq | ⟨next, hnext, hrest⟩
  · exact haround.2 (heq ▸ hset.of_reaches (.single hprevious))
  · have hne : item ≠ next := fun heq => hitem (heq ▸ hrest)
    -- The other way forward makes this the only way into the item.
    have honly := no_critical_steps previous item next hprevious hnext hne
    rcases hreason with hmay | hdominated
    · refine hmay ⟨fun hinner => ?_, fun ⟨other, hother, _, hother_reach⟩ => ?_⟩
      · exact hitem ((honly.reaches hinner.on_cycle).trans hreach)
      · exact haround.1 ⟨other, hother, (honly.reaches hother_reach).trans hreach⟩
    · obtain ⟨entry, hentry, hentry_ne, hpaths⟩ := (dominated_iff hanalyses).mp hdominated
      obtain ⟨inst, hinst, rfl⟩ := h.accepted entry hentry
      obtain ⟨path, hpath⟩ := exists_walk (header_reaches previous)
      have hmem := hpaths _ (hpath.append hprevious (Walk.single item))
      have hbefore := (List.mem_append.mp hmem).resolve_right fun hlast =>
        hentry_ne (List.mem_singleton.mp hlast)
      exact h.around inst (.inr hinst) around haround
        ((reaches_point inst).trans ((hpath.reaches_target hbefore).trans hreach))

/-- Nor is the traversal then at an instruction that a walk apart from it reaches. -/
theorem EntryTraversal.apart_before (hanalyses : analyses.Documented) {item previous : loop.Instr}
    {queue visited entries : List loop.Instr}
    (h : EntryTraversal ssInstructions (item :: queue) visited entries)
    (hreason : GoesOnBefore analyses ssInstructions entries item)
    (hprevious : loop.Step previous item) : ¬ ReachedApart ssInstructions previous := by
  rintro ⟨path, hpath, hapart⟩
  have hwalk := hpath.append hprevious (Walk.single item)
  by_cases hcomes : ComesTo ssInstructions item
  · have hmay : MayEnter ssInstructions item := by
      by_contra hmay
      exact hapart previous hpath.target_mem (.before hprevious hmay hcomes)
    -- An entry that dominates the item is on the walk, and the traversal has been there.
    obtain ⟨entry, hentry, hne, hpaths⟩ :=
      (dominated_iff hanalyses).mp (hreason.resolve_left (not_not_intro hmay))
    obtain ⟨inst, hinst, rfl⟩ := h.accepted entry hentry
    have hon := (List.mem_append.mp (hpaths _ hwalk)).resolve_right fun hlast =>
      hne (List.mem_singleton.mp hlast)
    exact h.apart inst (.inr hinst) (reachedApart_of_mem hpath hapart
      (mem_of_earlier hpath hon (point_block inst).symm (le_point inst)))
  · refine h.apart item (.inl List.mem_cons_self) ⟨_, hwalk, fun other hother => ?_⟩
    rcases List.mem_append.mp hother with hother | hother
    · exact hapart other hother
    · rwa [List.mem_singleton.mp hother]

variable [DecidableEq Block]

/-- A visited item is an entry, or the traversal goes on before it for a reason. -/
theorem visit_entry_eq (hanalyses : analyses.Documented) (ssInstructions entries : List loop.Instr)
    (item : loop.Instr) :
    (MayEnter ssInstructions item ∧ visitPotentialEntry analyses ssInstructions entries item =
        (entries.insert (getFrontierInstructionThatDoesNotSplitPHIs item), [])) ∨
    (GoesOnBefore analyses ssInstructions entries item ∧
      visitPotentialEntry analyses ssInstructions entries item =
        (entries, item.previousInstructions)) := by
  have hchecks : (analyses.nestedMostLoopIsRoot item &&
      checkIfBeforeEntryFrontier analyses ssInstructions item &&
      !isDominatedByOtherEntry analyses entries item) = true ↔ MayEnter ssInstructions item ∧
        ¬ isDominatedByOtherEntry analyses entries item = true := by
    rw [Bool.and_eq_true, Bool.and_eq_true, hanalyses.nestedMostLoopIsRoot,
      check_before_iff hanalyses, Bool.not_eq_true', Bool.eq_false_iff]
    rfl
  unfold visitPotentialEntry
  by_cases haccept : (analyses.nestedMostLoopIsRoot item &&
      checkIfBeforeEntryFrontier analyses ssInstructions item &&
      !isDominatedByOtherEntry analyses entries item) = true
  · exact .inl ⟨(hchecks.mp haccept).1, if_pos haccept⟩
  · refine .inr ⟨?_, if_neg haccept⟩
    rw [hchecks] at haccept
    unfold GoesOnBefore
    tauto

/-- Visiting an item keeps the traversal. -/
theorem EntryTraversal.visit (hanalyses : analyses.Documented) {item : loop.Instr}
    {queue visited entries : List loop.Instr}
    (h : EntryTraversal ssInstructions (item :: queue) visited entries) :
    EntryTraversal ssInstructions
      (queue ++ (visitPotentialEntry analyses ssInstructions entries item).2) (item :: visited)
      (visitPotentialEntry analyses ssInstructions entries item).1 := by
  rcases visit_entry_eq hanalyses ssInstructions entries item with ⟨hmay, heq⟩ | ⟨hreason, heq⟩
  · rw [heq]
    constructor
    · exact fun inst hinst => h.reaches inst ((mem_or_visit.mp hinst).resolve_right (by simp))
    · exact fun inst hinst => h.around inst ((mem_or_visit.mp hinst).resolve_right (by simp))
    · exact fun inst hinst => h.apart inst ((mem_or_visit.mp hinst).resolve_right (by simp))
    · intro entry hentry
      rcases List.mem_insert_iff.mp hentry with rfl | hentry
      · exact ⟨item, List.mem_cons_self, rfl⟩
      · obtain ⟨inst, hinst, hinst'⟩ := h.accepted entry hentry
        exact ⟨inst, List.mem_cons_of_mem _ hinst, hinst'⟩
    · exact fun inst hinst => mem_or_visit.mpr (.inl (h.segment inst hinst))
    · intro inst hinst
      rcases List.mem_cons.mp hinst with rfl | hinst
      · exact .inl ⟨hmay, List.mem_insert_self⟩
      · exact (h.closed inst hinst).imp (And.imp_right List.mem_insert_of_mem) fun hclosed =>
          ⟨hclosed.1, fun previous hprevious =>
            mem_or_visit.mpr (.inl (hclosed.2 previous hprevious))⟩
  · rw [heq]
    have hne : item ≠ loop.first loop.header := by
      rintro rfl
      rcases hreason with hmay | hdominated
      · exact hmay ⟨fun hinner => not_reaches_header _ hinner.on_cycle,
          fun ⟨_, _, _, hreach⟩ => not_reaches_header _ hreach⟩
      · exact header_not_dominated hanalyses entries hdominated
    have hprevious : ∀ previous ∈ item.previousInstructions, loop.Step previous item :=
      fun previous hmem => ⟨mem_previous_instructions.mp hmem, hne⟩
    constructor
    · intro inst hinst
      rcases mem_or_visit.mp hinst with hold | hpushed
      · exact h.reaches inst hold
      · exact (h.reaches item (.inl List.mem_cons_self)).of_reaches
          (.single (hprevious inst hpushed))
    · intro inst hinst around haround
      rcases mem_or_visit.mp hinst with hold | hpushed
      · exact h.around inst hold around haround
      · exact h.around_before hanalyses hreason (hprevious inst hpushed) haround
    · intro inst hinst
      rcases mem_or_visit.mp hinst with hold | hpushed
      · exact h.apart inst hold
      · exact h.apart_before hanalyses hreason (hprevious inst hpushed)
    · intro entry hentry
      obtain ⟨inst, hinst, hinst'⟩ := h.accepted entry hentry
      exact ⟨inst, List.mem_cons_of_mem _ hinst, hinst'⟩
    · exact fun inst hinst => mem_or_visit.mpr (.inl (h.segment inst hinst))
    · intro inst hinst
      rcases List.mem_cons.mp hinst with rfl | hinst
      · exact .inr ⟨hne, fun previous hstep =>
          mem_or_visit.mpr (.inr (mem_previous_instructions.mpr hstep.1))⟩
      · exact (h.closed inst hinst).imp_right fun hclosed => ⟨hclosed.1,
          fun previous hprevious => mem_or_visit.mpr (.inl (hclosed.2 previous hprevious))⟩

omit [DecidableEq Block] in
/-- At its end the traversal has been where it has to come to. -/
theorem EntryTraversal.mem_visited {visited entries : List loop.Instr}
    (h : EntryTraversal ssInstructions [] visited entries) {inst : loop.Instr}
    (hcomes : ComesTo ssInstructions inst) : inst ∈ visited := by
  induction hcomes with
  | segment hinst => exact (h.segment _ hinst).resolve_left (by simp)
  | before hstep hnext _ ih =>
      obtain ⟨-, hprevious⟩ := (h.closed _ ih).resolve_left fun haccepted => hnext haccepted.1
      exact (hprevious _ hstep).resolve_left (by simp)

/-- At the end of the traversal an entry is on every walk to a visited instruction, or it is the
frontier point the walk goes on to. -/
theorem EntryTraversal.entry_on_walk {visited entries : List loop.Instr}
    (h : EntryTraversal ssInstructions [] visited entries) {path : List loop.Instr}
    {inst : loop.Instr} (hinst : inst ∈ visited)
    (hpath : Walk loop.Step path (loop.first loop.header) inst) :
    (∃ entry ∈ entries, entry ∈ path) ∨
      (inst.IsPHI ∧ loop.getFirstNonPHI inst.block ∈ entries) := by
  induction hlength : path.length generalizing path inst with
  | zero =>
      rw [List.length_eq_zero_iff.mp hlength] at hpath
      simpa using hpath.head
  | succ length ih =>
      rcases h.closed inst hinst with ⟨-, hentry⟩ | ⟨hne, hclosed⟩
      · by_cases hphi : inst.IsPHI
        · exact .inr ⟨hphi, (if_pos hphi : getFrontierInstructionThatDoesNotSplitPHIs inst =
            _) ▸ hentry⟩
        · exact .inl ⟨inst, point_eq hphi ▸ hentry, hpath.target_mem⟩
      · obtain ⟨before, hstep, hbefore⟩ := hpath.dropLast_walk hne
        have hmem := (hclosed before hstep).resolve_left (by simp)
        rcases ih hmem hbefore (by rw [List.length_dropLast, hlength]; rfl) with
          ⟨entry, hentry, hon⟩ | ⟨hphi, hentry⟩
        · exact .inl ⟨entry, hentry, List.dropLast_sublist _ |>.subset hon⟩
        · -- The walk is among the PHIs of a block, or at its frontier point.
          unfold Instr.IsPHI at hphi ⊢
          rcases step_iff.mp hstep with ⟨hblock, hindex⟩ | ⟨hterminator, -⟩
          · rw [hblock]
            rcases Nat.lt_or_ge inst.index (loop.numPHIs before.block) with hlt | hge
            · exact .inr ⟨hlt, hentry⟩
            · have heq : inst = loop.getFirstNonPHI before.block :=
                Instr.ext' hblock (by show inst.index = loop.numPHIs before.block; omega)
              exact .inl ⟨inst, heq ▸ hentry, hpath.target_mem⟩
          · unfold Instr.IsTerminator LoopCFG.size at hterminator
            omega

/-- The traversal for entries comes to an end. -/
theorem exists_findEntries (analyses : Analyses loop) (ssInstructions : List loop.Instr) :
    ∃ entries, findEntries analyses ssInstructions = some entries := by
  have hpush : ∀ entries inst, (visitPotentialEntry analyses ssInstructions entries inst).2.length ≤
      inst.previousInstructions.length := by
    intro entries inst
    unfold visitPotentialEntry
    split_ifs
    · exact Nat.zero_le _
    · exact Nat.le_refl _
  exact exists_worklist (visitPotentialEntry analyses ssInstructions)
    (fun inst => inst.previousInstructions.length) mem_instructions hpush ssInstructions []
    ([] : List loop.Instr) (Nat.le_refl _)

/-- What is known of the entries found: one is on every walk along which the traversal has to come,
and none is after a walk apart from it or before a block that goes around the segment. -/
structure FoundEntries (ssInstructions entries : List loop.Instr) : Prop where
  on_walk : ∀ path target, Walk loop.Step path (loop.first loop.header) target → ¬ target.IsPHI →
    ∀ inst ∈ path, ComesTo ssInstructions inst → ∃ entry ∈ entries, entry ∈ path
  point : ∀ entry ∈ entries, ∃ inst, entry = getFrontierInstructionThatDoesNotSplitPHIs inst ∧
    ReachesSet loop.Step (· ∈ ssInstructions) inst ∧ ¬ ReachedApart ssInstructions inst
  around : ∀ entry ∈ entries, ¬ entry.IsPHI ∧ ∀ around,
    GoesAround loop.Step (· ∈ ssInstructions) around → ¬ TransGen loop.Step entry around

/-- The traversal finds such entries. -/
theorem findEntries_found (hanalyses : analyses.Documented) {entries : List loop.Instr}
    (hentries : findEntries analyses ssInstructions = some entries) :
    FoundEntries ssInstructions entries := by
  obtain ⟨visited, h⟩ := worklist_invariant (EntryTraversal ssInstructions)
    (fun _ _ _ _ hitem h => h.skip hitem) (fun _ _ _ _ _ h => h.visit hanalyses)
    EntryTraversal.initial hentries
  refine ⟨fun path target hpath htarget inst hinst hcomes => ?_, fun entry hentry => ?_,
    fun entry hentry => ?_⟩
  · obtain ⟨before, after, hsplit⟩ := List.append_of_mem hinst
    rcases h.entry_on_walk (h.mem_visited hcomes) (hpath.split hsplit).1 with
      ⟨entry, hentry, hon⟩ | ⟨hphi, hentry⟩
    · refine ⟨entry, hentry, ?_⟩
      rw [hsplit]
      simp only [List.mem_append, List.mem_cons, List.not_mem_nil, or_false] at hon ⊢
      tauto
    · refine ⟨_, hentry, mem_of_later hpath hinst rfl (Nat.le_of_lt hphi) fun hblock => ?_⟩
      unfold Instr.IsPHI at htarget
      rw [hblock] at htarget
      exact Nat.le_of_not_lt htarget
  · obtain ⟨item, hitem, rfl⟩ := h.accepted entry hentry
    exact ⟨item, rfl, h.reaches item (.inr hitem), h.apart item (.inr hitem)⟩
  · obtain ⟨item, hitem, rfl⟩ := h.accepted entry hentry
    exact ⟨point_not_phi item, fun around haround hreach =>
      h.around item (.inr hitem) around haround
        ((reaches_point item).trans hreach.to_reflTransGen)⟩

/-! ## The blocks that go around the segment -/

/-- The list of unreachable instructions. -/
theorem mem_unreachable_iff (hanalyses : analyses.Documented) {inst : loop.Instr} :
    inst ∈ instructionsUnreachableToAndFromSS analyses ssInstructions ↔
      inst = loop.first inst.block ∧ GoesAround loop.Step (· ∈ ssInstructions) inst := by
  unfold instructionsUnreachableToAndFromSS
  simp only [List.mem_filter, List.mem_map, decide_eq_true_eq, check_before_iff hanalyses,
    check_after_iff hanalyses]
  constructor
  · rintro ⟨⟨block, -, rfl⟩, hmem, hbefore, hafter⟩
    refine ⟨rfl, ?_, ?_⟩
    · rintro ⟨other, hother, hreach⟩
      rcases reflTransGen_iff_eq_or_transGen.mp hreach with heq | hreach
      · exact hmem (heq ▸ hother)
      · exact hbefore ⟨other, hother, fun heq => hmem (heq ▸ hother), hreach⟩
    · rintro ⟨other, hother, hreach⟩
      rcases reflTransGen_iff_eq_or_transGen.mp hreach with heq | hreach
      · exact hmem (heq ▸ hother)
      · exact hafter ⟨other, hother, fun heq => hmem (heq ▸ hother), hreach⟩
  · rintro ⟨hfirst, hbefore, hafter⟩
    refine ⟨⟨inst.block, loop.mem_blocks _, hfirst.symm⟩, fun hmem => hbefore ⟨inst, hmem, .refl⟩,
      ?_, ?_⟩
    · rintro ⟨other, hother, -, hreach⟩
      exact hbefore ⟨other, hother, hreach.to_reflTransGen⟩
    · rintro ⟨other, hother, -, hreach⟩
      exact hafter ⟨other, hother, hreach.to_reflTransGen⟩

/-- One order of the unreachable instructions. -/
structure UnreachableOrder (analyses : Analyses loop)
    (ssInstructions unreachable : List loop.Instr) : Prop where
  nodup : unreachable.Nodup
  mem_iff : ∀ inst, inst ∈ unreachable ↔
    inst ∈ instructionsUnreachableToAndFromSS analyses ssInstructions

/-- What is known of the entries: one is on every walk along which the traversal has to come and on
every walk to a block around the segment, they stem from these, and what is kept of the blocks is an
entry. -/
structure EntriesOf (ssInstructions unreachable entries : List loop.Instr) : Prop where
  entry_on_walk : ∀ path target, Walk loop.Step path (loop.first loop.header) target →
    ¬ target.IsPHI → ∀ inst ∈ path, ComesTo ssInstructions inst → ∃ entry ∈ entries, entry ∈ path
  entry_around : ∀ inst ∈ unreachable, ∀ path, Walk loop.Step path (loop.first loop.header)
    (getFrontierInstructionThatDoesNotSplitPHIs inst) → ∃ entry ∈ entries, entry ∈ path
  entry_point : ∀ entry ∈ entries,
    ∃ inst, entry = getFrontierInstructionThatDoesNotSplitPHIs inst ∧
      ((ReachesSet loop.Step (· ∈ ssInstructions) inst ∧ ¬ ReachedApart ssInstructions inst) ∨
        inst ∈ unreachable)
  entry_kept : ∀ inst, Kept loop.Step unreachable inst →
    getFrontierInstructionThatDoesNotSplitPHIs inst ∈ entries

/-- What is known of the exits: they are the frontier nodes after the segment and what is kept of
the blocks around it. -/
structure ExitsOf (ssInstructions unreachable exits : List loop.Instr) : Prop where
  nodup : exits.Nodup
  mem_exits : ∀ exit, exit ∈ exits ↔ ∃ inst,
    exit = getFrontierInstructionThatDoesNotSplitPHIs inst ∧
      ((AtFrontier ssInstructions inst ∧
        ReachedBySet loop.Step (· ∈ ssInstructions) inst) ∨ Kept loop.Step unreachable inst)

/-- What is known of a frontier. -/
structure FrontierOf (ssInstructions unreachable : List loop.Instr)
    (frontier : EntriesAndExits loop) : Prop
    extends EntriesOf ssInstructions unreachable frontier.entries,
      ExitsOf ssInstructions unreachable frontier.exits

/-- One instruction of the last pass may become an exit. -/
theorem extend_exits (analyses : Analyses loop) (frontier : EntriesAndExits loop)
    (inst : loop.Instr) : (extendFrontier analyses frontier inst).exits =
      if isReachableFromOtherExit analyses frontier.exits
        (getFrontierInstructionThatDoesNotSplitPHIs inst)
      then frontier.exits
      else frontier.exits.insert (getFrontierInstructionThatDoesNotSplitPHIs inst) := rfl

/-- One instruction of the last pass may become an entry. -/
theorem extend_entries (analyses : Analyses loop) (frontier : EntriesAndExits loop)
    (inst : loop.Instr) : (extendFrontier analyses frontier inst).entries =
      if isDominatedByOtherEntry analyses frontier.entries
        (getFrontierInstructionThatDoesNotSplitPHIs inst)
      then frontier.entries
      else frontier.entries.insert (getFrontierInstructionThatDoesNotSplitPHIs inst) := rfl

/-- What the exits are after some instructions of the last pass. -/
structure ExtendedExits (exits order result : List loop.Instr) : Prop where
  nodup : result.Nodup
  mem_iff : ∀ exit, exit ∈ result ↔ exit ∈ exits ∨
    ∃ inst, exit = getFrontierInstructionThatDoesNotSplitPHIs inst ∧ Kept loop.Step order inst

/-- The check against other exits looks for an earlier block of the order that leads here. -/
theorem ExtendedExits.check_iff (hanalyses : analyses.Documented)
    {exits order result : List loop.Instr} {last : loop.Instr}
    (h : ExtendedExits exits order result)
    (hfirst : ∀ inst ∈ order ++ [last], inst = loop.first inst.block) (hfresh : last ∉ order)
    (hexits : ∀ exit ∈ exits, ¬ TransGen loop.Step exit
      (getFrontierInstructionThatDoesNotSplitPHIs last)) :
    isReachableFromOtherExit analyses result (getFrontierInstructionThatDoesNotSplitPHIs last) =
      true ↔ ¬ ∀ earlier ∈ order, ¬ TransGen loop.Step earlier last := by
  have hlast := hfirst last (by simp)
  rw [reachable_iff hanalyses]
  constructor
  · rintro ⟨exit, hexit, hne, hreach⟩ hnone
    rcases (h.mem_iff exit).mp hexit with hold | ⟨inst, rfl, hkept⟩
    · exact hexits exit hold hreach
    · exact hnone inst hkept.mem (TransGen.trans_right (reaches_point inst)
        (reaches_of_reaches_point (point_not_phi inst) hreach))
  · intro hsome
    push Not at hsome
    obtain ⟨earlier, hmem, hreach⟩ := hsome
    obtain ⟨kept, hkept, hkept_reach⟩ : ∃ kept, Kept loop.Step order kept ∧
        ReflTransGen loop.Step kept earlier := exists_kept hmem
    refine ⟨_, (h.mem_iff _).mpr (.inr ⟨kept, rfl, hkept⟩), fun heq => hfresh ?_, ?_⟩
    · have hblock : kept.block = last.block := by
        rw [← point_block kept, heq, point_block]
      rw [hlast, ← hblock, ← hfirst kept (List.mem_append_left _ hkept.mem)]
      exact hkept.mem
    · have hreach := TransGen.trans_right hkept_reach hreach
      rw [hlast] at hreach ⊢
      exact TransGen.trans_left (point_reaches_first hreach) (reaches_point _)

/-- One more instruction is an exit where it is kept. -/
theorem ExtendedExits.extend (hanalyses : analyses.Documented) {exits order : List loop.Instr}
    {frontier : EntriesAndExits loop} {last : loop.Instr}
    (h : ExtendedExits exits order frontier.exits)
    (hfirst : ∀ inst ∈ order ++ [last], inst = loop.first inst.block) (hfresh : last ∉ order)
    (hexits : ∀ exit ∈ exits, ¬ TransGen loop.Step exit
      (getFrontierInstructionThatDoesNotSplitPHIs last)) :
    ExtendedExits exits (order ++ [last]) (extendFrontier analyses frontier last).exits := by
  have hcheck := h.check_iff hanalyses hfirst hfresh hexits
  rw [extend_exits]
  by_cases hreachable : isReachableFromOtherExit analyses frontier.exits
      (getFrontierInstructionThatDoesNotSplitPHIs last) = true
  · rw [if_pos hreachable]
    refine ⟨h.nodup, fun exit => (h.mem_iff exit).trans (or_congr_right (exists_congr fun inst =>
      and_congr_right fun _ => ?_))⟩
    rw [kept_append_singleton]
    exact ⟨.inl, fun hboth => hboth.resolve_right fun hkept => hcheck.mp hreachable hkept.2⟩
  · rw [if_neg hreachable]
    refine ⟨List.Nodup.insert h.nodup, fun exit => ?_⟩
    rw [List.mem_insert_iff, h.mem_iff]
    constructor
    · rintro (rfl | hold | ⟨inst, heq, hkept⟩)
      · exact .inr ⟨last, rfl, kept_append_singleton.mpr
          (.inr ⟨rfl, not_not.mp (mt hcheck.mpr hreachable)⟩)⟩
      · exact .inl hold
      · exact .inr ⟨inst, heq, kept_append_singleton.mpr (.inl hkept)⟩
    · rintro (hold | ⟨inst, heq, hkept⟩)
      · exact .inr (.inl hold)
      · rcases kept_append_singleton.mp hkept with hkept | ⟨rfl, -⟩
        · exact .inr (.inr ⟨inst, heq, hkept⟩)
        · exact .inl heq

/-- What the last pass has made of the exits. -/
theorem exits_extend (hanalyses : analyses.Documented) (entries : List loop.Instr)
    {exits unreachable : List loop.Instr}
    (hfirst : ∀ inst ∈ unreachable, inst = loop.first inst.block) (hnodup : unreachable.Nodup)
    (hexits : ∀ exit ∈ exits, ∀ inst ∈ unreachable, ¬ TransGen loop.Step exit
      (getFrontierInstructionThatDoesNotSplitPHIs inst)) (hexits_nodup : exits.Nodup) :
    ExtendedExits exits unreachable
      (unreachable.foldl (extendFrontier analyses) ⟨entries, exits⟩).exits := by
  induction unreachable using List.reverseRecOn with
  | nil =>
      refine ⟨hexits_nodup, fun exit => ⟨.inl, ?_⟩⟩
      rintro (hexit | ⟨inst, -, hkept⟩)
      · exact hexit
      · simpa using hkept.mem
  | append_singleton order last ih =>
      have hbefore := ih (fun inst hinst => hfirst inst (List.mem_append_left _ hinst))
        hnodup.of_append_left
        (fun exit hexit inst hinst => hexits exit hexit inst (List.mem_append_left _ hinst))
      have hfresh : last ∉ order := fun hmem =>
        List.disjoint_of_nodup_append hnodup hmem (List.mem_singleton_self last)
      rw [List.foldl_append]
      exact hbefore.extend hanalyses hfirst hfresh
        fun exit hexit => hexits exit hexit last (by simp)

/-- What is known of the entries after some instructions of the last pass. -/
structure ExtendedEntries (entries order result : List loop.Instr) : Prop where
  old : ∀ entry ∈ entries, entry ∈ result
  new : ∀ entry ∈ result, entry ∈ entries ∨
    ∃ inst ∈ order, entry = getFrontierInstructionThatDoesNotSplitPHIs inst
  on_walk : ∀ inst ∈ order, ∀ path, Walk loop.Step path (loop.first loop.header)
    (getFrontierInstructionThatDoesNotSplitPHIs inst) → ∃ entry ∈ result, entry ∈ path
  kept : ∀ inst, Kept loop.Step order inst →
    getFrontierInstructionThatDoesNotSplitPHIs inst ∈ result

omit [DecidableEq Block] in
/-- No entry dominates an instruction to which nothing before it leads. -/
theorem ExtendedEntries.not_dominated (hanalyses : analyses.Documented)
    {entries order result : List loop.Instr} {last : loop.Instr}
    (h : ExtendedEntries entries order result)
    (hentries : ∀ entry ∈ entries, ¬ entry.IsPHI ∧ ¬ TransGen loop.Step entry last)
    (hkept : ∀ earlier ∈ order, ¬ TransGen loop.Step earlier last) :
    ¬ isDominatedByOtherEntry analyses result (getFrontierInstructionThatDoesNotSplitPHIs last) =
      true := by
  intro hdominated
  obtain ⟨entry, hentry, hne, hpaths⟩ := (dominated_iff hanalyses).mp hdominated
  obtain ⟨path, hpath⟩ := exists_walk
    (header_reaches (getFrontierInstructionThatDoesNotSplitPHIs last))
  have hreach : TransGen loop.Step entry (getFrontierInstructionThatDoesNotSplitPHIs last) :=
    (reflTransGen_iff_eq_or_transGen.mp
      (hpath.reaches_target (hpaths path hpath))).resolve_left (Ne.symm hne)
  rcases h.new entry hentry with hold | ⟨earlier, hearlier, rfl⟩
  · exact (hentries entry hold).2 (reaches_of_reaches_point (hentries entry hold).1 hreach)
  · exact hkept earlier hearlier (TransGen.trans_right (reaches_point earlier)
      (reaches_of_reaches_point (point_not_phi earlier) hreach))

/-- One more instruction is an entry, or an entry dominates it. -/
theorem ExtendedEntries.extend (hanalyses : analyses.Documented) {entries order : List loop.Instr}
    {frontier : EntriesAndExits loop} {last : loop.Instr}
    (h : ExtendedEntries entries order frontier.entries)
    (hentries : ∀ entry ∈ entries, ¬ entry.IsPHI ∧ ¬ TransGen loop.Step entry last) :
    ExtendedEntries entries (order ++ [last]) (extendFrontier analyses frontier last).entries := by
  have hmono : ∀ entry ∈ frontier.entries,
      entry ∈ (extendFrontier analyses frontier last).entries := by
    intro entry hentry
    rw [extend_entries]
    split_ifs
    · exact hentry
    · exact List.mem_insert_of_mem hentry
  have hadded : ¬ isDominatedByOtherEntry analyses frontier.entries
      (getFrontierInstructionThatDoesNotSplitPHIs last) = true →
      getFrontierInstructionThatDoesNotSplitPHIs last ∈
        (extendFrontier analyses frontier last).entries := by
    intro hdominated
    rw [extend_entries, if_neg hdominated]
    exact List.mem_insert_self
  refine ⟨fun entry hentry => hmono entry (h.old entry hentry), fun entry hentry => ?_,
    fun inst hinst path hpath => ?_, fun inst hkept => ?_⟩
  · have hcases : entry = getFrontierInstructionThatDoesNotSplitPHIs last ∨
        entry ∈ frontier.entries := by
      rw [extend_entries] at hentry
      split_ifs at hentry
      · exact .inr hentry
      · exact List.mem_insert_iff.mp hentry
    rcases hcases with rfl | hold
    · exact .inr ⟨last, by simp, rfl⟩
    · exact (h.new entry hold).imp_right fun ⟨inst, hinst, heq⟩ =>
        ⟨inst, List.mem_append_left _ hinst, heq⟩
  · rcases List.mem_append.mp hinst with hinst | hinst
    · obtain ⟨entry, hentry, hon⟩ := h.on_walk inst hinst path hpath
      exact ⟨entry, hmono entry hentry, hon⟩
    · obtain rfl := List.mem_singleton.mp hinst
      by_cases hdominated : isDominatedByOtherEntry analyses frontier.entries
          (getFrontierInstructionThatDoesNotSplitPHIs inst) = true
      · obtain ⟨entry, hentry, -, hpaths⟩ := (dominated_iff hanalyses).mp hdominated
        exact ⟨entry, hmono entry hentry, hpaths path hpath⟩
      · exact ⟨_, hadded hdominated, hpath.target_mem⟩
  · rcases kept_append_singleton.mp hkept with hkept | ⟨rfl, hkept⟩
    · exact hmono _ (h.kept inst hkept)
    · exact hadded (h.not_dominated hanalyses hentries hkept)

/-- What the last pass has made of the entries. -/
theorem entries_extend (hanalyses : analyses.Documented) (exits : List loop.Instr)
    {entries unreachable : List loop.Instr}
    (hentries : ∀ entry ∈ entries, ¬ entry.IsPHI ∧ ∀ inst ∈ unreachable,
      ¬ TransGen loop.Step entry inst) :
    ExtendedEntries entries unreachable
      (unreachable.foldl (extendFrontier analyses) ⟨entries, exits⟩).entries := by
  induction unreachable using List.reverseRecOn with
  | nil =>
      refine ⟨fun _ hentry => hentry, fun _ hentry => .inl hentry, by simp, ?_⟩
      intro inst hkept
      simpa using hkept.mem
  | append_singleton order last ih =>
      have hbefore := ih fun entry hentry => ⟨(hentries entry hentry).1, fun inst hinst =>
        (hentries entry hentry).2 inst (List.mem_append_left _ hinst)⟩
      rw [List.foldl_append]
      exact hbefore.extend hanalyses fun entry hentry =>
        ⟨(hentries entry hentry).1, (hentries entry hentry).2 last (by simp)⟩

/-- The frontier is determined. -/
theorem exists_frontier (analyses : Analyses loop) (ssInstructions unreachable : List loop.Instr) :
    ∃ frontier, determineEntryAndExitFrontier analyses ssInstructions unreachable =
      some frontier := by
  obtain ⟨entries, hentries⟩ := exists_findEntries analyses ssInstructions
  obtain ⟨exits, hexits⟩ := exists_findExits analyses ssInstructions
  refine ⟨unreachable.foldl (extendFrontier analyses) ⟨entries, exits⟩, ?_⟩
  unfold determineEntryAndExitFrontier
  rw [hentries, hexits]
  rfl

/-- The frontier is what the last pass makes of what the traversals find. -/
theorem determined_eq {unreachable : List loop.Instr} {frontier : EntriesAndExits loop}
    (h : determineEntryAndExitFrontier analyses ssInstructions unreachable = some frontier) :
    ∃ entries exits, findEntries analyses ssInstructions = some entries ∧
      findExits analyses ssInstructions = some exits ∧
      frontier = unreachable.foldl (extendFrontier analyses) ⟨entries, exits⟩ := by
  simp only [determineEntryAndExitFrontier, Option.bind_eq_bind, Option.bind_eq_some_iff,
    Option.pure_def, Option.some.injEq] at h
  obtain ⟨entries, hentries, exits, hexits, heq⟩ := h
  exact ⟨entries, exits, hentries, hexits, heq.symm⟩

/-- The last pass keeps the exits. -/
theorem mem_foldl_exits {unreachable : List loop.Instr} {frontier : EntriesAndExits loop}
    {exit : loop.Instr} (h : exit ∈ frontier.exits) :
    exit ∈ (unreachable.foldl (extendFrontier analyses) frontier).exits := by
  induction unreachable generalizing frontier with
  | nil => exact h
  | cons inst rest ih =>
      refine ih ?_
      rw [extend_exits]
      split_ifs
      · exact h
      · exact List.mem_insert_of_mem h

section Determined

variable (hanalyses : analyses.Documented) {unreachable : List loop.Instr}
  {frontier : EntriesAndExits loop}
  (hdetermined : determineEntryAndExitFrontier analyses ssInstructions unreachable = some frontier)

include hanalyses hdetermined

/-- The last instructions of the segment outside inner loops are exits. -/
theorem mem_exits_of_last (hphi : ∀ inst ∈ ssInstructions, ¬ inst.IsPHI) {inst : loop.Instr}
    (hinst : inst ∈ ssInstructions) (hinner : ¬ InInnerLoop inst)
    (hlast : ¬ ReachesOther loop.Step (· ∈ ssInstructions) inst) : inst ∈ frontier.exits := by
  obtain ⟨entries, exits, -, hexits, rfl⟩ := determined_eq hdetermined
  exact mem_foldl_exits (mem_findExits hanalyses hphi hexits hinst hinner hlast)

variable (horder : UnreachableOrder analyses ssInstructions unreachable)

include horder

/-- The entries of a segment, for every order of the last pass. -/
theorem entries_of_determined : EntriesOf ssInstructions unreachable frontier.entries := by
  obtain ⟨entries, exits, hentries, -, rfl⟩ := determined_eq hdetermined
  have hfound := findEntries_found hanalyses hentries
  have hextend := entries_extend hanalyses exits fun entry hentry =>
    ⟨(hfound.around entry hentry).1, fun inst hinst => (hfound.around entry hentry).2 inst
      ((mem_unreachable_iff hanalyses).mp ((horder.mem_iff inst).mp hinst)).2⟩
  refine ⟨fun path target hpath htarget inst hinst hcomes => ?_, hextend.on_walk,
    fun entry hentry => ?_, hextend.kept⟩
  · obtain ⟨entry, hentry, hon⟩ := hfound.on_walk path target hpath htarget inst hinst hcomes
    exact ⟨entry, hextend.old entry hentry, hon⟩
  · rcases hextend.new entry hentry with hentry | ⟨inst, hinst, heq⟩
    · obtain ⟨inst, heq, hinst⟩ := hfound.point entry hentry
      exact ⟨inst, heq, .inl hinst⟩
    · exact ⟨inst, heq, .inr hinst⟩

/-- The exits of a segment, for every order of the last pass. -/
theorem exits_of_determined (hcycles : CyclesGoOn ssInstructions) :
    ExitsOf ssInstructions unreachable frontier.exits := by
  have haround : ∀ inst ∈ unreachable, inst = loop.first inst.block ∧
      GoesAround loop.Step (· ∈ ssInstructions) inst :=
    fun inst hinst => (mem_unreachable_iff hanalyses).mp ((horder.mem_iff inst).mp hinst)
  obtain ⟨entries, exits, -, hexits, rfl⟩ := determined_eq hdetermined
  obtain ⟨hnodup, hmem⟩ := findExits_frontier hanalyses hcycles hexits
  have hextend := exits_extend hanalyses entries
    (fun inst hinst => (haround inst hinst).1) horder.nodup
    (fun exit hexit inst hinst hreach => by
      obtain ⟨item, -, hreached, rfl⟩ := (hmem exit).mp hexit
      exact (haround inst hinst).2.1 (hreached.of_reaches ((reaches_point item).trans
        (reaches_of_reaches_point (point_not_phi item) hreach).to_reflTransGen))) hnodup
  refine ⟨hextend.nodup, fun exit => ?_⟩
  rw [hextend.mem_iff, hmem]
  constructor
  · rintro (⟨inst, hfrontier, hreached, heq⟩ | ⟨inst, heq, hkept⟩)
    · exact ⟨inst, heq, .inl ⟨hfrontier, hreached⟩⟩
    · exact ⟨inst, heq, .inr hkept⟩
  · rintro ⟨inst, heq, ⟨hfrontier, hreached⟩ | hkept⟩
    · exact .inl ⟨inst, hfrontier, hreached, heq⟩
    · exact .inr ⟨inst, heq, hkept⟩

/-- The frontier of a segment, for every order of the last pass. -/
theorem frontier_of_determined (hcycles : CyclesGoOn ssInstructions) :
    FrontierOf ssInstructions unreachable frontier :=
  { entries_of_determined hanalyses hdetermined horder,
    exits_of_determined hanalyses hdetermined horder hcycles with }

end Determined

end Gino.Helix
