import Gino.Machine.Traversal
import Mathlib.Algebra.Order.Ring.Int
import Mathlib.Data.Finset.Card

/-!
# Merging the sets of a partition

`Heuristics::minMaxMergePartition` merges sets of components until there are no more sets than
threads. Each round visits the pairs of a set and a child of it, keeps the cheapest merge, and the
smallest among the cheapest, and performs it. The number of threads is narrowed to an `int` before
it is compared, so that the merging stops where it should exactly as long as the narrowed numbers
compare as the numbers do (`min_max_merging_iff`).
-/

namespace Gino.Heuristics

open Machine Relation

/-- The sets of components, in a graph that changes when sets are merged. -/
structure SCCDAGPartitioner (Graph SCCSet SCC : Type) where
  getSets : Graph → List SCCSet
  getRoots : Graph → List SCCSet
  getChildren : Graph → SCCSet → List SCCSet
  sccs : SCCSet → List SCC
  getCycleIntroducedByMerging : Graph → SCCSet → SCCSet → List SCCSet
  mergeSetsAndCollapseResultingCycles : Graph → List SCCSet → Graph

/-- What the analysis of a partition knows: the estimated cost of one set of components, the number
of instructions of the components, and the number of cores. -/
structure PartitionCostAnalysis (SCC : Type) where
  latencyPerInvocation : Finset SCC → UInt64
  sccToInstructionCountMap : SCC → Option UInt64
  numCores : Int

/-- The merge that is kept, with its cost and its number of instructions. -/
structure CandidateSubset (SCCSet : Type) where
  minSetsToMerge : List SCCSet
  costOfMergedSet : UInt64
  numInstructionsInSetsBeingMerged : UInt64

/-- A merge: the graph before, and the sets that are merged with their cost and size. -/
structure Merge (Graph SCCSet : Type) where
  before : Graph
  candidate : CandidateSubset SCCSet

/-- A number that is narrowed to an `int`. -/
def toInt (n : Nat) : Int := (n : Int).bmod (2 ^ 32)

variable {Graph SCCSet SCC : Type} [DecidableEq SCCSet] [DecidableEq SCC]

/-- Add the numbers of instructions of components. It gives nothing where a component has none. -/
def PartitionCostAnalysis.addInstructions (analysis : PartitionCostAnalysis SCC) (count : UInt64)
    (sccs : List SCC) : Option UInt64 :=
  sccs.foldlM (fun count scc => (analysis.sccToInstructionCountMap scc).map (count + ·)) count

/-- The largest number of 64 bits. -/
def UINT64_MAX : UInt64 := UInt64.ofNat (2 ^ 64 - 1)

/-- No merge is kept. -/
def resetCandidateSubsetInfo : CandidateSubset SCCSet := ⟨[], UINT64_MAX, UINT64_MAX⟩

/-- Keep the merge of two sets if it is the cheapest, and the smallest of the cheapest. -/
def checkIfShouldMerge (p : SCCDAGPartitioner Graph SCCSet SCC)
    (analysis : PartitionCostAnalysis SCC) (g : Graph) (sA : SCCSet)
    (candidate : CandidateSubset SCCSet) (sB : SCCSet) : Option (CandidateSubset SCCSet) :=
  if toInt (p.getSets g).length ≤ analysis.numCores then some candidate
  else
    let setsInMerge := p.getCycleIntroducedByMerging g sA sB
    let potentialMerge := (setsInMerge.flatMap p.sccs).toFinset
    match setsInMerge.foldlM (fun count set => analysis.addInstructions count (p.sccs set)) 0 with
    | none => none
    | some instCountOfMerge =>
        let costOnceMerged := analysis.latencyPerInvocation potentialMerge
        if costOnceMerged > candidate.costOfMergedSet then some candidate
        else if costOnceMerged = candidate.costOfMergedSet ∧
            instCountOfMerge > candidate.numInstructionsInSetsBeingMerged then some candidate
        else some ⟨setsInMerge, costOnceMerged, instCountOfMerge⟩

/-- Visit a set: check the merges with its children, and push the children. -/
def visitSubset (p : SCCDAGPartitioner Graph SCCSet SCC) (analysis : PartitionCostAnalysis SCC)
    (g : Graph) (candidate : Option (CandidateSubset SCCSet)) (sub : SCCSet) :
    Option (CandidateSubset SCCSet) × List SCCSet :=
  let children := p.getChildren g sub
  (candidate.bind fun candidate => children.foldlM (checkIfShouldMerge p analysis g sub) candidate,
    children)

/-- The merge that is kept among all pairs. It gives nothing where the fuel does not suffice. -/
def traverseAllPartitionSubsets (p : SCCDAGPartitioner Graph SCCSet SCC)
    (analysis : PartitionCostAnalysis SCC) (g : Graph) (fuel : Nat) :
    Option (CandidateSubset SCCSet) :=
  (traverse (visitSubset p analysis g) fuel (p.getRoots g) (p.getRoots g)
    (some resetCandidateSubsetInfo)).join

/-- Merge sets as long as a merge is kept, and list the merges. It gives nothing where the fuel for
the rounds, or for the visits of a round, does not suffice. -/
def mergeRounds (p : SCCDAGPartitioner Graph SCCSet SCC) (analysis : PartitionCostAnalysis SCC)
    (fuel : Nat) : Nat → Graph → Option (Graph × List (Merge Graph SCCSet))
  | 0, _ => none
  | rounds + 1, g =>
      (traverseAllPartitionSubsets p analysis g fuel).bind fun candidate =>
        if candidate.minSetsToMerge.length = 0 then some (g, [])
        else
          let merged := p.mergeSetsAndCollapseResultingCycles g candidate.minSetsToMerge
          (mergeRounds p analysis fuel rounds merged).map fun (last, merges) =>
            (last, ⟨g, candidate⟩ :: merges)

/-- The numbers of instructions of the components of all sets. -/
def instructionCounts (p : SCCDAGPartitioner Graph SCCSet SCC) (numInternalNodes : SCC → UInt64)
    (g : Graph) (scc : SCC) : Option UInt64 :=
  if scc ∈ (p.getSets g).flatMap p.sccs then some (numInternalNodes scc) else none

/-- Merge the sets of a partition for a number of threads. -/
def minMaxMergePartition (p : SCCDAGPartitioner Graph SCCSet SCC)
    (latencyPerInvocation : Finset SCC → UInt64) (numInternalNodes : SCC → UInt64)
    (numThreads : UInt64) (fuel rounds : Nat) (g : Graph) :
    Option (Graph × List (Merge Graph SCCSet)) :=
  mergeRounds p
    ⟨latencyPerInvocation, instructionCounts p numInternalNodes g, toInt numThreads.toNat⟩
    fuel rounds g

/-! ## What is assumed of the partitioner -/

/-- A set is a child of another. -/
def SCCDAGPartitioner.Child (p : SCCDAGPartitioner Graph SCCSet SCC) (g : Graph)
    (sA sB : SCCSet) : Prop :=
  sB ∈ p.getChildren g sA

/-- The graph of a partition is acyclic, and its roots reach every set and nothing else. -/
structure SCCDAGPartitioner.WellFormed (p : SCCDAGPartitioner Graph SCCSet SCC) (g : Graph) :
    Prop where
  nodup_sets : (p.getSets g).Nodup
  nodup_roots : (p.getRoots g).Nodup
  reached_iff : ∀ set, set ∈ p.getSets g ↔
    ∃ root ∈ p.getRoots g, ReflTransGen (p.Child g) root set
  acyclic : ∀ set, ¬ TransGen (p.Child g) set set

/-- Merging two sets needs sets of the graph, the two among them. Merging sets replaces at least
them by one set, with no other components. -/
structure SCCDAGPartitioner.Documented (p : SCCDAGPartitioner Graph SCCSet SCC) : Prop where
  cycle : ∀ g sA sB, p.WellFormed g → sA ∈ p.getSets g → p.Child g sA sB →
    sA ∈ p.getCycleIntroducedByMerging g sA sB ∧ sB ∈ p.getCycleIntroducedByMerging g sA sB ∧
      p.getCycleIntroducedByMerging g sA sB ⊆ p.getSets g
  merge : ∀ g sets, p.WellFormed g → sets ≠ [] → sets ⊆ p.getSets g →
    p.WellFormed (p.mergeSetsAndCollapseResultingCycles g sets) ∧
    ∃ replaced new, sets ⊆ replaced ∧ replaced ⊆ p.getSets g ∧
      (∀ set, set ∈ p.getSets (p.mergeSetsAndCollapseResultingCycles g sets) ↔
        set = new ∨ set ∈ p.getSets g ∧ set ∉ replaced) ∧
      p.sccs new ⊆ replaced.flatMap p.sccs

/-! ## The merge that a round keeps -/

section Round

variable {p : SCCDAGPartitioner Graph SCCSet SCC} {analysis : PartitionCostAnalysis SCC} {g : Graph}
  {sA sB : SCCSet} {candidate other : CandidateSubset SCCSet} {seen : List (SCCSet × SCCSet)}

/-- A merge is cheaper than another, or as cheap and no larger. -/
def CandidateSubset.NoWorse (candidate other : CandidateSubset SCCSet) : Prop :=
  candidate.costOfMergedSet < other.costOfMergedSet ∨
    candidate.costOfMergedSet = other.costOfMergedSet ∧
      candidate.numInstructionsInSetsBeingMerged ≤ other.numInstructionsInSetsBeingMerged

/-- The merge of two sets, with its cost and its number of instructions. It gives nothing where a
component has no number of instructions. -/
def mergeOf (p : SCCDAGPartitioner Graph SCCSet SCC) (analysis : PartitionCostAnalysis SCC)
    (g : Graph) (sA sB : SCCSet) : Option (CandidateSubset SCCSet) :=
  let setsInMerge := p.getCycleIntroducedByMerging g sA sB
  (setsInMerge.foldlM (fun count set => analysis.addInstructions count (p.sccs set)) 0).map
    fun count => ⟨setsInMerge, analysis.latencyPerInvocation (setsInMerge.flatMap p.sccs).toFinset,
      count⟩

/-- A merge is that of a set and a child, and no such merge is better. -/
structure IsMinimalMerge (p : SCCDAGPartitioner Graph SCCSet SCC)
    (analysis : PartitionCostAnalysis SCC) (g : Graph) (candidate : CandidateSubset SCCSet) :
    Prop where
  pair : ∃ sA ∈ p.getSets g, ∃ sB, p.Child g sA sB ∧ mergeOf p analysis g sA sB = some candidate
  minimal : ∀ sA ∈ p.getSets g, ∀ sB, p.Child g sA sB →
    ∃ other, mergeOf p analysis g sA sB = some other ∧ candidate.NoWorse other

omit [DecidableEq SCCSet] in
/-- With no more sets than cores nothing is kept. -/
theorem check_of_stop (hstop : toInt (p.getSets g).length ≤ analysis.numCores) :
    checkIfShouldMerge p analysis g sA candidate sB = some candidate :=
  if_pos hstop

/-- What holds of the merge that is kept after some pairs: it is the merge of one of them, or none
is kept if there are none, and no merge of them is better. -/
structure KeepsBest (p : SCCDAGPartitioner Graph SCCSet SCC) (analysis : PartitionCostAnalysis SCC)
    (g : Graph) (seen : List (SCCSet × SCCSet)) (candidate : CandidateSubset SCCSet) : Prop where
  kept : seen = [] ∧ candidate = resetCandidateSubsetInfo ∨
    ∃ pair ∈ seen, mergeOf p analysis g pair.1 pair.2 = some candidate
  minimal : ∀ pair ∈ seen, ∃ other, mergeOf p analysis g pair.1 pair.2 = some other ∧
    candidate.NoWorse other

omit [DecidableEq SCCSet] in
/-- Checking a pair keeps the merge that is strictly better, or takes that of the pair. -/
theorem check_cases (hstop : ¬ toInt (p.getSets g).length ≤ analysis.numCores)
    (hmerge : mergeOf p analysis g sA sB = some other) :
    checkIfShouldMerge p analysis g sA candidate sB = some candidate ∧
        candidate.NoWorse other ∧ ¬ other.NoWorse candidate ∨
      checkIfShouldMerge p analysis g sA candidate sB = some other ∧ other.NoWorse candidate := by
  obtain ⟨count, hcount, rfl⟩ := Option.map_eq_some_iff.mp hmerge
  unfold checkIfShouldMerge CandidateSubset.NoWorse
  rw [if_neg hstop]
  dsimp only
  rw [hcount]
  dsimp only
  simp only [UInt64.lt_iff_toNat_lt, UInt64.le_iff_toNat_le, ← UInt64.toNat_inj, gt_iff_lt]
  split_ifs with hdearer hlarger
  · exact .inl ⟨rfl, by omega, by omega⟩
  · exact .inl ⟨rfl, by omega, by omega⟩
  · exact .inr ⟨rfl, by omega⟩

omit [DecidableEq SCCSet] [DecidableEq SCC] in
/-- Being no worse is transitive. -/
theorem CandidateSubset.NoWorse.trans {next : CandidateSubset SCCSet}
    (h : candidate.NoWorse other) (hnext : other.NoWorse next) : candidate.NoWorse next := by
  unfold NoWorse at *
  simp only [UInt64.lt_iff_toNat_lt, UInt64.le_iff_toNat_le, ← UInt64.toNat_inj] at *
  omega

omit [DecidableEq SCCSet] [DecidableEq SCC] in
/-- A merge is no worse than itself. -/
theorem CandidateSubset.noWorse_self (candidate : CandidateSubset SCCSet) :
    candidate.NoWorse candidate :=
  .inr ⟨rfl, UInt64.le_refl _⟩

omit [DecidableEq SCCSet] [DecidableEq SCC] in
/-- Every merge is no worse than none. -/
theorem CandidateSubset.noWorse_reset (candidate : CandidateSubset SCCSet) :
    candidate.NoWorse resetCandidateSubsetInfo := by
  have hmax : UINT64_MAX.toNat = 2 ^ 64 - 1 := rfl
  have hcost := candidate.costOfMergedSet.toNat_lt
  have hcount := candidate.numInstructionsInSetsBeingMerged.toNat_lt
  unfold NoWorse resetCandidateSubsetInfo
  simp only [UInt64.lt_iff_toNat_lt, UInt64.le_iff_toNat_le, ← UInt64.toNat_inj, hmax]
  omega

omit [DecidableEq SCCSet] in
/-- Checking one more pair keeps the best merge. -/
theorem KeepsBest.check (h : KeepsBest p analysis g seen candidate)
    (hstop : ¬ toInt (p.getSets g).length ≤ analysis.numCores)
    (hmerge : mergeOf p analysis g sA sB = some other) :
    ∃ next, checkIfShouldMerge p analysis g sA candidate sB = some next ∧
      KeepsBest p analysis g (seen ++ [(sA, sB)]) next := by
  rcases @check_cases Graph SCCSet SCC _ p analysis g sA sB candidate other hstop hmerge with
    ⟨hcheck, hbetter, hworse⟩ | ⟨hcheck, hbetter⟩
  · refine ⟨candidate, hcheck, ?_, fun pair hpair => ?_⟩
    · rcases h.kept with ⟨-, rfl⟩ | ⟨pair, hpair, hkept⟩
      · exact absurd other.noWorse_reset hworse
      · exact .inr ⟨pair, List.mem_append_left _ hpair, hkept⟩
    · rcases List.mem_append.mp hpair with hold | hlast
      · exact h.minimal pair hold
      · obtain rfl := List.mem_singleton.mp hlast
        exact ⟨other, hmerge, hbetter⟩
  · refine ⟨other, hcheck, .inr ⟨(sA, sB), List.mem_append_right _ (List.mem_singleton_self _),
      hmerge⟩, fun pair hpair => ?_⟩
    rcases List.mem_append.mp hpair with hold | hlast
    · obtain ⟨former, hformer, hno⟩ := h.minimal pair hold
      exact ⟨former, hformer, hbetter.trans hno⟩
    · obtain rfl := List.mem_singleton.mp hlast
      exact ⟨other, hmerge, other.noWorse_self⟩

omit [DecidableEq SCCSet] in
/-- Checking the pairs of a set with children keeps the best merge. -/
theorem KeepsBest.children {children : List SCCSet} (h : KeepsBest p analysis g seen candidate)
    (hstop : ¬ toInt (p.getSets g).length ≤ analysis.numCores)
    (hmerges : ∀ sB ∈ children, (mergeOf p analysis g sA sB).isSome) :
    ∃ next, children.foldlM (checkIfShouldMerge p analysis g sA) candidate = some next ∧
      KeepsBest p analysis g (seen ++ children.map fun sB => (sA, sB)) next := by
  induction children generalizing seen candidate with
  | nil => exact ⟨candidate, rfl, by simpa using h⟩
  | cons sB rest ih =>
      obtain ⟨other, hother⟩ := Option.isSome_iff_exists.mp (hmerges sB List.mem_cons_self)
      obtain ⟨next, hcheck, hnext⟩ := h.check hstop hother
      obtain ⟨last, hlast, hbest⟩ :=
        ih hnext fun sB' hin => hmerges sB' (List.mem_cons_of_mem _ hin)
      refine ⟨last, ?_, by simpa using hbest⟩
      rw [List.foldlM_cons, hcheck]
      exact hlast

omit [DecidableEq SCCSet] in
/-- Visiting sets keeps the best merge of all their pairs. -/
theorem KeepsBest.visits {order : List SCCSet} (h : KeepsBest p analysis g seen candidate)
    (hstop : ¬ toInt (p.getSets g).length ≤ analysis.numCores)
    (hmerges : ∀ sA ∈ order, ∀ sB, p.Child g sA sB → (mergeOf p analysis g sA sB).isSome) :
    ∃ next, order.foldl (fun result sub => (visitSubset p analysis g result sub).1)
        (some candidate) = some next ∧
      KeepsBest p analysis g
        (seen ++ order.flatMap fun sA => (p.getChildren g sA).map fun sB => (sA, sB)) next := by
  induction order generalizing seen candidate with
  | nil => exact ⟨candidate, rfl, by simpa using h⟩
  | cons sA rest ih =>
      obtain ⟨next, hcheck, hnext⟩ := h.children hstop (hmerges sA List.mem_cons_self)
      obtain ⟨last, hlast, hbest⟩ :=
        ih hnext fun sA' hin => hmerges sA' (List.mem_cons_of_mem _ hin)
      refine ⟨last, ?_, by simpa using hbest⟩
      rw [List.foldl_cons]
      exact (congrArg (List.foldl _ · rest) hcheck).trans hlast

omit [DecidableEq SCCSet] in
/-- With no more sets than cores, visiting sets keeps nothing. -/
theorem visits_of_stop (hstop : toInt (p.getSets g).length ≤ analysis.numCores)
    (order : List SCCSet) :
    order.foldl (fun result sub => (visitSubset p analysis g result sub).1) (some candidate) =
      some candidate := by
  have hchildren : ∀ (sA : SCCSet) (children : List SCCSet),
      children.foldlM (checkIfShouldMerge p analysis g sA) candidate = some candidate := by
    intro sA children
    induction children with
    | nil => rfl
    | cons sB rest ih =>
        rw [List.foldlM_cons, check_of_stop hstop]
        exact ih
  induction order with
  | nil => rfl
  | cons sA rest ih =>
      rw [List.foldl_cons]
      exact (congrArg (List.foldl _ · rest) (hchildren sA _)).trans ih

end Round

/-! ## Rounds -/

section Rounds

variable {p : SCCDAGPartitioner Graph SCCSet SCC} {analysis : PartitionCostAnalysis SCC} {g : Graph}
  {candidate : CandidateSubset SCCSet}

/-- All components of the graph have a number of instructions. -/
def Covered (p : SCCDAGPartitioner Graph SCCSet SCC) (analysis : PartitionCostAnalysis SCC)
    (g : Graph) : Prop :=
  ∀ set ∈ p.getSets g, ∀ scc ∈ p.sccs set, (analysis.sccToInstructionCountMap scc).isSome

/-- The narrowed number of sets is no larger than the narrowed number of cores. -/
def Stops (p : SCCDAGPartitioner Graph SCCSet SCC) (analysis : PartitionCostAnalysis SCC)
    (g : Graph) : Prop :=
  toInt (p.getSets g).length ≤ analysis.numCores

/-- The graph has a set with a child. -/
def HasPair (p : SCCDAGPartitioner Graph SCCSet SCC) (g : Graph) : Prop :=
  ∃ sA ∈ p.getSets g, ∃ sB, p.Child g sA sB

omit [DecidableEq SCCSet] [DecidableEq SCC] in
/-- A loop that can fail does not if none of its steps does. -/
theorem exists_foldlM {σ α : Type} {step : σ → α → Option σ} {items : List α}
    (hstep : ∀ item ∈ items, ∀ state, ∃ next, step state item = some next) (state : σ) :
    ∃ last, items.foldlM step state = some last := by
  induction items generalizing state with
  | nil => exact ⟨state, rfl⟩
  | cons item rest ih =>
      obtain ⟨next, hnext⟩ := hstep item List.mem_cons_self state
      rw [List.foldlM_cons, hnext]
      exact ih (fun item hin => hstep item (List.mem_cons_of_mem _ hin)) next

omit [DecidableEq SCCSet] [DecidableEq SCC] in
/-- Components with numbers of instructions can be added. -/
theorem add_instructions_is_some {sccs : List SCC}
    (h : ∀ scc ∈ sccs, (analysis.sccToInstructionCountMap scc).isSome) (count : UInt64) :
    ∃ total, analysis.addInstructions count sccs = some total := by
  refine exists_foldlM (fun scc hin count => ?_) count
  obtain ⟨number, hnumber⟩ := Option.isSome_iff_exists.mp (h scc hin)
  exact ⟨count + number, by rw [hnumber]; rfl⟩

omit [DecidableEq SCCSet] in
/-- The merge of sets of the graph has a size. -/
theorem Covered.merge_of_is_some (h : Covered p analysis g) {sA sB : SCCSet}
    (hsub : p.getCycleIntroducedByMerging g sA sB ⊆ p.getSets g) :
    (mergeOf p analysis g sA sB).isSome := by
  obtain ⟨total, htotal⟩ :=
    @exists_foldlM _ _ (fun count set => analysis.addInstructions count (p.sccs set))
      (p.getCycleIntroducedByMerging g sA sB)
      (fun set hin => add_instructions_is_some (h set (hsub hin))) 0
  unfold mergeOf
  dsimp only
  rw [htotal]
  rfl

/-- A round keeps no merge if the number of sets is not to be lowered or there is no pair, and the
best merge otherwise. -/
theorem exists_round (hdoc : p.Documented) (hg : p.WellFormed g) (hcovered : Covered p analysis g) :
    ∃ candidate, (∀ fuel ≥ (p.getSets g).length,
        traverseAllPartitionSubsets p analysis g fuel = some candidate) ∧
      (candidate.minSetsToMerge = [] ∧ (Stops p analysis g ∨ ¬ HasPair p g) ∨
        ¬ Stops p analysis g ∧ IsMinimalMerge p analysis g candidate) := by
  obtain ⟨order, horder, hrun⟩ := @exists_traversal_order SCCSet _ _ (p.getChildren g)
    (p.getRoots g) (visitSubset p analysis g) (fun _ _ => rfl) (p.getSets g)
    (fun root hroot set hreach => (hg.reached_iff set).mpr ⟨root, hroot, hreach⟩) hg.nodup_roots
  have hmem : ∀ set, set ∈ order ↔ set ∈ p.getSets g := fun set =>
    (horder.mem_iff set).trans (hg.reached_iff set).symm
  have hresult : ∀ candidate,
      order.foldl (fun result sub => (visitSubset p analysis g result sub).1)
      (some resetCandidateSubsetInfo) = some candidate → ∀ fuel ≥ (p.getSets g).length,
      traverseAllPartitionSubsets p analysis g fuel = some candidate := by
    intro candidate hfold fuel hfuel
    unfold traverseAllPartitionSubsets
    rw [hrun fuel hfuel, hfold]
    rfl
  by_cases hstop : Stops p analysis g
  · exact ⟨_, hresult _ (visits_of_stop hstop order), .inl ⟨rfl, .inl hstop⟩⟩
  have hstart : KeepsBest p analysis g [] resetCandidateSubsetInfo :=
    ⟨.inl ⟨rfl, rfl⟩, fun _ hin => (List.not_mem_nil hin).elim⟩
  obtain ⟨candidate, hfold, hbest⟩ := hstart.visits hstop fun sA hsA sB hchild =>
    hcovered.merge_of_is_some (hdoc.cycle g sA sB hg ((hmem sA).mp hsA) hchild).2.2
  refine ⟨candidate, hresult candidate hfold, ?_⟩
  have hpairs : ∀ sA sB, (sA, sB) ∈ [] ++
      (order.flatMap fun sA => (p.getChildren g sA).map fun sB => (sA, sB)) ↔
        sA ∈ p.getSets g ∧ p.Child g sA sB := by
    intro sA sB
    simp [hmem, SCCDAGPartitioner.Child]
  rcases hbest.kept with ⟨hnone, rfl⟩ | ⟨⟨sA, sB⟩, hpair, hkept⟩
  · refine .inl ⟨rfl, .inr fun ⟨sA, hsA, sB, hchild⟩ => ?_⟩
    have hin := (hpairs sA sB).mpr ⟨hsA, hchild⟩
    rw [hnone] at hin
    cases hin
  · obtain ⟨hsA, hchild⟩ := (hpairs sA sB).mp hpair
    exact .inr ⟨hstop, ⟨sA, hsA, sB, hchild, hkept⟩, fun sA' hsA' sB' hchild' =>
      hbest.minimal (sA', sB') ((hpairs sA' sB').mpr ⟨hsA', hchild'⟩)⟩

/-- A merge leaves fewer sets, a well-formed graph, and no new components. -/
theorem IsMinimalMerge.merged (h : IsMinimalMerge p analysis g candidate) (hdoc : p.Documented)
    (hg : p.WellFormed g) (hcovered : Covered p analysis g) :
    candidate.minSetsToMerge ≠ [] ∧
      p.WellFormed (p.mergeSetsAndCollapseResultingCycles g candidate.minSetsToMerge) ∧
      Covered p analysis (p.mergeSetsAndCollapseResultingCycles g candidate.minSetsToMerge) ∧
      (p.getSets (p.mergeSetsAndCollapseResultingCycles g candidate.minSetsToMerge)).length <
        (p.getSets g).length := by
  obtain ⟨sA, hsA, sB, hchild, hmerge⟩ := h.pair
  obtain ⟨count, -, rfl⟩ := Option.map_eq_some_iff.mp hmerge
  obtain ⟨hcycleA, hcycleB, hsub⟩ := hdoc.cycle g sA sB hg hsA hchild
  have hne : p.getCycleIntroducedByMerging g sA sB ≠ [] := List.ne_nil_of_mem hcycleA
  obtain ⟨hmerged, replaced, new, hreplaced, hin, hsets, hsccs⟩ := hdoc.merge g _ hg hne hsub
  have hdistinct : sA ≠ sB := by
    rintro rfl
    exact hg.acyclic sA (.single hchild)
  refine ⟨hne, hmerged, fun set hset scc hscc => ?_, ?_⟩
  · rcases (hsets set).mp hset with rfl | ⟨hold, -⟩
    · obtain ⟨former, hformer, hscc'⟩ := List.mem_flatMap.mp (hsccs hscc)
      exact hcovered former (hin hformer) scc hscc'
    · exact hcovered set hold scc hscc
  · -- The two sets are replaced by at most one.
    have hB : sB ∈ (p.getSets g).erase sA :=
      (List.mem_erase_of_ne hdistinct.symm).mpr (hsub hcycleB)
    have hrest : p.getSets (p.mergeSetsAndCollapseResultingCycles g
        (p.getCycleIntroducedByMerging g sA sB)) ⊆ new :: ((p.getSets g).erase sA).erase sB := by
      intro set hset
      rcases (hsets set).mp hset with rfl | ⟨hold, hout⟩
      · exact List.mem_cons_self
      · have hneA : set ≠ sA := fun heq => hout (heq ▸ hreplaced hcycleA)
        have hneB : set ≠ sB := fun heq => hout (heq ▸ hreplaced hcycleB)
        exact List.mem_cons_of_mem _
          ((List.mem_erase_of_ne hneB).mpr ((List.mem_erase_of_ne hneA).mpr hold))
    have hlength := (List.subperm_of_subset hmerged.nodup_sets hrest).length_le
    rw [List.length_cons, List.length_erase_of_mem hB, List.length_erase_of_mem hsA] at hlength
    have hpos := List.length_pos_of_mem hB
    rw [List.length_erase_of_mem hsA] at hpos
    dsimp only
    omega

/-- The rounds end. The merges were performed where the number of sets was to be lowered, and they
were minimal. At the end it is not to be lowered or there is no pair. -/
theorem exists_merge_rounds (hdoc : p.Documented) (hg : p.WellFormed g)
    (hcovered : Covered p analysis g) :
    ∃ last merges, (∀ fuel ≥ (p.getSets g).length, ∀ rounds > (p.getSets g).length,
        mergeRounds p analysis fuel rounds g = some (last, merges)) ∧
      (∀ merge ∈ merges, ¬ Stops p analysis merge.before ∧
        IsMinimalMerge p analysis merge.before merge.candidate) ∧
      (Stops p analysis last ∨ ¬ HasPair p last) := by
  induction hsize : (p.getSets g).length using Nat.strongRecOn generalizing g with
  | _ size ih =>
      obtain ⟨candidate, htraverse, hend | ⟨hstop, hminimal⟩⟩ := exists_round hdoc hg hcovered
      · refine ⟨g, [], fun fuel hfuel rounds hrounds => ?_,
          fun _ hin => (List.not_mem_nil hin).elim, hend.2⟩
        obtain ⟨rounds, rfl⟩ : ∃ before, rounds = before + 1 := ⟨rounds - 1, by omega⟩
        rw [mergeRounds, htraverse fuel (hsize ▸ hfuel), Option.bind_some, if_pos]
        rw [hend.1]
        rfl
      · obtain ⟨hne, hmerged, hcovered', hless⟩ := hminimal.merged hdoc hg hcovered
        obtain ⟨last, merges, hrun, hmerges, hend⟩ := ih _ (hsize ▸ hless) hmerged hcovered' rfl
        refine ⟨last, ⟨g, candidate⟩ :: merges, fun fuel hfuel rounds hrounds => ?_, ?_, hend⟩
        · obtain ⟨rounds, rfl⟩ : ∃ before, rounds = before + 1 := ⟨rounds - 1, by omega⟩
          rw [mergeRounds, htraverse fuel (hsize ▸ hfuel), Option.bind_some,
            if_neg fun hzero => hne (List.eq_nil_of_length_eq_zero hzero)]
          dsimp only
          rw [hrun fuel (by omega) rounds (by omega)]
          rfl
        · rw [List.forall_mem_cons]
          exact ⟨⟨hstop, hminimal⟩, hmerges⟩

end Rounds

/-- The merges are as they should be: each lowers a number of sets above that of the threads and is
minimal, and at the end the number is no longer above it or there is no pair. -/
structure MergesCorrectly (p : SCCDAGPartitioner Graph SCCSet SCC)
    (analysis : PartitionCostAnalysis SCC) (numThreads : UInt64) (last : Graph)
    (merges : List (Merge Graph SCCSet)) : Prop where
  above : ∀ merge ∈ merges, numThreads.toNat < (p.getSets merge.before).length
  minimal : ∀ merge ∈ merges, IsMinimalMerge p analysis merge.before merge.candidate
  exit : (p.getSets last).length ≤ numThreads.toNat ∨ ¬ HasPair p last

/-- The merging ends. It merges as it should exactly when, in every round that has a pair, the
narrowed numbers of sets and threads compare as the numbers do. -/
theorem min_max_merging_iff {p : SCCDAGPartitioner Graph SCCSet SCC} (hdoc : p.Documented)
    {g : Graph} (hg : p.WellFormed g) (latencyPerInvocation : Finset SCC → UInt64)
    (numInternalNodes : SCC → UInt64) (numThreads : UInt64) :
    ∃ last merges, (∀ fuel ≥ (p.getSets g).length, ∀ rounds > (p.getSets g).length,
        minMaxMergePartition p latencyPerInvocation numInternalNodes numThreads fuel rounds g =
          some (last, merges)) ∧
      (MergesCorrectly p ⟨latencyPerInvocation, instructionCounts p numInternalNodes g,
          toInt numThreads.toNat⟩ numThreads last merges ↔
        ∀ round ∈ merges.map Merge.before ++ [last], HasPair p round →
          (toInt (p.getSets round).length ≤ toInt numThreads.toNat ↔
            (p.getSets round).length ≤ numThreads.toNat)) := by
  -- The counts of instructions are entered for every component of the graph.
  have hcovered : Covered p ⟨latencyPerInvocation, instructionCounts p numInternalNodes g,
      toInt numThreads.toNat⟩ g := by
    intro set hset scc hscc
    dsimp only
    rw [instructionCounts, if_pos (List.mem_flatMap.mpr ⟨set, hset, hscc⟩)]
    rfl
  obtain ⟨last, merges, hrun, hmerges, hend⟩ := exists_merge_rounds hdoc hg hcovered
  unfold Stops at hmerges hend
  dsimp only at hmerges hend
  -- The loop stops on the narrowed numbers, and the merging is right by the numbers themselves.
  refine ⟨last, merges, hrun, fun h round hround hpair => ?_, fun h => ⟨?_, ?_, ?_⟩⟩
  · rcases List.mem_append.mp hround with hbefore | hlast
    · obtain ⟨merge, hmerge, rfl⟩ := List.mem_map.mp hbefore
      have habove := h.above merge hmerge
      exact iff_of_false (hmerges merge hmerge).1 (by omega)
    · obtain rfl := List.mem_singleton.mp hlast
      exact iff_of_true (hend.resolve_right (not_not.mpr hpair))
        (h.exit.resolve_right (not_not.mpr hpair))
  · intro merge hmerge
    obtain ⟨hstop, hminimal⟩ := hmerges merge hmerge
    obtain ⟨sA, hsA, sB, hchild, -⟩ := hminimal.pair
    have hround := h merge.before (List.mem_append_left _ (List.mem_map_of_mem hmerge))
      ⟨sA, hsA, sB, hchild⟩
    exact Nat.lt_of_not_le fun hle => hstop (hround.mpr hle)
  · exact fun merge hmerge => (hmerges merge hmerge).2
  · by_cases hpair : HasPair p last
    · have hround := h last (List.mem_append_right _ (List.mem_singleton_self _)) hpair
      exact .inl (hround.mp (hend.resolve_right (not_not.mpr hpair)))
    · exact .inr hpair

/-- Numbers below 2 ^ 31 compare when they are narrowed as they do before. -/
theorem to_int_le_iff {sets threads : Nat} (hsets : sets < 2 ^ 31) (hthreads : threads < 2 ^ 31) :
    toInt sets ≤ toInt threads ↔ sets ≤ threads := by
  unfold toInt
  rw [Int.bmod_eq_of_le (by omega) (by omega), Int.bmod_eq_of_le (by omega) (by omega)]
  omega

/-! ## A partition of two stages -/

/-- The graph of two sets, and the graph after they are merged. -/
inductive TwoStages where
  | apart
  | merged
  deriving DecidableEq

/-- The sets of the two stages, and the set of both. -/
inductive StageSet where
  | first
  | second
  | both
  deriving DecidableEq

namespace TwoStages

/-- The partitioner of the two stages, each with one component. -/
def partitioner : SCCDAGPartitioner TwoStages StageSet Bool where
  getSets
    | .apart => [.first, .second]
    | .merged => [.both]
  getRoots
    | .apart => [.first]
    | .merged => [.both]
  getChildren
    | .apart, .first => [.second]
    | _, _ => []
  sccs
    | .first => [false]
    | .second => [true]
    | .both => [false, true]
  getCycleIntroducedByMerging _ sA sB := [sA, sB]
  mergeSetsAndCollapseResultingCycles _ _ := .merged

/-- Only the second stage is a child, of the first one. -/
theorem child_iff (g : TwoStages) (sA sB : StageSet) :
    partitioner.Child g sA sB ↔ g = .apart ∧ sA = .first ∧ sB = .second := by
  cases g <;> cases sA <;> cases sB <;> simp [SCCDAGPartitioner.Child, partitioner]

/-- A walk along children goes from the first stage to the second one. -/
theorem walk_eq {g : TwoStages} {sA sB : StageSet} (h : TransGen (partitioner.Child g) sA sB) :
    g = .apart ∧ sA = .first ∧ sB = .second := by
  induction h with
  | single hchild => exact (child_iff g _ _).mp hchild
  | tail _ hchild ih =>
      obtain ⟨-, hfirst, -⟩ := (child_iff g _ _).mp hchild
      cases ih.2.2.symm.trans hfirst

/-- Both graphs are well formed. -/
theorem well_formed (g : TwoStages) : partitioner.WellFormed g where
  nodup_sets := by cases g <;> decide
  nodup_roots := by cases g <;> decide
  reached_iff set := by
    constructor
    · intro hset
      cases g with
      | apart =>
          refine ⟨.first, List.mem_cons_self, ?_⟩
          rcases List.mem_cons.mp hset with rfl | hset
          · exact .refl
          · obtain rfl := List.mem_singleton.mp hset
            exact .single ((child_iff _ _ _).mpr ⟨rfl, rfl, rfl⟩)
      | merged => exact ⟨set, hset, .refl⟩
    · intro ⟨root, hroot, hreach⟩
      rcases reflTransGen_iff_eq_or_transGen.mp hreach with rfl | hwalk
      · cases g with
        | apart => exact List.mem_cons.mpr (.inl (List.mem_singleton.mp hroot))
        | merged => exact hroot
      · obtain ⟨rfl, -, rfl⟩ := walk_eq hwalk
        exact List.mem_cons_of_mem _ List.mem_cons_self
  acyclic set hcycle := by
    obtain ⟨-, hfirst, hsecond⟩ := walk_eq hcycle
    cases hfirst.symm.trans hsecond

/-- The partitioner is as it is assumed to be. -/
theorem documented : partitioner.Documented where
  cycle g sA sB _ _ hchild := by
    obtain ⟨rfl, rfl, rfl⟩ := (child_iff g sA sB).mp hchild
    exact ⟨List.mem_cons_self, List.mem_cons_of_mem _ List.mem_cons_self, List.Subset.refl _⟩
  merge g sets _ _ hsub := by
    refine ⟨well_formed _, partitioner.getSets g, .both, hsub, List.Subset.refl _,
      fun set => ?_, ?_⟩
    · rw [and_not_self_iff, or_false]
      exact List.mem_singleton
    · cases g <;> decide

/-- Every set costs as much as it has components. -/
def cost (sccs : Finset Bool) : UInt64 := UInt64.ofNat sccs.card

/-- The merging of the two stages for a number of threads. -/
def merging (numThreads : UInt64) : Option (TwoStages × List (Merge TwoStages StageSet)) :=
  minMaxMergePartition partitioner cost (fun _ => 1) numThreads 2 3 .apart

/-- For one thread the two stages are merged, as they should. -/
theorem merged_for_one_thread : ∃ last merges, merging 1 = some (last, merges) ∧
    last = .merged ∧ MergesCorrectly partitioner
      ⟨cost, instructionCounts partitioner (fun _ => 1) .apart, toInt 1⟩ 1 last merges := by
  obtain ⟨last, merges, hrun, hiff⟩ := min_max_merging_iff documented (well_formed .apart) cost
    (fun _ => 1) 1
  have hmerging : merging 1 = some (last, merges) := hrun 2 (by decide) 3 (by decide)
  have hlast : (merging 1).map Prod.fst = some .merged := by decide
  rw [hmerging] at hlast
  refine ⟨last, merges, hmerging, Option.some.inj hlast, hiff.mpr fun round _ _ => ?_⟩
  refine to_int_le_iff ?_ (by decide)
  cases round <;> decide

/-- For 2 ^ 31 threads the two stages are merged too, although there are enough threads. -/
theorem merged_for_many_threads :
    (merging (UInt64.ofNat (2 ^ 31))).map (fun run => run.2.map Merge.before) = some [.apart] ∧
    (partitioner.getSets .apart).length ≤ (UInt64.ofNat (2 ^ 31)).toNat ∧
    ¬ ∀ run, merging (UInt64.ofNat (2 ^ 31)) = some run → ∀ merge ∈ run.2,
      (UInt64.ofNat (2 ^ 31)).toNat < (partitioner.getSets merge.before).length := by
  have hmerges : (merging (UInt64.ofNat (2 ^ 31))).map (fun run => run.2.map Merge.before) =
      some [.apart] := by decide
  refine ⟨hmerges, by decide, fun h => ?_⟩
  obtain ⟨run, hrun, hbefore⟩ := Option.map_eq_some_iff.mp hmerges
  obtain ⟨merge, hmerge, heq⟩ : ∃ merge ∈ run.2, merge.before = .apart :=
    List.mem_map.mp (by rw [hbefore]; exact List.mem_cons_self)
  have habove := h run hrun merge hmerge
  rw [heq] at habove
  exact absurd habove (by decide)

end TwoStages

end Gino.Heuristics
