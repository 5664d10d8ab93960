import Gino.Machine.Memo
import Gino.Machine.Traversal
import Mathlib.Algebra.BigOperators.Group.Finset.Basic
import Mathlib.Data.Nat.ModEq
import Mathlib.Data.Set.Card

/-!
# The latency of a pipeline

`InvocationLatency::latencyPerInvocation` estimates what one run of a pipeline costs: the largest
number of instructions that a set of components runs, together with the components that are cloned
into it, and the time that the values take in the queues. The queues are counted by the consuming
ends of the edges between components where they should be counted by the producing ends, so the
estimate is as documented exactly as long as there are as many of the one as of the other
(`latency_as_documented_iff`). The tables with results of earlier calls have no influence.
-/

namespace Gino.Heuristics

open Machine

/-- An edge between components, with the values at the ends of the edges that it stands for. -/
structure SubEdge (Value : Type) where
  src : Value
  dst : Value

/-- An edge from a component to another. -/
structure SCCDAGEdge (SCC Value : Type) where
  src : SCC
  dst : SCC
  subEdges : List (SubEdge Value)

/-- The parents of every component, and the edges into it, when components that meet a condition are
passed through. -/
structure SCCDAGAttrs (SCC Value : Type) where
  computeSCCDAGWhenSCCsAreIgnored :
    (SCC → Bool) → (SCC → List SCC) × (SCC → List (SCCDAGEdge SCC Value))

/-- The tables with the results so far. -/
structure LatencyTables (SCC Value : Type) where
  sccToCost : SCC → Option UInt64
  incomingExternals : SCC → Option (List Value)
  clonableParents : SCC → Option (List SCC)

/-- No result is known. -/
def LatencyTables.empty {SCC Value : Type} : LatencyTables SCC Value :=
  ⟨fun _ => none, fun _ => none, fun _ => none⟩

variable {SCC Value : Type} [DecidableEq SCC] [DecidableEq Value]

/-- Insert items in a set. -/
def insertAll {α : Type} [DecidableEq α] (set items : List α) : List α := set ++ fresh set items

/-- The parents of a component that can be rematerialized. -/
def collectParents (attrs : SCCDAGAttrs SCC Value) (canBeRematerialized : SCC → Bool) (scc : SCC) :
    List SCC :=
  insertAll [] (((attrs.computeSCCDAGWhenSCCsAreIgnored canBeRematerialized).1 scc).filter
    canBeRematerialized)

/-- The values that a component depends on. -/
def collectExternals (attrs : SCCDAGAttrs SCC Value) (canBeRematerialized : SCC → Bool)
    (scc : SCC) : List Value :=
  ((attrs.computeSCCDAGWhenSCCsAreIgnored canBeRematerialized).2 scc).foldl
    (fun externals edge =>
      let parent := edge.dst
      if canBeRematerialized parent then externals
      else insertAll externals (edge.subEdges.map SubEdge.dst)) []

/-- Retrieve or memoize the parents of a component. -/
def memoizeParents (attrs : SCCDAGAttrs SCC Value) (canBeRematerialized : SCC → Bool)
    (tables : LatencyTables SCC Value) (scc : SCC) : List SCC × LatencyTables SCC Value :=
  let (parents, clonableParents) :=
    lookUp (collectParents attrs canBeRematerialized) tables.clonableParents scc
  (parents, { tables with clonableParents := clonableParents })

/-- Retrieve or memoize the values that a component depends on. -/
def memoizeExternals (attrs : SCCDAGAttrs SCC Value) (canBeRematerialized : SCC → Bool)
    (tables : LatencyTables SCC Value) (scc : SCC) : List Value × LatencyTables SCC Value :=
  let (externals, incomingExternals) :=
    lookUp (collectExternals attrs canBeRematerialized) tables.incomingExternals scc
  (externals, { tables with incomingExternals := incomingExternals })

/-- Retrieve or memoize the number of instructions of a component. -/
def latencyOfSCC (getTotalInstructions : SCC → UInt64) (tables : LatencyTables SCC Value)
    (scc : SCC) : UInt64 × LatencyTables SCC Value :=
  let (cost, sccToCost) := lookUp getTotalInstructions tables.sccToCost scc
  (cost, { tables with sccToCost := sccToCost })

/-- The time that a value takes in a queue. -/
def queueLatency (_queueVal : Value) : UInt64 := 100

/-- Insert the parents of a component in a set of components. -/
def insertParents (attrs : SCCDAGAttrs SCC Value) (canBeRematerialized : SCC → Bool)
    (state : List SCC × LatencyTables SCC Value) (scc : SCC) :
    List SCC × LatencyTables SCC Value :=
  let (parents, tables) := memoizeParents attrs canBeRematerialized state.2 scc
  (insertAll state.1 parents, tables)

/-- Add the values that a component depends on, and its number of instructions. -/
def addSCC (attrs : SCCDAGAttrs SCC Value) (getTotalInstructions : SCC → UInt64)
    (canBeRematerialized : SCC → Bool)
    (state : (List Value × UInt64) × LatencyTables SCC Value) (scc : SCC) :
    (List Value × UInt64) × LatencyTables SCC Value :=
  let (externals, tables) := memoizeExternals attrs canBeRematerialized state.2 scc
  let (cost, tables) := latencyOfSCC getTotalInstructions tables scc
  ((insertAll state.1.1 externals, state.1.2 + cost), tables)

/-- Add a set of components to the largest cost and the values in queues. -/
def addSet (attrs : SCCDAGAttrs SCC Value) (getTotalInstructions : SCC → UInt64)
    (canBeRematerialized : SCC → Bool)
    (state : (UInt64 × List Value) × LatencyTables SCC Value) (sccs : List SCC) :
    (UInt64 × List Value) × LatencyTables SCC Value :=
  let subset := sccs.foldl (insertParents attrs canBeRematerialized) (insertAll [] sccs, state.2)
  let added := subset.1.foldl (addSCC attrs getTotalInstructions canBeRematerialized)
    ((state.1.2, 0), subset.2)
  let maxInternalCost := state.1.1
  let internalCost := added.1.2
  ((if internalCost > maxInternalCost then internalCost else maxInternalCost, added.1.1), added.2)

/-- The latency of a pipeline of sets of components. -/
def latencyPerInvocation (attrs : SCCDAGAttrs SCC Value) (getTotalInstructions : SCC → UInt64)
    (canBeRematerialized : SCC → Bool) (sets : List (List SCC))
    (tables : LatencyTables SCC Value) : UInt64 × LatencyTables SCC Value :=
  let added := sets.foldl (addSet attrs getTotalInstructions canBeRematerialized) ((0, []), tables)
  let maxInternalCost := added.1.1
  let queueValues := added.1.2
  (queueValues.foldl (fun cost queueVal => cost + queueLatency queueVal) maxInternalCost, added.2)

/-- The tables after calls with the same condition. -/
inductive FilledTables (attrs : SCCDAGAttrs SCC Value) (getTotalInstructions : SCC → UInt64)
    (canBeRematerialized : SCC → Bool) : LatencyTables SCC Value → Prop where
  | empty : FilledTables attrs getTotalInstructions canBeRematerialized .empty
  | scc {tables} (scc) : FilledTables attrs getTotalInstructions canBeRematerialized tables →
      FilledTables attrs getTotalInstructions canBeRematerialized
        (latencyOfSCC getTotalInstructions tables scc).2
  | externals {tables} (scc) :
      FilledTables attrs getTotalInstructions canBeRematerialized tables →
      FilledTables attrs getTotalInstructions canBeRematerialized
        (memoizeExternals attrs canBeRematerialized tables scc).2
  | parents {tables} (scc) :
      FilledTables attrs getTotalInstructions canBeRematerialized tables →
      FilledTables attrs getTotalInstructions canBeRematerialized
        (memoizeParents attrs canBeRematerialized tables scc).2
  | sets {tables} (sets) : FilledTables attrs getTotalInstructions canBeRematerialized tables →
      FilledTables attrs getTotalInstructions canBeRematerialized
        (latencyPerInvocation attrs getTotalInstructions canBeRematerialized sets tables).2

/-! ## What the documentation says -/

section Documentation

variable (edges : List (SCCDAGEdge SCC Value)) (getTotalInstructions : SCC → UInt64)
  (canBeRematerialized : SCC → Bool)

/-- A component is reached from another against the edges, through components that can be
rematerialized. -/
inductive ReachesThrough (scc : SCC) : SCC → Prop where
  | refl : ReachesThrough scc scc
  | step {edge : SCCDAGEdge SCC Value} : edge ∈ edges → canBeRematerialized edge.src = true →
      ReachesThrough scc edge.dst → ReachesThrough scc edge.src

/-- A set runs a component: one of its own, or one that is rematerialized for one of its own. -/
def Runs (sccs : List SCC) (scc : SCC) : Prop :=
  ∃ member ∈ sccs, ReachesThrough edges canBeRematerialized member scc

/-- The values that sets receive through queues: those that a component outside of the set produces,
which cannot be rematerialized, for a component that the set runs. -/
def queuedValues (sets : List (List SCC)) : Set Value :=
  { value | ∃ sccs ∈ sets, ∃ edge ∈ edges, Runs edges canBeRematerialized sccs edge.dst ∧
    canBeRematerialized edge.src = false ∧ ¬ Runs edges canBeRematerialized sccs edge.src ∧
    ∃ subEdge ∈ edge.subEdges, subEdge.src = value }

/-- The values that components of sets consume, apart from components that can be rematerialized. -/
def consumedValues (sets : List (List SCC)) : Set Value :=
  { value | ∃ sccs ∈ sets, ∃ edge ∈ edges, edge.dst ∈ sccs ∧
    canBeRematerialized edge.dst = false ∧ ∃ subEdge ∈ edge.subEdges, subEdge.dst = value }

/-- The number of instructions that a set runs, in 64 bits. -/
def IsInternalCost (sccs : List SCC) (cost : UInt64) : Prop :=
  ∃ run : Finset SCC, (∀ scc, scc ∈ run ↔ Runs edges canBeRematerialized sccs scc) ∧
    cost = UInt64.ofNat (∑ scc ∈ run, (getTotalInstructions scc).toNat)

/-- The latency is the largest number of instructions that a set runs, and 100 for every value in a
queue. -/
def IsDocumentedLatency (sets : List (List SCC)) (latency : UInt64) : Prop :=
  ∃ maxInternalCost : UInt64,
    (∀ sccs ∈ sets, ∃ cost,
      IsInternalCost edges getTotalInstructions canBeRematerialized sccs cost ∧
        cost ≤ maxInternalCost) ∧
    (maxInternalCost = 0 ∨ ∃ sccs ∈ sets,
      IsInternalCost edges getTotalInstructions canBeRematerialized sccs maxInternalCost) ∧
    latency = maxInternalCost +
      UInt64.ofNat (100 * (queuedValues edges canBeRematerialized sets).ncard)

/-- The maps that pass through components give their parents and the edges into them. -/
def SCCDAGAttrs.Documented (attrs : SCCDAGAttrs SCC Value) : Prop :=
  ∀ scc,
    (∀ parent, parent ∈ (attrs.computeSCCDAGWhenSCCsAreIgnored canBeRematerialized).1 scc ↔
      ∃ edge ∈ edges, ReachesThrough edges canBeRematerialized scc edge.dst ∧ edge.src = parent) ∧
    ∀ edge, edge ∈ (attrs.computeSCCDAGWhenSCCsAreIgnored canBeRematerialized).2 scc ↔
      edge ∈ edges ∧ ReachesThrough edges canBeRematerialized scc edge.dst

end Documentation

/-! ## The tables have no influence -/

section Tables

variable (attrs : SCCDAGAttrs SCC Value) (getTotalInstructions : SCC → UInt64)
  (canBeRematerialized : SCC → Bool)

/-- The components of a set, and their parents that can be rematerialized. -/
def subsetSCCs (sccs : List SCC) : List SCC :=
  sccs.foldl (fun subset scc => insertAll subset (collectParents attrs canBeRematerialized scc))
    (insertAll [] sccs)

/-- The number of instructions that a set runs. -/
def internalCost (sccs : List SCC) : UInt64 :=
  (subsetSCCs attrs canBeRematerialized sccs).foldl
    (fun cost scc => cost + getTotalInstructions scc) 0

/-- Insert the values that a set depends on. -/
def insertExternals (queueValues : List Value) (sccs : List SCC) : List Value :=
  (subsetSCCs attrs canBeRematerialized sccs).foldl
    (fun externals scc => insertAll externals (collectExternals attrs canBeRematerialized scc))
    queueValues

/-- The larger of a cost and that of a set. -/
def largerCost (maxInternalCost : UInt64) (sccs : List SCC) : UInt64 :=
  if internalCost attrs getTotalInstructions canBeRematerialized sccs > maxInternalCost then
    internalCost attrs getTotalInstructions canBeRematerialized sccs
  else maxInternalCost

/-- The tables have results of the functions that they memoize. -/
structure TablesRight (tables : LatencyTables SCC Value) : Prop where
  costs : Remembers getTotalInstructions tables.sccToCost
  externals : Remembers (collectExternals attrs canBeRematerialized) tables.incomingExternals
  parents : Remembers (collectParents attrs canBeRematerialized) tables.clonableParents

variable {attrs getTotalInstructions canBeRematerialized}

/-- The empty tables are right. -/
theorem tables_right_empty :
    TablesRight attrs getTotalInstructions canBeRematerialized LatencyTables.empty :=
  ⟨remembers_none _, remembers_none _, remembers_none _⟩

variable {tables : LatencyTables SCC Value}
  (h : TablesRight attrs getTotalInstructions canBeRematerialized tables)

include h

/-- Looking up a number of instructions keeps the tables right. -/
theorem TablesRight.latency_of_scc (scc : SCC) :
    (latencyOfSCC getTotalInstructions tables scc).1 = getTotalInstructions scc ∧
      TablesRight attrs getTotalInstructions canBeRematerialized
        (latencyOfSCC getTotalInstructions tables scc).2 :=
  ⟨look_up_eq h.costs scc, h.costs.look_up scc, h.externals, h.parents⟩

/-- Inserting the parents of a component. -/
theorem TablesRight.insert_parents (subset : List SCC) (scc : SCC) :
    (insertParents attrs canBeRematerialized (subset, tables) scc).1 =
        insertAll subset (collectParents attrs canBeRematerialized scc) ∧
      TablesRight attrs getTotalInstructions canBeRematerialized
        (insertParents attrs canBeRematerialized (subset, tables) scc).2 :=
  ⟨congrArg (insertAll subset) (look_up_eq h.parents scc), h.costs, h.externals,
    h.parents.look_up scc⟩

/-- Adding a component. -/
theorem TablesRight.add_scc (state : List Value × UInt64) (scc : SCC) :
    (addSCC attrs getTotalInstructions canBeRematerialized (state, tables) scc).1 =
        (insertAll state.1 (collectExternals attrs canBeRematerialized scc),
          state.2 + getTotalInstructions scc) ∧
      TablesRight attrs getTotalInstructions canBeRematerialized
        (addSCC attrs getTotalInstructions canBeRematerialized (state, tables) scc).2 :=
  ⟨Prod.ext (congrArg (insertAll state.1) (look_up_eq h.externals scc))
      (congrArg (state.2 + ·) (look_up_eq h.costs scc)),
    h.costs.look_up scc, h.externals.look_up scc, h.parents⟩

/-- Adding a set. -/
theorem TablesRight.add_set (state : UInt64 × List Value) (sccs : List SCC) :
    (addSet attrs getTotalInstructions canBeRematerialized (state, tables) sccs).1 =
        (largerCost attrs getTotalInstructions canBeRematerialized state.1 sccs,
          insertExternals attrs canBeRematerialized state.2 sccs) ∧
      TablesRight attrs getTotalInstructions canBeRematerialized
        (addSet attrs getTotalInstructions canBeRematerialized (state, tables) sccs).2 := by
  obtain ⟨hsubset, hparents⟩ := @foldl_look_up SCC (List SCC) (LatencyTables SCC Value) sccs
    (insertParents attrs canBeRematerialized) _
    (TablesRight attrs getTotalInstructions canBeRematerialized)
    (fun subset _ scc h => TablesRight.insert_parents h subset scc) (insertAll [] sccs) tables h
  obtain ⟨hadded, hlast⟩ := @foldl_look_up SCC (List Value × UInt64) (LatencyTables SCC Value)
    (subsetSCCs attrs canBeRematerialized sccs)
    (addSCC attrs getTotalInstructions canBeRematerialized) _
    (TablesRight attrs getTotalInstructions canBeRematerialized)
    (fun state _ scc h => TablesRight.add_scc h state scc) (state.2, 0) _ hparents
  rw [foldl_pair (fun externals scc =>
      insertAll externals (collectExternals attrs canBeRematerialized scc))
    (fun cost scc => cost + getTotalInstructions scc)] at hadded
  change _ = subsetSCCs attrs canBeRematerialized sccs at hsubset
  unfold addSet
  dsimp only
  rw [hsubset, hadded]
  exact ⟨rfl, hlast⟩

/-- The latency is that of loops without tables. -/
theorem TablesRight.latency_per_invocation (sets : List (List SCC)) :
    (latencyPerInvocation attrs getTotalInstructions canBeRematerialized sets tables).1 =
        (sets.foldl (insertExternals attrs canBeRematerialized) []).foldl
          (fun cost queueVal => cost + queueLatency queueVal)
          (sets.foldl (largerCost attrs getTotalInstructions canBeRematerialized) 0) ∧
      TablesRight attrs getTotalInstructions canBeRematerialized
        (latencyPerInvocation attrs getTotalInstructions canBeRematerialized sets tables).2 := by
  obtain ⟨hadded, hlast⟩ := @foldl_look_up (List SCC) (UInt64 × List Value)
    (LatencyTables SCC Value) sets (addSet attrs getTotalInstructions canBeRematerialized) _
    (TablesRight attrs getTotalInstructions canBeRematerialized)
    (fun state _ sccs h => TablesRight.add_set h state sccs) (0, []) tables h
  rw [foldl_pair (largerCost attrs getTotalInstructions canBeRematerialized)
    (insertExternals attrs canBeRematerialized)] at hadded
  unfold latencyPerInvocation
  dsimp only
  rw [hadded]
  exact ⟨rfl, hlast⟩

omit h in
/-- Tables that earlier calls filled are right. -/
theorem FilledTables.tables_right
    (h : FilledTables attrs getTotalInstructions canBeRematerialized tables) :
    TablesRight attrs getTotalInstructions canBeRematerialized tables := by
  induction h with
  | empty => exact tables_right_empty
  | scc scc _ ih => exact (ih.latency_of_scc scc).2
  | externals scc _ ih => exact ⟨ih.costs, ih.externals.look_up scc, ih.parents⟩
  | parents scc _ ih => exact ⟨ih.costs, ih.externals, ih.parents.look_up scc⟩
  | sets sets _ ih => exact (ih.latency_per_invocation sets).2

end Tables

/-! ## The sets of values and the costs -/

section Sets

variable {α β : Type} [DecidableEq α]

/-- The items of a set after insertion. -/
@[simp]
theorem mem_insert_all {set items : List α} {item : α} :
    item ∈ insertAll set items ↔ item ∈ set ∨ item ∈ items := by
  rw [insertAll, List.mem_append, mem_fresh]
  tauto

/-- Insertion keeps a set without duplicates. -/
theorem nodup_insert_all {set : List α} (hset : set.Nodup) (items : List α) :
    (insertAll set items).Nodup :=
  List.Nodup.append hset (nodup_fresh set items)
    fun _ hmem hfresh => (mem_fresh.mp hfresh).2 hmem

/-- Inserting nothing changes nothing. -/
@[simp]
theorem insert_all_nil (set : List α) : insertAll set [] = set := List.append_nil set

/-- The items of a set after a loop of insertions. -/
theorem mem_foldl_insert_all {items : β → List α} {keys : List β} {set : List α} {item : α} :
    item ∈ keys.foldl (fun set key => insertAll set (items key)) set ↔
      item ∈ set ∨ ∃ key ∈ keys, item ∈ items key := by
  induction keys generalizing set with
  | nil => simp
  | cons key rest ih => rw [List.foldl_cons, ih, mem_insert_all, List.exists_mem_cons_iff, or_assoc]

/-- A loop of insertions keeps a set without duplicates. -/
theorem nodup_foldl_insert_all (items : β → List α) (keys : List β) {set : List α}
    (hset : set.Nodup) : (keys.foldl (fun set key => insertAll set (items key)) set).Nodup := by
  induction keys generalizing set with
  | nil => exact hset
  | cons key rest ih => exact ih (nodup_insert_all hset (items key))

/-- A loop that adds costs gives their sum, in 64 bits. -/
theorem foldl_add_cost (cost : β → UInt64) (items : List β) (start : UInt64) :
    items.foldl (fun total item => total + cost item) start =
      start + UInt64.ofNat (items.map fun item => (cost item).toNat).sum := by
  induction items generalizing start with
  | nil => exact (UInt64.add_zero start).symm
  | cons item rest ih =>
      rw [List.foldl_cons, ih, List.map_cons, List.sum_cons, UInt64.ofNat_add, UInt64.ofNat_toNat,
        UInt64.add_assoc]

/-- A cost is the largest of those of some items, or zero. -/
structure IsLargestCost (cost : β → UInt64) (items : List β) (largest : UInt64) : Prop where
  le_largest : ∀ item ∈ items, cost item ≤ largest
  attained : largest = 0 ∨ ∃ item ∈ items, cost item = largest

/-- There is one largest cost. -/
theorem IsLargestCost.unique {cost : β → UInt64} {items : List β} {first second : UInt64}
    (hfirst : IsLargestCost cost items first) (hsecond : IsLargestCost cost items second) :
    first = second := by
  have hle : ∀ {first second}, IsLargestCost cost items first →
      IsLargestCost cost items second → first ≤ second := by
    intro first second hfirst hsecond
    obtain rfl | ⟨item, hitem, rfl⟩ := hfirst.attained
    · exact UInt64.zero_le
    · exact hsecond.le_largest item hitem
  exact UInt64.le_antisymm (hle hfirst hsecond) (hle hsecond hfirst)

/-- A loop that keeps the larger cost gives the largest. -/
theorem is_largest_cost_foldl (cost : β → UInt64) (items : List β) :
    IsLargestCost cost items
      (items.foldl (fun largest item => if cost item > largest then cost item else largest) 0) := by
  -- Items are taken from the end, so that the loop before them starts at zero too.
  induction items using List.reverseRecOn with
  | nil => exact ⟨fun _ hitem => (List.not_mem_nil hitem).elim, .inl rfl⟩
  | append_singleton items last ih =>
      rw [List.foldl_append, List.foldl_cons, List.foldl_nil]
      split_ifs with hlarger
      · refine ⟨fun item hitem => ?_, .inr ⟨last, List.mem_append_right _ (.head _), rfl⟩⟩
        obtain hitem | hlast := List.mem_append.mp hitem
        · exact UInt64.le_trans (ih.le_largest item hitem) (UInt64.le_of_lt hlarger)
        · rw [List.mem_singleton.mp hlast]
          exact UInt64.le_refl _
      · refine ⟨fun item hitem => ?_, ih.attained.imp_right ?_⟩
        · obtain hitem | hlast := List.mem_append.mp hitem
          · exact ih.le_largest item hitem
          · rw [List.mem_singleton.mp hlast]
            exact UInt64.not_lt.mp hlarger
        · exact fun ⟨item, hitem, hcost⟩ => ⟨item, List.mem_append_left _ hitem, hcost⟩

end Sets

/-! ## The latency against its documentation -/

section Latency

variable {edges : List (SCCDAGEdge SCC Value)} {attrs : SCCDAGAttrs SCC Value}
  {canBeRematerialized : SCC → Bool}

omit [DecidableEq SCC] [DecidableEq Value] in
/-- A component that cannot be rematerialized is reached from itself only. -/
theorem ReachesThrough.eq_of_not_rematerialized {scc other : SCC}
    (h : ReachesThrough edges canBeRematerialized scc other)
    (hkept : canBeRematerialized other = false) : other = scc := by
  cases h with
  | refl => rfl
  | step _ hcloned _ => exact absurd hcloned (hkept ▸ Bool.false_ne_true)

omit [DecidableEq SCC] [DecidableEq Value] in
/-- A set runs a component that cannot be rematerialized only if it is one of its own. -/
theorem runs_iff_of_not_rematerialized {sccs : List SCC} {scc : SCC}
    (hkept : canBeRematerialized scc = false) :
    Runs edges canBeRematerialized sccs scc ↔ scc ∈ sccs :=
  ⟨fun ⟨_, hmember, hreaches⟩ => hreaches.eq_of_not_rematerialized hkept ▸ hmember,
    fun hmember => ⟨scc, hmember, .refl⟩⟩

variable (hdoc : attrs.Documented edges canBeRematerialized)

include hdoc

omit [DecidableEq Value] in
/-- The components that a set runs are those that the loop collects. -/
theorem mem_subset_sccs {sccs : List SCC} {scc : SCC} :
    scc ∈ subsetSCCs attrs canBeRematerialized sccs ↔
      Runs edges canBeRematerialized sccs scc := by
  rw [subsetSCCs, mem_foldl_insert_all]
  simp only [mem_insert_all, List.not_mem_nil, false_or, collectParents, List.mem_filter,
    (hdoc _).1]
  constructor
  · rintro (hmember | ⟨member, hmember, ⟨edge, hedge, hreaches, rfl⟩, hcloned⟩)
    · exact ⟨scc, hmember, .refl⟩
    · exact ⟨member, hmember, .step hedge hcloned hreaches⟩
  · rintro ⟨member, hmember, hreaches⟩
    cases hreaches with
    | refl => exact .inl hmember
    | step hedge hcloned hreaches =>
        exact .inr ⟨member, hmember, ⟨_, hedge, hreaches, rfl⟩, hcloned⟩

omit [DecidableEq SCC] in
/-- The values that the loop collects for a component are consumed by the component itself. -/
theorem mem_collect_externals {scc : SCC} {value : Value} :
    value ∈ collectExternals attrs canBeRematerialized scc ↔ ∃ edge ∈ edges, edge.dst = scc ∧
      canBeRematerialized edge.dst = false ∧ ∃ subEdge ∈ edge.subEdges, subEdge.dst = value := by
  have hfold : collectExternals attrs canBeRematerialized scc =
      ((attrs.computeSCCDAGWhenSCCsAreIgnored canBeRematerialized).2 scc).foldl
        (fun externals edge => insertAll externals
          (if canBeRematerialized edge.dst then [] else edge.subEdges.map SubEdge.dst)) [] := by
    unfold collectExternals
    congr 1
    funext externals edge
    dsimp only
    by_cases hcloned : canBeRematerialized edge.dst = true
    · rw [if_pos hcloned, if_pos hcloned, insert_all_nil]
    · rw [if_neg hcloned, if_neg hcloned]
  rw [hfold, mem_foldl_insert_all]
  constructor
  · rintro (hnone | ⟨edge, hedge, hvalue⟩)
    · exact (List.not_mem_nil hnone).elim
    · obtain ⟨hedge, hreaches⟩ := ((hdoc scc).2 edge).mp hedge
      by_cases hcloned : canBeRematerialized edge.dst = true
      · rw [if_pos hcloned] at hvalue
        exact (List.not_mem_nil hvalue).elim
      · rw [if_neg hcloned, List.mem_map] at hvalue
        have hkept := Bool.eq_false_iff.mpr hcloned
        exact ⟨edge, hedge, hreaches.eq_of_not_rematerialized hkept, hkept, hvalue⟩
  · rintro ⟨edge, hedge, rfl, hkept, hvalue⟩
    refine .inr ⟨edge, ((hdoc _).2 edge).mpr ⟨hedge, .refl⟩, ?_⟩
    rw [if_neg (Bool.eq_false_iff.mp hkept)]
    exact List.mem_map.mpr hvalue

/-- The values that are counted are those that the sets consume. -/
theorem mem_queue_values {sets : List (List SCC)} {value : Value} :
    value ∈ sets.foldl (insertExternals attrs canBeRematerialized) [] ↔
      value ∈ consumedValues edges canBeRematerialized sets := by
  have hinsert : ∀ (sets : List (List SCC)) (queueValues : List Value),
      value ∈ sets.foldl (insertExternals attrs canBeRematerialized) queueValues ↔
        value ∈ queueValues ∨ ∃ sccs ∈ sets, ∃ scc ∈ subsetSCCs attrs canBeRematerialized sccs,
          value ∈ collectExternals attrs canBeRematerialized scc := by
    intro sets
    induction sets with
    | nil => simp
    | cons sccs rest ih =>
        intro queueValues
        rw [List.foldl_cons, ih, insertExternals, mem_foldl_insert_all, List.exists_mem_cons_iff,
          or_assoc]
  rw [hinsert, or_iff_right List.not_mem_nil]
  simp only [mem_subset_sccs hdoc, mem_collect_externals hdoc]
  refine exists_congr fun sccs => and_congr_right fun _ => ?_
  constructor
  · rintro ⟨_, hruns, edge, hedge, rfl, hkept, hvalue⟩
    exact ⟨edge, hedge, (runs_iff_of_not_rematerialized hkept).mp hruns, hkept, hvalue⟩
  · rintro ⟨edge, hedge, hmember, hkept, hvalue⟩
    exact ⟨edge.dst, (runs_iff_of_not_rematerialized hkept).mpr hmember, edge, hedge, rfl, hkept,
      hvalue⟩

/-- Every value is counted once. -/
theorem length_queue_values (sets : List (List SCC)) :
    (sets.foldl (insertExternals attrs canBeRematerialized) []).length =
      (consumedValues edges canBeRematerialized sets).ncard := by
  have hnodup : ∀ {queueValues : List Value}, queueValues.Nodup →
      (sets.foldl (insertExternals attrs canBeRematerialized) queueValues).Nodup := by
    induction sets with
    | nil => exact fun hqueue => hqueue
    | cons sccs rest ih => exact fun hqueue => ih (nodup_foldl_insert_all _ _ hqueue)
  rw [← List.toFinset_card_of_nodup (hnodup List.nodup_nil), ← Set.ncard_coe_finset]
  congr 1
  ext value
  rw [Finset.mem_coe, List.mem_toFinset, mem_queue_values hdoc]

omit [DecidableEq Value] in
/-- The cost of a set is what the documentation says. -/
theorem is_internal_cost_iff (getTotalInstructions : SCC → UInt64) {sccs : List SCC}
    {cost : UInt64} :
    IsInternalCost edges getTotalInstructions canBeRematerialized sccs cost ↔
      internalCost attrs getTotalInstructions canBeRematerialized sccs = cost := by
  have hnodup : (subsetSCCs attrs canBeRematerialized sccs).Nodup :=
    nodup_foldl_insert_all _ _ (nodup_insert_all List.nodup_nil sccs)
  have hcost : internalCost attrs getTotalInstructions canBeRematerialized sccs =
      UInt64.ofNat (∑ scc ∈ (subsetSCCs attrs canBeRematerialized sccs).toFinset,
        (getTotalInstructions scc).toNat) := by
    rw [List.sum_toFinset _ hnodup, internalCost, foldl_add_cost, UInt64.zero_add]
  constructor
  · rintro ⟨run, hrun, rfl⟩
    have hsame : run = (subsetSCCs attrs canBeRematerialized sccs).toFinset := by
      ext scc
      rw [hrun, List.mem_toFinset, mem_subset_sccs hdoc]
    rw [hcost, hsame]
  · rintro rfl
    exact ⟨_, fun scc => List.mem_toFinset.trans (mem_subset_sccs hdoc), hcost⟩

omit [DecidableEq Value] in
/-- The documented latency, for the cost that the loop computes. -/
theorem is_documented_latency_iff (getTotalInstructions : SCC → UInt64) {sets : List (List SCC)}
    {latency : UInt64} :
    IsDocumentedLatency edges getTotalInstructions canBeRematerialized sets latency ↔
      latency = sets.foldl (largerCost attrs getTotalInstructions canBeRematerialized) 0 +
        UInt64.ofNat (100 * (queuedValues edges canBeRematerialized sets).ncard) := by
  have hlargest := is_largest_cost_foldl
    (internalCost attrs getTotalInstructions canBeRematerialized) sets
  unfold IsDocumentedLatency
  simp only [is_internal_cost_iff hdoc, exists_eq_left']
  constructor
  · rintro ⟨maxInternalCost, hle, hattained, rfl⟩
    rw [IsLargestCost.unique ⟨hle, hattained⟩ hlargest]
    rfl
  · rintro rfl
    exact ⟨_, hlargest.le_largest, hlargest.attained, rfl⟩

omit hdoc [DecidableEq SCC] [DecidableEq Value] in
/-- As many values take as long, up to what 64 bits hold. -/
theorem of_nat_queue_eq_iff (first second : ℕ) :
    UInt64.ofNat (100 * first) = UInt64.ofNat (100 * second) ↔ first ≡ second [MOD 2 ^ 62] := by
  rw [← UInt64.toNat_inj, UInt64.toNat_ofNat', UInt64.toNat_ofNat']
  show 100 * first ≡ 100 * second [MOD 2 ^ 64] ↔ _
  constructor
  · exact Nat.ModEq.cancel_left_div_gcd (Nat.two_pow_pos 64)
  · intro h
    have hfour := (h.mul_left' 4).mul_left 25
    rwa [← Nat.mul_assoc, ← Nat.mul_assoc] at hfour

/-- The latency is the one without tables, and it is as documented if and only if as many values are
consumed as are received through queues. -/
theorem latency_as_documented_iff (getTotalInstructions : SCC → UInt64) (sets : List (List SCC))
    {tables : LatencyTables SCC Value}
    (hfilled : FilledTables attrs getTotalInstructions canBeRematerialized tables) :
    (latencyPerInvocation attrs getTotalInstructions canBeRematerialized sets tables).1 =
        (latencyPerInvocation attrs getTotalInstructions canBeRematerialized sets .empty).1 ∧
      (IsDocumentedLatency edges getTotalInstructions canBeRematerialized sets
          (latencyPerInvocation attrs getTotalInstructions canBeRematerialized sets tables).1 ↔
        (consumedValues edges canBeRematerialized sets).ncard ≡
          (queuedValues edges canBeRematerialized sets).ncard [MOD 2 ^ 62]) := by
  have hlatency := (hfilled.tables_right.latency_per_invocation sets).1
  refine ⟨hlatency.trans (FilledTables.empty.tables_right.latency_per_invocation sets).1.symm, ?_⟩
  have htime : ∀ queueValues : List Value,
      (queueValues.map fun queueVal => (queueLatency queueVal).toNat).sum =
        100 * queueValues.length := by
    intro queueValues
    show (queueValues.map fun _ => 100).sum = _
    rw [List.map_const', List.sum_replicate_nat, Nat.mul_comm]
  rw [is_documented_latency_iff hdoc, hlatency, foldl_add_cost, htime, UInt64.add_right_inj,
    of_nat_queue_eq_iff, length_queue_values hdoc]

end Latency

/-! ## A value that is consumed twice -/

namespace TwoConsumers

/-- A component that produces a value, and one that consumes it. -/
inductive Component where
  | producer
  | consumer
  deriving DecidableEq

/-- The edge from the producer, value 0, to the consumers. -/
def edges (consumers : List ℕ) : List (SCCDAGEdge Component ℕ) :=
  [⟨.producer, .consumer, consumers.map (⟨0, ·⟩)⟩]

/-- The producer is the parent of the consumer. -/
def attrs (consumers : List ℕ) : SCCDAGAttrs Component ℕ where
  computeSCCDAGWhenSCCsAreIgnored _ :=
    (fun
      | .producer => []
      | .consumer => [.producer],
    fun
      | .producer => []
      | .consumer => edges consumers)

/-- Both components are kept. -/
def kept (_scc : Component) : Bool := false

/-- Each component runs one instruction. -/
def instructions (_scc : Component) : UInt64 := 1

/-- Each component is a stage of its own. -/
def stages : List (List Component) := [[.producer], [.consumer]]

/-- The maps are those of the graph. -/
theorem attrs_documented (consumers : List ℕ) :
    (attrs consumers).Documented (edges consumers) kept := by
  intro scc
  have hreaches : ∀ {other}, ReachesThrough (edges consumers) kept scc other ↔ other = scc :=
    ⟨fun h => h.eq_of_not_rematerialized rfl, fun h => h ▸ .refl⟩
  simp only [hreaches]
  cases scc with
  | producer =>
      refine ⟨fun parent => by simp [attrs, edges], fun edge => ?_⟩
      exact ⟨fun hnone => (List.not_mem_nil hnone).elim, fun ⟨hedge, hend⟩ => by
        rw [List.mem_singleton.mp hedge] at hend
        cases hend⟩
  | consumer =>
      refine ⟨fun parent => by simp [attrs, edges, eq_comm], fun edge => ?_⟩
      exact ⟨fun hedge => ⟨hedge, congrArg SCCDAGEdge.dst (List.mem_singleton.mp hedge)⟩, And.left⟩

/-- One value is received through a queue. -/
theorem queued_values {first : ℕ} (consumers : List ℕ) :
    queuedValues (edges (first :: consumers)) kept stages = {0} := by
  ext value
  constructor
  · rintro ⟨_, _, edge, hedge, _, _, _, subEdge, hsub, rfl⟩
    rw [List.mem_singleton.mp hedge] at hsub
    obtain ⟨consumer, _, rfl⟩ := List.mem_map.mp hsub
    rfl
  · rintro rfl
    refine ⟨[.consumer], .tail _ (.head _), _, .head _, ⟨_, .head _, .refl⟩, rfl, ?_, _, .head _,
      rfl⟩
    rw [runs_iff_of_not_rematerialized rfl]
    exact fun hsame => by cases List.mem_singleton.mp hsame

/-- The values that are consumed. -/
theorem consumed_values (consumers : List ℕ) :
    consumedValues (edges consumers) kept stages = { value | value ∈ consumers } := by
  ext value
  constructor
  · rintro ⟨_, _, edge, hedge, _, _, subEdge, hsub, rfl⟩
    rw [List.mem_singleton.mp hedge] at hsub
    obtain ⟨consumer, hconsumer, rfl⟩ := List.mem_map.mp hsub
    exact hconsumer
  · exact fun hvalue => ⟨[.consumer], .tail _ (.head _), _, .head _, .head _, rfl, _,
      List.mem_map_of_mem hvalue, rfl⟩

/-- With one consumer the latency is as documented, also with tables that another call filled. -/
theorem documented_for_one_consumer :
    IsDocumentedLatency (edges [1]) instructions kept stages
      (latencyPerInvocation (attrs [1]) instructions kept stages
        (latencyPerInvocation (attrs [1]) instructions kept stages .empty).2).1 := by
  refine (latency_as_documented_iff (attrs_documented [1]) instructions stages
    (.sets stages .empty)).2.mpr ?_
  have hone : { value | value ∈ [1] } = ({1} : Set ℕ) := Set.ext fun _ => List.mem_singleton
  rw [queued_values, consumed_values, hone, Set.ncard_singleton, Set.ncard_singleton]

/-- With two consumers the value is counted twice. -/
theorem counted_for_each_consumer :
    (latencyPerInvocation (attrs [1, 2]) instructions kept stages .empty).1 = 201 ∧
      IsDocumentedLatency (edges [1, 2]) instructions kept stages 101 ∧
      ¬ IsDocumentedLatency (edges [1, 2]) instructions kept stages 201 := by
  have hdoc := attrs_documented [1, 2]
  rw [is_documented_latency_iff hdoc, is_documented_latency_iff hdoc, queued_values,
    Set.ncard_singleton]
  exact ⟨rfl, rfl, by decide⟩

end TwoConsumers

end Gino.Heuristics
