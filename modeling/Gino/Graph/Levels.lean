import Gino.Graph.Walk
import Mathlib.Data.Set.Card
import Mathlib.Order.WellFounded

/-!
# Levels of a graph without cycles

A search that goes on from all successors of a level at once ends where no node that it can reach is
on a cycle: every level reaches fewer nodes than the one before (`ncard_reach_lt`).
-/

namespace Gino.Graph

open Relation

variable {α : Type*} {step : α → α → Prop} {sources next : Set α}

/-- No node is on a cycle where every step leads to a node of a lower rank. -/
theorem not_on_cycle_of_rank (rank : α → Nat)
    (hrank : ∀ node after, step node after → rank after < rank node) (node : α) :
    ¬ OnCycle step node := by
  have hlower : ∀ later, TransGen step node later → rank later < rank node := by
    intro later hreach
    induction hreach with
    | single hstep => exact hrank _ _ hstep
    | tail _ hstep ih => exact (hrank _ _ hstep).trans ih
  exact fun hcycle => Nat.lt_irrefl _ (hlower node hcycle)

/-- The nodes that a set of nodes reaches. -/
def reach (step : α → α → Prop) (sources : Set α) : Set α :=
  {node | ∃ source ∈ sources, ReflTransGen step source node}

/-- A set reaches what its successors reach. -/
theorem reach_subset (hnext : ∀ node ∈ next, ∃ source ∈ sources, step source node) :
    reach step next ⊆ reach step sources := by
  intro node ⟨first, hfirst, hreach⟩
  obtain ⟨source, hsource, hstep⟩ := hnext first hfirst
  exact ⟨source, hsource, .head hstep hreach⟩

/-- Some node of a level is not reached from the level again. -/
theorem exists_source [Finite α] (hacyclic : ∀ node ∈ reach step sources, ¬ OnCycle step node)
    (hsources : sources.Nonempty) :
    ∃ source ∈ sources, ∀ other ∈ sources, ¬ TransGen step other source := by
  let before : α → α → Prop := fun node later =>
    node ∈ reach step sources ∧ TransGen step node later
  have htrans : IsTrans α before := ⟨fun _ _ _ hab hbc => ⟨hab.1, hab.2.trans hbc.2⟩⟩
  have hirrefl : Std.Irrefl before := ⟨fun node h => hacyclic node h.1 h.2⟩
  obtain ⟨source, hsource, hmin⟩ :=
    (Finite.wellFounded_of_trans_of_irrefl before).has_min sources hsources
  exact ⟨source, hsource, fun other hother h => hmin other hother ⟨⟨other, hother, .refl⟩, h⟩⟩

/-- The successors of a level reach fewer nodes than the level. -/
theorem ncard_reach_lt [Finite α] (hacyclic : ∀ node ∈ reach step sources, ¬ OnCycle step node)
    (hsources : sources.Nonempty) (hnext : ∀ node ∈ next, ∃ source ∈ sources, step source node) :
    (reach step next).ncard < (reach step sources).ncard := by
  obtain ⟨source, hsource, hfirst⟩ := exists_source hacyclic hsources
  refine Set.ncard_lt_ncard ⟨reach_subset hnext, fun hall => ?_⟩ (Set.toFinite _)
  obtain ⟨node, hnode, hreach⟩ := hall ⟨source, hsource, .refl⟩
  obtain ⟨other, hother, hstep⟩ := hnext node hnode
  exact hfirst other hother (.head' hstep hreach)

end Gino.Graph
