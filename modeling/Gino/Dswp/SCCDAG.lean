import Mathlib.Data.List.Dedup
import Mathlib.Logic.Relation

/-!
# The graph of the strongly connected components of a loop

The instructions of a loop with the dependences between them, and their strongly connected
components, which the compiler library computes. The edges between components are those of the
dependences between their instructions.
-/

namespace Gino.Dswp

open Relation

/-- The kinds of dependences. -/
inductive DependenceKind where
  | data
  | memory
  | control
  deriving DecidableEq

/-- A dependence of one instruction on another. -/
structure Dependence (Inst : Type*) where
  src : Inst
  dst : Inst
  kind : DependenceKind
  deriving DecidableEq

/-- The dependences of a loop and the components of its instructions. -/
structure SCCDAG (Inst SCC : Type*) where
  instructions : List Inst
  nodes : List SCC
  sccOfValue : Inst → SCC
  edges : List (Dependence Inst)
  instructions_complete : ∀ inst, inst ∈ instructions
  nodes_complete : ∀ scc, scc ∈ nodes

namespace SCCDAG

variable {Inst SCC : Type*} (dag : SCCDAG Inst SCC)

/-- An edge between two components. -/
def Edge (fromSCC toSCC : SCC) : Prop :=
  fromSCC ≠ toSCC ∧ ∃ edge ∈ dag.edges, dag.sccOfValue edge.src = fromSCC ∧
    dag.sccOfValue edge.dst = toSCC

/-- One component reaches another over one or more edges. -/
def Reaches (fromSCC toSCC : SCC) : Prop := TransGen dag.Edge fromSCC toSCC

/-- One instruction controls another, maybe over others. -/
def TransitivelyControls (branch inst : Inst) : Prop :=
  TransGen (fun src dst => ∃ edge ∈ dag.edges, edge.kind = .control ∧ edge.src = src ∧
    edge.dst = dst) branch inst

variable {dag}

/-- A dependence stays within a component or is an edge. -/
theorem edge_of_dependence {edge : Dependence Inst} (h : edge ∈ dag.edges) :
    dag.sccOfValue edge.src = dag.sccOfValue edge.dst ∨
      dag.Edge (dag.sccOfValue edge.src) (dag.sccOfValue edge.dst) :=
  or_iff_not_imp_left.mpr fun hne => ⟨hne, edge, h, rfl, rfl⟩

/-- The component of a branch is that of what it controls or reaches it. -/
theorem TransitivelyControls.reaches {branch inst : Inst}
    (h : dag.TransitivelyControls branch inst) :
    dag.sccOfValue branch = dag.sccOfValue inst ∨
      dag.Reaches (dag.sccOfValue branch) (dag.sccOfValue inst) := by
  induction h with
  | single hedge =>
      obtain ⟨edge, hmem, -, rfl, rfl⟩ := hedge
      exact (edge_of_dependence hmem).imp_right .single
  | tail _ hedge ih =>
      obtain ⟨edge, hmem, -, rfl, rfl⟩ := hedge
      rcases edge_of_dependence hmem with hsame | hstep
      · rwa [hsame] at ih
      · rcases ih with heq | hreach
        · exact .inr (.single (heq ▸ hstep))
        · exact .inr (hreach.tail hstep)

/-- Reaching a component follows a rank of the components along their dependences. -/
theorem rank_lt_of_reaches (rank : SCC → Nat)
    (hrank : ∀ edge ∈ dag.edges, dag.sccOfValue edge.src = dag.sccOfValue edge.dst ∨
      rank (dag.sccOfValue edge.src) < rank (dag.sccOfValue edge.dst))
    {fromSCC toSCC : SCC} (h : dag.Reaches fromSCC toSCC) : rank fromSCC < rank toSCC := by
  have hedge : ∀ scc after, dag.Edge scc after → rank scc < rank after := by
    intro scc after ⟨hne, edge, hmem, hsrc, hdst⟩
    rw [← hsrc, ← hdst] at hne ⊢
    exact (hrank edge hmem).resolve_left hne
  induction h with
  | single hstep => exact hedge _ _ hstep
  | tail _ hstep ih => exact Nat.lt_trans ih (hedge _ _ hstep)

variable (dag) [DecidableEq SCC]

/-- The dependences between two components. -/
def subEdges (fromSCC toSCC : SCC) : List (Dependence Inst) :=
  dag.edges.filter fun edge => dag.sccOfValue edge.src = fromSCC ∧ dag.sccOfValue edge.dst = toSCC

/-- The components with an edge to a component. -/
def incomingSCCs (scc : SCC) : List SCC :=
  dag.nodes.filter fun fromSCC => fromSCC ≠ scc ∧ dag.subEdges fromSCC scc ≠ []

/-- The components with an edge from a component. -/
def outgoingSCCs (scc : SCC) : List SCC :=
  dag.nodes.filter fun toSCC => scc ≠ toSCC ∧ dag.subEdges scc toSCC ≠ []

/-- The instructions of a component. -/
def internalNodes (scc : SCC) : List Inst :=
  dag.instructions.filter fun inst => dag.sccOfValue inst = scc

variable {dag} {fromSCC toSCC scc : SCC}

/-- The dependences between two components are dependences of their instructions. -/
theorem mem_sub_edges {edge : Dependence Inst} :
    edge ∈ dag.subEdges fromSCC toSCC ↔ edge ∈ dag.edges ∧
      dag.sccOfValue edge.src = fromSCC ∧ dag.sccOfValue edge.dst = toSCC := by
  unfold subEdges
  rw [List.mem_filter, decide_eq_true_eq]

/-- There are dependences between two components with an edge. -/
theorem sub_edges_ne_nil :
    dag.subEdges fromSCC toSCC ≠ [] ↔ ∃ edge ∈ dag.edges, dag.sccOfValue edge.src = fromSCC ∧
      dag.sccOfValue edge.dst = toSCC := by
  constructor
  · intro h
    obtain ⟨edge, hmem⟩ := List.exists_mem_of_ne_nil _ h
    exact ⟨edge, mem_sub_edges.mp hmem⟩
  · intro ⟨edge, hmem⟩
    exact List.ne_nil_of_mem (mem_sub_edges.mpr hmem)

/-- The incoming edges of a component. -/
theorem mem_incoming_sccs : fromSCC ∈ dag.incomingSCCs scc ↔ dag.Edge fromSCC scc := by
  unfold incomingSCCs Edge
  rw [List.mem_filter, decide_eq_true_eq, sub_edges_ne_nil]
  exact ⟨fun h => h.2, fun h => ⟨dag.nodes_complete fromSCC, h⟩⟩

/-- The outgoing edges of a component. -/
theorem mem_outgoing_sccs : toSCC ∈ dag.outgoingSCCs scc ↔ dag.Edge scc toSCC := by
  unfold outgoingSCCs Edge
  rw [List.mem_filter, decide_eq_true_eq, sub_edges_ne_nil]
  exact ⟨fun h => h.2, fun h => ⟨dag.nodes_complete toSCC, h⟩⟩

/-- The instructions of a component. -/
theorem mem_internal_nodes {inst : Inst} :
    inst ∈ dag.internalNodes scc ↔ dag.sccOfValue inst = scc := by
  unfold internalNodes
  rw [List.mem_filter, decide_eq_true_eq]
  exact ⟨fun h => h.2, fun h => ⟨dag.instructions_complete inst, h⟩⟩

end SCCDAG

end Gino.Dswp
