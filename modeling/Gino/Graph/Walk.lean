import Mathlib.Data.List.Chain
import Mathlib.Data.List.Count
import Mathlib.Logic.Relation

/-!
# Walks in a directed graph

A walk is a list of nodes, each a successor of the one before. The results below speak about the
nodes of a walk rather than about positions in it: of two nodes on a walk one reaches the other
(`Walk.reaches_or_reaches`), and two nodes with the same only predecessor are not both on a walk
(`Walk.eq_of_only_predecessor`).
-/

namespace Gino.Graph

open Relation

variable {α : Type*} {step : α → α → Prop}

/-- A walk from one node to another, as the list of its nodes. -/
structure Walk (step : α → α → Prop) (path : List α) (source target : α) : Prop where
  chain : path.IsChain step
  head : path.head? = some source
  last : path.getLast? = some target

/-- A node on a cycle. -/
def OnCycle (step : α → α → Prop) (node : α) : Prop := TransGen step node node

/-- Every step into the node is from one predecessor. -/
def OnlyPredecessor (step : α → α → Prop) (before node : α) : Prop :=
  ∀ other, step other node → other = before

/-- No edge leads from a node with several successors to a node with several predecessors. -/
def NoCriticalEdges (step : α → α → Prop) : Prop :=
  ∀ node next other, step node next → step node other → next ≠ other →
    OnlyPredecessor step node next

/-- What reaches a node reaches its only predecessor. -/
theorem OnlyPredecessor.reaches {before node later : α} (honly : OnlyPredecessor step before node)
    (h : TransGen step later node) : ReflTransGen step later before := by
  obtain ⟨last, hlast, hstep⟩ := TransGen.tail'_iff.mp h
  exact honly last hstep ▸ hlast

/-- What reaches a node that it is not reaches the only predecessor of this. -/
theorem OnlyPredecessor.reaches_of_ne {before node later : α}
    (honly : OnlyPredecessor step before node) (h : ReflTransGen step later node)
    (hne : later ≠ node) : ReflTransGen step later before :=
  honly.reaches ((reflTransGen_iff_eq_or_transGen.mp h).resolve_left (Ne.symm hne))

/-- A walk that stays at its source. -/
theorem Walk.single (node : α) : Walk step [node] node node := ⟨by simp, rfl, rfl⟩

/-- A walk after a step to its source. -/
theorem Walk.cons {path : List α} {node source target : α} (hstep : step node source)
    (h : Walk step path source target) : Walk step (node :: path) node target := by
  cases path with
  | nil => simpa using h.head
  | cons first rest =>
      have hfirst : first = source := by simpa using h.head
      subst hfirst
      exact ⟨List.isChain_cons_cons.mpr ⟨hstep, h.chain⟩, rfl, by
        rw [List.getLast?_cons_cons]
        exact h.last⟩

/-- A walk gives the nodes after its source. -/
theorem Walk.tail {path : List α} {node next source target : α}
    (h : Walk step (node :: next :: path) source target) :
    step node next ∧ Walk step (next :: path) next target := by
  obtain ⟨hstep, hchain⟩ := List.isChain_cons_cons.mp h.chain
  refine ⟨hstep, hchain, rfl, ?_⟩
  rw [← List.getLast?_cons_cons]
  exact h.last

/-- A node that reaches another has a walk to it. -/
theorem exists_walk {source target : α} (h : ReflTransGen step source target) :
    ∃ path, Walk step path source target := by
  induction h using ReflTransGen.head_induction_on with
  | refl => exact ⟨_, Walk.single _⟩
  | head hstep _ ih =>
      obtain ⟨path, hpath⟩ := ih
      exact ⟨_, hpath.cons hstep⟩

/-- A node that reaches another one has a walk that ends there after it. -/
theorem exists_walk_of_ne {source target : α} (h : ReflTransGen step source target)
    (hne : source ≠ target) : ∃ path, Walk step (source :: path ++ [target]) source target := by
  obtain ⟨path, hpath⟩ := exists_walk h
  cases path with
  | nil => simpa using hpath.head
  | cons first rest =>
      have hfirst : first = source := by simpa using hpath.head
      subst hfirst
      have hlast := hpath.last
      cases rest using List.reverseRecOn with
      | nil => exact absurd (by simpa using hlast) hne
      | append_singleton path last =>
          rw [← List.cons_append, List.getLast?_concat, Option.some.injEq] at hlast
          subst hlast
          exact ⟨path, hpath⟩

/-- A node that reaches another over one or more steps has a walk that ends there after it. -/
theorem exists_walk_of_steps {source target : α} (h : TransGen step source target) :
    ∃ path, Walk step (source :: path ++ [target]) source target := by
  induction h using TransGen.head_induction_on with
  | single hstep => exact ⟨[], (Walk.single _).cons hstep⟩
  | @head source next hstep _ ih =>
      obtain ⟨path, hpath⟩ := ih
      exact ⟨next :: path, hpath.cons hstep⟩

namespace Walk

variable {path : List α} {source target : α}

/-- Walks compose along a step. -/
theorem append {next after : α} {rest : List α} (h : Walk step path source target)
    (hstep : step target next) (hrest : Walk step rest next after) :
    Walk step (path ++ rest) source after := by
  refine ⟨List.isChain_append.mpr ⟨h.chain, hrest.chain, ?_⟩, ?_, ?_⟩
  · intro last hlast first hfirst
    rw [h.last] at hlast
    rw [hrest.head] at hfirst
    cases hlast
    cases hfirst
    exact hstep
  · rw [List.head?_append, h.head]
    rfl
  · rw [List.getLast?_append, hrest.last]
    rfl

/-- The source is on the walk. -/
theorem source_mem (h : Walk step path source target) : source ∈ path :=
  List.mem_of_mem_head? h.head

/-- The target is on the walk. -/
theorem target_mem (h : Walk step path source target) : target ∈ path :=
  List.mem_of_getLast? h.last

/-- Walks compose where the first ends. -/
theorem trans {after : α} {rest : List α} (h : Walk step path source target)
    (hrest : Walk step rest target after) : Walk step (path ++ rest.tail) source after := by
  cases rest with
  | nil => simpa using hrest.head
  | cons first rest =>
      have hfirst : first = target := by simpa using hrest.head
      subst hfirst
      cases rest with
      | nil =>
          have heq : first = after := by simpa using hrest.last
          subst heq
          simpa using h
      | cons second rest =>
          obtain ⟨hstep, htail⟩ := hrest.tail
          exact h.append hstep htail

/-- The source reaches every node of the walk. -/
theorem source_reaches (h : Walk step path source target) {node : α} (hnode : node ∈ path) :
    ReflTransGen step source node := by
  induction path generalizing source with
  | nil => simp at hnode
  | cons first rest ih =>
      have hfirst : first = source := by simpa using h.head
      subst hfirst
      rcases List.mem_cons.mp hnode with rfl | hmem
      · exact .refl
      · cases rest with
        | nil => simp at hmem
        | cons second rest =>
            obtain ⟨hstep, htail⟩ := h.tail
            exact .head hstep (ih htail hmem)

/-- Every node of the walk reaches the target. -/
theorem reaches_target (h : Walk step path source target) {node : α} (hnode : node ∈ path) :
    ReflTransGen step node target := by
  induction path generalizing source with
  | nil => simp at hnode
  | cons first rest ih =>
      rcases List.mem_cons.mp hnode with rfl | hmem
      · have hfirst : node = source := by simpa using h.head
        subst hfirst
        exact h.source_reaches h.target_mem
      · cases rest with
        | nil => simp at hmem
        | cons second rest => exact ih h.tail.2 hmem

/-- A walk splits at each of its nodes. -/
theorem split (h : Walk step path source target) {node : α} {before after : List α}
    (hsplit : path = before ++ node :: after) :
    Walk step (before ++ [node]) source node ∧ Walk step (node :: after) node target := by
  subst hsplit
  obtain ⟨hbefore, hafter⟩ := List.isChain_split.mp h.chain
  refine ⟨⟨hbefore, ?_, by simp⟩, hafter, rfl, ?_⟩
  · have hhead := h.head
    cases before with
    | nil => simpa using hhead
    | cons first rest => simpa using hhead
  · have hlast := h.last
    rw [List.getLast?_append, List.getLast?_cons] at hlast
    rw [List.getLast?_cons]
    simpa using hlast

/-- A later node of a walk is reached from the earlier ones. -/
theorem reaches_of_append (h : Walk step path source target) {node later : α}
    {before after : List α} (hsplit : path = before ++ node :: after) (hlater : later ∈ after) :
    TransGen step node later := by
  obtain ⟨-, hafter⟩ := h.split hsplit
  cases after with
  | nil => simp at hlater
  | cons next rest =>
      obtain ⟨hstep, hrest⟩ := hafter.tail
      exact TransGen.head' hstep (hrest.source_reaches hlater)

/-- A walk of more than one node ends with a step. -/
theorem of_concat {last : α} (h : Walk step (path ++ [last]) source target) (hne : path ≠ []) :
    ∃ before, step before last ∧ Walk step path source before := by
  obtain ⟨hchain, -, hstep⟩ := List.isChain_append.mp h.chain
  have hlast := List.getLast?_eq_some_getLast hne
  refine ⟨path.getLast hne, hstep _ hlast last rfl, hchain, ?_, hlast⟩
  have hhead := h.head
  rwa [List.head?_append_of_ne_nil _ hne] at hhead

/-- A walk to another node ends with a step. -/
theorem dropLast_walk (h : Walk step path source target) (hne : target ≠ source) :
    ∃ before, step before target ∧ Walk step path.dropLast source before := by
  have hsplit : path = path.dropLast ++ [target] :=
    (List.dropLast_append_getLast? target h.last).symm
  rw [hsplit] at h
  refine h.of_concat fun hnil => ?_
  have hhead := h.head
  rw [hnil] at hhead
  exact hne (by simpa using hhead)

/-- Of two nodes on a walk one reaches the other. -/
theorem reaches_or_reaches (h : Walk step path source target) {node other : α}
    (hnode : node ∈ path) (hother : other ∈ path) (hne : node ≠ other) :
    TransGen step node other ∨ TransGen step other node := by
  obtain ⟨before, after, hsplit⟩ := List.append_of_mem hnode
  rw [hsplit] at hother
  rcases List.mem_append.mp hother with hbefore | hafter
  · obtain ⟨first, second, hfirst⟩ := List.append_of_mem hbefore
    have hsplit' : path = first ++ other :: (second ++ node :: after) := by
      rw [hsplit, hfirst, List.append_assoc, List.cons_append]
    exact .inr (h.reaches_of_append hsplit' (by simp))
  · exact .inl (h.reaches_of_append hsplit ((List.mem_cons.mp hafter).resolve_left hne.symm))

/-- A node other than the source comes after a predecessor. -/
theorem exists_predecessor (h : Walk step path source target) {node : α} (hnode : node ∈ path)
    (hne : node ≠ source) : ∃ before ∈ path, step before node := by
  induction path generalizing source with
  | nil => simp at hnode
  | cons first rest ih =>
      have hfirst : first = source := by simpa using h.head
      have hmem := (List.mem_cons.mp hnode).resolve_left (hfirst ▸ hne)
      cases rest with
      | nil => simp at hmem
      | cons second rest =>
          obtain ⟨hstep, htail⟩ := h.tail
          by_cases heq : node = second
          · exact ⟨first, List.mem_cons_self, heq ▸ hstep⟩
          · obtain ⟨before, hbefore, hstep⟩ := ih htail hmem heq
            exact ⟨before, List.mem_cons_of_mem _ hbefore, hstep⟩

/-- A node other than the target comes before a successor. -/
theorem exists_successor (h : Walk step path source target) {node : α} (hnode : node ∈ path)
    (hne : node ≠ target) : ∃ after ∈ path, step node after := by
  obtain ⟨before, after, hsplit⟩ := List.append_of_mem hnode
  obtain ⟨-, hafter⟩ := h.split hsplit
  cases after with
  | nil => exact absurd (by simpa using hafter.last) hne
  | cons next rest =>
      refine ⟨next, ?_, hafter.tail.1⟩
      rw [hsplit]
      simp

/-- The only predecessor of a node other than the source is on the walk. -/
theorem only_predecessor_mem (h : Walk step path source target) {before node : α}
    (hnode : node ∈ path) (hne : node ≠ source) (honly : OnlyPredecessor step before node) :
    before ∈ path ∧ step before node := by
  obtain ⟨other, hother, hstep⟩ := h.exists_predecessor hnode hne
  rw [← honly other hstep]
  exact ⟨hother, hstep⟩

/-- Two nodes with the same only predecessor, which is on no cycle, are not both on a walk. -/
theorem eq_of_only_predecessor (h : Walk step path source target) {before node other : α}
    (hnode : node ∈ path) (hother : other ∈ path) (hstep : step before node)
    (hstep' : step before other) (honly : OnlyPredecessor step before node)
    (honly' : OnlyPredecessor step before other) (hacyclic : ¬ OnCycle step before) :
    node = other := by
  by_contra hne
  rcases h.reaches_or_reaches hnode hother hne with hreach | hreach
  · obtain ⟨last, hlast, hinto⟩ := TransGen.tail'_iff.mp hreach
    exact hacyclic (TransGen.head' hstep (honly' last hinto ▸ hlast))
  · obtain ⟨last, hlast, hinto⟩ := TransGen.tail'_iff.mp hreach
    exact hacyclic (TransGen.head' hstep' (honly last hinto ▸ hlast))

end Walk

/-- There is a walk along nodes that reach each other. -/
theorem exists_walk_through {source node later target : α} (hnode : ReflTransGen step source node)
    (hlater : ReflTransGen step node later) (htarget : ReflTransGen step later target) :
    ∃ path, Walk step path source target ∧ node ∈ path ∧ later ∈ path := by
  obtain ⟨first, hfirst⟩ := exists_walk hnode
  obtain ⟨second, hsecond⟩ := exists_walk hlater
  obtain ⟨third, hthird⟩ := exists_walk htarget
  have hboth := hfirst.trans hsecond
  exact ⟨_, hboth.trans hthird,
    List.mem_append_left _ (List.mem_append_left _ hfirst.target_mem),
    List.mem_append_left _ hboth.target_mem⟩

/-- A node is reached without a step from another exactly where a walk avoids that one. -/
theorem reaches_past_iff {node source target : α} (hne : node ≠ target) :
    ReflTransGen (fun before after => before ≠ node ∧ step before after) source target ↔
      ∃ path, Walk step path source target ∧ node ∉ path := by
  constructor
  · intro hreach
    obtain ⟨path, hpath⟩ := exists_walk hreach
    refine ⟨path, ⟨hpath.chain.imp fun _ _ hstep => hstep.2, hpath.head, hpath.last⟩,
      fun hmem => ?_⟩
    -- No step leaves the node, so that the walk would end there.
    rcases (hpath.reaches_target hmem).cases_head with heq | ⟨next, hstep, -⟩
    · exact hne heq
    · exact hstep.1 rfl
  · rintro ⟨path, hpath, hmem⟩
    have hpath' : Walk (fun before after => before ≠ node ∧ step before after) path
        source target :=
      ⟨hpath.chain.imp_of_mem_imp fun before after hbefore _ hstep =>
        ⟨fun heq => hmem (heq ▸ hbefore), hstep⟩, hpath.head, hpath.last⟩
    exact hpath'.source_reaches hpath'.target_mem

end Gino.Graph
