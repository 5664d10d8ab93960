import Gino.Graph.Dominance
import Gino.Machine.Worklist

/-!
# Post-dominance and control dependence

A node post-dominates another when it is on every walk from it to a final node. A walk that meets
no strict post-dominator of its source meets only nodes that depend on the control of the source
(`Walk.transitively_control_dependent`), and a walk that meets some meets the immediate one first
(`Walk.exists_immediate_post_dominator`).
-/

namespace Gino.Graph

open Relation Machine

variable {α : Type*} (step : α → α → Prop) (Final : α → Prop)

/-- The node is on every walk from the other to a final node. -/
def PostDominates (node other : α) : Prop :=
  ∀ final, Final final → ∀ path, Walk step path other final → node ∈ path

/-- The node post-dominates another one. -/
def StrictlyPostDominates (node other : α) : Prop :=
  node ≠ other ∧ PostDominates step Final node other

/-- The nearest strict post-dominator. -/
def ImmediatePostDominator (near node : α) : Prop :=
  StrictlyPostDominates step Final near node ∧
    ∀ other, StrictlyPostDominates step Final other node → PostDominates step Final other near

/-- The node post-dominates a successor of the branch, but not the branch. -/
def ControlDependent (branch node : α) : Prop :=
  (∃ next, step branch next ∧ PostDominates step Final node next) ∧
    ¬ StrictlyPostDominates step Final node branch

/-- The node reaches a final node. -/
def ReachesFinal (node : α) : Prop := ∃ final, Final final ∧ ReflTransGen step node final

variable {step Final} {node other near : α}

namespace PostDominates

/-- A node post-dominates itself. -/
theorem refl (node : α) : PostDominates step Final node node := fun _ _ _ hpath => hpath.source_mem

/-- A post-dominator that is not met on a walk post-dominates its target. -/
theorem of_walk (h : PostDominates step Final node other) {path : List α} {target : α}
    (hpath : Walk step path other target) (hnode : node ∉ path) :
    PostDominates step Final node target := by
  intro final hfinal rest hrest
  rcases List.mem_append.mp (h final hfinal _ (hpath.trans hrest)) with hmem | hmem
  · exact absurd hmem hnode
  · exact List.mem_of_mem_tail hmem

/-- Two nodes that post-dominate each other are the same, where they reach a final node. -/
theorem antisymm (h : PostDominates step Final node other)
    (hback : PostDominates step Final other node) (hreach : ReachesFinal step Final node) :
    node = other := by
  obtain ⟨final, hfinal, hreach⟩ := hreach
  obtain ⟨path, hpath⟩ := exists_walk hreach
  by_contra hne
  -- The last of the two on the walk reaches the final node without the other.
  obtain ⟨before, last, after, hsplit, hlast, hafter⟩ :=
    exists_last_split (P := fun last => last = node ∨ last = other)
      ⟨node, hpath.source_mem, .inl rfl⟩
  have hsuffix := (hpath.split hsplit).2
  rcases hlast with rfl | rfl
  · rcases List.mem_cons.mp (hback final hfinal _ hsuffix) with heq | hmem
    · exact hne heq.symm
    · exact hafter other hmem (.inr rfl)
  · rcases List.mem_cons.mp (h final hfinal _ hsuffix) with heq | hmem
    · exact hne heq
    · exact hafter node hmem (.inl rfl)

end PostDominates

/-- There is at most one immediate post-dominator. -/
theorem ImmediatePostDominator.unique (h : ImmediatePostDominator step Final near node)
    (hother : ImmediatePostDominator step Final other node)
    (hreach : ReachesFinal step Final near) : near = other :=
  (hother.2 near h.1).antisymm (h.2 other hother.1) hreach

namespace Walk

variable {path : List α} {source target : α}

/-- A walk that meets strict post-dominators of its source meets the immediate one. -/
theorem exists_immediate_post_dominator (h : Walk step path source target)
    (hmeets : ∃ node ∈ path, StrictlyPostDominates step Final node source) :
    ∃ near ∈ path, ImmediatePostDominator step Final near source := by
  obtain ⟨before, first, after, hsplit, hfirst, hbefore⟩ := exists_first_split hmeets
  refine ⟨first, by rw [hsplit]; simp, hfirst, fun other hother => ?_⟩
  by_cases heq : other = first
  · exact heq ▸ .refl _
  · refine hother.2.of_walk (h.split hsplit).1 fun hmem => ?_
    rcases List.mem_append.mp hmem with hmem | hmem
    · exact hbefore other hmem hother
    · exact heq (List.mem_singleton.mp hmem)

/-- The target of a walk depends on the control of the last node that it does not post-dominate. -/
theorem exists_control_dependent (h : Walk step (path ++ [target]) source target)
    (hpath : ∃ node ∈ path, ¬ StrictlyPostDominates step Final target node) :
    ∃ before branch after, path = before ++ branch :: after ∧
      ControlDependent step Final branch target := by
  obtain ⟨before, branch, after, hsplit, hbranch, hafter⟩ := exists_last_split hpath
  refine ⟨before, branch, after, hsplit, ?_, hbranch⟩
  have hwhole : path ++ [target] = before ++ branch :: (after ++ [target]) := by
    rw [hsplit, List.append_assoc, List.cons_append]
  have hsuffix := (h.split hwhole).2
  cases after with
  | nil => exact ⟨target, hsuffix.tail.1, .refl target⟩
  | cons next rest =>
      have hnext := hafter next List.mem_cons_self
      push Not at hnext
      exact ⟨next, hsuffix.tail.1, hnext.2⟩

/-- What a walk meets before all strict post-dominators of its source depends on the control of the
source, over nodes of the walk. -/
theorem transitively_control_dependent {P : α → Prop} {node : α} (path : List α)
    (h : Walk step (source :: path ++ [node]) source node)
    (hinside : ∀ other ∈ source :: path, P other)
    (havoids : ∀ other ∈ path ++ [node], ¬ StrictlyPostDominates step Final other source) :
    TransGen (fun branch node => P branch ∧ ControlDependent step Final branch node)
      source node := by
  obtain ⟨before, branch, after, hsplit, hdependent⟩ := h.exists_control_dependent
    ⟨source, List.mem_cons_self, havoids node (by simp)⟩
  have hbranch : P branch := hinside branch (by rw [hsplit]; simp)
  cases before with
  | nil =>
      obtain ⟨rfl, -⟩ := List.cons_eq_cons.mp hsplit
      exact .single ⟨hbranch, hdependent⟩
  | cons first before =>
      -- The branch is on the walk before the node, so that it depends on the source.
      obtain ⟨rfl, rfl⟩ := List.cons_eq_cons.mp hsplit
      have hwhole : source :: (before ++ branch :: after) ++ [node] =
          source :: before ++ branch :: (after ++ [node]) := by simp
      refine .tail (transitively_control_dependent before (h.split hwhole).1
        (fun other hother => hinside other ?_) fun other hother => havoids other ?_)
        ⟨hbranch, hdependent⟩
      · simp at hother ⊢
        tauto
      · simp at hother ⊢
        tauto
termination_by path.length

end Walk

/-- A strict post-dominator of a node that reaches a final node reaches one too. -/
theorem StrictlyPostDominates.reaches_final (h : StrictlyPostDominates step Final node other)
    (hreach : ReachesFinal step Final other) : ReachesFinal step Final node := by
  obtain ⟨final, hfinal, hreach⟩ := hreach
  obtain ⟨path, hpath⟩ := exists_walk hreach
  exact ⟨final, hfinal, hpath.reaches_target (h.2 final hfinal path hpath)⟩

/-! ## Post-dominators of finite graphs -/

section Finite

variable [DecidableEq α] (successors : α → List α) (isFinal : α → Bool) (nodes : List α)

/-- The node is on every walk from the other to a final node: none is reached past it. -/
def postDominates (node other : α) : Bool :=
  node = other ∨ ∀ final ∈ nodes, isFinal final = true → final = node ∨
    final ∉ reachableList (fun before => if before = node then [] else successors before) nodes
      [other]

/-- The node post-dominates another one. -/
def strictlyPostDominates (node other : α) : Bool :=
  node ≠ other ∧ postDominates successors isFinal nodes node other = true

/-- The parent of a node in the post-dominator tree. -/
def immediatePostDominator (node : α) : Option α :=
  nodes.find? fun near => strictlyPostDominates successors isFinal nodes near node = true ∧
    ∀ other ∈ nodes, strictlyPostDominates successors isFinal nodes other node = true →
      postDominates successors isFinal nodes other near = true

variable {successors isFinal nodes}

/-- The step relation of a finite graph. -/
def Successor (successors : α → List α) (node after : α) : Prop := after ∈ successors node

/-- The computed post-dominators are the post-dominators. -/
theorem post_dominates_iff (hnodes : ∀ node, node ∈ nodes) {node other : α} :
    postDominates successors isFinal nodes node other = true ↔
      PostDominates (Successor successors) (fun final => isFinal final = true) node other := by
  have hpast : (fun item after => after ∈ if item = node then [] else successors item) =
      fun before after => before ≠ node ∧ Successor successors before after := by
    funext before after
    by_cases heq : before = node <;> simp [heq, Successor]
  unfold postDominates PostDominates
  simp only [decide_eq_true_eq, mem_reachable_list hnodes, List.mem_singleton, exists_eq_left,
    hpast]
  constructor
  · intro h final hfinal path hpath
    rcases h with rfl | h
    · exact hpath.source_mem
    · rcases h final (hnodes final) hfinal with rfl | hnot
      · exact hpath.target_mem
      · by_contra hmem
        have hne : node ≠ final := fun heq => hmem (heq ▸ hpath.target_mem)
        exact hnot ((reaches_past_iff hne).mpr ⟨path, hpath, hmem⟩)
  · intro h
    refine .inr fun final _ hfinal => or_iff_not_imp_left.mpr fun hne hreach => ?_
    obtain ⟨path, hpath, hmem⟩ := (reaches_past_iff (Ne.symm hne)).mp hreach
    exact hmem (h final hfinal path hpath)

/-- The computed strict post-dominators are the strict post-dominators. -/
theorem strictly_post_dominates_iff (hnodes : ∀ node, node ∈ nodes) {node other : α} :
    strictlyPostDominates successors isFinal nodes node other = true ↔
      StrictlyPostDominates (Successor successors) (fun final => isFinal final = true)
        node other := by
  unfold strictlyPostDominates StrictlyPostDominates
  rw [decide_eq_true_eq, post_dominates_iff hnodes]

/-- The computed parent is the immediate post-dominator. -/
theorem immediate_post_dominator_eq_some (hnodes : ∀ node, node ∈ nodes) {near node : α}
    (hreach : ReachesFinal (Successor successors) (fun final => isFinal final = true) node) :
    immediatePostDominator successors isFinal nodes node = some near ↔
      ImmediatePostDominator (Successor successors) (fun final => isFinal final = true) near
        node := by
  have hiff : ∀ near, (strictlyPostDominates successors isFinal nodes near node = true ∧
      ∀ other ∈ nodes, strictlyPostDominates successors isFinal nodes other node = true →
        postDominates successors isFinal nodes other near = true) ↔
      ImmediatePostDominator (Successor successors) (fun final => isFinal final = true) near
        node := by
    intro near
    simp only [strictly_post_dominates_iff hnodes, post_dominates_iff hnodes]
    exact and_congr_right fun _ => ⟨fun h other => h other (hnodes other), fun h other _ => h other⟩
  unfold immediatePostDominator
  constructor
  · intro h
    have hfound := List.find?_some h
    exact (hiff near).mp (of_decide_eq_true hfound)
  · intro h
    cases hfind : nodes.find? fun near =>
        strictlyPostDominates successors isFinal nodes near node = true ∧
          ∀ other ∈ nodes, strictlyPostDominates successors isFinal nodes other node = true →
            postDominates successors isFinal nodes other near = true with
    | none =>
        have hnot := List.find?_eq_none.mp hfind near (hnodes near)
        rw [decide_eq_true_eq] at hnot
        exact absurd ((hiff near).mpr h) hnot
    | some other =>
        have hfound := List.find?_some hfind
        have hother := (hiff other).mp (of_decide_eq_true hfound)
        rw [hother.unique h (hother.1.reaches_final hreach)]

/-- Whether a node depends on the control of a branch is computed. -/
theorem control_dependent_iff (hnodes : ∀ node, node ∈ nodes) {branch node : α} :
    ControlDependent (Successor successors) (fun final => isFinal final = true) branch node ↔
      (∃ next ∈ successors branch, postDominates successors isFinal nodes node next = true) ∧
        strictlyPostDominates successors isFinal nodes node branch = false := by
  unfold ControlDependent
  rw [← strictly_post_dominates_iff hnodes, Bool.not_eq_true]
  simp only [← post_dominates_iff hnodes]
  rfl

/-- Whether a node reaches a final node is computed. -/
theorem reaches_final_iff (hnodes : ∀ node, node ∈ nodes) {node : α} :
    ReachesFinal (Successor successors) (fun final => isFinal final = true) node ↔
      ∃ final ∈ reachableList successors nodes [node], isFinal final = true := by
  unfold ReachesFinal
  simp only [mem_reachable_list hnodes, List.mem_singleton, exists_eq_left]
  exact exists_congr fun final => and_comm

end Finite

end Gino.Graph
