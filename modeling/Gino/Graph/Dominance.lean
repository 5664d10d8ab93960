import Gino.Graph.Walk

/-!
# Dominance

A node dominates another when it is on every walk from the source to it. Two dominators of a node
are comparable (`Dominates.total`), so nearest dominators are unique (`NearestDominator.unique`)
and a node with a dominator of some kind has a nearest one (`exists_nearest_dominator`).
-/

namespace Gino.Graph

open Relation

variable {α : Type*} {step : α → α → Prop} {source : α}

/-- The node is on every walk from the source to the other. -/
def Dominates (step : α → α → Prop) (source node other : α) : Prop :=
  ∀ path, Walk step path source other → node ∈ path

/-- The nearest dominator with a property: every other one with the property dominates it. -/
structure NearestDominator (step : α → α → Prop) (source : α) (P : α → Prop) (node near : α) :
    Prop where
  dominates : Dominates step source near node
  holds : P near
  nearest : ∀ other, Dominates step source other node → P other → Dominates step source other near

/-! ## Walks up to a first node and from a last one -/

/-- A list splits at its first member with a property. -/
theorem exists_first_split {P : α → Prop} {path : List α} (h : ∃ node ∈ path, P node) :
    ∃ before first after, path = before ++ first :: after ∧ P first ∧
      ∀ other ∈ before, ¬ P other := by
  induction path with
  | nil => simp at h
  | cons node rest ih =>
      by_cases hnode : P node
      · exact ⟨[], node, rest, rfl, hnode, by simp⟩
      · obtain ⟨other, hother, hP⟩ := h
        have hrest : other ∈ rest :=
          (List.mem_cons.mp hother).resolve_left fun heq => hnode (heq ▸ hP)
        obtain ⟨before, first, after, hsplit, hfirst, hbefore⟩ := ih ⟨other, hrest, hP⟩
        refine ⟨node :: before, first, after, by rw [hsplit, List.cons_append], hfirst, ?_⟩
        intro other hmem
        rcases List.mem_cons.mp hmem with rfl | hmem
        · exact hnode
        · exact hbefore other hmem

/-- A list splits at its last member with a property. -/
theorem exists_last_split {P : α → Prop} {path : List α} (h : ∃ node ∈ path, P node) :
    ∃ before last after, path = before ++ last :: after ∧ P last ∧
      ∀ other ∈ after, ¬ P other := by
  induction path with
  | nil => simp at h
  | cons node rest ih =>
      by_cases hrest : ∃ other ∈ rest, P other
      · obtain ⟨before, last, after, hsplit, hlast, hafter⟩ := ih hrest
        exact ⟨node :: before, last, after, by rw [hsplit, List.cons_append], hlast, hafter⟩
      · push Not at hrest
        obtain ⟨other, hother, hP⟩ := h
        have heq : other = node :=
          (List.mem_cons.mp hother).resolve_right fun hmem => hrest other hmem hP
        exact ⟨[], node, rest, rfl, heq ▸ hP, hrest⟩

/-! ## Dominance is a tree order -/

namespace Dominates

variable {node other later : α}

/-- A node dominates itself. -/
theorem refl (node : α) : Dominates step source node node := fun _ hpath => hpath.target_mem

/-- The source dominates every node. -/
theorem source_left (node : α) : Dominates step source source node :=
  fun _ hpath => hpath.source_mem

/-- Dominance is transitive. -/
theorem trans (h : Dominates step source node other) (hlater : Dominates step source other later) :
    Dominates step source node later := by
  intro path hpath
  obtain ⟨before, after, hsplit⟩ := List.append_of_mem (hlater path hpath)
  have hmem := h _ (hpath.split hsplit).1
  rw [hsplit]
  simp only [List.mem_append, List.mem_cons, List.not_mem_nil, or_false] at hmem ⊢
  tauto

/-- Two nodes that dominate each other are the same, where there is a walk to them. -/
theorem antisymm (h : Dominates step source node other) (hback : Dominates step source other node)
    (hreach : ReflTransGen step source node) : node = other := by
  by_contra hne
  obtain ⟨path, hpath⟩ := exists_walk hreach
  -- The first of the two on the walk is reached without the other.
  obtain ⟨before, first, after, hsplit, hfirst, hbefore⟩ :=
    exists_first_split (P := fun first => first = node ∨ first = other)
      ⟨node, hpath.target_mem, .inl rfl⟩
  have hprefix := (hpath.split hsplit).1
  rcases hfirst with rfl | rfl
  · rcases List.mem_append.mp (hback _ hprefix) with hmem | hmem
    · exact hbefore other hmem (.inr rfl)
    · exact hne (List.mem_singleton.mp hmem).symm
  · rcases List.mem_append.mp (h _ hprefix) with hmem | hmem
    · exact hbefore node hmem (.inl rfl)
    · exact hne (List.mem_singleton.mp hmem)

/-- A dominator reached on a walk is not avoided by going on from there. -/
theorem of_suffix (h : Dominates step source node later) {rest : List α}
    (hrest : Walk step (other :: rest) other later) (hnode : node ∉ rest) :
    Dominates step source node other := by
  intro path hpath
  have hmem := h _ (hpath.trans hrest)
  exact (List.mem_append.mp hmem).resolve_right hnode

/-- Of two dominators of a node one dominates the other, where there is a walk to the node. -/
theorem total (h : Dominates step source node later) (hother : Dominates step source other later)
    (hreach : ReflTransGen step source later) :
    Dominates step source node other ∨ Dominates step source other node := by
  obtain ⟨path, hpath⟩ := exists_walk hreach
  obtain ⟨before, last, after, hsplit, hlast, hafter⟩ :=
    exists_last_split (P := fun last => last = node ∨ last = other) ⟨node, h path hpath, .inl rfl⟩
  have hsuffix := (hpath.split hsplit).2
  rcases hlast with rfl | rfl
  · exact .inr (hother.of_suffix hsuffix fun hmem => hafter other hmem (.inr rfl))
  · exact .inl (h.of_suffix hsuffix fun hmem => hafter node hmem (.inl rfl))

/-- A dominator is on the walks to a node. -/
theorem source_reaches (h : Dominates step source node other)
    (hreach : ReflTransGen step source other) : ReflTransGen step source node :=
  let ⟨path, hpath⟩ := exists_walk hreach
  hpath.source_reaches (h path hpath)

/-- A node reached from one of its dominators has a walk through it. -/
theorem reaches (h : Dominates step source node other)
    (hreach : ReflTransGen step source other) : ReflTransGen step node other :=
  let ⟨path, hpath⟩ := exists_walk hreach
  hpath.reaches_target (h path hpath)

end Dominates

namespace NearestDominator

variable {P : α → Prop} {node near other : α}

/-- A node with the property is its own nearest dominator. -/
theorem self (h : P node) : NearestDominator step source P node node :=
  ⟨.refl node, h, fun _ hother _ => hother⟩

/-- There is one nearest dominator. -/
theorem unique (h : NearestDominator step source P node near)
    (hother : NearestDominator step source P node other)
    (hreach : ReflTransGen step source node) : near = other :=
  (hother.nearest near h.dominates h.holds).antisymm (h.nearest other hother.dominates hother.holds)
    (h.dominates.source_reaches hreach)

/-- A node without the property has the nearest dominator of the one above it. -/
theorem of_above {above : α} (hnode : ¬ P node) (habove : Dominates step source above node)
    (hnearest : ∀ other, Dominates step source other node → other ≠ node →
      Dominates step source other above)
    (h : NearestDominator step source P above near) :
    NearestDominator step source P node near :=
  ⟨h.dominates.trans habove, h.holds, fun other hother hP =>
    h.nearest other (hnearest other hother fun heq => hnode (heq ▸ hP)) hP⟩

end NearestDominator

/-! ## Nearest dominators exist -/

/-- Of finitely many dominators of a node, some with a property, one is the nearest. -/
theorem exists_nearest_dominator {P : α → Prop} {nodes : List α} {node : α}
    (hnodes : ∀ other, other ∈ nodes) (hreach : ReflTransGen step source node)
    (h : ∃ other, Dominates step source other node ∧ P other) :
    ∃ near, NearestDominator step source P node near := by
  suffices hlist : ∃ near, Dominates step source near node ∧ P near ∧
      ∀ other ∈ nodes, Dominates step source other node → P other →
        Dominates step source other near by
    obtain ⟨near, hdom, hP, hnear⟩ := hlist
    exact ⟨near, hdom, hP, fun other => hnear other (hnodes other)⟩
  clear hnodes
  induction nodes with
  | nil =>
      obtain ⟨other, hdom, hP⟩ := h
      exact ⟨other, hdom, hP, by simp⟩
  | cons first rest ih =>
      obtain ⟨near, hdom, hP, hnear⟩ := ih
      by_cases hfirst : Dominates step source first node ∧ P first ∧
          ¬ Dominates step source first near
      · -- The new node is below the nearest one so far.
        obtain ⟨hdom', hP', hnot⟩ := hfirst
        have hbelow : Dominates step source near first :=
          (hdom'.total hdom hreach).resolve_left hnot
        refine ⟨first, hdom', hP', fun other hmem hother hPother => ?_⟩
        rcases List.mem_cons.mp hmem with rfl | hmem
        · exact .refl _
        · exact (hnear other hmem hother hPother).trans hbelow
      · refine ⟨near, hdom, hP, fun other hmem hother hPother => ?_⟩
        rcases List.mem_cons.mp hmem with rfl | hmem
        · by_contra hnot
          exact hfirst ⟨hother, hPother, hnot⟩
        · exact hnear other hmem hother hPother

/-- Of the dominators of a node with a property one is at the top. -/
theorem exists_top_dominator {P : α → Prop} {node : α} (hreach : ReflTransGen step source node)
    (h : ∃ other, Dominates step source other node ∧ P other) :
    ∃ top, Dominates step source top node ∧ P top ∧
      ∀ other, P other → Dominates step source other top → other = top := by
  obtain ⟨path, hpath⟩ := exists_walk hreach
  obtain ⟨other, hother, hP⟩ := h
  obtain ⟨before, top, after, hsplit, ⟨htop, hPtop⟩, hbefore⟩ :=
    exists_first_split (P := fun top => Dominates step source top node ∧ P top)
      ⟨other, hother path hpath, hother, hP⟩
  refine ⟨top, htop, hPtop, fun above hPabove habove => ?_⟩
  rcases List.mem_append.mp (habove _ (hpath.split hsplit).1) with hmem | hmem
  · exact absurd ⟨habove.trans htop, hPabove⟩ (hbefore above hmem)
  · exact List.mem_singleton.mp hmem

end Gino.Graph
