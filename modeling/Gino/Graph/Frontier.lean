import Gino.Graph.Walk

/-!
# Where walks leave a set of nodes

A walk through a set of nodes has left the set where no other node of the set is reached any more
and no cycle is left to be closed. `Frontier` is where a walk from a source has just left. Without
critical edges a walk from the source crosses it exactly once: it does so before the first node
that leaves (`Walk.exists_frontier`), and no frontier node reaches another
(`Leaves.not_reaches_frontier`).
-/

namespace Gino.Graph

open Relation

variable {α : Type*} (step : α → α → Prop) (S : α → Prop)

/-- A node of the set other than this one comes later. -/
def ReachesOther (node : α) : Prop := ∃ other, S other ∧ other ≠ node ∧ TransGen step node other

/-- A node of the set other than this one comes earlier. -/
def ReachedByOther (node : α) : Prop := ∃ other, S other ∧ other ≠ node ∧ TransGen step other node

/-- The node is in the set or before a node of it. -/
def ReachesSet (node : α) : Prop := ∃ other, S other ∧ ReflTransGen step node other

/-- The node is in the set or after a node of it. -/
def ReachedBySet (node : α) : Prop := ∃ other, S other ∧ ReflTransGen step other node

/-- The node is neither in the set nor before or after a node of it. -/
def GoesAround (node : α) : Prop := ¬ ReachedBySet step S node ∧ ¬ ReachesSet step S node

/-- The set is left at the latest after this node. -/
def Leaves (node : α) : Prop := ¬ OnCycle step node ∧ ¬ ReachesOther step S node

/-- The set is left at this node, and not before on a walk from the source. -/
def Frontier (source : α) (node : α) : Prop :=
  Leaves step S node ∧ (S node ∨ node = source ∨
    ∃ before, step before node ∧ ¬ Leaves step S before ∧ ReachesSet step S before)

variable {step S} {source node before later : α}

/-- A node before one that reaches the set reaches it too. -/
theorem ReachesSet.of_reaches (h : ReachesSet step S later)
    (hreach : ReflTransGen step node later) : ReachesSet step S node :=
  let ⟨other, hother, hlater⟩ := h
  ⟨other, hother, hreach.trans hlater⟩

/-- A node after one reached from the set is reached from it too. -/
theorem ReachedBySet.of_reaches (h : ReachedBySet step S node)
    (hreach : ReflTransGen step node later) : ReachedBySet step S later :=
  let ⟨other, hother, hnode⟩ := h
  ⟨other, hother, hnode.trans hreach⟩

/-- No node of the set comes after one that leaves. -/
theorem Leaves.not_before {other : α} (h : Leaves step S node) (hother : S other) :
    ¬ TransGen step node other := by
  intro hreach
  by_cases heq : other = node
  · exact h.1 (heq ▸ hreach)
  · exact h.2 ⟨other, hother, heq, hreach⟩

/-- A node that leaves and still reaches the set is in it. -/
theorem Leaves.mem_of_reaches (h : Leaves step S node) (hreach : ReachesSet step S node) :
    S node := by
  obtain ⟨other, hother, hreach⟩ := hreach
  rcases reflTransGen_iff_eq_or_transGen.mp hreach with rfl | hreach
  · exact hother
  · exact absurd hreach (h.not_before hother)

/-- No node that still has to leave comes after one that leaves and before the set. -/
theorem Leaves.not_reaches (h : Leaves step S node) (hlater : ¬ Leaves step S later)
    (hset : ReachesSet step S later) : ¬ ReflTransGen step node later := by
  intro hreach
  rcases hreach.cases_head with rfl | hstep
  · exact hlater h
  · obtain ⟨other, hother, hreach'⟩ := hset
    exact h.not_before hother (TransGen.trans_left (TransGen.head'_iff.mpr hstep) hreach')

/-- A walk that has not left the set still reaches it. -/
theorem reachesSet_of_not_leaves (hcritical : NoCriticalEdges step) (hstep : step before node)
    (hbefore : ¬ Leaves step S before) (hset : ReachesSet step S before)
    (hnode : ¬ Leaves step S node) : ReachesSet step S node := by
  by_contra hlost
  -- The node does not reach the set, so it is on a cycle.
  have hcycle : OnCycle step node := by
    by_contra hacyclic
    refine hnode ⟨hacyclic, fun hother => hlost ?_⟩
    obtain ⟨other, hmem, -, hreach⟩ := hother
    exact ⟨other, hmem, hreach.to_reflTransGen⟩
  by_cases hback : ReflTransGen step node before
  · exact hlost (hset.of_reaches hback)
  · -- The cycle is entered here, so there is no other successor.
    have honly : ∀ other, step before other → other = node := by
      intro other hother
      by_contra hne
      exact hback ((hcritical before node other hstep hother (Ne.symm hne)).reaches hcycle)
    have hthrough : ∀ other, TransGen step before other → ReflTransGen step node other := by
      intro other hreach
      obtain ⟨next, hnext, hrest⟩ := TransGen.head'_iff.mp hreach
      exact honly next hnext ▸ hrest
    have hself : ∀ other, TransGen step before other → S other → False :=
      fun other hreach hmem => hlost ⟨other, hmem, hthrough other hreach⟩
    refine hbefore ⟨fun hloop => hback (hthrough _ hloop), fun hother => ?_⟩
    obtain ⟨other, hmem, -, hreach⟩ := hother
    exact hself other hreach hmem

/-- A frontier node outside the set is entered from one node only, which has not left. -/
theorem Frontier.only_predecessor (hcritical : NoCriticalEdges step)
    (h : Frontier step S source node) (hnode : ¬ S node) (hsource : node ≠ source) :
    ∃ before, step before node ∧ OnlyPredecessor step before node ∧
      ¬ Leaves step S before ∧ ReachesSet step S before := by
  obtain ⟨before, hstep, hbefore, hset⟩ := (h.2.resolve_left hnode).resolve_left hsource
  refine ⟨before, hstep, ?_, hbefore, hset⟩
  have hlost : ∀ other, ReflTransGen step node other → ¬ S other := fun other hreach hmem =>
    hnode (h.1.mem_of_reaches ⟨other, hmem, hreach⟩)
  -- What keeps the predecessor from leaving lies past another successor.
  obtain ⟨target, hreach, hfar⟩ : ∃ target, TransGen step before target ∧
      ¬ ReflTransGen step node target := by
    by_contra hnone
    have hall : ∀ target, TransGen step before target → ReflTransGen step node target := by
      intro target hreach
      by_contra hfar
      exact hnone ⟨target, hreach, hfar⟩
    refine hbefore ⟨fun hcycle => ?_, fun hother => ?_⟩
    · obtain ⟨other, hmem, hreach⟩ := hset
      exact hlost other ((hall _ hcycle).trans hreach) hmem
    · obtain ⟨other, hmem, -, hreach⟩ := hother
      exact hlost other (hall other hreach) hmem
  obtain ⟨next, hnext, hrest⟩ := TransGen.head'_iff.mp hreach
  exact hcritical before node next hstep hnext fun heq => hfar (heq ▸ hrest)

/-- A walk from a node that reaches the set to one that leaves it leaves somewhere. -/
theorem Walk.exists_leaves (hcritical : NoCriticalEdges step) {path : List α} {start target : α}
    (h : Walk step path start target) (hset : ReachesSet step S start)
    (htarget : Leaves step S target) : ∃ node ∈ path, Leaves step S node ∧
      (S node ∨
        ∃ before, step before node ∧ ¬ Leaves step S before ∧ ReachesSet step S before) := by
  induction path generalizing start with
  | nil => simpa using h.head
  | cons first rest ih =>
      have hfirst : first = start := by simpa using h.head
      subst hfirst
      by_cases hleaves : Leaves step S first
      · exact ⟨first, List.mem_cons_self, hleaves, .inl (hleaves.mem_of_reaches hset)⟩
      · cases rest with
        | nil =>
            have heq : first = target := by simpa using h.last
            exact absurd (heq ▸ htarget) hleaves
        | cons next rest =>
            obtain ⟨hstep, htail⟩ := h.tail
            by_cases hnext : Leaves step S next
            · exact ⟨next, by simp, hnext, .inr ⟨first, hstep, hleaves, hset⟩⟩
            · obtain ⟨node, hmem, hnode⟩ :=
                ih htail (reachesSet_of_not_leaves hcritical hstep hleaves hset hnext)
              exact ⟨node, List.mem_cons_of_mem _ hmem, hnode⟩

section Source

variable (hcritical : NoCriticalEdges step) (hsource : ∀ before, ¬ step before source)

include hcritical hsource

/-- What reaches a frontier node reaches the set or what is before the node. -/
theorem Frontier.mem_or_reaches (h : Frontier step S source later)
    (hreach : TransGen step node later) : S later ∨
      ∃ before, ¬ Leaves step S before ∧ ReachesSet step S before ∧
        ReflTransGen step node before := by
  by_cases hmem : S later
  · exact .inl hmem
  · have hne : later ≠ source := by
      rintro rfl
      obtain ⟨last, -, hstep⟩ := TransGen.tail'_iff.mp hreach
      exact hsource last hstep
    obtain ⟨before, -, honly, hbefore, hset⟩ := h.only_predecessor hcritical hmem hne
    exact .inr ⟨before, hbefore, hset, honly.reaches hreach⟩

/-- A node that leaves reaches no frontier node. -/
theorem Leaves.not_reaches_frontier (h : Leaves step S node)
    (hlater : Frontier step S source later) : ¬ TransGen step node later := by
  intro hreach
  rcases hlater.mem_or_reaches hcritical hsource hreach with hmem | ⟨before, hbefore, hset, hreach⟩
  · exact h.not_before hmem hreach
  · exact h.not_reaches hbefore hset hreach

/-- A node that reaches a frontier node reaches the set. -/
theorem Frontier.reachesSet_of_reaches (h : Frontier step S source later)
    (hreach : TransGen step node later) : ReachesSet step S node := by
  rcases h.mem_or_reaches hcritical hsource hreach with hmem | ⟨before, -, hset, hreach⟩
  · exact ⟨later, hmem, hreach.to_reflTransGen⟩
  · exact hset.of_reaches hreach

/-- A walk from the source to a node that leaves crosses the frontier. -/
theorem Walk.exists_frontier {path : List α} {target : α} (h : Walk step path source target)
    (htarget : Leaves step S target) : ∃ node ∈ path, Frontier step S source node := by
  by_cases hleaves : Leaves step S source
  · exact ⟨source, h.source_mem, hleaves, .inr (.inl rfl)⟩
  · have hset : ReachesSet step S source := by
      by_contra hnone
      refine hleaves ⟨fun hcycle => ?_, fun hother => hnone ?_⟩
      · obtain ⟨last, -, hstep⟩ := TransGen.tail'_iff.mp hcycle
        exact hsource last hstep
      · obtain ⟨other, hmem, -, hreach⟩ := hother
        exact ⟨other, hmem, hreach.to_reflTransGen⟩
    obtain ⟨node, hmem, hnode, hcases⟩ := h.exists_leaves hcritical hset htarget
    exact ⟨node, hmem, hnode, hcases.imp_right .inr⟩

/-- A walk crosses the frontier once. -/
theorem Walk.frontier_unique {path : List α} {start target : α} (h : Walk step path start target)
    {node other : α} (hnode : node ∈ path) (hother : other ∈ path)
    (hfrontier : Frontier step S source node) (hfrontier' : Frontier step S source other) :
    node = other := by
  by_contra hne
  rcases h.reaches_or_reaches hnode hother hne with hreach | hreach
  · exact hfrontier.1.not_reaches_frontier hcritical hsource hfrontier' hreach
  · exact hfrontier'.1.not_reaches_frontier hcritical hsource hfrontier hreach

end Source

/-! ## Choosing nodes in some order -/

/-- The node is in the list, and no earlier one of the list reaches it. -/
def Kept (step : α → α → Prop) (order : List α) (node : α) : Prop :=
  ∃ before after, order = before ++ node :: after ∧
    ∀ earlier ∈ before, ¬ TransGen step earlier node

/-- A node that is kept is in the list. -/
theorem Kept.mem {order : List α} (h : Kept step order node) : node ∈ order := by
  obtain ⟨_, _, rfl, -⟩ := h
  simp

/-- Every node of the list is kept or comes after one that is. -/
theorem exists_kept {order : List α} (hnode : node ∈ order) :
    ∃ kept, Kept step order kept ∧ ReflTransGen step kept node := by
  obtain ⟨before, after, horder⟩ := List.append_of_mem hnode
  induction hlength : before.length using Nat.strong_induction_on
    generalizing node before after with
  | _ length ih =>
      by_cases hkept : ∀ earlier ∈ before, ¬ TransGen step earlier node
      · exact ⟨node, ⟨before, after, horder, hkept⟩, .refl⟩
      · obtain ⟨earlier, hmem, hreach⟩ : ∃ earlier ∈ before, TransGen step earlier node := by
          by_contra hnone
          exact hkept fun earlier hmem hreach => hnone ⟨earlier, hmem, hreach⟩
        obtain ⟨first, second, hfirst⟩ := List.append_of_mem hmem
        obtain ⟨kept, hkept, hbefore⟩ := ih first.length
          (by rw [← hlength, hfirst, List.length_append, List.length_cons]; omega)
          (horder ▸ List.mem_append_left _ hmem) first (second ++ node :: after)
          (by rw [horder, hfirst, List.append_assoc, List.cons_append]) rfl
        exact ⟨kept, hkept, hbefore.trans hreach.to_reflTransGen⟩

/-- What is kept of a longer list. -/
theorem kept_append_singleton {order : List α} {last : α} :
    Kept step (order ++ [last]) node ↔ Kept step order node ∨
      (node = last ∧ ∀ earlier ∈ order, ¬ TransGen step earlier last) := by
  constructor
  · rintro ⟨before, after, horder, hbefore⟩
    rcases List.eq_nil_or_concat after with rfl | ⟨rest, other, rfl⟩
    · obtain ⟨rfl, heq⟩ := List.append_inj' horder rfl
      obtain rfl : last = node := by simpa using heq
      exact .inr ⟨rfl, hbefore⟩
    · rw [List.concat_eq_append, ← List.cons_append, ← List.append_assoc] at horder
      obtain ⟨rfl, -⟩ := List.append_inj' horder rfl
      exact .inl ⟨before, rest, rfl, hbefore⟩
  · rintro (⟨before, after, rfl, hbefore⟩ | ⟨rfl, hbefore⟩)
    · exact ⟨before, after ++ [last], by simp, hbefore⟩
    · exact ⟨order, [], rfl, hbefore⟩

end Gino.Graph
