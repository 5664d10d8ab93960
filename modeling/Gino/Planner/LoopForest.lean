import Mathlib.Data.List.Nodup

/-!
# Loop nesting forests

A forest is nothing or a tree, given by its root and the forest of its children, next to the other
trees. `NestedIn` is nesting at any depth, and `visitPreOrder` and `visitPostOrder` are the two
traversals of the compiler library, with what a visitor changes as a state.
-/

namespace Gino.Planner

/-- A forest of nested loops: the first tree, with the forest of its children, and the trees next
to it. -/
inductive LoopForest (Loop : Type*) where
  | nil
  | tree (loop : Loop) (children siblings : LoopForest Loop)
  deriving DecidableEq

namespace LoopForest

variable {Loop σ : Type*}

/-- The loops, an outer loop before the loops nested in it. -/
def loops : LoopForest Loop → List Loop
  | nil => []
  | tree loop children siblings => loop :: (children.loops ++ siblings.loops)

/-- The outermost loops. -/
def roots : LoopForest Loop → List Loop
  | nil => []
  | tree loop _ siblings => loop :: siblings.roots

/-- One loop is inside another, at any depth. -/
def NestedIn (outer inner : Loop) : LoopForest Loop → Prop
  | nil => False
  | tree loop children siblings =>
      (outer = loop ∧ inner ∈ children.loops) ∨ children.NestedIn outer inner ∨
        siblings.NestedIn outer inner

/-- Visit every loop with the loops nested directly in it, these first. -/
def visitPostOrder (visit : σ → Loop → List Loop → σ) : LoopForest Loop → σ → σ
  | nil, state => state
  | tree loop children siblings, state =>
      siblings.visitPostOrder visit
        (visit (children.visitPostOrder visit state) loop children.roots)

/-- Visit every loop, an outer loop before the loops nested in it. -/
def visitPreOrder (visit : σ → Loop → σ) : LoopForest Loop → σ → σ
  | nil, state => state
  | tree loop children siblings, state =>
      siblings.visitPreOrder visit (children.visitPreOrder visit (visit state loop))

variable {forest : LoopForest Loop}

/-- Nested loops are loops of the forest. -/
theorem NestedIn.mem {outer inner : Loop} (h : forest.NestedIn outer inner) :
    outer ∈ forest.loops ∧ inner ∈ forest.loops := by
  induction forest with
  | nil => exact h.elim
  | tree root children siblings ihChildren ihSiblings =>
      simp only [loops, List.mem_cons, List.mem_append]
      rcases h with ⟨rfl, hinner⟩ | h | h
      · exact ⟨.inl rfl, .inr (.inl hinner)⟩
      · obtain ⟨houter, hinner⟩ := ihChildren h
        exact ⟨.inr (.inl houter), .inr (.inl hinner)⟩
      · obtain ⟨houter, hinner⟩ := ihSiblings h
        exact ⟨.inr (.inr houter), .inr (.inr hinner)⟩

/-- A traversal in pre-order visits the loops in the order of `loops`. -/
theorem visit_pre_order_eq_foldl (visit : σ → Loop → σ) (state : σ) :
    forest.visitPreOrder visit state = forest.loops.foldl visit state := by
  induction forest generalizing state with
  | nil => rfl
  | tree root children siblings ihChildren ihSiblings =>
      rw [visitPreOrder, ihSiblings, ihChildren, loops, List.foldl_cons, List.foldl_append]

end LoopForest

end Gino.Planner
