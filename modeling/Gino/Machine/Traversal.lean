import Mathlib.Data.List.Basic
import Mathlib.Data.List.Perm.Subperm
import Mathlib.Logic.Relation

/-!
# Breadth-first traversals

`traverse` visits the nodes of a graph from its roots on. It marks a node when it pushes it, and
`visit` updates a result and names the successors. What it computes is a fold over an order of the
nodes that the roots reach, each of them once (`exists_traversal_order`).
-/

namespace Gino.Machine

open Relation

variable {α ρ : Type*} [DecidableEq α]

/-- The items that are not marked, each once and in the order of their first occurrences. -/
def fresh (marked : List α) : List α → List α
  | [] => []
  | item :: items =>
      if item ∈ marked then fresh marked items else item :: fresh (item :: marked) items

/-- A traversal from a queue. It gives nothing when the fuel does not suffice. -/
def traverse (visit : ρ → α → ρ × List α) : Nat → List α → List α → ρ → Option ρ
  | _, [], _, result => some result
  | 0, _ :: _, _, _ => none
  | fuel + 1, item :: queue, marked, result =>
      let (result', next) := visit result item
      let pushed := fresh marked next
      traverse visit fuel (queue ++ pushed) (marked ++ pushed) result'

/-- An item is fresh if it occurs and is not marked. -/
@[simp]
theorem mem_fresh {marked items : List α} {item : α} :
    item ∈ fresh marked items ↔ item ∈ items ∧ item ∉ marked := by
  induction items generalizing marked with
  | nil => simp [fresh]
  | cons first rest ih =>
      unfold fresh
      split_ifs with hmarked
      · rw [ih, List.mem_cons]
        constructor
        · exact fun ⟨hrest, hout⟩ => ⟨.inr hrest, hout⟩
        · rintro ⟨rfl | hrest, hout⟩
          · exact absurd hmarked hout
          · exact ⟨hrest, hout⟩
      · rw [List.mem_cons, List.mem_cons, ih, List.mem_cons]
        by_cases hfirst : item = first
        · subst hfirst
          simp [hmarked]
        · simp [hfirst]

/-- Every fresh item is listed once. -/
theorem nodup_fresh (marked items : List α) : (fresh marked items).Nodup := by
  induction items generalizing marked with
  | nil => exact List.nodup_nil
  | cons first rest ih =>
      unfold fresh
      split_ifs with hmarked
      · exact ih marked
      · exact List.nodup_cons.mpr ⟨by simp, ih _⟩

/-- The fresh items depend on which items are marked, not on their order. -/
theorem fresh_congr {marked other : List α} (h : ∀ item, item ∈ marked ↔ item ∈ other)
    (items : List α) : fresh marked items = fresh other items := by
  induction items generalizing marked other with
  | nil => rfl
  | cons first rest ih =>
      unfold fresh
      rw [ih h, @ih (first :: marked) (first :: other) (by simp [h])]
      simp only [h]

/-- Marked items may be left out first. -/
theorem fresh_append (marked out items : List α) :
    fresh (marked ++ out) items = fresh marked (items.filter (· ∉ out)) := by
  induction items generalizing marked with
  | nil => rfl
  | cons first rest ih =>
      by_cases hout : first ∈ out
      · rw [List.filter_cons_of_neg (by simpa using hout), ← ih, fresh,
          if_pos (List.mem_append_right _ hout)]
      · rw [List.filter_cons_of_pos (by simpa using hout), fresh, fresh]
        simp only [List.mem_append, hout, or_false]
        rw [ih, ← List.cons_append, ih]

/-- The items without marks are those of the list without later occurrences. -/
theorem fresh_nil_eq_erase_dups (items : List α) : fresh [] items = items.eraseDups := by
  induction hlength : items.length using Nat.strongRecOn generalizing items with
  | _ length ih =>
      cases items with
      | nil => rfl
      | cons first rest =>
          have hle := List.length_filter_le (fun item => !item == first) rest
          have hout : rest.filter (· ∉ [first]) = rest.filter (fun item => !item == first) :=
            List.filter_congr fun item _ => by
              by_cases hsame : item = first <;> simp [hsame]
          rw [List.eraseDups_cons, ← ih _ (by rw [← hlength, List.length_cons]; omega) _ rfl,
            ← hout, ← fresh_append]
          rfl

/-! ## The order of the visits -/

/-- An order of the nodes that the roots reach. -/
structure TraversalOrder (next : α → List α) (roots order : List α) : Prop where
  nodup : order.Nodup
  mem_iff : ∀ node, node ∈ order ↔
    ∃ root ∈ roots, ReflTransGen (fun item after => after ∈ next item) root node

/-- What holds of the nodes that are visited and those that wait. -/
structure TraversalInv (next : α → List α) (roots visited queue : List α) : Prop where
  nodup : (visited ++ queue).Nodup
  started : ∀ root ∈ roots, root ∈ visited ++ queue
  closed : ∀ item ∈ visited, ∀ after ∈ next item, after ∈ visited ++ queue
  reaches : ∀ item ∈ visited ++ queue,
    ∃ root ∈ roots, ReflTransGen (fun item after => after ∈ next item) root item

variable {next : α → List α} {roots visited queue : List α}

omit [DecidableEq α] in
/-- When no node waits, the visited ones are the nodes that the roots reach. -/
theorem TraversalInv.traversal_order (h : TraversalInv next roots visited []) :
    TraversalOrder next roots visited := by
  have hnodup := h.nodup
  have hroots := h.started
  have hclosed := h.closed
  have hreaches := h.reaches
  rw [List.append_nil] at hnodup hroots hclosed hreaches
  refine ⟨hnodup, fun node => ⟨hreaches node, ?_⟩⟩
  intro ⟨root, hroot, hreach⟩
  induction hreach with
  | refl => exact hroots root hroot
  | tail _ hstep ih => exact hclosed _ ih _ hstep

/-- Visiting the first node in the queue keeps the invariant. -/
theorem TraversalInv.visit {item : α} (h : TraversalInv next roots visited (item :: queue)) :
    TraversalInv next roots (visited ++ [item])
      (queue ++ fresh (visited ++ item :: queue) (next item)) := by
  have hmem : ∀ other, other ∈ visited ++ [item] ++
      (queue ++ fresh (visited ++ item :: queue) (next item)) ↔
        other ∈ visited ++ item :: queue ∨ other ∈ next item := by
    intro other
    simp only [List.mem_append, List.mem_cons, mem_fresh, List.not_mem_nil, or_false]
    tauto
  refine ⟨?_, fun root hroot => (hmem root).mpr (.inl (h.started root hroot)), ?_, ?_⟩
  · rw [← List.append_assoc, show visited ++ [item] ++ queue = visited ++ item :: queue by simp]
    refine List.nodup_append.mpr ⟨h.nodup, nodup_fresh _ _, fun other hold _ hnew heq => ?_⟩
    exact (mem_fresh.mp hnew).2 (heq ▸ hold)
  · intro other hother after hafter
    rw [hmem]
    rcases List.mem_append.mp hother with hvisited | hitem
    · exact .inl (h.closed other hvisited after hafter)
    · rw [List.mem_singleton] at hitem
      exact .inr (hitem ▸ hafter)
  · intro other hother
    rcases (hmem other).mp hother with hold | hnew
    · exact h.reaches other hold
    · obtain ⟨root, hroot, hreach⟩ := h.reaches item (by simp)
      exact ⟨root, hroot, hreach.tail hnew⟩

/-- A traversal visits the nodes that are left in some order. -/
theorem TraversalInv.exists_order {visit : ρ → α → ρ × List α}
    (hnext : ∀ result item, (visit result item).2 = next item) {items : List α}
    (hitems : ∀ root ∈ roots, ∀ item,
      ReflTransGen (fun item after => after ∈ next item) root item → item ∈ items)
    (left : Nat) {visited queue : List α}
    (h : TraversalInv next roots visited queue) (hleft : items.length ≤ left + visited.length) :
    ∃ later, TraversalOrder next roots (visited ++ later) ∧
      ∀ fuel ≥ left, ∀ marked, (∀ item, item ∈ marked ↔ item ∈ visited ++ queue) → ∀ result,
        traverse visit fuel queue marked result =
          some (later.foldl (fun result item => (visit result item).1) result) := by
  induction left generalizing visited queue with
  | zero =>
      have hlength := (List.subperm_of_subset h.nodup fun item hin => by
        obtain ⟨root, hroot, hreach⟩ := h.reaches item hin
        exact hitems root hroot item hreach).length_le
      rw [List.length_append] at hlength
      obtain rfl : queue = [] := List.eq_nil_of_length_eq_zero (by omega)
      exact ⟨[], by simpa using h.traversal_order, fun fuel _ marked _ result => by
        rw [traverse.eq_1]
        rfl⟩
  | succ left ih =>
      cases queue with
      | nil =>
          exact ⟨[], by simpa using h.traversal_order, fun fuel _ marked _ result => by
            rw [traverse.eq_1]
            rfl⟩
      | cons item queue =>
          obtain ⟨later, horder, hrun⟩ := ih h.visit (by
            rw [List.length_append, List.length_singleton]
            omega)
          refine ⟨item :: later, by simpa using horder, fun fuel hfuel marked hmarked result => ?_⟩
          obtain ⟨fuel, rfl⟩ : ∃ before, fuel = before + 1 := ⟨fuel - 1, by omega⟩
          rw [traverse]
          dsimp only
          rw [hnext, fresh_congr hmarked, List.foldl_cons]
          refine hrun fuel (by omega) _ (fun other => ?_) _
          simp only [List.mem_append, hmarked, List.mem_cons, List.not_mem_nil, or_false]
          tauto

/-- A traversal with fuel for all nodes that its roots reach visits them, each node once. -/
theorem exists_traversal_order {visit : ρ → α → ρ × List α}
    (hnext : ∀ result item, (visit result item).2 = next item) {items : List α}
    (hitems : ∀ root ∈ roots, ∀ item,
      ReflTransGen (fun item after => after ∈ next item) root item → item ∈ items)
    (hroots : roots.Nodup) :
    ∃ order, TraversalOrder next roots order ∧ ∀ fuel ≥ items.length, ∀ result,
      traverse visit fuel roots roots result =
        some (order.foldl (fun result item => (visit result item).1) result) := by
  have hinv : TraversalInv next roots [] roots :=
    ⟨by simpa using hroots, by simp, by simp, fun item hitem => ⟨item, by simpa using hitem, .refl⟩⟩
  obtain ⟨order, horder, hrun⟩ := hinv.exists_order hnext hitems items.length (by simp)
  exact ⟨order, by simpa using horder, fun fuel hfuel => hrun fuel hfuel roots (by simp)⟩

end Gino.Machine
