import Gino.Graph.Levels
import Gino.Machine.Loop
import Gino.Machine.Traversal

/-!
# What breadth-first searches find first

A search takes items from a queue and finds the successors that were not found before. It finds
them in the order of their first accesses, level by level (`search_turns`), so of two items that
comes first whose first access does (`precedes_fresh`).
-/

namespace Gino.Machine

open Relation Graph

variable {α : Type*}

/-! ## Precedence in lists -/

/-- Every occurrence of the second item is after one of the first. -/
def Precedes (items : List α) (first second : α) : Prop :=
  ∀ before after, items = before ++ second :: after → first ∈ before

/-- An item that occurs in the first part precedes what does not. -/
theorem precedes_append_left {left right : List α} {first second : α} (hfirst : first ∈ left)
    (hsecond : second ∉ left) : Precedes (left ++ right) first second := by
  intro before after heq
  rcases List.append_eq_append_iff.mp heq with ⟨middle, rfl, -⟩ | ⟨middle, rfl, hmiddle⟩
  · exact List.mem_append_left _ hfirst
  · cases middle with
    | nil => simpa using hfirst
    | cons item rest =>
        obtain ⟨rfl, -⟩ := List.cons.inj hmiddle
        simp at hsecond

/-- Items that only occur in the second part precede each other as they do there. -/
theorem precedes_append_right {left right : List α} {first second : α} (hfirst : first ∉ left)
    (hsecond : second ∉ left) :
    Precedes (left ++ right) first second ↔ Precedes right first second := by
  constructor
  · intro h before after heq
    have hmem := h (left ++ before) after (by rw [heq, List.append_assoc])
    exact (List.mem_append.mp hmem).resolve_left hfirst
  · intro h before after heq
    rcases List.append_eq_append_iff.mp heq with ⟨middle, rfl, hmiddle⟩ | ⟨middle, rfl, hmiddle⟩
    · exact List.mem_append_right _ (h middle after hmiddle)
    · cases middle with
      | nil => exact (List.not_mem_nil (h [] after (by simpa using hmiddle.symm))).elim
      | cons item rest =>
          obtain ⟨rfl, -⟩ := List.cons.inj hmiddle
          simp at hsecond

/-- The images of items precede each other as the items do. -/
theorem precedes_map {β : Type*} {f : α → β} (hf : Function.Injective f) {items : List α}
    {first second : α} :
    Precedes (items.map f) (f first) (f second) ↔ Precedes items first second := by
  constructor
  · intro h before after heq
    have hmem := h (before.map f) (after.map f) (by rw [heq, List.map_append, List.map_cons])
    exact (List.mem_map_of_injective hf).mp hmem
  · intro h before after heq
    obtain ⟨before', rest, rfl, rfl, hrest⟩ := List.map_eq_append_iff.mp heq
    obtain ⟨second', after', rfl, hsecond, rfl⟩ := List.map_eq_cons_iff.mp hrest
    exact List.mem_map_of_mem (h before' after' (by rw [hf hsecond]))

/-- An item that precedes another one in a list comes after it in the reverse of the list. -/
theorem Precedes.of_reverse {items : List α} {first second : α} (hnodup : items.Nodup)
    (hsecond : second ∈ items) (hne : first ≠ second)
    (h : Precedes items.reverse first second) : Precedes items second first := by
  intro before after heq
  rw [heq, List.mem_append, List.mem_cons] at hsecond
  rcases hsecond with hbefore | hsame | hafter
  · exact hbefore
  · exact (hne hsame.symm).elim
  · obtain ⟨middle, last, rfl⟩ := List.append_of_mem hafter
    have hmem := h last.reverse (middle.reverse ++ first :: before.reverse) (by simp [heq])
    rw [heq] at hnodup
    simp only [List.nodup_append, List.nodup_cons, List.mem_append, List.mem_cons,
      List.mem_reverse] at hnodup hmem
    exact (hnodup.2.1.1 (.inr (.inr hmem))).elim

/-- Precedence in the reverse of a list is the opposite one. -/
theorem precedes_reverse {items : List α} {first second : α} (hnodup : items.Nodup)
    (hfirst : first ∈ items) (hsecond : second ∈ items) (hne : first ≠ second) :
    Precedes items.reverse first second ↔ Precedes items second first := by
  constructor
  · exact Precedes.of_reverse hnodup hsecond hne
  · intro h
    rw [← List.reverse_reverse items] at h
    exact h.of_reverse (List.nodup_reverse.mpr hnodup) (List.mem_reverse.mpr hfirst) hne.symm

section Fresh

variable [DecidableEq α]

/-- The fresh items of two lists, where those of the first are not fresh in the second. -/
theorem fresh_append_items (marked items others : List α) :
    fresh marked (items ++ others) = fresh marked items ++ fresh (marked ++ items) others := by
  induction items generalizing marked with
  | nil => simp [fresh]
  | cons item rest ih =>
      by_cases hitem : item ∈ marked
      · have hmarks : ∀ other, other ∈ marked ++ rest ↔ other ∈ marked ++ item :: rest := by
          intro other
          simp only [List.mem_append, List.mem_cons]
          constructor
          · exact fun h => h.imp_right .inr
          · rintro (hother | rfl | hother)
            · exact .inl hother
            · exact .inl hitem
            · exact .inr hother
        rw [List.cons_append, fresh, fresh, if_pos hitem, if_pos hitem, ih, fresh_congr hmarks]
      · have hmarks : ∀ other, other ∈ item :: marked ++ rest ↔ other ∈ marked ++ item :: rest := by
          intro other
          simp only [List.mem_append, List.mem_cons]
          tauto
        rw [List.cons_append, fresh, fresh, if_neg hitem, if_neg hitem, ih, fresh_congr hmarks]
        rfl

/-- What is marked is not fresh. -/
theorem fresh_eq_nil {marked items : List α} (h : ∀ item ∈ items, item ∈ marked) :
    fresh marked items = [] := by
  refine List.eq_nil_iff_forall_not_mem.mpr fun item hitem => ?_
  obtain ⟨hmem, hnot⟩ := mem_fresh.mp hitem
  exact hnot (h item hmem)

/-- A fresh item is fresh where it occurs first. -/
theorem exists_of_fresh_eq {items before after : List α} {item : α} {marked : List α}
    (h : fresh marked items = before ++ item :: after) :
    ∃ earlier later, items = earlier ++ item :: later ∧ before = fresh marked earlier := by
  induction items generalizing marked before with
  | nil => simp [fresh] at h
  | cons first rest ih =>
      rw [fresh] at h
      split_ifs at h with hmem
      · obtain ⟨earlier, later, rfl, rfl⟩ := ih h
        exact ⟨first :: earlier, later, rfl, by rw [fresh, if_pos hmem]⟩
      · cases before with
        | nil =>
            obtain ⟨rfl, -⟩ := List.cons.inj h
            exact ⟨[], rest, rfl, rfl⟩
        | cons other before =>
            obtain ⟨rfl, hrest⟩ := List.cons.inj h
            obtain ⟨earlier, later, rfl, rfl⟩ := ih hrest
            exact ⟨first :: earlier, later, rfl, by rw [fresh, if_neg hmem]⟩

/-- Of two items that comes first which occurs first. -/
theorem precedes_fresh {items : List α} {first second : α} :
    Precedes (fresh [] items) first second ↔ Precedes items first second := by
  constructor
  · intro h before after heq
    obtain ⟨earlier, later, hsplit, hnot⟩ :=
      List.eq_append_cons_of_mem (heq ▸ List.mem_append_right _ List.mem_cons_self : second ∈ items)
    have hfirst : fresh [] items =
        fresh [] earlier ++ second :: fresh (second :: earlier) later := by
      rw [hsplit, fresh_append_items, List.nil_append, fresh, if_neg hnot]
    have hmem := (mem_fresh.mp (h _ _ hfirst)).1
    -- The first occurrence of the second item is not after this one.
    rw [heq] at hsplit
    rcases List.append_eq_append_iff.mp hsplit with ⟨middle, rfl, hmiddle⟩ | ⟨middle, rfl, -⟩
    · cases middle with
      | nil => simpa using hmem
      | cons item rest =>
          obtain ⟨rfl, -⟩ := List.cons.inj hmiddle
          simp at hnot
    · exact List.mem_append_left _ hmem
  · intro h before after heq
    obtain ⟨earlier, later, rfl, rfl⟩ := exists_of_fresh_eq heq
    exact mem_fresh.mpr ⟨h earlier later rfl, List.not_mem_nil⟩

end Fresh

/-! ## Searches -/

/-- The items that are a number of steps behind some items, once for every way to them. -/
def level (next : α → List α) : Nat → List α → List α
  | 0, items => items
  | steps + 1, items => level next steps (items.flatMap next)

/-- The items of the first levels, level by level. -/
def accesses (next : α → List α) : Nat → List α → List α
  | 0, _ => []
  | levels + 1, items => items ++ accesses next levels (items.flatMap next)

/-- One more level. -/
theorem accesses_succ (next : α → List α) (levels : Nat) (items : List α) :
    accesses next (levels + 1) items = accesses next levels items ++ level next levels items := by
  induction levels generalizing items with
  | zero => simp [accesses, level]
  | succ levels ih =>
      rw [accesses, ih, accesses, level, List.append_assoc]

/-- The successors of an access are accesses. -/
theorem mem_accesses_succ {next : α → List α} {levels : Nat} {items : List α} {item after : α}
    (hitem : item ∈ accesses next levels items) (hafter : after ∈ next item) :
    after ∈ accesses next (levels + 1) items := by
  induction levels generalizing items with
  | zero => simp [accesses] at hitem
  | succ levels ih =>
      rw [accesses]
      refine List.mem_append_right _ ?_
      rcases List.mem_append.mp hitem with hfirst | hrest
      · exact List.mem_append_left _ (List.mem_flatMap.mpr ⟨item, hfirst, hafter⟩)
      · exact ih hrest

/-- What is accessed is reached. -/
theorem exists_of_mem_accesses {next : α → List α} {levels : Nat} {items : List α} {item : α}
    (hitem : item ∈ accesses next levels items) :
    ∃ first ∈ items, ReflTransGen (fun item after => after ∈ next item) first item := by
  induction levels generalizing items with
  | zero => simp [accesses] at hitem
  | succ levels ih =>
      rcases List.mem_append.mp hitem with hfirst | hrest
      · exact ⟨item, hfirst, .refl⟩
      · obtain ⟨after, hafter, hreach⟩ := ih hrest
        obtain ⟨first, hfirst, hstep⟩ := List.mem_flatMap.mp hafter
        exact ⟨first, hfirst, .head hstep hreach⟩

/-- Where a level is empty, the levels before it have all that is reached. -/
theorem mem_accesses_iff {next : α → List α} {levels : Nat} {items : List α}
    (hend : level next levels items = []) {item : α} :
    item ∈ accesses next levels items ↔
      ∃ first ∈ items, ReflTransGen (fun item after => after ∈ next item) first item := by
  have hsame : accesses next (levels + 1) items = accesses next levels items := by
    rw [accesses_succ, hend, List.append_nil]
  constructor
  · exact exists_of_mem_accesses
  · intro ⟨first, hfirst, hreach⟩
    induction hreach with
    | refl =>
        rw [← hsame]
        exact List.mem_append_left _ hfirst
    | tail _ hstep ih =>
        rw [← hsame]
        exact mem_accesses_succ ih hstep

/-- Behind no items there are none. -/
theorem level_nil (next : α → List α) (levels : Nat) : level next levels [] = [] := by
  induction levels with
  | zero => rfl
  | succ levels ih => exact ih

/-- Where no item is on a cycle, there are at most as many levels as items that are reached. -/
theorem level_eq_nil [Finite α] {next : α → List α}
    (hacyclic : ∀ item, ¬ OnCycle (fun item after => after ∈ next item) item) {levels : Nat}
    {items : List α}
    (hlevels : (reach (fun item after => after ∈ next item) {item | item ∈ items}).ncard ≤ levels) :
    level next levels items = [] := by
  induction levels generalizing items with
  | zero =>
      have hempty := (Set.ncard_eq_zero (Set.toFinite _)).mp (Nat.le_zero.mp hlevels)
      refine List.eq_nil_iff_forall_not_mem.mpr fun item hitem => ?_
      have hreach : item ∈ reach (fun item after => after ∈ next item) {item | item ∈ items} :=
        ⟨item, hitem, .refl⟩
      rw [hempty] at hreach
      exact hreach
  | succ levels ih =>
      cases items with
      | nil => exact level_nil next (levels + 1)
      | cons first rest =>
          have hstep : ∀ item ∈ {item | item ∈ (first :: rest).flatMap next},
              ∃ source ∈ {item | item ∈ first :: rest}, item ∈ next source := by
            intro item hitem
            obtain ⟨source, hsource, hafter⟩ := List.mem_flatMap.mp hitem
            exact ⟨source, hsource, hafter⟩
          have hless := ncard_reach_lt (fun item _ => hacyclic item) ⟨first, List.mem_cons_self⟩
            hstep
          exact ih (by omega)

section Search

variable [DecidableEq α] (next : α → List α)

/-- One turn of a search, with its queue and what it has found. -/
def searchStep (state : List α × List α) : Option (List α × List α) :=
  match state.1 with
  | [] => none
  | item :: queue =>
      some (queue ++ fresh state.2 (next item), state.2 ++ fresh state.2 (next item))

variable {next}

/-- A search takes its whole queue before it takes what it finds. -/
theorem search_queue (queue later found : List α) :
    ReflTransGen (Turn (searchStep next)) (queue ++ later, found)
      (later ++ fresh found (queue.flatMap next), found ++ fresh found (queue.flatMap next)) := by
  induction queue generalizing later found with
  | nil => simpa [fresh] using ReflTransGen.refl
  | cons item rest ih =>
      have hrest := ih (later ++ fresh found (next item)) (found ++ fresh found (next item))
      have hmarks : ∀ other, other ∈ found ++ fresh found (next item) ↔
          other ∈ found ++ next item := by
        intro other
        simp only [List.mem_append, mem_fresh]
        tauto
      rw [fresh_congr hmarks, ← List.append_assoc, List.append_assoc later,
        List.append_assoc found, ← fresh_append_items] at hrest
      exact .head rfl hrest

/-- Successors of marked items, and of items that come again, are not found again. -/
theorem fresh_flat_map_fresh {done items found : List α}
    (hdone : ∀ item ∈ done, ∀ after ∈ next item, after ∈ found) :
    fresh found ((fresh done items).flatMap next) = fresh found (items.flatMap next) := by
  induction items generalizing done found with
  | nil => rfl
  | cons item rest ih =>
      rw [fresh, List.flatMap_cons, fresh_append_items]
      split_ifs with hitem
      · rw [fresh_eq_nil (hdone item hitem), List.nil_append, ih hdone, fresh_congr fun other => ?_]
        rw [List.mem_append]
        exact ⟨.inl, fun h => h.elim id fun h => hdone item hitem other h⟩
      · rw [List.flatMap_cons, fresh_append_items, ih]
        intro other hother after hafter
        rcases List.mem_cons.mp hother with rfl | hother
        · exact List.mem_append_right _ hafter
        · exact List.mem_append_left _ (hdone other hother after hafter)

/-- A search from what it has just found ends, and finds what comes first in the accesses. -/
theorem search_levels {levels : Nat} {done items : List α}
    (hdone : ∀ item ∈ done, ∀ after ∈ next item, after ∈ done ++ items)
    (hend : level next levels items = []) :
    ReflTransGen (Turn (searchStep next)) (fresh done items, done ++ fresh done items)
      ([], done ++ fresh done (accesses next levels items)) := by
  induction levels generalizing done items with
  | zero =>
      obtain rfl : items = [] := hend
      exact .refl
  | succ levels ih =>
      have hmarks : ∀ item, item ∈ done ++ fresh done items ↔ item ∈ done ++ items := by
        intro item
        simp only [List.mem_append, mem_fresh]
        tauto
      -- The search takes what is queued of this level before what it pushes, the next level.
      have hturns : ReflTransGen (Turn (searchStep next)) _ _ :=
        search_queue (fresh done items) [] (done ++ fresh done items)
      rw [fresh_flat_map_fresh fun item hitem after hafter =>
        (hmarks after).mpr (hdone item hitem after hafter), List.append_nil,
        List.nil_append] at hturns
      have hnext : ∀ item ∈ done ++ fresh done items, ∀ after ∈ next item,
          after ∈ done ++ fresh done items ++ items.flatMap next := by
        intro item hitem after hafter
        rw [List.mem_append, hmarks]
        rcases List.mem_append.mp ((hmarks item).mp hitem) with hbefore | hnew
        · exact .inl (hdone item hbefore after hafter)
        · exact .inr (List.mem_flatMap.mpr ⟨item, hnew, hafter⟩)
      have hlater := hturns.trans (ih hnext hend)
      rwa [fresh_congr hmarks, List.append_assoc, ← fresh_append_items] at hlater

/-- A search finds what its items lead to, in the order of the first accesses. -/
theorem search_turns {levels : Nat} {items : List α}
    (hend : level next levels (items.flatMap next) = []) :
    ReflTransGen (Turn (searchStep next)) (items, [])
      ([], fresh [] (accesses next levels (items.flatMap next))) := by
  have hturns : ReflTransGen (Turn (searchStep next)) _ _ := search_queue items [] []
  rw [List.append_nil, List.nil_append] at hturns
  exact hturns.trans (search_levels (fun item hitem => (List.not_mem_nil hitem).elim) hend)

end Search

end Gino.Machine
