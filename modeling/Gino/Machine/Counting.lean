import Mathlib.Data.List.Count
import Mathlib.Data.List.Dedup
import Mathlib.Data.List.Perm.Basic

/-!
# Counting in lists

When exactly one element of a list counts, and how the count of a list bounds that of the list of
what its elements lead to (`countP_flatMap_eq`, `countP_le_flatMap`).
-/

namespace Gino.Machine

variable {α β : Type*} {p : α → Bool} {list : List α} {a b : α}

/-- A list without repetition has one element with a property that only this one has. -/
theorem countP_eq_one (hnodup : list.Nodup) (ha : a ∈ list) (hp : p a = true)
    (hunique : ∀ b ∈ list, p b = true → b = a) : list.countP p = 1 := by
  have hfilter : list.filter p = [a] := by
    refine List.perm_singleton.mp ((List.perm_ext_iff_of_nodup (hnodup.filter _)
      (List.nodup_singleton a)).mpr fun b => ?_)
    rw [List.mem_filter, List.mem_singleton]
    constructor
    · exact fun h => hunique b h.1 h.2
    · rintro rfl
      exact ⟨ha, hp⟩
  rw [List.countP_eq_length_filter, hfilter]
  rfl

/-- Elements that are the only one counted are the same. -/
theorem eq_of_countP_eq_one (h : list.countP p = 1) (ha : a ∈ list) (hpa : p a = true)
    (hb : b ∈ list) (hpb : p b = true) : a = b := by
  rw [List.countP_eq_length_filter] at h
  obtain ⟨only, honly⟩ := List.length_eq_one_iff.mp h
  have hmem : ∀ c ∈ list, p c = true → c = only := fun c hc hpc =>
    List.mem_singleton.mp (honly ▸ List.mem_filter.mpr ⟨hc, hpc⟩)
  rw [hmem a ha hpa, hmem b hb hpb]

/-- Two different elements are counted twice. -/
theorem two_le_countP (ha : a ∈ list) (hpa : p a = true) (hb : b ∈ list) (hpb : p b = true)
    (hne : a ≠ b) : 2 ≤ list.countP p := by
  have hpos : 0 < list.countP p := List.countP_pos_iff.mpr ⟨a, ha, hpa⟩
  by_contra hfew
  exact hne (eq_of_countP_eq_one (by omega) ha hpa hb hpb)

/-- Without its repetitions, a list with the elements of one in which a single one counts has a
single one too. -/
theorem countP_dedup_eq_one [DecidableEq α] {other : List α} (hmem : ∀ a, a ∈ list ↔ a ∈ other)
    (h : other.countP p = 1) : list.dedup.countP p = 1 := by
  obtain ⟨a, ha, hpa⟩ := List.countP_pos_iff.mp (Nat.lt_of_lt_of_eq Nat.zero_lt_one h.symm)
  refine countP_eq_one (List.nodup_dedup list) (List.mem_dedup.mpr ((hmem a).mpr ha)) hpa
    fun b hb hpb => ?_
  exact eq_of_countP_eq_one h ((hmem b).mp (List.mem_dedup.mp hb)) hpb ha hpa

/-- When each element leads to as many others as it counts itself, the counts agree. -/
theorem countP_flatMap_eq {q : β → Bool} {f : α → List β}
    (h : ∀ a ∈ list, (f a).countP q = if p a then 1 else 0) :
    (list.flatMap f).countP q = list.countP p := by
  induction list with
  | nil => rfl
  | cons a list ih =>
      rw [List.flatMap_cons, List.countP_append, List.countP_cons, h a List.mem_cons_self,
        ih fun b hb => h b (List.mem_cons_of_mem _ hb), Nat.add_comm]

/-- When each element that counts leads to another, there are at least as many of those. -/
theorem countP_le_flatMap {q : β → Bool} {f : α → List β}
    (h : ∀ a ∈ list, p a = true → 1 ≤ (f a).countP q) :
    list.countP p ≤ (list.flatMap f).countP q := by
  induction list with
  | nil => exact Nat.le_refl _
  | cons a list ih =>
      rw [List.flatMap_cons, List.countP_append, List.countP_cons]
      have hrest := ih fun b hb => h b (List.mem_cons_of_mem _ hb)
      split_ifs with ha
      · have := h a List.mem_cons_self ha
        omega
      · omega

/-- Elements with a value in a list have the first value of it or a later one. -/
theorem countP_mem_cons [DecidableEq β] (f : α → β) (first : β) (rest : List β)
    (list : List α) : list.countP (fun a => f a ∈ first :: rest) ≤
      list.countP (fun a => f a = first) + list.countP (fun a => f a ∈ rest) := by
  induction list with
  | nil => exact Nat.zero_le _
  | cons a list ih =>
      simp only [List.countP_cons, List.mem_cons, decide_eq_true_eq] at ih ⊢
      by_cases hfirst : f a = first
      · rw [if_pos (.inl hfirst), if_pos hfirst]
        split_ifs <;> omega
      · by_cases hrest : f a ∈ rest
        · rw [if_pos (.inr hrest), if_neg hfirst, if_pos hrest]
          omega
        · rw [if_neg (by tauto), if_neg hfirst, if_neg hrest]
          omega

end Gino.Machine
