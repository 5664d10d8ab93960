import Mathlib.Data.List.Basic

/-!
# Splicing a vector in place

A vector is spliced in place in three steps: it is resized, what comes after the index is shifted to
its end, and the gap is overwritten. `splice_in_place_eq` says that this inserts the items at the
index.
-/

namespace Gino.Machine

variable {α : Type*}

/-- The shifts `xs[i] = xs[i - count]` for the given number of indices from `stop` on, the last
first. -/
def shiftRight (count stop : Nat) : Nat → List α → List α
  | 0, xs => xs
  | left + 1, xs =>
      match xs[stop + left - count]? with
      | some x => shiftRight count stop left (xs.set (stop + left) x)
      | none => shiftRight count stop left xs

/-- The writes of items to the indices from a first one on. -/
def overwrite : Nat → List α → List α → List α
  | _, [], xs => xs
  | index, item :: items, xs => overwrite (index + 1) items (xs.set index item)

/-- A vector that is resized, filled with a value, shifted from an index on, and overwritten with
items there. -/
def spliceInPlace (filler : α) (index : Nat) (items xs : List α) : List α :=
  let stop := index + items.length
  let resized := xs ++ List.replicate items.length filler
  overwrite index items (shiftRight items.length stop (resized.length - stop) resized)

/-- What the shifts leave at an index. -/
theorem getElem?_shift_right {count stop left : Nat} {xs : List α} (hcount : count ≤ stop)
    (hlength : stop + left ≤ xs.length) (index : Nat) :
    (shiftRight count stop left xs)[index]? =
      if stop ≤ index ∧ index < stop + left then xs[index - count]? else xs[index]? := by
  induction left generalizing xs with
  | zero =>
      rw [shiftRight, if_neg (by omega)]
  | succ left ih =>
      have hbound : stop + left - count < xs.length := by omega
      have hsource : xs[stop + left - count]? = some xs[stop + left - count] :=
        List.getElem?_eq_getElem hbound
      rw [shiftRight, hsource]
      dsimp only
      rw [ih (by rw [List.length_set]; omega), List.getElem?_set, List.getElem?_set]
      rcases Nat.lt_trichotomy index (stop + left) with hlt | heq | hgt
      · rw [if_neg (by omega : ¬ stop + left = index)]
        by_cases hstop : stop ≤ index
        · rw [if_pos ⟨hstop, hlt⟩, if_neg (by omega), if_pos ⟨hstop, by omega⟩]
        · rw [if_neg (by omega), if_neg (by omega)]
      · subst heq
        rw [if_neg (by omega), if_pos rfl, if_pos (by omega), if_pos ⟨by omega, by omega⟩, hsource]
      · rw [if_neg (by omega), if_neg (by omega), if_neg (by omega)]

/-- What the writes leave at an index. -/
theorem getElem?_overwrite {start : Nat} {items xs : List α}
    (hlength : start + items.length ≤ xs.length) (index : Nat) :
    (overwrite start items xs)[index]? =
      if start ≤ index ∧ index < start + items.length then items[index - start]?
      else xs[index]? := by
  induction items generalizing start xs with
  | nil => rw [overwrite, if_neg (by rw [List.length_nil]; omega)]
  | cons item items ih =>
      rw [List.length_cons] at hlength
      rw [overwrite, ih (by rw [List.length_set]; omega), List.getElem?_set, List.length_cons]
      rcases Nat.lt_trichotomy index start with hlt | rfl | hgt
      · rw [if_neg (by omega), if_neg (by omega), if_neg (by omega)]
      · rw [if_neg (by omega), if_pos rfl, if_pos (by omega), if_pos (by omega), Nat.sub_self,
          List.getElem?_cons_zero]
      · obtain ⟨offset, hoffset⟩ : ∃ offset, index - start = offset + 1 :=
          ⟨index - start - 1, by omega⟩
        have hpred : index - (start + 1) = offset := by omega
        rw [if_neg (by omega : ¬ start = index), hoffset, hpred, List.getElem?_cons_succ]
        by_cases hinside : index < start + (items.length + 1)
        · rw [if_pos (by omega), if_pos (by omega)]
        · rw [if_neg (by omega), if_neg (by omega)]

/-- The shifts keep the length. -/
theorem length_shift_right (count stop left : Nat) (xs : List α) :
    (shiftRight count stop left xs).length = xs.length := by
  induction left generalizing xs with
  | zero => rfl
  | succ left ih =>
      unfold shiftRight
      split
      · rw [ih, List.length_set]
      · exact ih xs

/-- Splicing in place inserts the items at the index. -/
theorem splice_in_place_eq (filler : α) {index : Nat} {xs : List α} (hindex : index ≤ xs.length)
    (items : List α) :
    spliceInPlace filler index items xs = xs.take index ++ items ++ xs.drop index := by
  have hresized : (xs ++ List.replicate items.length filler).length = xs.length + items.length := by
    rw [List.length_append, List.length_replicate]
  refine List.ext_getElem? fun i => ?_
  unfold spliceInPlace
  dsimp only
  rw [getElem?_overwrite (by rw [length_shift_right]; omega),
    getElem?_shift_right (by omega) (by omega), hresized, List.append_assoc]
  rcases Nat.lt_or_ge i index with hbefore | hfrom
  · rw [if_neg (by omega), if_neg (by omega), List.getElem?_append_left (by omega),
      List.getElem?_append_left (by rw [List.length_take]; omega), List.getElem?_take_of_lt hbefore]
  · have htake : (xs.take index).length = index := List.length_take_of_le hindex
    have hright : (xs.take index ++ (items ++ xs.drop index))[i]? =
        (items ++ xs.drop index)[i - index]? := by
      rw [List.getElem?_append_right (by omega), htake]
    rw [hright]
    rcases Nat.lt_or_ge i (index + items.length) with hinside | hafter
    · rw [if_pos ⟨hfrom, hinside⟩, List.getElem?_append_left (by omega)]
    · have hsource : index + (i - index - items.length) = i - items.length := by omega
      have hdrop : (items ++ xs.drop index)[i - index]? = xs[i - items.length]? := by
        rw [List.getElem?_append_right (by omega), List.getElem?_drop, hsource]
      rw [hdrop, if_neg (by omega)]
      rcases Nat.lt_or_ge i (xs.length + items.length) with hlength | hbeyond
      · rw [if_pos (by omega), List.getElem?_append_left (by omega)]
      · rw [if_neg (by omega), List.getElem?_eq_none (by omega), List.getElem?_eq_none (by omega)]

end Gino.Machine
