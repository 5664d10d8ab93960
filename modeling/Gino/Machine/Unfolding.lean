import Mathlib.Data.Fintype.Card
import Mathlib.Logic.Relation

/-!
# Unfolding lists

Every item has a list of items. When an item that does not lead back to itself is replaced in the
list of another one by the items of its own list, the items that lead back to themselves stay the
same (`Unfolds.cyclic_iff`). Such replacements come to an end: they lower a potential that the lists
at the start determine (`exists_potential`).
-/

namespace Gino.Machine

open Relation

variable {α : Type*}

/-- An item is in the list of another one. -/
def InList (lists : α → List α) (a b : α) : Prop := b ∈ lists a

/-- An item leads back to itself. -/
def Cyclic (lists : α → List α) (a : α) : Prop := TransGen (InList lists) a a

/-- One item in the list of another one is replaced by the items of its own list. The item does not
lead back to itself. -/
structure Unfolds (lists lists' : α → List α) (a b : α) : Prop where
  acyclic : ¬ Cyclic lists b
  others : ∀ c ≠ a, lists' c = lists c
  replaced : ∃ earlier later, lists a = earlier ++ b :: later ∧
    lists' a = earlier ++ lists b ++ later

/-- Some item is replaced in some list. -/
def Unfolding (lists lists' : α → List α) : Prop := ∃ a b, Unfolds lists lists' a b

/-! ## What leads where -/

section Leads

variable {lists lists' : α → List α} {a b c d : α}

/-- What leads along the new lists leads along the old ones. -/
theorem Unfolds.leads (h : Unfolds lists lists' a b) (hleads : TransGen (InList lists') c d) :
    TransGen (InList lists) c d := by
  obtain ⟨earlier, later, hbefore, hafter⟩ := h.replaced
  refine TransGen.closed (fun c d hcd => ?_) c d hleads
  by_cases hc : c = a
  · subst hc
    have hmem : d ∈ earlier ++ lists b ++ later := hafter ▸ hcd
    rw [List.mem_append, List.mem_append] at hmem
    rcases hmem with (hearlier | hin) | hlater
    · refine .single ?_
      show d ∈ lists c
      rw [hbefore]
      exact List.mem_append_left _ hearlier
    · -- The items of the unfolded list are reached through the item.
      have hb : InList lists c b := by
        show b ∈ lists c
        rw [hbefore]
        exact List.mem_append_right _ List.mem_cons_self
      exact .tail (.single hb) hin
    · refine .single ?_
      show d ∈ lists c
      rw [hbefore]
      exact List.mem_append_right _ (List.mem_cons_of_mem _ hlater)
  · exact .single (show d ∈ lists c from h.others c hc ▸ hcd)

/-- An item that leads back to itself stays in the lists that it is in. -/
theorem Unfolds.stays (h : Unfolds lists lists' a b) (hcd : InList lists c d)
    (hcyclic : Cyclic lists d) : InList lists' c d := by
  obtain ⟨earlier, later, hbefore, hafter⟩ := h.replaced
  have hne : d ≠ b := fun heq => h.acyclic (heq ▸ hcyclic)
  by_cases hc : c = a
  · subst hc
    have hmem : d ∈ earlier ++ b :: later := hbefore ▸ hcd
    rw [List.mem_append, List.mem_cons] at hmem
    show d ∈ lists' c
    rw [hafter, List.mem_append, List.mem_append]
    exact hmem.elim (fun h => .inl (.inl h)) fun h => .inr (h.resolve_left hne)
  · show d ∈ lists' c
    rw [h.others c hc]
    exact hcd

/-- The same items lead back to themselves. -/
theorem Unfolds.cyclic_iff (h : Unfolds lists lists' a b) (c : α) :
    Cyclic lists' c ↔ Cyclic lists c := by
  refine ⟨h.leads, fun hcyclic => ?_⟩
  -- Every item on the way leads back to itself, so that it stays where it is.
  have hway : ∀ d, TransGen (InList lists) c d → ReflTransGen (InList lists) d c →
      TransGen (InList lists') c d := by
    intro d hcd
    induction hcd with
    | single hstep => exact fun hback => .single (h.stays hstep (TransGen.tail' hback hstep))
    | tail hbefore hstep ih =>
        intro hback
        have hcyclic := TransGen.tail' (hback.trans hbefore.to_reflTransGen) hstep
        exact .tail (ih (.head hstep hback)) (h.stays hstep hcyclic)
  exact hway c hcyclic .refl

/-- After any unfolding the same items lead back to themselves. -/
theorem cyclic_iff_of_unfolding (h : ReflTransGen Unfolding lists lists') (c : α) :
    Cyclic lists' c ↔ Cyclic lists c := by
  induction h with
  | refl => exact Iff.rfl
  | tail _ hstep ih =>
      obtain ⟨a, b, hunfolds⟩ := hstep
      exact (hunfolds.cyclic_iff c).trans ih

end Leads

/-! ## Weights -/

/-- The weights of the items of a list together. -/
def total (weight : α → Nat) : List α → Nat
  | [] => 0
  | a :: rest => weight a + total weight rest

/-- The weight of appended lists. -/
theorem total_append (weight : α → Nat) (first second : List α) :
    total weight (first ++ second) = total weight first + total weight second := by
  induction first with
  | nil => exact (Nat.zero_add _).symm
  | cons a rest ih =>
      show weight a + total weight (rest ++ second) = weight a + total weight rest + _
      rw [ih, Nat.add_assoc]

/-- Lower weights of the items make a lower weight together. -/
theorem total_lt {weight weight' : α → Nat} {items : List α} (hle : ∀ a, weight a ≤ weight' a)
    {a : α} (ha : a ∈ items) (hlt : weight a < weight' a) :
    total weight items < total weight' items := by
  have hall : ∀ rest : List α, total weight rest ≤ total weight' rest := by
    intro rest
    induction rest with
    | nil => exact Nat.le_refl 0
    | cons b rest ih => exact Nat.add_le_add (hle b) ih
  induction items with
  | nil => cases ha
  | cons b rest ih =>
      rcases List.mem_cons.mp ha with rfl | hrest
      · exact Nat.add_lt_add_of_lt_of_le hlt (hall rest)
      · exact Nat.add_lt_add_of_le_of_lt (hle b) (ih hrest)

/-- An item that does not lead back to itself weighs more than its list. -/
def Weighs (weight : α → Nat) (lists : α → List α) : Prop :=
  ∀ a, ¬ Cyclic lists a → total weight (lists a) < weight a

section Weights

variable {weight : α → Nat} {lists lists' : α → List α} {a b : α}

/-- Unfolding an item makes the list lighter. -/
theorem Unfolds.total_lt (h : Unfolds lists lists' a b) (hweighs : Weighs weight lists) :
    total weight (lists' a) < total weight (lists a) := by
  obtain ⟨earlier, later, hbefore, hafter⟩ := h.replaced
  have hb := hweighs b h.acyclic
  have hcons : total weight (b :: later) = weight b + total weight later := rfl
  rw [hbefore, hafter, total_append, total_append, total_append, hcons]
  omega

/-- No list gets heavier. -/
theorem Unfolds.total_le (h : Unfolds lists lists' a b) (hweighs : Weighs weight lists) (c : α) :
    total weight (lists' c) ≤ total weight (lists c) := by
  by_cases hc : c = a
  · subst hc
    exact Nat.le_of_lt (h.total_lt hweighs)
  · rw [h.others c hc]

/-- The weights are those of the new lists too. -/
theorem Unfolds.weighs (h : Unfolds lists lists' a b) (hweighs : Weighs weight lists) :
    Weighs weight lists' := fun c hc =>
  Nat.lt_of_le_of_lt (h.total_le hweighs c) (hweighs c (mt (h.cyclic_iff c).mpr hc))

/-- There are such weights: an item that does not lead back to itself weighs one more than the items
of its list, and the others weigh nothing. -/
theorem exists_weight [Finite α] (lists : α → List α) : ∃ weight, Weighs weight lists := by
  classical
  -- The items that do not lead back to themselves are well-founded under being in a list.
  let below : α → α → Prop := fun b a => InList lists a b ∧ ¬ Cyclic lists b
  have hleads : ∀ {b a}, TransGen below b a →
      TransGen (InList lists) a b ∧ ¬ Cyclic lists b := by
    intro b a h
    induction h with
    | single hstep => exact ⟨.single hstep.1, hstep.2⟩
    | tail _ hstep ih => exact ⟨.head hstep.1 ih.1, ih.2⟩
  have hirrefl : Std.Irrefl (TransGen below) := ⟨fun a h => (hleads h).2 (hleads h).1⟩
  have hwf : WellFounded below := (Subrelation.wf (fun h => TransGen.single h)
    (Finite.wellFounded_of_trans_of_irrefl (TransGen below)))
  let weight : α → Nat := hwf.fix fun a ih =>
    1 + total (fun b => if h : below b a then ih b h else 0) (lists a)
  have hweight : ∀ a, weight a = 1 + total (fun b => if below b a then weight b else 0)
      (lists a) := fun a => hwf.fix_eq _ a
  refine ⟨fun a => if Cyclic lists a then 0 else weight a, fun a ha => ?_⟩
  have hsame : ∀ items : List α, (∀ b ∈ items, InList lists a b) →
      total (fun b => if Cyclic lists b then 0 else weight b) items =
        total (fun b => if below b a then weight b else 0) items := by
    intro items
    induction items with
    | nil => exact fun _ => rfl
    | cons b rest ih =>
        intro hin
        rw [List.forall_mem_cons] at hin
        show (if Cyclic lists b then 0 else weight b) + _ =
          (if below b a then weight b else 0) + _
        rw [ih hin.2]
        congr 1
        by_cases hb : Cyclic lists b
        · rw [if_pos hb, if_neg fun hbelow => hbelow.2 hb]
        · rw [if_neg hb, if_pos ⟨hin.1, hb⟩]
  show total _ (lists a) < if Cyclic lists a then 0 else weight a
  rw [if_neg ha, hweight a, hsame (lists a) fun b hb => hb]
  omega

end Weights

/-- Whatever is unfolded, from given lists on, lowers a potential. -/
theorem exists_potential [Finite α] (lists : α → List α) : ∃ potential : (α → List α) → Nat,
    ∀ lists' lists'', ReflTransGen Unfolding lists lists' → Unfolding lists' lists'' →
      potential lists'' < potential lists' := by
  obtain ⟨weight, hweight⟩ := exists_weight lists
  obtain ⟨items, -, hitems⟩ := Finite.exists_univ_list α
  refine ⟨fun lists => total (fun a => total weight (lists a)) items,
    fun lists' lists'' hrun hstep => ?_⟩
  have hweighs : Weighs weight lists' := by
    clear hstep
    induction hrun with
    | refl => exact hweight
    | tail _ hbefore ih =>
        obtain ⟨c, d, hunfolds⟩ := hbefore
        exact hunfolds.weighs ih
  obtain ⟨a, b, hunfolds⟩ := hstep
  exact total_lt (hunfolds.total_le hweighs) (hitems a) (hunfolds.total_lt hweighs)

/-- A sequence of lists, each of which some unfolding of the one before leads to, is no longer than
a bound that the first lists determine. -/
theorem exists_unfolding_bound [Finite α] (start : α → List α) :
    ∃ bound, ∀ (count : Nat) (lists : Nat → α → List α), lists 0 = start →
      (∀ i < count, TransGen Unfolding (lists i) (lists (i + 1))) → count ≤ bound := by
  obtain ⟨potential, hpotential⟩ := exists_potential start
  have hlower : ∀ {lists lists'}, ReflTransGen Unfolding start lists →
      TransGen Unfolding lists lists' → potential lists' < potential lists := by
    intro lists lists' hstart hrun
    induction hrun with
    | single hstep => exact hpotential _ _ hstart hstep
    | tail hbefore hstep ih =>
        exact Nat.lt_trans (hpotential _ _ (hstart.trans hbefore.to_reflTransGen) hstep) ih
  refine ⟨potential start, fun count lists hfirst hsteps => ?_⟩
  have hall : ∀ i ≤ count, ReflTransGen Unfolding start (lists i) ∧
      potential (lists i) + i ≤ potential start := by
    intro i
    induction i with
    | zero => exact fun _ => hfirst ▸ ⟨.refl, Nat.le_refl _⟩
    | succ i ih =>
        intro hi
        obtain ⟨hrun, hle⟩ := ih (Nat.le_of_lt hi)
        have hlt := hlower hrun (hsteps i hi)
        exact ⟨hrun.trans (hsteps i hi).to_reflTransGen, by omega⟩
  have hle := (hall count (Nat.le_refl _)).2
  omega

end Gino.Machine
