import Gino.Machine.Residue
import Mathlib.Data.List.Sort
import Mathlib.Order.WellFounded
import Mathlib.Tactic.Ring

/-!
# Indices dealt in chunks

The natural numbers are dealt to `parties` parties in turn, `chunk` at a time. `dealt` lists the
indices of one party in order. Every index has one party, `index / chunk % parties`, and the
indices of a party below a bound are the dealt ones up to the first beyond it.
-/

namespace Gino.Machine

/-- The party an index is dealt to. -/
def dealer (parties chunk index : Nat) : Nat := index / chunk % parties

/-- The index a party is dealt after `count` others. -/
def dealt (parties chunk party count : Nat) : Nat :=
  (count / chunk * parties + party) * chunk + count % chunk

variable {parties chunk party count : Nat}

/-- Dealing continues within a chunk, and skips the chunks of the other parties at its end. -/
theorem dealt_succ (party count : Nat) (hchunk : 0 < chunk) (hparties : 0 < parties) :
    dealt parties chunk party (count + 1) =
      if count % chunk + 1 = chunk
      then dealt parties chunk party count + 1 + (parties - 1) * chunk
      else dealt parties chunk party count + 1 := by
  have hlt := Nat.mod_lt count hchunk
  have hsplit : count + 1 = chunk * (count / chunk) + (count % chunk + 1) := by
    rw [← Nat.add_assoc, Nat.div_add_mod]
  unfold dealt
  split_ifs with hend
  · have hnext : count + 1 = chunk * (count / chunk + 1) := by
      rw [hsplit, hend, Nat.mul_succ]
    obtain ⟨others, rfl⟩ : ∃ others, parties = others + 1 := ⟨parties - 1, by omega⟩
    rw [hnext, Nat.mul_div_cancel_left _ hchunk, Nat.mul_mod_right, Nat.add_sub_cancel]
    calc ((count / chunk + 1) * (others + 1) + party) * chunk + 0
        = (count / chunk * (others + 1) + party) * chunk + chunk + others * chunk := by ring
      _ = (count / chunk * (others + 1) + party) * chunk + count % chunk + 1 +
          others * chunk := by omega
  · have hwithin : (count % chunk + 1) / chunk = 0 := Nat.div_eq_of_lt (by omega)
    have hsame : (count + 1) / chunk = count / chunk := by
      rw [hsplit, Nat.mul_add_div hchunk, hwithin, Nat.add_zero]
    have hmod : (count + 1) % chunk = count % chunk + 1 := by
      rw [hsplit, Nat.mul_add_mod, Nat.mod_eq_of_lt (by omega)]
    rw [hsame, hmod, Nat.add_assoc]

/-- The first index of a party. -/
theorem dealt_zero : dealt parties chunk party 0 = party * chunk := by
  simp [dealt]

/-- A party's indices increase. -/
theorem dealt_strict_mono (party : Nat) (hchunk : 0 < chunk) (hparties : 0 < parties) :
    StrictMono (dealt parties chunk party) := by
  refine strictMono_nat_of_lt_succ fun count => ?_
  rw [dealt_succ _ _ hchunk hparties]
  split_ifs <;> omega

/-- A party is dealt its own indices. -/
theorem dealer_dealt (count : Nat) (hchunk : 0 < chunk) (hparty : party < parties) :
    dealer parties chunk (dealt parties chunk party count) = party := by
  have hlt := Nat.mod_lt count hchunk
  unfold dealer dealt
  rw [Nat.mul_comm _ chunk, Nat.mul_add_div hchunk, Nat.div_eq_of_lt hlt, Nat.add_zero,
    Nat.mul_comm _ parties, Nat.mul_add_mod, Nat.mod_eq_of_lt hparty]

/-- Every index of a party is dealt to it. -/
theorem exists_dealt (hchunk : 0 < chunk) {index : Nat}
    (hdealer : dealer parties chunk index = party) :
    ∃ count, dealt parties chunk party count = index := by
  have hlt := Nat.mod_lt index hchunk
  refine ⟨index / chunk / parties * chunk + index % chunk, ?_⟩
  have hchunks : (index / chunk / parties * chunk + index % chunk) / chunk =
      index / chunk / parties := by
    rw [Nat.mul_comm, Nat.mul_add_div hchunk, Nat.div_eq_of_lt hlt, Nat.add_zero]
  unfold dealt
  rw [hchunks, Nat.mul_add_mod_self_right, Nat.mod_mod, ← hdealer]
  unfold dealer
  rw [Nat.div_add_mod', Nat.div_add_mod']

/-- The indices of a party below a bound, when `count` is where they end. -/
theorem filter_dealer_eq_map (hchunk : 0 < chunk) (hparty : party < parties) {bound : Nat}
    (hbefore : ∀ earlier < count, dealt parties chunk party earlier < bound)
    (hafter : bound ≤ dealt parties chunk party count) :
    (List.range bound).filter (fun index => dealer parties chunk index = party) =
      (List.range count).map (dealt parties chunk party) := by
  have hmono := dealt_strict_mono party hchunk (Nat.zero_lt_of_lt hparty)
  refine List.Pairwise.eq_of_mem_iff (r := (· < ·)) (List.pairwise_lt_range.filter _) ?_ ?_
  · exact List.pairwise_map.mpr (List.pairwise_lt_range.imp fun hlt => hmono hlt)
  · intro index
    simp only [List.mem_filter, List.mem_range, decide_eq_true_eq, List.mem_map]
    constructor
    · rintro ⟨hbound, hdealer⟩
      obtain ⟨other, rfl⟩ := exists_dealt hchunk hdealer
      exact ⟨other, hmono.lt_iff_lt.mp (by omega), rfl⟩
    · rintro ⟨other, hother, rfl⟩
      exact ⟨hbefore other hother, dealer_dealt _ hchunk hparty⟩

/-- A party is dealt indices beyond every bound. -/
theorem exists_first_dealt (party : Nat) (hchunk : 0 < chunk) (hparties : 0 < parties)
    (bound : Nat) :
    ∃ count ≤ bound, bound ≤ dealt parties chunk party count ∧
      ∀ earlier < count, dealt parties chunk party earlier < bound := by
  have hmono := dealt_strict_mono party hchunk hparties
  have hreach : ∃ count, bound ≤ dealt parties chunk party count := ⟨bound, hmono.le_apply⟩
  classical
  refine ⟨Nat.find hreach, Nat.find_min' hreach (hmono.le_apply), Nat.find_spec hreach,
    fun earlier hearlier => ?_⟩
  have := Nat.find_min hreach hearlier
  omega

/-- The first index dealt at or beyond a bound comes before the other ones beyond it. -/
theorem first_dealt_le (hchunk : 0 < chunk) (hparty : party < parties) {bound index : Nat}
    (hbefore : ∀ earlier < count, dealt parties chunk party earlier < bound)
    (hbound : bound ≤ index) (hdealer : dealer parties chunk index = party) :
    dealt parties chunk party count ≤ index := by
  obtain ⟨other, rfl⟩ := exists_dealt hchunk hdealer
  refine (dealt_strict_mono party hchunk (Nat.zero_lt_of_lt hparty)).monotone
    (Nat.le_of_not_lt fun hlt => ?_)
  have := hbefore other hlt
  omega

/-- The first index dealt at or beyond a bound is the bound itself or starts a chunk, one of the
next ones in turn. -/
theorem first_dealt_eq (hchunk : 0 < chunk) (hparty : party < parties) {bound : Nat}
    (hbefore : ∀ earlier < count, dealt parties chunk party earlier < bound)
    (hafter : bound ≤ dealt parties chunk party count) :
    dealt parties chunk party count = bound ∨ ∃ next, bound / chunk < next ∧
      next < bound / chunk + parties ∧ dealt parties chunk party count = next * chunk := by
  have hfirst : ∀ index, bound ≤ index → dealer parties chunk index = party →
      dealt parties chunk party count ≤ index := fun _ => first_dealt_le hchunk hparty hbefore
  have howner := dealer_dealt count hchunk hparty
  generalize dealt parties chunk party count = index at *
  rcases Nat.lt_or_eq_of_le hafter with hbeyond | heq
  · right
    have hsplit := Nat.div_add_mod' index chunk
    have hmod := Nat.mod_lt index hchunk
    have hbound_split := Nat.div_add_mod' bound chunk
    have hbound_mod := Nat.mod_lt bound hchunk
    -- The bound's own chunk belongs to another party, else the bound would come first.
    have hother : dealer parties chunk bound ≠ party := fun hsame => by
      have := hfirst bound le_rfl hsame
      omega
    have hchunks : bound / chunk < index / chunk := by
      refine lt_of_le_of_ne (Nat.div_le_div_right hbeyond.le) fun hsame => hother ?_
      rw [← howner]
      unfold dealer
      rw [hsame]
    have hnext : (bound / chunk + 1) * chunk ≤ index / chunk * chunk :=
      Nat.mul_le_mul_right _ hchunks
    have hstart : index = index / chunk * chunk := by
      have hle := hfirst (index / chunk * chunk) (by rw [Nat.succ_mul] at hnext; omega) (by
        rw [← howner]
        unfold dealer
        rw [Nat.mul_div_cancel _ hchunk])
      omega
    refine ⟨index / chunk, hchunks, ?_, hstart⟩
    by_contra hfar
    have hge : bound / chunk + parties ≤ index / chunk := by omega
    have hround : (index / chunk - parties) % parties = index / chunk % parties := by
      rw [← Nat.add_mod_right (index / chunk - parties),
        Nat.sub_add_cancel ((Nat.le_add_left _ _).trans hge)]
    have hsame : dealer parties chunk ((index / chunk - parties) * chunk) = party := by
      rw [← howner]
      unfold dealer
      rw [Nat.mul_div_cancel _ hchunk, hround]
    rcases Nat.lt_or_eq_of_le (Nat.le_sub_of_add_le hge) with hlt | heq
    · have hfits : (bound / chunk + 1) * chunk ≤ (index / chunk - parties) * chunk :=
        Nat.mul_le_mul_right _ hlt
      have hle := hfirst _ (by rw [Nat.succ_mul] at hfits; omega) hsame
      have hless : (index / chunk - parties + 1) * chunk ≤ index / chunk * chunk :=
        Nat.mul_le_mul_right _ (Nat.sub_lt (Nat.zero_lt_of_lt hchunks) (Nat.zero_lt_of_lt hparty))
      rw [Nat.succ_mul] at hless
      omega
    · refine hother ?_
      unfold dealer
      rw [heq, hround]
      exact howner
  · exact .inl heq.symm

/-- The start of one of the next chunks in turn is the first index of its party beyond the bound. -/
theorem first_dealt_eq_start (hchunk : 0 < chunk) (hparties : 0 < parties) {bound next : Nat}
    (hparty : party = dealer parties chunk (next * chunk))
    (hbefore : ∀ earlier < count, dealt parties chunk party earlier < bound)
    (hafter : bound ≤ dealt parties chunk party count)
    (hpos : bound / chunk < next) (hlt : next < bound / chunk + parties) :
    dealt parties chunk party count = next * chunk := by
  have hparty_lt : party < parties := hparty ▸ Nat.mod_lt _ hparties
  have hstart : bound ≤ next * chunk := ((Nat.div_lt_iff_lt_mul hchunk).mp hpos).le
  refine le_antisymm (first_dealt_le hchunk hparty_lt hbefore hstart hparty.symm) ?_
  have howner : dealt parties chunk party count / chunk % parties = next % parties := by
    rw [← Nat.mul_div_cancel next hchunk]
    exact (dealer_dealt count hchunk hparty_lt).trans hparty
  have hle : bound / chunk ≤ dealt parties chunk party count / chunk :=
    Nat.div_le_div_right hafter
  have hchunks : next ≤ dealt parties chunk party count / chunk := by
    by_contra hnear
    have heq := eq_of_mod_eq howner (by omega) (by omega)
    omega
  exact (Nat.mul_le_mul_right _ hchunks).trans (Nat.div_mul_le_self _ _)

/-- A chunk a party starts at is its first one when it is among the first chunks. -/
theorem dealt_eq_start (hchunk : 0 < chunk) (hparty : party < parties) {next : Nat}
    (hstart : dealt parties chunk party count = next * chunk) : count = 0 ↔ next < parties := by
  constructor
  · rintro rfl
    rw [dealt_zero] at hstart
    rw [← Nat.eq_of_mul_eq_mul_right hchunk hstart]
    exact hparty
  · intro hnext
    unfold dealt at hstart
    have hmod : count % chunk = 0 := by
      have hmul := congrArg (· % chunk) hstart
      simpa using hmul
    rw [hmod, Nat.add_zero] at hstart
    have hchunks := Nat.eq_of_mul_eq_mul_right hchunk hstart
    have hfirst : count / chunk = 0 := by
      by_contra hne
      have := Nat.le_mul_of_pos_left parties (Nat.pos_of_ne_zero hne)
      omega
    rw [← Nat.div_add_mod count chunk, hfirst, hmod, Nat.mul_zero]

end Gino.Machine
