import Mathlib.Data.Nat.ModEq

/-!
# Turns that rotate among a number of parties

Party `i` of `n` takes the turns `i`, `i + n`, `i + 2 * n`, and so on, so two turns of one party
that are less than `n` apart are the same turn.
-/

namespace Gino.Machine

/-- Two numbers with the same residue that are less than the modulus apart are equal. -/
theorem eq_of_mod_eq {n a b : Nat} (hmod : a % n = b % n) (hle : a ≤ b) (hlt : b < a + n) :
    a = b := by
  have hdvd : n ∣ b - a := (Nat.modEq_iff_dvd' hle).mp hmod
  have hzero := Nat.eq_zero_of_dvd_of_lt hdvd (by omega)
  omega

/-- Of two different numbers with the same residue, the larger is at least the modulus away. -/
theorem add_le_of_mod_eq {n a b : Nat} (hmod : a % n = b % n) (hlt : a < b) : a + n ≤ b := by
  by_contra hnear
  have := eq_of_mod_eq hmod hlt.le (by omega)
  omega

/-- The residue after the next turn is the successor residue, or zero after the last party. -/
theorem succ_mod_eq {n turn : Nat} (hn : 0 < n) :
    (turn + 1) % n = if turn % n + 1 < n then turn % n + 1 else 0 := by
  have hlt := Nat.mod_lt turn hn
  rw [Nat.add_mod]
  split_ifs with hnext
  · rcases Nat.lt_or_ge 1 n with hone | hone
    · rw [Nat.mod_eq_of_lt hone, Nat.mod_eq_of_lt hnext]
    · omega
  · have hlast : turn % n + 1 = n := by omega
    rcases Nat.lt_or_ge 1 n with hone | hone
    · rw [Nat.mod_eq_of_lt hone, hlast, Nat.mod_self]
    · have : n = 1 := by omega
      subst this
      simp [Nat.mod_one]

end Gino.Machine
