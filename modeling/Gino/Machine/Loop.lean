import Mathlib.Logic.Relation

/-!
# Loops with fuel

`loop` repeats a body while it gives a next state. A loop whose body decreases a measure ends, in a
state that keeps every invariant of the body (`exists_loop_end`).
-/

namespace Gino.Machine

open Relation

variable {σ : Type*}

/-- Repeat a body while it gives a next state. There is no result when the fuel does not suffice. -/
def loop (body : σ → Option σ) : Nat → σ → Option σ
  | 0, state => if (body state).isSome then none else some state
  | fuel + 1, state =>
      match body state with
      | none => some state
      | some next => loop body fuel next

/-- One turn of a loop. -/
def Turn (body : σ → Option σ) (state next : σ) : Prop := body state = some next

variable {body : σ → Option σ} {state next : σ}

/-- A loop whose body gives nothing is at its end. -/
theorem loop_end (hend : body state = none) (fuel : Nat) : loop body fuel state = some state := by
  cases fuel with
  | zero => simp [loop, hend]
  | succ fuel => simp [loop, hend]

/-- A turn takes one unit of fuel. -/
theorem loop_turn (hturn : Turn body state next) (fuel : Nat) :
    loop body (fuel + 1) state = loop body fuel next := by
  rw [loop, show body state = some next from hturn]

/-- A loop that comes to its end gives the state there when the fuel suffices. -/
theorem exists_loop_turns {last : σ} (hturns : ReflTransGen (Turn body) state last)
    (hend : body last = none) : ∃ turns, ∀ fuel ≥ turns, loop body fuel state = some last := by
  induction hturns using ReflTransGen.head_induction_on with
  | refl => exact ⟨0, fun fuel _ => loop_end hend fuel⟩
  | head hturn _ ih =>
      obtain ⟨turns, hrun⟩ := ih
      refine ⟨turns + 1, fun fuel hfuel => ?_⟩
      obtain ⟨rest, rfl⟩ : ∃ rest, fuel = rest + 1 := ⟨fuel - 1, by omega⟩
      rw [loop_turn hturn]
      exact hrun rest (by omega)

/-- A loop whose body keeps an invariant and decreases a measure ends with the invariant. -/
theorem exists_loop_end (Inv : σ → Prop) (measure : σ → Nat)
    (hbody : ∀ state next, Inv state → Turn body state next →
      Inv next ∧ measure next < measure state)
    (hstart : Inv state) :
    ∃ last, (∀ fuel ≥ measure state, loop body fuel state = some last) ∧ Inv last ∧
      body last = none ∧ ReflTransGen (Turn body) state last := by
  induction hsize : measure state using Nat.strongRecOn generalizing state with
  | _ size ih =>
      cases hturn : body state with
      | none => exact ⟨state, fun fuel _ => loop_end hturn fuel, hstart, hturn, .refl⟩
      | some next =>
          obtain ⟨hnext, hless⟩ := hbody state next hstart hturn
          obtain ⟨last, hrun, hlast, hend, hturns⟩ := ih (measure next) (hsize ▸ hless) hnext rfl
          refine ⟨last, fun fuel hfuel => ?_, hlast, hend, .head hturn hturns⟩
          obtain ⟨rest, rfl⟩ : ∃ rest, fuel = rest + 1 := ⟨fuel - 1, by omega⟩
          rw [loop_turn hturn]
          exact hrun rest (by omega)

end Gino.Machine
