import Mathlib.Logic.Function.Basic

/-!
# Memo tables

`lookUp` looks up a value in a table, and computes and enters it if the table has none. A table that
was filled so gives the values that are computed (`look_up_eq`), also while it is handed through a
loop (`foldl_look_up`). A table that keeps the first value it is given for a key has that of the
first entry with the key (`foldl_enter_new`).
-/

namespace Gino.Machine

variable {α β σ τ : Type*}

/-- Look up the value of a key. If the table has none, compute it and enter it. -/
def lookUp [DecidableEq α] (compute : α → β) (table : α → Option β) (key : α) :
    β × (α → Option β) :=
  match table key with
  | some value => (value, table)
  | none => (compute key, Function.update table key (some (compute key)))

/-- The table has computed values only. -/
def Remembers (compute : α → β) (table : α → Option β) : Prop :=
  ∀ key value, table key = some value → value = compute key

/-- The empty table has no values. -/
theorem remembers_none (compute : α → β) : Remembers compute fun _ => none :=
  fun _ _ hnone => by cases hnone

section LookUp

variable [DecidableEq α] {compute : α → β} {table : α → Option β}

/-- The value that is looked up is the computed one. -/
theorem look_up_eq (h : Remembers compute table) (key : α) :
    (lookUp compute table key).1 = compute key := by
  unfold lookUp
  cases hkey : table key with
  | none => rfl
  | some value => exact h key value hkey

/-- Looking up a value enters no other values. -/
theorem Remembers.look_up (h : Remembers compute table) (key : α) :
    Remembers compute (lookUp compute table key).2 := by
  unfold Machine.lookUp
  cases hkey : table key with
  | some value => exact h
  | none =>
      intro other value hother
      dsimp only at hother
      by_cases hsame : other = key
      · rw [hsame, Function.update_self, Option.some.injEq] at hother
        rw [hsame, hother]
      · rw [Function.update_of_ne hsame] at hother
        exact h other value hother

end LookUp

/-! ## Keeping the first value -/

/-- Enter the value of a key that has none. -/
def enterNew [DecidableEq α] (table : α → Option β) (entry : α × β) : α → Option β :=
  match table entry.1 with
  | some _ => table
  | none => Function.update table entry.1 (some entry.2)

/-- The value of a key is that of its first entry, unless it had one before. -/
theorem foldl_enter_new [DecidableEq α] (entries : List (α × β)) (table : α → Option β) (key : α) :
    entries.foldl enterNew table key =
      (table key).or ((entries.find? fun entry => entry.1 = key).map Prod.snd) := by
  induction entries generalizing table with
  | nil => simp
  | cons entry rest ih =>
      rw [List.foldl_cons, ih, List.find?_cons]
      unfold enterNew
      by_cases hkey : entry.1 = key
      · subst hkey
        cases hold : table entry.1 with
        | none => simp
        | some value => simp [hold]
      · cases hold : table entry.1 with
        | none => simp [hkey, Function.update_of_ne (Ne.symm hkey)]
        | some value => simp [hkey]

/-! ## Handing a table through a loop -/

/-- A loop with a table computes what a loop without computes, if this is so of each of its steps.
-/
theorem foldl_look_up {items : List α} {step : σ × τ → α → σ × τ} {plain : σ → α → σ}
    (Inv : τ → Prop)
    (hstep : ∀ state table item, Inv table →
      (step (state, table) item).1 = plain state item ∧ Inv (step (state, table) item).2)
    (state : σ) {table : τ} (htable : Inv table) :
    (items.foldl step (state, table)).1 = items.foldl plain state ∧
      Inv (items.foldl step (state, table)).2 := by
  induction items generalizing state table with
  | nil => exact ⟨rfl, htable⟩
  | cons item rest ih =>
      obtain ⟨hplain, hnext⟩ := hstep state table item htable
      rw [List.foldl_cons, List.foldl_cons, ← hplain]
      exact ih (step (state, table) item).1 hnext

/-- Two results that a loop computes independently. -/
theorem foldl_pair (first : σ → α → σ) (second : τ → α → τ) (state : σ × τ) (items : List α) :
    items.foldl (fun state item => (first state.1 item, second state.2 item)) state =
      (items.foldl first state.1, items.foldl second state.2) := by
  induction items generalizing state with
  | nil => rfl
  | cons item rest ih => exact ih _

end Gino.Machine
