import Mathlib.Data.List.Infix

/-!
# Channels and the histories they carry

A channel keeps what was taken from it, so that it carries one history: the values taken, and then
those still in it (`Channel.pushed`). Two histories of one source agree where one is a prefix of
the other (`Agree`), and then what comes next in both is the same (`Agree.eq_of_concat`).
-/

namespace Gino.Machine

/-! ## Histories that agree -/

/-- One history is a prefix of the other. -/
def Agree {α : Type*} (history other : List α) : Prop := history <+: other ∨ other <+: history

namespace Agree

variable {α : Type*} {history other whole : List α}

/-- Two prefixes of one history agree. -/
theorem of_prefixes (h : history <+: whole) (hother : other <+: whole) : Agree history other :=
  List.prefix_or_prefix_of_prefix h hother

/-- A prefix of a history agrees with what agrees with it. -/
theorem of_start (h : Agree whole other) (hstart : history <+: whole) : Agree history other := by
  rcases h with hwhole | hother
  · exact .inl (hstart.trans hwhole)
  · exact of_prefixes hstart hother

/-- Histories that agree have the same values. -/
theorem get_eq (h : Agree history other) {i : Nat} {value value' : α}
    (hvalue : history[i]? = some value) (hvalue' : other[i]? = some value') : value = value' := by
  rcases h with ⟨rest, rfl⟩ | ⟨rest, rfl⟩
  · rw [List.getElem?_append_left (List.getElem?_eq_some_iff.mp hvalue).1, hvalue] at hvalue'
    exact Option.some.inj hvalue'
  · rw [List.getElem?_append_left (List.getElem?_eq_some_iff.mp hvalue').1, hvalue'] at hvalue
    exact (Option.some.inj hvalue).symm

/-- The next value is the same in two histories that agree. -/
theorem eq_of_concat (h : Agree whole other) {value value' : α}
    (hvalue : history ++ [value] <+: whole) (hvalue' : history ++ [value'] <+: other) :
    value = value' := by
  obtain ⟨rest, rfl⟩ := hvalue
  obtain ⟨rest', rfl⟩ := hvalue'
  refine h.get_eq (i := history.length) ?_ ?_
  · simp
  · simp

end Agree

/-! ## Channels -/

/-- A FIFO channel, with the values that were taken from it. -/
structure Channel (α : Type*) where
  popped : List α
  contents : List α

namespace Channel

variable {α : Type*} (channel : Channel α)

/-- A channel that nothing went through. -/
def empty : Channel α := ⟨[], []⟩

/-- Every value that was put into the channel. -/
def pushed : List α := channel.popped ++ channel.contents

/-- Put a value into the channel. -/
def push (value : α) : Channel α := ⟨channel.popped, channel.contents ++ [value]⟩

/-- Take the first value of the channel. -/
def pop : Option (α × Channel α) :=
  match channel.contents with
  | [] => none
  | value :: rest => some (value, ⟨channel.popped ++ [value], rest⟩)

variable {channel}

@[simp] theorem pushed_empty : (empty : Channel α).pushed = [] := rfl

@[simp] theorem popped_empty : (empty : Channel α).popped = [] := rfl

/-- A value that is put into the channel is the last of its history. -/
@[simp] theorem pushed_push (value : α) : (channel.push value).pushed = channel.pushed ++ [value] :=
  (List.append_assoc _ _ _).symm

/-- Nothing is taken by putting a value. -/
@[simp] theorem popped_push (value : α) : (channel.push value).popped = channel.popped := rfl

/-- What was taken is the start of what was put. -/
theorem popped_prefix_pushed : channel.popped <+: channel.pushed := List.prefix_append _ _

/-- What a channel gives is the next value of its history. -/
theorem pop_eq_some {value : α} {after : Channel α} (h : channel.pop = some (value, after)) :
    after.popped = channel.popped ++ [value] ∧ after.pushed = channel.pushed := by
  unfold pop at h
  split at h
  · cases h
  · case _ first rest hcontents =>
      cases h
      refine ⟨rfl, ?_⟩
      unfold pushed
      rw [hcontents, List.append_assoc]
      rfl

end Channel

end Gino.Machine
