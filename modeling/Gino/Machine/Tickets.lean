import Gino.Machine.System
import Mathlib.Algebra.Order.BigOperators.Group.Finset

/-!
# Processes that take turns at their cells

Numbered processes share cells. A process enters a cell only when the turn of the cell is its own
number, and leaving a cell passes the turn on, so process `j` finds in a cell what process `j - 1`
left there, however the processes interleave. `InOrder` describes the run of one process after
another. `TicketRun.invariant` says that in every interleaving each process is somewhere in that
run, and `TicketRun.bounded` that no interleaving is longer than the run in order.
-/

namespace Gino.Machine

/-- Where a process is with respect to a cell. -/
inductive Stage where
  | before
  | inside
  | after
  deriving DecidableEq

/-- What a process does next. Entering a cell a second time does nothing. -/
inductive Action (Cell Private Content : Type*) where
  | compute (next : Private)
  | enter (cell : Cell) (next : Private)
  | leave (cell : Cell) (next : Private)
  | access (cell : Cell) (effect : Content → Private × Content)
  | halt

/-- Where each process starts and what it does in each private state. -/
structure Processes (Cell Private Content : Type*) where
  start : Nat → Private
  action : Private → Action Cell Private Content

section Solo

variable {Cell Private Content : Type*} [DecidableEq Cell]

/-- One process on its own: its private state, the cells and its stage at each of them. -/
structure Solo (Cell Private Content : Type*) where
  control : Private
  memory : Cell → Content
  stage : Cell → Stage

/-- A step of one process on its own. There is none when it touches or leaves a cell that it is not
inside of, or once it has halted. -/
def Processes.alone (processes : Processes Cell Private Content)
    (solo : Solo Cell Private Content) : Option (Solo Cell Private Content) :=
  match processes.action solo.control with
  | .compute next => some { solo with control := next }
  | .enter cell next =>
      if solo.stage cell = .before then
        some { solo with control := next, stage := Function.update solo.stage cell .inside }
      else some { solo with control := next }
  | .leave cell next =>
      if solo.stage cell = .inside then
        some { solo with control := next, stage := Function.update solo.stage cell .after }
      else none
  | .access cell effect =>
      if solo.stage cell = .inside then
        some { solo with
          control := (effect (solo.memory cell)).1
          memory := Function.update solo.memory cell (effect (solo.memory cell)).2 }
      else none
  | .halt => none

/-- This many steps of one process on its own. -/
def Processes.aloneFor (processes : Processes Cell Private Content) :
    Nat → Solo Cell Private Content → Option (Solo Cell Private Content)
  | 0, solo => some solo
  | steps + 1, solo => (processes.aloneFor steps solo).bind processes.alone

variable {processes : Processes Cell Private Content} {solo next : Solo Cell Private Content}

/-- What a step of one process does to a cell. -/
theorem alone_at (h : processes.alone solo = some next) (cell : Cell) :
    (next.stage cell = solo.stage cell ∧
        (solo.stage cell ≠ .inside → next.memory cell = solo.memory cell)) ∨
      (solo.stage cell = .before ∧ next.stage cell = .inside ∧
        next.memory cell = solo.memory cell) ∨
      (solo.stage cell = .inside ∧ next.stage cell = .after ∧
        next.memory cell = solo.memory cell) := by
  unfold Processes.alone at h
  split at h
  · obtain rfl := Option.some.inj h
    exact .inl ⟨rfl, fun _ => rfl⟩
  · rename_i entered control _
    split_ifs at h with hbefore
    · obtain rfl := Option.some.inj h
      by_cases hsame : cell = entered
      · subst hsame
        exact .inr (.inl ⟨hbefore, by simp, rfl⟩)
      · exact .inl ⟨by simp [hsame], fun _ => rfl⟩
    · obtain rfl := Option.some.inj h
      exact .inl ⟨rfl, fun _ => rfl⟩
  · rename_i left control _
    split_ifs at h with hinside
    · obtain rfl := Option.some.inj h
      by_cases hsame : cell = left
      · subst hsame
        exact .inr (.inr ⟨hinside, by simp, rfl⟩)
      · exact .inl ⟨by simp [hsame], fun _ => rfl⟩
  · rename_i accessed effect _
    split_ifs at h with hinside
    · obtain rfl := Option.some.inj h
      refine .inl ⟨rfl, fun hout => ?_⟩
      have hne : cell ≠ accessed := fun heq => hout (heq ▸ hinside)
      simp [hne]
  · simp at h

/-- A process on its own runs `first + second` steps by running `first` of them before the rest. -/
theorem alone_for_add (first second : Nat) (solo : Solo Cell Private Content) :
    processes.aloneFor (first + second) solo =
      (processes.aloneFor first solo).bind (processes.aloneFor second) := by
  induction second with
  | zero => cases processes.aloneFor first solo <;> rfl
  | succ second ih =>
      show (processes.aloneFor (first + second) solo).bind processes.alone = _
      rw [ih, Option.bind_assoc]
      rfl

/-- A cell that a process has yet to enter is as the process found it. -/
theorem before_untouched {steps : Nat} (h : processes.aloneFor steps solo = some next) {cell : Cell}
    (hbefore : next.stage cell = .before) :
    solo.stage cell = .before ∧ next.memory cell = solo.memory cell := by
  induction steps generalizing next with
  | zero =>
      obtain rfl := Option.some.inj h
      exact ⟨hbefore, rfl⟩
  | succ steps ih =>
      obtain ⟨middle, hmiddle, hlast⟩ := Option.bind_eq_some_iff.mp h
      rcases alone_at hlast cell with ⟨hstage, hmemory⟩ | ⟨-, hinside, -⟩ | ⟨-, hafter, -⟩
      · have hbefore' : middle.stage cell = .before := hstage ▸ hbefore
        obtain ⟨hstart, hkept⟩ := ih hmiddle hbefore'
        exact ⟨hstart, (hmemory (by simp [hbefore'])).trans hkept⟩
      · simp [hbefore] at hinside
      · simp [hbefore] at hafter

/-- A cell that a process has left stays as it was. -/
theorem after_untouched {steps : Nat} (h : processes.aloneFor steps solo = some next) {cell : Cell}
    (hafter : solo.stage cell = .after) :
    next.stage cell = .after ∧ next.memory cell = solo.memory cell := by
  induction steps generalizing next with
  | zero =>
      obtain rfl := Option.some.inj h
      exact ⟨hafter, rfl⟩
  | succ steps ih =>
      obtain ⟨middle, hmiddle, hlast⟩ := Option.bind_eq_some_iff.mp h
      obtain ⟨hmid, hkept⟩ := ih hmiddle
      rcases alone_at hlast cell with ⟨hstage, hmemory⟩ | ⟨hbefore, -, -⟩ | ⟨hinside, -, -⟩
      · exact ⟨hstage.trans hmid, (hmemory (by simp [hmid])).trans hkept⟩
      · simp [hmid] at hbefore
      · simp [hmid] at hinside

/-- A run that halts after `length` steps goes on from every state within it, and there is no state
past its end. -/
theorem alone_for_rest {steps length : Nat} {last : Solo Cell Private Content}
    (h : processes.aloneFor steps solo = some next)
    (hlast : processes.aloneFor length solo = some last)
    (hhalt : processes.action last.control = .halt) :
    steps ≤ length ∧ processes.aloneFor (length - steps) next = some last := by
  have hle : steps ≤ length := by
    by_contra hlong
    obtain ⟨extra, rfl⟩ : ∃ extra, steps = length + (1 + extra) := ⟨steps - length - 1, by omega⟩
    have hstuck : processes.aloneFor 1 last = none := by
      simp [Processes.aloneFor, Processes.alone, hhalt]
    rw [alone_for_add, hlast, Option.bind_some, alone_for_add, hstuck] at h
    simp at h
  refine ⟨hle, ?_⟩
  have hsplit : processes.aloneFor (steps + (length - steps)) solo = _ := alone_for_add _ _ _
  rw [Nat.add_sub_cancel' hle, hlast, h] at hsplit
  exact hsplit.symm

/-- A process that has not halted can move, as long as its run does halt. -/
theorem alone_of_not_halted {steps length : Nat} {last : Solo Cell Private Content}
    (h : processes.aloneFor steps solo = some next)
    (hlast : processes.aloneFor length solo = some last)
    (hhalt : processes.action last.control = .halt)
    (hrunning : processes.action next.control ≠ .halt) :
    ∃ following, processes.alone next = some following := by
  obtain ⟨-, hrest⟩ := alone_for_rest h hlast hhalt
  cases hremaining : length - steps with
  | zero =>
      rw [hremaining] at hrest
      obtain rfl := Option.some.inj hrest
      exact absurd hhalt hrunning
  | succ remaining =>
      rw [hremaining, Nat.add_comm, alone_for_add] at hrest
      obtain ⟨following, hfirst, -⟩ := Option.bind_eq_some_iff.mp hrest
      exact ⟨following, by simpa [Processes.aloneFor] using hfirst⟩

/-- One process on its own comes from one state to another. -/
def Processes.RunsTo (processes : Processes Cell Private Content)
    (solo next : Solo Cell Private Content) : Prop :=
  ∃ steps, processes.aloneFor steps solo = some next

/-- A process is where it is. -/
theorem Processes.RunsTo.refl (solo : Solo Cell Private Content) : processes.RunsTo solo solo :=
  ⟨0, rfl⟩

/-- A run on after a run. -/
theorem Processes.RunsTo.trans {last : Solo Cell Private Content} (h : processes.RunsTo solo next)
    (hlast : processes.RunsTo next last) : processes.RunsTo solo last := by
  obtain ⟨first, hfirst⟩ := h
  obtain ⟨second, hsecond⟩ := hlast
  refine ⟨first + second, ?_⟩
  rw [alone_for_add, hfirst, Option.bind_some, hsecond]

/-- A step is a run. -/
theorem Processes.RunsTo.single (h : processes.alone solo = some next) :
    processes.RunsTo solo next :=
  ⟨1, h⟩

/-- The first `count` processes run one after another. Process `j` finds the cells as
`memoryAt j`, enters and leaves every one of them, and halts in `final j` after `length j` steps. -/
structure InOrder (processes : Processes Cell Private Content) (count : Nat)
    (memoryAt : Nat → Cell → Content) (length : Nat → Nat) (final : Nat → Private) : Prop where
  runs : ∀ j < count, processes.aloneFor (length j)
    ⟨processes.start j, memoryAt j, fun _ => .before⟩ =
      some ⟨final j, memoryAt (j + 1), fun _ => .after⟩
  halts : ∀ j < count, processes.action (final j) = .halt

end Solo

section Interleaving

variable {Cell Private Content : Type*} [DecidableEq Cell]

/-- Every process, its stage at each cell, the cells, and whose turn each cell is. -/
structure TicketState (Cell Private Content : Type*) where
  control : Nat → Private
  stage : Nat → Cell → Stage
  memory : Cell → Content
  turn : Cell → Nat

/-- Update one process's stage at one cell. -/
def setStage (stage : Nat → Cell → Stage) (j : Nat) (cell : Cell) (value : Stage) :
    Nat → Cell → Stage :=
  Function.update stage j (Function.update (stage j) cell value)

/-- `setStage` changes one entry. -/
@[simp] theorem set_stage_apply (stage : Nat → Cell → Stage) (j : Nat) (cell : Cell) (value : Stage)
    (other : Nat) (place : Cell) :
    setStage stage j cell value other place =
      if other = j ∧ place = cell then value else stage other place := by
  by_cases hj : other = j
  · subst hj
    by_cases hcell : place = cell <;> simp [setStage, hcell]
  · simp [setStage, hj]

/-- The steps of a process among the first `count`. Only entering a cell waits, for its turn. -/
inductive TicketStep (processes : Processes Cell Private Content) (count : Nat) :
    TicketState Cell Private Content → Nat → TicketState Cell Private Content → Prop where
  | compute (state : TicketState Cell Private Content) (j : Nat) (next : Private)
      (hj : j < count) (haction : processes.action (state.control j) = .compute next) :
      TicketStep processes count state j
        { state with control := Function.update state.control j next }
  | enter (state : TicketState Cell Private Content) (j : Nat) (cell : Cell) (next : Private)
      (hj : j < count) (haction : processes.action (state.control j) = .enter cell next)
      (hstage : state.stage j cell = .before) (hturn : state.turn cell = j) :
      TicketStep processes count state j
        { state with
          control := Function.update state.control j next
          stage := setStage state.stage j cell .inside }
  | enterAgain (state : TicketState Cell Private Content) (j : Nat) (cell : Cell) (next : Private)
      (hj : j < count) (haction : processes.action (state.control j) = .enter cell next)
      (hstage : state.stage j cell ≠ .before) :
      TicketStep processes count state j
        { state with control := Function.update state.control j next }
  | leave (state : TicketState Cell Private Content) (j : Nat) (cell : Cell) (next : Private)
      (hj : j < count) (haction : processes.action (state.control j) = .leave cell next) :
      TicketStep processes count state j
        { state with
          control := Function.update state.control j next
          stage := setStage state.stage j cell .after
          turn := Function.update state.turn cell (state.turn cell + 1) }
  | access (state : TicketState Cell Private Content) (j : Nat) (cell : Cell)
      (effect : Content → Private × Content) (hj : j < count)
      (haction : processes.action (state.control j) = .access cell effect) :
      TicketStep processes count state j
        { state with
          control := Function.update state.control j (effect (state.memory cell)).1
          memory := Function.update state.memory cell (effect (state.memory cell)).2 }

/-- The first `count` processes, none of which has moved, on the cells `initial`. -/
def ticketSystem (processes : Processes Cell Private Content) (count : Nat)
    (initial : Cell → Content) : System (TicketState Cell Private Content) Nat where
  Initial state := state = ⟨processes.start, fun _ _ => .before, initial, fun _ => 0⟩
  Step := TicketStep processes count

/-- Where the stage of a process leaves the turn of the cell. -/
def StageInTurn (turn j : Nat) : Stage → Prop
  | .before => turn ≤ j
  | .inside => j = turn
  | .after => j < turn

/-- Every process is somewhere in its own run of `InOrder`, and a cell that nobody is inside of is
as the process before its turn left it. -/
structure TicketInv (processes : Processes Cell Private Content) (count : Nat)
    (memoryAt : Nat → Cell → Content) (steps : Nat → Nat)
    (state : TicketState Cell Private Content) : Prop where
  alone : ∀ j < count, ∃ memory, processes.aloneFor (steps j)
      ⟨processes.start j, memoryAt j, fun _ => .before⟩ =
        some ⟨state.control j, memory, state.stage j⟩ ∧
      ∀ cell, state.stage j cell = .inside → memory cell = state.memory cell
  turns : ∀ j < count, ∀ cell, StageInTurn (state.turn cell) j (state.stage j cell)
  memory : ∀ cell, (∀ j < count, state.stage j cell ≠ .inside) →
    state.memory cell = memoryAt (state.turn cell) cell

variable {processes : Processes Cell Private Content} {count : Nat}
  {memoryAt : Nat → Cell → Content} {length : Nat → Nat} {final : Nat → Private} {steps : Nat → Nat}
  {state next : TicketState Cell Private Content}

/-! ## Every interleaving agrees with the run in order -/

/-- Whoever is inside of a cell has its turn. -/
theorem TicketInv.inside_eq (h : TicketInv processes count memoryAt steps state) {j : Nat}
    (hj : j < count) {cell : Cell} (hinside : state.stage j cell = .inside) :
    j = state.turn cell := by
  have hturn := h.turns j hj cell
  rwa [hinside] at hturn

/-- A process touches and leaves only the cells it is inside of. -/
theorem TicketInv.inside_of_action (h : TicketInv processes count memoryAt steps state)
    (horder : InOrder processes count memoryAt length final) {j : Nat} (hj : j < count)
    {cell : Cell}
    (haction : (∃ control, processes.action (state.control j) = .leave cell control) ∨
      ∃ effect, processes.action (state.control j) = .access cell effect) :
    state.stage j cell = .inside := by
  obtain ⟨memory, hrun, -⟩ := h.alone j hj
  have hrunning : processes.action (state.control j) ≠ .halt := by
    rcases haction with ⟨control, haction⟩ | ⟨effect, haction⟩ <;> simp [haction]
  obtain ⟨following, hfollowing⟩ :=
    alone_of_not_halted hrun (horder.runs j hj) (horder.halts j hj) hrunning
  by_contra hout
  rcases haction with ⟨control, haction⟩ | ⟨effect, haction⟩ <;>
    simp [Processes.alone, haction, hout] at hfollowing

/-- The step of one process leaves every other process where it is in its own run. -/
theorem TicketInv.alone_moved (h : TicketInv processes count memoryAt steps state) {j : Nat}
    (memory : Cell → Content)
    (hrun : processes.aloneFor (steps j + 1) ⟨processes.start j, memoryAt j, fun _ => .before⟩ =
      some ⟨next.control j, memory, next.stage j⟩)
    (hagree : ∀ cell, next.stage j cell = .inside → memory cell = next.memory cell)
    (hothers : ∀ i ≠ j, next.control i = state.control i ∧ next.stage i = state.stage i)
    (hkept : ∀ i < count, i ≠ j → ∀ cell, state.stage i cell = .inside →
      next.memory cell = state.memory cell) :
    ∀ i < count, ∃ memory, processes.aloneFor (Function.update steps j (steps j + 1) i)
      ⟨processes.start i, memoryAt i, fun _ => .before⟩ =
        some ⟨next.control i, memory, next.stage i⟩ ∧
      ∀ cell, next.stage i cell = .inside → memory cell = next.memory cell := by
  intro i hi
  by_cases hsame : i = j
  · subst hsame
    exact ⟨memory, by simpa using hrun, hagree⟩
  · obtain ⟨own, hown, hheld⟩ := h.alone i hi
    obtain ⟨hcontrol, hstage⟩ := hothers i hsame
    refine ⟨own, by simpa [hsame, hcontrol, hstage] using hown, fun cell hinside => ?_⟩
    rw [hstage] at hinside
    exact (hheld cell hinside).trans (hkept i hi hsame cell hinside).symm

/-- A cell that a process is about to enter in its turn is as the process found it in order. -/
theorem TicketInv.found (h : TicketInv processes count memoryAt steps state) {j : Nat}
    {cell : Cell} (hstage : state.stage j cell = .before)
    (hturn : state.turn cell = j) : state.memory cell = memoryAt j cell := by
  rw [← hturn]
  refine h.memory cell fun i hi hinside => ?_
  have hown : i = j := (h.inside_eq hi hinside).trans hturn
  simp [hown, hstage] at hinside

/-- A cell that a process leaves is as it left it in order. -/
theorem InOrder.left_behind (horder : InOrder processes count memoryAt length final)
    {j : Nat} (hj : j < count) {memory : Cell → Content} {stage : Cell → Stage} {control : Private}
    {made : Nat}
    (hrun : processes.aloneFor made ⟨processes.start j, memoryAt j, fun _ => .before⟩ =
      some ⟨control, memory, stage⟩) {cell : Cell} (hafter : stage cell = .after) :
    memory cell = memoryAt (j + 1) cell := by
  obtain ⟨-, hrest⟩ := alone_for_rest hrun (horder.runs j hj) (horder.halts j hj)
  exact (after_untouched hrest hafter).2.symm

/-- Every step of the interleaving is a step of the process that makes it on its own. -/
theorem TicketInv.step (h : TicketInv processes count memoryAt steps state)
    (horder : InOrder processes count memoryAt length final) {j : Nat}
    (hstep : TicketStep processes count state j next) :
    TicketInv processes count memoryAt (Function.update steps j (steps j + 1)) next := by
  cases hstep with
  | compute control hj haction =>
      obtain ⟨memory, hrun, hagree⟩ := h.alone j hj
      refine ⟨h.alone_moved memory ?_ hagree ?_ fun _ _ _ _ _ => rfl, h.turns, h.memory⟩
      · show (processes.aloneFor (steps j) _).bind processes.alone = _
        simp [hrun, Processes.alone, haction]
      · exact fun i hne => ⟨by simp [hne], rfl⟩
  | enter entered control hj haction hstage hturn =>
      obtain ⟨memory, hrun, hagree⟩ := h.alone j hj
      refine ⟨h.alone_moved memory ?_ ?_ ?_ fun _ _ _ _ _ => rfl, ?_, ?_⟩
      · show (processes.aloneFor (steps j) _).bind processes.alone = _
        have hrow : setStage state.stage j entered .inside j =
            Function.update (state.stage j) entered .inside := by
          simp [setStage]
        simp [hrun, Processes.alone, haction, hstage, hrow]
      · intro cell hinside
        by_cases hsame : cell = entered
        · subst hsame
          have hbefore := before_untouched hrun hstage
          exact hbefore.2.trans (h.found hstage hturn).symm
        · exact hagree cell (by simpa [hsame] using hinside)
      · exact fun i hne => ⟨by simp [hne], by simp [setStage, hne]⟩
      · intro i hi cell
        by_cases hsame : i = j ∧ cell = entered
        · obtain ⟨rfl, rfl⟩ := hsame
          simp [StageInTurn, hturn]
        · simpa [hsame] using h.turns i hi cell
      · intro cell hempty
        refine h.memory cell fun i hi hinside => hempty i hi ?_
        show setStage state.stage j entered .inside i cell = .inside
        rw [set_stage_apply]
        split_ifs
        · rfl
        · exact hinside
  | enterAgain entered control hj haction hstage =>
      obtain ⟨memory, hrun, hagree⟩ := h.alone j hj
      refine ⟨h.alone_moved memory ?_ hagree ?_ fun _ _ _ _ _ => rfl, h.turns, h.memory⟩
      · show (processes.aloneFor (steps j) _).bind processes.alone = _
        simp [hrun, Processes.alone, haction, hstage]
      · exact fun i hne => ⟨by simp [hne], rfl⟩
  | leave left control hj haction =>
      obtain ⟨memory, hrun, hagree⟩ := h.alone j hj
      have hinside := h.inside_of_action horder hj (.inl ⟨control, haction⟩)
      have hturn := h.inside_eq hj hinside
      have hnext : processes.aloneFor (steps j + 1)
          ⟨processes.start j, memoryAt j, fun _ => .before⟩ =
            some ⟨control, memory, Function.update (state.stage j) left .after⟩ := by
        show (processes.aloneFor (steps j) _).bind processes.alone = _
        simp [hrun, Processes.alone, haction, hinside]
      have hrow : setStage state.stage j left .after j =
          Function.update (state.stage j) left .after := by
        simp [setStage]
      refine ⟨h.alone_moved memory ?_ ?_ ?_ fun _ _ _ _ _ => rfl, ?_, ?_⟩
      · simpa [hrow] using hnext
      · intro cell hin
        by_cases hsame : cell = left
        · simp [hsame] at hin
        · exact hagree cell (by simpa [hsame] using hin)
      · exact fun i hne => ⟨by simp [hne], by simp [setStage, hne]⟩
      · intro i hi cell
        have hold := h.turns i hi cell
        by_cases hcell : cell = left
        · subst hcell
          by_cases hsame : i = j
          · subst hsame
            simp [StageInTurn, ← hturn]
          · show StageInTurn (Function.update state.turn cell _ cell) i
              (setStage state.stage j cell .after i cell)
            rw [set_stage_apply, if_neg (by simp [hsame]), Function.update_self]
            cases hother : state.stage i cell with
            | before | inside | after =>
                simp only [hother, StageInTurn] at hold ⊢
                omega
        · simpa [hcell] using hold
      · intro cell hempty
        by_cases hcell : cell = left
        · subst hcell
          show state.memory cell = memoryAt (Function.update state.turn cell _ cell) cell
          rw [Function.update_self, ← hturn, ← hagree cell hinside]
          exact horder.left_behind hj hnext (by simp)
        · show state.memory cell = memoryAt (Function.update state.turn left _ cell) cell
          rw [Function.update_of_ne hcell]
          exact h.memory cell fun i hi => by simpa [hcell] using hempty i hi
  | access accessed effect hj haction =>
      obtain ⟨memory, hrun, hagree⟩ := h.alone j hj
      have hinside := h.inside_of_action horder hj (.inr ⟨effect, haction⟩)
      have hsame := hagree accessed hinside
      refine ⟨h.alone_moved
        (Function.update memory accessed (effect (memory accessed)).2) ?_ ?_ ?_ ?_,
        h.turns, ?_⟩
      · show (processes.aloneFor (steps j) _).bind processes.alone = _
        simp [hrun, Processes.alone, haction, hinside, hsame]
      · intro cell hin
        by_cases hcell : cell = accessed
        · simp [hcell, hsame]
        · simpa [hcell] using hagree cell hin
      · exact fun i hne => ⟨by simp [hne], rfl⟩
      · -- Whoever else is inside of a cell is inside of another one.
        intro i hi hne cell hin
        have hcell : cell ≠ accessed := by
          intro heq
          subst heq
          exact hne ((h.inside_eq hi hin).trans (h.inside_eq hj hinside).symm)
        simp [hcell]
      · intro cell hempty
        have hcell : cell ≠ accessed := fun heq => hempty j hj (heq ▸ hinside)
        simpa [hcell] using h.memory cell hempty

/-- No process has moved. -/
theorem TicketInv.initial : TicketInv processes count memoryAt (fun _ => 0)
    ⟨processes.start, fun _ _ => .before, memoryAt 0, fun _ => 0⟩ where
  alone j _ := ⟨memoryAt j, rfl, fun cell h => by simp at h⟩
  turns j _ _ := Nat.zero_le j
  memory _ _ := rfl

/-- In every interleaving, each process is somewhere in its run of `InOrder`. -/
theorem TicketRun.invariant (horder : InOrder processes count memoryAt length final)
    {past : List (TicketState Cell Private Content × Nat)}
    (h : (ticketSystem processes count (memoryAt 0)).Run past state) :
    TicketInv processes count memoryAt (System.occurrences past) state := by
  induction h with
  | initial hstart =>
      obtain rfl := hstart
      exact TicketInv.initial
  | step hrun hstep ih =>
      rw [System.occurrences_cons]
      exact ih.step horder hstep

/-! ## Progress -/

/-- A process makes at most the steps of its run of `InOrder`. -/
theorem TicketInv.steps_le (h : TicketInv processes count memoryAt steps state)
    (horder : InOrder processes count memoryAt length final) {j : Nat} (hj : j < count) :
    steps j ≤ length j := by
  obtain ⟨memory, hrun, -⟩ := h.alone j hj
  exact (alone_for_rest hrun (horder.runs j hj) (horder.halts j hj)).1

/-- A process that has halted is at the end of its run of `InOrder`, and has left every cell. -/
theorem TicketInv.halted (h : TicketInv processes count memoryAt steps state)
    (horder : InOrder processes count memoryAt length final) {j : Nat} (hj : j < count)
    (hhalt : processes.action (state.control j) = .halt) :
    state.control j = final j ∧ ∀ cell, j < state.turn cell ∧ state.stage j cell = .after := by
  obtain ⟨memory, hrun, -⟩ := h.alone j hj
  obtain ⟨hle, -⟩ := alone_for_rest (horder.runs j hj) hrun hhalt
  have hlength : steps j = length j := Nat.le_antisymm (h.steps_le horder hj) hle
  rw [hlength, horder.runs j hj] at hrun
  simp only [Option.some.injEq, Solo.mk.injEq] at hrun
  obtain ⟨hcontrol, -, hstage⟩ := hrun
  refine ⟨hcontrol.symm, fun cell => ?_⟩
  have hafter : state.stage j cell = .after := (congrFun hstage cell).symm
  have hturn := h.turns j hj cell
  rw [hafter] at hturn
  exact ⟨hturn, hafter⟩

/-- The first process that has not halted finds it its turn at every cell it has yet to enter. -/
theorem TicketInv.turn_of_least (h : TicketInv processes count memoryAt steps state)
    (horder : InOrder processes count memoryAt length final) {j : Nat} (hj : j < count)
    (hfirst : ∀ i < j, processes.action (state.control i) = .halt) {cell : Cell}
    (hstage : state.stage j cell = .before) : state.turn cell = j := by
  have hbefore := h.turns j hj cell
  rw [hstage] at hbefore
  refine Nat.le_antisymm hbefore ?_
  cases j with
  | zero => exact Nat.zero_le _
  | succ i => exact ((h.halted horder (by omega) (hfirst i (by omega))).2 cell).1

/-- Once every process has halted, the cells are as the run in order leaves them. -/
theorem TicketInv.all_halted (h : TicketInv processes count memoryAt steps state)
    (horder : InOrder processes count memoryAt length final)
    (hhalt : ∀ j < count, processes.action (state.control j) = .halt)
    (hturns : ∀ cell, state.turn cell ≤ count) : state.memory = memoryAt count := by
  funext cell
  have hturn : state.turn cell = count := by
    refine Nat.le_antisymm (hturns cell) ?_
    cases count with
    | zero => exact Nat.zero_le _
    | succ last =>
        exact ((h.halted horder (Nat.lt_succ_self last) (hhalt last (by omega))).2 cell).1
  rw [← hturn]
  refine h.memory cell fun j hj hinside => ?_
  simp [((h.halted horder hj (hhalt j hj)).2 cell).2] at hinside

/-- No turn goes past the last process. -/
theorem TicketRun.turn_le (horder : InOrder processes count memoryAt length final)
    {past : List (TicketState Cell Private Content × Nat)}
    (h : (ticketSystem processes count (memoryAt 0)).Run past state) (cell : Cell) :
    state.turn cell ≤ count := by
  induction h with
  | initial hstart =>
      obtain rfl := hstart
      exact Nat.zero_le _
  | step hrun hstep ih =>
      have hinv := TicketRun.invariant horder hrun
      cases hstep with
      | compute | enter | enterAgain | access => exact ih
      | leave left control hj haction =>
          have hturn := hinv.inside_eq hj (hinv.inside_of_action horder hj (.inl ⟨_, haction⟩))
          by_cases hsame : cell = left
          · subst hsame
            simp only [Function.update_self]
            omega
          · simpa [hsame] using ih

/-- No interleaving is longer than the run in order. -/
theorem TicketRun.bounded (horder : InOrder processes count memoryAt length final)
    {past : List (TicketState Cell Private Content × Nat)}
    (h : (ticketSystem processes count (memoryAt 0)).Run past state) :
    past.length ≤ ∑ j ∈ Finset.range count, length j := by
  have hparties : ∀ state j next, (ticketSystem processes count (memoryAt 0)).Step state j next →
      j ∈ Finset.range count := fun _ _ _ hstep =>
    Finset.mem_range.mpr (by cases hstep <;> assumption)
  rw [h.length_eq_sum hparties]
  exact Finset.sum_le_sum fun j hj =>
    (TicketRun.invariant horder h).steps_le horder (Finset.mem_range.mp hj)

end Interleaving

end Gino.Machine
