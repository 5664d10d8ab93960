import Gino.Machine.BreadthFirst
import Mathlib.Data.Fintype.Card

/-!
# Private copies of stack objects

`cloneMemoryLocationsLocallyAndRewireLoop` gives a task its own copy of a stack object. It goes from
the instructions of the task to the casts and GEPs of the object outside of the loop, and clones
each into the entry block before the one that it cloned last. A clone so comes before the clones of
its operands where one of them was found first (`privatize_in_order_iff`).
-/

namespace Gino.Technique

open Relation Graph Machine

/-- A value that an instruction uses. -/
inductive Operand (Inst : Type*) where
  | constant (address : Nat)
  | argument (address : Nat)
  | instruction (inst : Inst)
  deriving DecidableEq

/-- An instruction of the entry block of a task. -/
inductive EntryInst (Inst : Type*) where
  | existing (address : Nat)
  | environmentPointer (value : Operand Inst)
  | environmentLoad (value : Operand Inst)
  | clone (inst : Inst)
  | allocaClone
  deriving DecidableEq

/-- A stack object, the instructions of the loop that use it in the order of a visit, and the task
with its instruction map, the live-ins of its environment and its entry block. No cast or GEP
outside of the loop is in the instruction map. -/
structure StackObject (Inst : Type*) where
  alloca : Inst
  operands : Inst → List (Operand Inst)
  isIncluded : Inst → Bool
  isInstructionCastOrGEPOfLocation : Inst → Bool
  getLoopInstructionsUsingLocation : List Inst
  originalInstructions : List Inst
  producers : List (Operand Inst)
  entryBlock : List Nat
  not_original : ∀ inst, isInstructionCastOrGEPOfLocation inst = true → isIncluded inst = false →
    inst ∉ originalInstructions

/-- The live-ins of the task, and what is in its entry block before the insert point. -/
structure EntryLoads (Inst : Type*) where
  producers : List (Operand Inst)
  before : List (EntryInst Inst)

/-- The queue, the instruction map, the entry block before its insert point with the live-ins, and
the entry block after it. -/
structure PrivatizeState (Inst : Type*) where
  instructionsToConvertOperandsOf : List Inst
  instructionMap : List Inst
  loads : EntryLoads Inst
  after : List (EntryInst Inst)

variable {Inst : Type*} [DecidableEq Inst]

namespace StackObject

variable (object : StackObject Inst)

/-! ## The pass -/

/-- A value that has to be a live-in when a clone uses it. -/
def needsLiveIn : Operand Inst → Bool
  | .constant _ => false
  | .argument _ => true
  | .instruction inst => decide (inst ≠ object.alloca)

/-- Load a value that an instruction uses from the environment, unless it is a live-in already. -/
def addLiveIn (loads : EntryLoads Inst) (opJ : Operand Inst) : EntryLoads Inst :=
  if !object.needsLiveIn opJ then loads
  else if opJ ∈ loads.producers then loads
  else ⟨loads.producers ++ [opJ],
    loads.before ++ [.environmentPointer opJ, .environmentLoad opJ]⟩

/-- Load the values that a cast or a GEP uses. -/
def addLiveIns (loads : EntryLoads Inst) (opI : Inst) : EntryLoads Inst :=
  (object.operands opI).foldl object.addLiveIn loads

/-- Clone an operand before the insert point, which the clone becomes, if the operand is a cast or
a GEP of the object outside of the loop that was not cloned yet. -/
def visitOperand (state : PrivatizeState Inst) (op : Operand Inst) : PrivatizeState Inst :=
  match op with
  | .constant _ => state
  | .argument _ => state
  | .instruction opI =>
      if object.isIncluded opI then state
      else if !object.isInstructionCastOrGEPOfLocation opI then state
      else if opI ∈ state.instructionMap then state
      else
        { instructionsToConvertOperandsOf := state.instructionsToConvertOperandsOf ++ [opI]
          instructionMap := state.instructionMap ++ [opI]
          loads := object.addLiveIns state.loads opI
          after := .clone opI :: state.after }

/-- Take an instruction from the queue. -/
def convertOperands (state : PrivatizeState Inst) : Option (PrivatizeState Inst) :=
  match state.instructionsToConvertOperandsOf with
  | [] => none
  | I :: rest => some ((object.operands I).foldl object.visitOperand
      { state with instructionsToConvertOperandsOf := rest })

/-- The instructions of the task that use the object. -/
def taskInstructions : List Inst :=
  object.getLoopInstructionsUsingLocation.filter fun I => I ∈ object.originalInstructions

/-- The part of `cloneMemoryLocationsLocallyAndRewireLoop` that fills the entry block for an object,
with fuel for the queue. The clone of the object comes first. -/
def cloneMemoryLocation (fuel : Nat) : Option (List (EntryInst Inst)) :=
  if object.taskInstructions.isEmpty then some (object.entryBlock.map .existing)
  else
    (loop object.convertOperands fuel ⟨object.taskInstructions, object.originalInstructions,
      ⟨object.producers, object.entryBlock.map .existing⟩, []⟩).map fun last =>
        .allocaClone :: (last.loads.before ++ last.after)

/-! ## What comes into the entry block -/

/-- An operand as a cast or a GEP of the object outside of the loop. -/
def asReference : Operand Inst → Option Inst
  | .constant _ => none
  | .argument _ => none
  | .instruction opI =>
      if object.isIncluded opI || !object.isInstructionCastOrGEPOfLocation opI then none
      else some opI

/-- The casts and GEPs of the object outside of the loop that an instruction uses. -/
def references (inst : Inst) : List Inst :=
  (object.operands inst).filterMap object.asReference

/-- A cast or a GEP that reaches an instruction of the task. -/
def Reaches (inst : Inst) : Prop :=
  ∃ I ∈ object.taskInstructions, TransGen (fun item op => op ∈ object.references item) I inst

/-- What is always so of the entry block: every cast or GEP that reaches an instruction of the task
is cloned once and nothing else is, and the clone of the object and the loads of the new live-ins
come before the clones that use them. -/
structure Privatized (block : List (EntryInst Inst)) : Prop where
  once : ∀ inst, object.Reaches inst → block.count (.clone inst) = 1
  reaches : ∀ inst, .clone inst ∈ block → object.Reaches inst
  alloca : ∀ inst, object.Reaches inst → .instruction object.alloca ∈ object.operands inst →
    Precedes block .allocaClone (.clone inst)
  liveIns : ∀ inst value, object.Reaches inst → value ∈ object.operands inst →
    object.needsLiveIn value = true → value ∉ object.producers →
      Precedes block (.environmentLoad value) (.clone inst)

/-- The clone of a cast or a GEP comes after the clones of those that it uses. -/
def OperandsFirst (block : List (EntryInst Inst)) : Prop :=
  ∀ inst op, object.Reaches inst → op ∈ object.references inst →
    Precedes block (.clone op) (.clone inst)

/-- All ways from the instructions of the task to casts and GEPs, the shorter ones first and those
of one length in the order of the visit and of the operands: where they lead to. -/
def accessOrder [Fintype Inst] : List Inst :=
  accesses object.references (Fintype.card Inst)
    (object.taskInstructions.flatMap object.references)

/-- The first way to a cast or a GEP comes before the first way to one that it uses. -/
def AccessedInOrder [Fintype Inst] : Prop :=
  ∀ inst op, object.Reaches inst → op ∈ object.references inst →
    Precedes object.accessOrder inst op

/-! ## The state after what was found -/

/-- The live-ins and their loads after the clones of some casts and GEPs. -/
def loadsOf (found : List Inst) : EntryLoads Inst :=
  found.foldl object.addLiveIns ⟨object.producers, object.entryBlock.map .existing⟩

/-- The state with a queue and what was found so far. -/
def stateOf (state : List Inst × List Inst) : PrivatizeState Inst where
  instructionsToConvertOperandsOf := state.1
  instructionMap := object.originalInstructions ++ state.2
  loads := object.loadsOf state.2
  after := state.2.reverse.map .clone

variable {object} {inst op : Inst} {value : Operand Inst}

omit [DecidableEq Inst] in
/-- A reference is a cast or a GEP of the object outside of the loop. -/
theorem as_reference_eq_some : object.asReference value = some op ↔
    value = .instruction op ∧ object.isIncluded op = false ∧
      object.isInstructionCastOrGEPOfLocation op = true := by
  unfold asReference
  cases value with
  | constant address => simp
  | argument address => simp
  | instruction opI =>
      dsimp only
      split_ifs with hout
      · constructor
        · intro h
          cases h
        · intro ⟨heq, hincluded, hcast⟩
          obtain rfl := Operand.instruction.inj heq
          simp [hincluded, hcast] at hout
      · simp only [Bool.or_eq_true, Bool.not_eq_true', not_or, Bool.not_eq_true,
          Bool.not_eq_false] at hout
        constructor
        · intro h
          obtain rfl := Option.some.inj h
          exact ⟨rfl, hout⟩
        · intro ⟨heq, _⟩
          exact congrArg some (Operand.instruction.inj heq)

/-- What is no cast or GEP of the object outside of the loop is passed over. -/
theorem visit_operand_of_none (hnone : object.asReference value = none)
    (state : PrivatizeState Inst) : object.visitOperand state value = state := by
  cases value with
  | constant address => rfl
  | argument address => rfl
  | instruction opI =>
      unfold visitOperand
      dsimp only
      split_ifs with hincluded hcast hmap
      · rfl
      · rfl
      · rfl
      · simp [asReference, hincluded, hcast] at hnone

/-- A cast or a GEP of the object outside of the loop is cloned once. -/
theorem visit_operand_of_some (hsome : object.asReference value = some op)
    (queue found : List Inst) :
    object.visitOperand (object.stateOf (queue, found)) value =
      object.stateOf (queue ++ fresh found [op], found ++ fresh found [op]) := by
  obtain ⟨rfl, hincluded, hcast⟩ := as_reference_eq_some.mp hsome
  have hmap : op ∈ (object.stateOf (queue, found)).instructionMap ↔ op ∈ found := by
    show op ∈ object.originalInstructions ++ found ↔ op ∈ found
    rw [List.mem_append]
    exact or_iff_right (object.not_original op hcast hincluded)
  unfold visitOperand
  dsimp only
  rw [if_neg (by simp [hincluded]), if_neg (by simp [hcast])]
  by_cases hfound : op ∈ found
  · have hnone : fresh found [op] = [] := by simp [fresh, hfound]
    rw [if_pos (hmap.mpr hfound), hnone, List.append_nil, List.append_nil]
  · have hone : fresh found [op] = [op] := by simp [fresh, hfound]
    rw [if_neg (mt hmap.mp hfound), hone]
    simp [stateOf, loadsOf]

/-- Visiting operands finds the references among them that were not found before. -/
theorem foldl_visit_operand (ops : List (Operand Inst)) (queue found : List Inst) :
    ops.foldl object.visitOperand (object.stateOf (queue, found)) =
      object.stateOf (queue ++ fresh found (ops.filterMap object.asReference),
        found ++ fresh found (ops.filterMap object.asReference)) := by
  induction ops generalizing queue found with
  | nil => simp [fresh]
  | cons value rest ih =>
      rw [List.foldl_cons]
      cases hreference : object.asReference value with
      | none =>
          rw [visit_operand_of_none hreference, List.filterMap_cons_none hreference]
          exact ih queue found
      | some op =>
          have hmarks : ∀ other, other ∈ found ++ fresh found [op] ↔ other ∈ found ++ [op] := by
            intro other
            simp only [List.mem_append, mem_fresh]
            tauto
          rw [visit_operand_of_some hreference, List.filterMap_cons_some hreference, ih,
            fresh_congr hmarks, List.append_assoc, List.append_assoc, ← fresh_append_items]
          rfl

/-- The pass turns as the search does. -/
theorem turn_of_search {state next : List Inst × List Inst}
    (h : Turn (searchStep object.references) state next) :
    Turn object.convertOperands (object.stateOf state) (object.stateOf next) := by
  obtain ⟨queue, found⟩ := state
  cases queue with
  | nil => cases h
  | cons I rest =>
      obtain rfl := Option.some.inj h
      exact congrArg some (foldl_visit_operand (object.operands I) rest found)

/-! ## The loads of the live-ins -/

/-- The live-ins after the visit of a value. -/
theorem mem_add_live_in {loads : EntryLoads Inst} {opJ : Operand Inst} :
    value ∈ (object.addLiveIn loads opJ).producers ↔
      value ∈ loads.producers ∨ value = opJ ∧ object.needsLiveIn opJ = true := by
  unfold addLiveIn
  cases hneeds : object.needsLiveIn opJ with
  | false => simp
  | true =>
      by_cases hold : opJ ∈ loads.producers
      · rw [if_neg (by simp), if_pos hold]
        constructor
        · exact .inl
        · rintro (hmem | ⟨rfl, -⟩)
          · exact hmem
          · exact hold
      · rw [if_neg (by simp), if_neg hold]
        simp

/-- The live-ins after the clone of a cast or a GEP. -/
theorem mem_add_live_ins {loads : EntryLoads Inst} :
    value ∈ (object.addLiveIns loads op).producers ↔
      value ∈ loads.producers ∨ value ∈ object.operands op ∧ object.needsLiveIn value = true := by
  unfold addLiveIns
  induction object.operands op generalizing loads with
  | nil => simp
  | cons opJ rest ih =>
      rw [List.foldl_cons, ih, mem_add_live_in, List.mem_cons]
      constructor
      · rintro ((hold | ⟨rfl, hneeds⟩) | ⟨hmem, hneeds⟩)
        · exact .inl hold
        · exact .inr ⟨.inl rfl, hneeds⟩
        · exact .inr ⟨.inr hmem, hneeds⟩
      · rintro (hold | ⟨rfl | hmem, hneeds⟩)
        · exact .inl (.inl hold)
        · exact .inl (.inr ⟨rfl, hneeds⟩)
        · exact .inr ⟨hmem, hneeds⟩

/-- Every value that a clone needs is a live-in. -/
theorem mem_loads_of {found : List Inst} (hop : op ∈ found) (hvalue : value ∈ object.operands op)
    (hneeds : object.needsLiveIn value = true) : value ∈ (object.loadsOf found).producers := by
  unfold loadsOf
  induction found using List.reverseRecOn with
  | nil => cases hop
  | append_singleton found last ih =>
      rw [List.foldl_append, List.foldl_cons, List.foldl_nil, mem_add_live_ins]
      rcases List.mem_append.mp hop with hold | hlast
      · exact .inl (ih hold)
      · obtain rfl := List.mem_singleton.mp hlast
        exact .inr ⟨hvalue, hneeds⟩

variable (object) in
/-- Before the insert point there are no clones, and the load of every new live-in. -/
structure OnlyLoads (loads : EntryLoads Inst) : Prop where
  not_clone : ∀ inst, .clone inst ∉ loads.before
  loaded : ∀ value ∈ loads.producers,
    value ∈ object.producers ∨ .environmentLoad value ∈ loads.before

/-- A value keeps it so. -/
theorem OnlyLoads.add_live_in {loads : EntryLoads Inst} (h : object.OnlyLoads loads)
    (opJ : Operand Inst) : object.OnlyLoads (object.addLiveIn loads opJ) := by
  unfold addLiveIn
  split_ifs with hneeds hold
  · exact h
  · exact h
  · refine ⟨fun inst hmem => ?_, fun value hvalue => ?_⟩
    · simp [h.not_clone inst] at hmem
    · rcases List.mem_append.mp hvalue with hmem | hlast
      · exact (h.loaded value hmem).imp_right (List.mem_append_left _)
      · obtain rfl := List.mem_singleton.mp hlast
        exact .inr (List.mem_append_right _ (by simp))

/-- It is so after any clones. -/
theorem only_loads_of (found : List Inst) : object.OnlyLoads (object.loadsOf found) := by
  have hlist : ∀ (ops : List (Operand Inst)) (loads : EntryLoads Inst), object.OnlyLoads loads →
      object.OnlyLoads (ops.foldl object.addLiveIn loads) := by
    intro ops loads h
    induction ops generalizing loads with
    | nil => exact h
    | cons opJ rest ih => exact ih _ (h.add_live_in opJ)
  unfold loadsOf
  induction found using List.reverseRecOn with
  | nil => exact ⟨fun inst hmem => by simp at hmem, fun value hvalue => .inl hvalue⟩
  | append_singleton found last ih =>
      rw [List.foldl_append]
      exact hlist _ _ ih

/-! ## The entry block -/

variable (object) in
/-- The entry block after some casts and GEPs were cloned in an order. -/
def blockOf (found : List Inst) : List (EntryInst Inst) :=
  .allocaClone :: (object.loadsOf found).before ++ found.reverse.map .clone

omit [DecidableEq Inst] in
/-- Clones of different instructions are different. -/
theorem clone_injective : Function.Injective (EntryInst.clone : Inst → EntryInst Inst) :=
  fun _ _ h => EntryInst.clone.inj h

/-- No clone of a cast or a GEP comes before the insert point. -/
theorem clone_not_mem_before (found : List Inst) (inst : Inst) :
    .clone inst ∉ .allocaClone :: (object.loadsOf found).before := by
  rw [List.mem_cons, not_or]
  exact ⟨by simp, (only_loads_of found).not_clone inst⟩

/-- The clones in the entry block. -/
theorem clone_mem_block {found : List Inst} :
    .clone inst ∈ object.blockOf found ↔ inst ∈ found := by
  unfold blockOf
  rw [List.mem_append, or_iff_right (clone_not_mem_before found inst),
    List.mem_map_of_injective clone_injective, List.mem_reverse]

/-- The clones in the entry block are in the opposite order. -/
theorem precedes_block {found : List Inst} (hnodup : found.Nodup) (hinst : inst ∈ found)
    (hop : op ∈ found) (hne : op ≠ inst) :
    Precedes (object.blockOf found) (.clone op) (.clone inst) ↔ Precedes found inst op := by
  unfold blockOf
  rw [precedes_append_right (clone_not_mem_before found op) (clone_not_mem_before found inst),
    precedes_map clone_injective, precedes_reverse hnodup hop hinst hne]

section Finite

variable [Fintype Inst]
  (hacyclic : ∀ inst, ¬ OnCycle (fun item op => op ∈ object.references item) inst)

include hacyclic

/-- There are no more levels of casts and GEPs than instructions. -/
theorem level_references_eq_nil : level object.references (Fintype.card Inst)
    (object.taskInstructions.flatMap object.references) = [] :=
  level_eq_nil hacyclic ((Set.ncard_le_card _).trans_eq Nat.card_eq_fintype_card)

/-- The ways lead to what reaches an instruction of the task. -/
theorem mem_access_order : inst ∈ object.accessOrder ↔ object.Reaches inst := by
  unfold accessOrder Reaches
  rw [mem_accesses_iff (level_references_eq_nil hacyclic)]
  constructor
  · intro ⟨first, hfirst, hreach⟩
    obtain ⟨I, hI, hstep⟩ := List.mem_flatMap.mp hfirst
    exact ⟨I, hI, .head' hstep hreach⟩
  · intro ⟨I, hI, hreach⟩
    obtain ⟨first, hstep, hreach⟩ := TransGen.head'_iff.mp hreach
    exact ⟨first, List.mem_flatMap.mpr ⟨I, hI, hstep⟩, hreach⟩

/-- What the pass finds. -/
theorem mem_found : inst ∈ fresh [] object.accessOrder ↔ object.Reaches inst := by
  rw [mem_fresh, mem_access_order hacyclic]
  simp

/-- The pass ends, and has cloned the casts and GEPs in the order of the first ways to them. -/
theorem exists_clone_memory_location (htask : object.taskInstructions ≠ []) :
    ∃ turns, ∀ fuel ≥ turns, object.cloneMemoryLocation fuel =
      some (object.blockOf (fresh [] object.accessOrder)) := by
  have hturns := (search_turns (level_references_eq_nil hacyclic)).lift object.stateOf
    fun _ _ => turn_of_search
  obtain ⟨turns, hrun⟩ := exists_loop_turns hturns rfl
  refine ⟨turns, fun fuel hfuel => ?_⟩
  have hstart : object.stateOf (object.taskInstructions, []) = ⟨object.taskInstructions,
      object.originalInstructions, ⟨object.producers, object.entryBlock.map .existing⟩, []⟩ := by
    simp [stateOf, loadsOf]
  unfold cloneMemoryLocation
  rw [if_neg (by simpa using htask), ← hstart, hrun fuel hfuel]
  rfl

/-- What is always so of the entry block. -/
theorem privatized_block : object.Privatized (object.blockOf (fresh [] object.accessOrder)) where
  once inst hinst := by
    have hcount := List.count_eq_one_of_mem (nodup_fresh [] object.accessOrder)
      ((mem_found hacyclic).mpr hinst)
    unfold blockOf
    rw [List.count_append, List.count_eq_zero.mpr (clone_not_mem_before _ inst), Nat.zero_add,
      List.count_map_of_injective _ _ clone_injective, List.count_reverse, hcount]
  reaches inst hinst := (mem_found hacyclic).mp (clone_mem_block.mp hinst)
  alloca inst _ _ := by
    exact precedes_append_left List.mem_cons_self (clone_not_mem_before _ inst)
  liveIns inst value hinst hvalue hneeds hnew := by
    have hproducer := mem_loads_of ((mem_found hacyclic).mpr hinst) hvalue hneeds
    have hload := ((only_loads_of _).loaded value hproducer).resolve_left hnew
    exact precedes_append_left (List.mem_cons_of_mem _ hload) (clone_not_mem_before _ inst)

/-- The pass ends with an entry block that has every cast and GEP that reaches an instruction of the
task once, and what it uses before it but for other casts and GEPs. Clones of those that it uses
come before it exactly where the first way to a cast or a GEP comes before the first way to one that
it uses. -/
theorem privatize_in_order_iff :
    ∃ block, (∃ turns, ∀ fuel ≥ turns, object.cloneMemoryLocation fuel = some block) ∧
      object.Privatized block ∧ (object.OperandsFirst block ↔ object.AccessedInOrder) := by
  by_cases htask : object.taskInstructions = []
  · have hnone : ∀ inst, ¬ object.Reaches inst := by
      intro inst ⟨I, hI, _⟩
      rw [htask] at hI
      cases hI
    refine ⟨object.entryBlock.map .existing, ⟨0, fun fuel _ => ?_⟩,
      ⟨fun inst hinst => (hnone inst hinst).elim, fun inst hinst => by simp at hinst,
        fun inst hinst => (hnone inst hinst).elim,
        fun inst _ hinst => (hnone inst hinst).elim⟩,
      ⟨fun _ inst _ hinst => (hnone inst hinst).elim,
        fun _ inst _ hinst => (hnone inst hinst).elim⟩⟩
    unfold cloneMemoryLocation
    rw [if_pos (by simp [htask])]
  · refine ⟨_, exists_clone_memory_location hacyclic htask, privatized_block hacyclic, ?_⟩
    refine forall_congr' fun inst => forall_congr' fun op => imp_congr_right fun hinst =>
      imp_congr_right fun hop => ?_
    have hreaches : object.Reaches op := by
      obtain ⟨I, hI, hreach⟩ := hinst
      exact ⟨I, hI, hreach.tail hop⟩
    have hne : op ≠ inst := fun heq => hacyclic inst (.single (heq ▸ hop))
    -- The clones are in the order in which they are found, that of the first accesses.
    rw [precedes_block (nodup_fresh _ _) ((mem_found hacyclic).mpr hinst)
      ((mem_found hacyclic).mpr hreaches) hne, precedes_fresh]

end Finite

end StackObject

namespace SharedCast

/-- An object, a cast of it, a GEP of the cast, and an instruction of the loop that uses each. -/
inductive Use where
  | object
  | castOf
  | gepOf
  | castUse
  | gepUse
  deriving DecidableEq

open Use

/-- There are five instructions. -/
instance fintypeUse : Fintype Use :=
  ⟨{object, castOf, gepOf, castUse, gepUse}, fun inst => by cases inst <;> decide⟩

/-- The object, with the order in which the instructions of the loop are visited. The index of the
GEP is an argument, which is no live-in yet. -/
def shared (visits : List Use) : StackObject Use where
  alloca := object
  operands
    | object => [.constant 0]
    | castOf => [.instruction object]
    | gepOf => [.instruction castOf, .argument 1]
    | castUse => [.instruction castOf]
    | gepUse => [.instruction gepOf]
  isIncluded inst := decide (inst = castUse ∨ inst = gepUse)
  isInstructionCastOrGEPOfLocation inst := decide (inst = castOf ∨ inst = gepOf)
  getLoopInstructionsUsingLocation := visits
  originalInstructions := [castUse, gepUse]
  producers := [.instruction castOf, .instruction gepOf]
  entryBlock := [2]
  not_original inst := by cases inst <;> decide

/-- How far an instruction is from the object. -/
def distance : Use → Nat
  | object => 0
  | castOf => 1
  | gepOf => 2
  | castUse => 2
  | gepUse => 3

/-- A reference is nearer to the object. -/
theorem distance_lt (visits : List Use) (inst op : Use)
    (h : op ∈ (shared visits).references inst) : distance op < distance inst := by
  obtain ⟨value, hvalue, hsome⟩ := List.mem_filterMap.mp h
  obtain ⟨rfl, -⟩ := StackObject.as_reference_eq_some.mp hsome
  cases inst with
  | object => simp [shared] at hvalue
  | castOf =>
      obtain rfl : op = object := by simpa [shared] using hvalue
      decide
  | gepOf =>
      obtain rfl : op = castOf := by simpa [shared] using hvalue
      decide
  | castUse =>
      obtain rfl : op = castOf := by simpa [shared] using hvalue
      decide
  | gepUse =>
      obtain rfl : op = gepOf := by simpa [shared] using hvalue
      decide

/-- No instruction is on a cycle. -/
theorem acyclic (visits : List Use) (inst : Use) :
    ¬ OnCycle (fun item op => op ∈ (shared visits).references item) inst :=
  not_on_cycle_of_rank distance (distance_lt visits) inst

/-- Where the use of the GEP is visited first, the clone of the cast comes first. -/
theorem gep_use_first : ∃ block, (∃ turns, ∀ fuel ≥ turns,
      (shared [gepUse, castUse]).cloneMemoryLocation fuel = some block) ∧
    Precedes block (.clone castOf) (.clone gepOf) := by
  obtain ⟨block, hrun, -, hiff⟩ :=
    StackObject.privatize_in_order_iff (acyclic [gepUse, castUse])
  have horder : (shared [gepUse, castUse]).accessOrder = [gepOf] ++ [castOf, castOf] := by decide
  refine ⟨block, hrun, hiff.mpr ?_ gepOf castOf ?_ (by decide)⟩
  · intro inst op hinst hop
    rw [← StackObject.mem_access_order (acyclic _), horder] at hinst
    rw [horder]
    cases inst with
    | object => exact absurd hinst (by decide)
    | castOf =>
        rw [show (shared [gepUse, castUse]).references castOf = [] by decide] at hop
        cases hop
    | gepOf =>
        rw [show (shared [gepUse, castUse]).references gepOf = [castOf] by decide,
          List.mem_singleton] at hop
        subst hop
        exact precedes_append_left List.mem_cons_self (by decide)
    | castUse => exact absurd hinst (by decide)
    | gepUse => exact absurd hinst (by decide)
  · exact ⟨gepUse, by decide, .single (by decide)⟩

/-- Where the use of the cast is visited first, its clone comes after that of the GEP that uses it.
-/
theorem cast_use_first : (∃ turns, ∀ fuel ≥ turns,
      (shared [castUse, gepUse]).cloneMemoryLocation fuel = some [.allocaClone, .existing 2,
        .environmentPointer (.argument 1), .environmentLoad (.argument 1), .clone gepOf,
        .clone castOf]) ∧
    ¬ (shared [castUse, gepUse]).OperandsFirst [.allocaClone, .existing 2,
      .environmentPointer (.argument 1), .environmentLoad (.argument 1), .clone gepOf,
      .clone castOf] := by
  constructor
  · exact StackObject.exists_clone_memory_location (acyclic _) (by decide)
  · intro hfirst
    have hreaches : (shared [castUse, gepUse]).Reaches gepOf :=
      ⟨gepUse, by decide, .single (by decide)⟩
    have hmem := hfirst gepOf castOf hreaches (by decide) [.allocaClone, .existing 2,
      .environmentPointer (.argument 1), .environmentLoad (.argument 1)] [.clone castOf] rfl
    revert hmem
    decide

end SharedCast

end Gino.Technique
