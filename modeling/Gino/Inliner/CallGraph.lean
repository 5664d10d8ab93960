import Gino.Machine.Traversal
import Mathlib.Data.Finset.Insert
import Mathlib.Logic.Function.Basic

/-!
# The call graph of the inliner

`Inliner::collectFnGraph` walks the call graph from main on and keeps, for every function it
reaches, its direct calls in program order (`orderedCalls`, `orderedCalled`), the functions it calls
(`childrenFns`) and the functions that call it (`parentFns`).
-/

namespace Gino.Inliner

open Machine Relation

/-- An instruction, with the function that it calls directly. -/
structure Inst (Fn : Type) where
  address : Nat
  isCallInst : Bool
  calledFunction : Option Fn
  deriving DecidableEq

/-- Whether an instruction is among others is decided by comparing it with them. -/
instance Inst.decidableMem {Fn : Type} [DecidableEq Fn] (inst : Inst Fn) (insts : List (Inst Fn)) :
    Decidable (inst ∈ insts) :=
  List.instDecidableMemOfLawfulBEq inst insts

/-- A basic block. -/
structure BasicBlock (Fn : Type) where
  address : Nat
  insts : List (Inst Fn)
  deriving DecidableEq

/-- The basic blocks of every function, in the order of their layout. -/
abbrev Bodies (Fn : Type) := Fn → List (BasicBlock Fn)

/-- The instructions of a body in program order. -/
def instructions {Fn : Type} (blocks : List (BasicBlock Fn)) : List (Inst Fn) :=
  blocks.flatMap BasicBlock.insts

/-- A program, with its functions in the order of their addresses and the call records of the
compiler. -/
structure Program (Fn : Type) where
  functions : List Fn
  bodies : Bodies Fn
  callRecords : Fn → List (Inst Fn)
  mem_functions : ∀ F, F ∈ functions
  nodup_functions : functions.Nodup
  nodup_instructions : ∀ F, (instructions (bodies F)).Nodup
  mem_records : ∀ F call, call ∈ callRecords F ↔
    call ∈ instructions (bodies F) ∧ call.isCallInst = true

/-- What the inliner keeps about the functions that it has reached. The maps give nothing for
functions that were never entered. -/
structure FnGraph (Fn : Type) where
  orderedCalls : Fn → List (Inst Fn)
  orderedCalled : Fn → List Fn
  childrenFns : Fn → List Fn
  parentFns : Fn → Finset Fn

variable {Fn : Type} [DecidableEq Fn]

/-- The function has a body. -/
def Program.isDefined (program : Program Fn) (F : Fn) : Bool := !(program.bodies F).isEmpty

/-- The instruction calls a function with a body directly. -/
def Program.isDirectCall (program : Program Fn) (call : Inst Fn) : Bool :=
  call.isCallInst && match call.calledFunction with
    | some F => program.isDefined F
    | none => false

/-- The calls in a block among a set of calls, in program order. -/
def callsOfBlock (unorderedCalls : List (Inst Fn)) (B : BasicBlock Fn) : List (Inst Fn) :=
  match unorderedCalls.filter (· ∈ B.insts) with
  | [] => []
  | [call] => [call]
  | bbCalls => B.insts.filter fun I => I.isCallInst && decide (I ∈ bbCalls)

/-- The direct calls of a function, in program order. -/
def collectFnCalls (program : Program Fn) (parentF : Fn) : List (Inst Fn) :=
  let unorderedCalls := ((program.callRecords parentF).filter program.isDirectCall).dedup
  (program.bodies parentF).flatMap (callsOfBlock unorderedCalls)

namespace FnGraph

/-- Nothing is known. -/
def empty : FnGraph Fn := ⟨fun _ => [], fun _ => [], fun _ => [], fun _ => ∅⟩

/-- Enter the calls of a function. -/
def setCalls (graph : FnGraph Fn) (parentF : Fn) (calls : List (Inst Fn)) : FnGraph Fn :=
  { graph with
    orderedCalls := Function.update graph.orderedCalls parentF calls
    orderedCalled := Function.update graph.orderedCalled parentF
      (calls.filterMap Inst.calledFunction) }

/-- Enter one more function that a function calls. -/
def addChild (graph : FnGraph Fn) (parentF childF : Fn) : FnGraph Fn :=
  { graph with
    childrenFns := Function.update graph.childrenFns parentF (graph.childrenFns parentF ++ [childF])
    parentFns := Function.update graph.parentFns childF (insert parentF (graph.parentFns childF)) }

/-- Enter the functions that a function calls, each at its first call. -/
def addChildren (parentF : Fn) : List Fn → List Fn → FnGraph Fn → FnGraph Fn
  | [], _, graph => graph
  | childF :: rest, reached, graph =>
      if childF ∈ reached then addChildren parentF rest reached graph
      else addChildren parentF rest (childF :: reached) (graph.addChild parentF childF)

/-- Forget the functions that a function calls. -/
def clearChildren (graph : FnGraph Fn) (parentF : Fn) : FnGraph Fn :=
  { graph with childrenFns := Function.update graph.childrenFns parentF [] }

/-- Enter a function with the functions that it calls. -/
def collectFn (program : Program Fn) (graph : FnGraph Fn) (parentF : Fn) :
    FnGraph Fn × List Fn :=
  let collected := (graph.setCalls parentF (collectFnCalls program parentF)).clearChildren parentF
  let graph' := addChildren parentF (collected.orderedCalled parentF) [] collected
  (graph', graph'.childrenFns parentF)

end FnGraph

/-- The call graph from main on. It gives nothing where the fuel does not suffice. -/
def collectFnGraph (program : Program Fn) (main : Fn) (fuel : Nat) : Option (FnGraph Fn) :=
  traverse (FnGraph.collectFn program) fuel [main] [main] FnGraph.empty

/-! ## The calls in program order -/

/-- The direct calls of a body, in program order. -/
def Program.directCalls (program : Program Fn) (blocks : List (BasicBlock Fn)) : List (Inst Fn) :=
  (instructions blocks).filter program.isDirectCall

/-- The functions that a body calls directly, in program order. -/
def Program.directCallees (program : Program Fn) (blocks : List (BasicBlock Fn)) : List Fn :=
  (program.directCalls blocks).filterMap Inst.calledFunction

/-- A function calls a function directly. -/
def Program.Calls (program : Program Fn) (P F : Fn) : Prop :=
  F ∈ program.directCallees (program.bodies P)

/-- Whether a function calls another is decided on its body. -/
instance Program.decidableCalls (program : Program Fn) (P F : Fn) : Decidable (program.Calls P F) :=
  inferInstanceAs (Decidable (_ ∈ _))

/-- Main calls the function, directly or through other functions. -/
def Program.Reached (program : Program Fn) (main : Fn) : Fn → Prop :=
  ReflTransGen program.Calls main

omit [DecidableEq Fn] in
/-- A direct call is a call. -/
theorem Program.is_call_inst_of_direct {program : Program Fn} {call : Inst Fn}
    (h : program.isDirectCall call = true) : call.isCallInst = true :=
  (Bool.and_eq_true_iff.mp h).1

/-- The calls of a block are those that are in the set, in program order. -/
theorem calls_of_block_eq {unorderedCalls : List (Inst Fn)} {B : BasicBlock Fn}
    (hcalls : ∀ call ∈ unorderedCalls, call.isCallInst = true) (hset : unorderedCalls.Nodup)
    (hinsts : B.insts.Nodup) :
    callsOfBlock unorderedCalls B = B.insts.filter (· ∈ unorderedCalls) := by
  have hmem : ∀ call, call ∈ unorderedCalls.filter (· ∈ B.insts) ↔
      call ∈ B.insts.filter (· ∈ unorderedCalls) := by
    intro call
    simp [and_comm]
  unfold callsOfBlock
  split
  -- The source orders the calls of a block only where it has several of them.
  · case _ hnone =>
      refine (List.eq_nil_iff_forall_not_mem.mpr fun call hcall => ?_).symm
      rw [← hmem, hnone] at hcall
      cases hcall
  · case _ call hone =>
      have hperm : [call].Perm (B.insts.filter (· ∈ unorderedCalls)) := by
        rw [← hone]
        exact (List.perm_ext_iff_of_nodup (hset.filter _) (hinsts.filter _)).mpr hmem
      exact (List.singleton_perm.mp hperm)
  · refine List.filter_congr fun call hcall => ?_
    have hiff : call ∈ unorderedCalls.filter (· ∈ B.insts) ↔ call ∈ unorderedCalls := by
      simp [hcall]
    by_cases hin : call ∈ unorderedCalls
    · simp [hiff, hin, hcalls call hin]
    · simp [hiff, hin]

/-- The calls that are collected are the direct calls of the body. -/
theorem collect_fn_calls_eq (program : Program Fn) (F : Fn) :
    collectFnCalls program F = program.directCalls (program.bodies F) := by
  have hmem : ∀ call, call ∈ ((program.callRecords F).filter program.isDirectCall).dedup ↔
      call ∈ instructions (program.bodies F) ∧ program.isDirectCall call = true := by
    intro call
    rw [List.mem_dedup, List.mem_filter, program.mem_records]
    exact ⟨fun ⟨⟨hin, _⟩, hdirect⟩ => ⟨hin, hdirect⟩,
      fun ⟨hin, hdirect⟩ => ⟨⟨hin, Program.is_call_inst_of_direct hdirect⟩, hdirect⟩⟩
  unfold collectFnCalls Program.directCalls instructions
  dsimp only
  rw [List.filter_flatMap]
  refine List.flatMap_congr fun B hB => ?_
  have hsub : B.insts.Sublist (instructions (program.bodies F)) :=
    List.sublist_flatten_of_mem (List.mem_map_of_mem hB)
  rw [calls_of_block_eq (fun call hcall => Program.is_call_inst_of_direct ((hmem call).mp hcall).2)
    (List.nodup_dedup _) (hsub.nodup (program.nodup_instructions F))]
  refine List.filter_congr fun call hcall => ?_
  rw [Bool.eq_iff_iff, decide_eq_true_eq, hmem]
  exact and_iff_right (hsub.subset hcall)

/-! ## The graph that is collected -/

/-- The functions that a function calls, in the order of their first calls. -/
def Program.callees (program : Program Fn) (P : Fn) : List Fn :=
  fresh [] (program.directCallees (program.bodies P))

namespace FnGraph

variable {graph : FnGraph Fn} {parentF childF : Fn}

/-- Entering the calls of a function leaves the calls alone. -/
theorem add_children_ordered (called reached : List Fn) (graph : FnGraph Fn) :
    (addChildren parentF called reached graph).orderedCalls = graph.orderedCalls ∧
      (addChildren parentF called reached graph).orderedCalled = graph.orderedCalled := by
  induction called generalizing reached graph with
  | nil => exact ⟨rfl, rfl⟩
  | cons childF rest ih =>
      unfold addChildren
      split_ifs
      · exact ih reached graph
      · exact ih _ _

/-- The functions entered are the new ones. -/
theorem add_children_children (called reached : List Fn) (graph : FnGraph Fn) :
    (addChildren parentF called reached graph).childrenFns =
      Function.update graph.childrenFns parentF
        (graph.childrenFns parentF ++ fresh reached called) := by
  induction called generalizing reached graph with
  | nil => simp [addChildren, fresh]
  | cons childF rest ih =>
      unfold addChildren fresh
      split_ifs with hreached
      · exact ih reached graph
      · rw [ih]
        simp [addChild]

/-- The function is entered as a parent of the new functions. -/
theorem add_children_parents (called reached : List Fn) (graph : FnGraph Fn) (F P : Fn) :
    P ∈ (addChildren parentF called reached graph).parentFns F ↔
      P ∈ graph.parentFns F ∨ P = parentF ∧ F ∈ fresh reached called := by
  induction called generalizing reached graph with
  | nil => simp [addChildren, fresh]
  | cons childF rest ih =>
      unfold addChildren fresh
      split_ifs with hreached
      · exact ih reached graph
      · rw [ih, List.mem_cons, addChild]
        dsimp only
        rw [Function.update_apply]
        split_ifs with hsame
        · subst hsame
          rw [Finset.mem_insert]
          tauto
        · tauto

/-- The graph describes the functions of a list as the program has them, and no others. -/
structure Describes (program : Program Fn) (done : List Fn) (graph : FnGraph Fn) : Prop where
  calls : ∀ P ∈ done, graph.orderedCalls P = program.directCalls (program.bodies P)
  called : ∀ P ∈ done, graph.orderedCalled P = program.directCallees (program.bodies P)
  children : ∀ P ∈ done, graph.childrenFns P = program.callees P
  others : ∀ P ∉ done, graph.childrenFns P = []
  parents : ∀ P F, P ∈ graph.parentFns F ↔ F ∈ graph.childrenFns P

variable {program : Program Fn} {done : List Fn}

/-- The functions that are pushed are those that the function calls. -/
theorem collect_fn_next (program : Program Fn) (graph : FnGraph Fn) (parentF : Fn) :
    (collectFn program graph parentF).2 = program.callees parentF := by
  unfold collectFn
  dsimp only
  rw [add_children_children]
  simp [clearChildren, setCalls, collect_fn_calls_eq, Program.callees, Program.directCallees]

/-- What entering a function leaves in the maps. -/
theorem collect_fn_eq (program : Program Fn) (graph : FnGraph Fn) (parentF : Fn) :
    (collectFn program graph parentF).1.orderedCalls = Function.update graph.orderedCalls parentF
        (program.directCalls (program.bodies parentF)) ∧
      (collectFn program graph parentF).1.orderedCalled = Function.update graph.orderedCalled
        parentF (program.directCallees (program.bodies parentF)) ∧
      (collectFn program graph parentF).1.childrenFns =
        Function.update graph.childrenFns parentF (program.callees parentF) := by
  unfold collectFn
  dsimp only
  rw [(add_children_ordered _ _ _).1, (add_children_ordered _ _ _).2, add_children_children]
  simp [clearChildren, setCalls, collect_fn_calls_eq, Program.callees, Program.directCallees]

/-- The parents after a function is entered. -/
theorem mem_parents_collect_fn (program : Program Fn) (graph : FnGraph Fn) (parentF P F : Fn) :
    P ∈ (collectFn program graph parentF).1.parentFns F ↔
      P ∈ graph.parentFns F ∨ P = parentF ∧ F ∈ program.callees parentF := by
  unfold collectFn
  dsimp only
  rw [add_children_parents]
  simp [clearChildren, setCalls, collect_fn_calls_eq, Program.callees, Program.directCallees]

/-- Entering a function describes one function more. -/
theorem Describes.collect_fn (h : graph.Describes program done) (hnew : parentF ∉ done) :
    (collectFn program graph parentF).1.Describes program (done ++ [parentF]) := by
  obtain ⟨hcalls, hcalled, hchildren⟩ := collect_fn_eq program graph parentF
  have hcases : ∀ P ∈ done ++ [parentF], P ≠ parentF ∧ P ∈ done ∨ P = parentF := by
    intro P hP
    rcases List.mem_append.mp hP with hdone | hlast
    · exact .inl ⟨fun heq => hnew (heq ▸ hdone), hdone⟩
    · exact .inr (List.mem_singleton.mp hlast)
  refine ⟨fun P hP => ?_, fun P hP => ?_, fun P hP => ?_, fun P hP => ?_, fun P F => ?_⟩
  · rw [hcalls]
    rcases hcases P hP with ⟨hne, hdone⟩ | rfl
    · rw [Function.update_of_ne hne, h.calls P hdone]
    · rw [Function.update_self]
  · rw [hcalled]
    rcases hcases P hP with ⟨hne, hdone⟩ | rfl
    · rw [Function.update_of_ne hne, h.called P hdone]
    · rw [Function.update_self]
  · rw [hchildren]
    rcases hcases P hP with ⟨hne, hdone⟩ | rfl
    · rw [Function.update_of_ne hne, h.children P hdone]
    · rw [Function.update_self]
  · rw [List.mem_append, List.mem_singleton, not_or] at hP
    rw [hchildren, Function.update_of_ne hP.2, h.others P hP.1]
  · rw [mem_parents_collect_fn, h.parents, hchildren]
    -- The children of the function were empty before, as it was not entered.
    by_cases hsame : P = parentF
    · subst hsame
      rw [Function.update_self, h.others P hnew]
      simp
    · rw [Function.update_of_ne hsame]
      simp [hsame]

/-- Entering functions one after the other describes them all. -/
theorem Describes.foldl {order : List Fn} (h : graph.Describes program done)
    (hnodup : (done ++ order).Nodup) :
    (order.foldl (fun graph F => (collectFn program graph F).1) graph).Describes program
      (done ++ order) := by
  induction order generalizing done graph with
  | nil => simpa using h
  | cons F order ih =>
      have hnew : F ∉ done := fun hdone =>
        (List.nodup_append.mp hnodup).2.2 F hdone F List.mem_cons_self rfl
      rw [List.foldl_cons, List.append_cons]
      exact ih (h.collect_fn hnew) (by rwa [← List.append_cons])

/-- The empty graph describes no function. -/
theorem describes_empty (program : Program Fn) : (empty : FnGraph Fn).Describes program [] :=
  ⟨by simp, by simp, by simp, fun _ _ => rfl, fun _ _ => by simp [empty]⟩

end FnGraph

/-- The functions that a function calls directly. -/
theorem Program.mem_callees {program : Program Fn} {P F : Fn} :
    F ∈ program.callees P ↔ program.Calls P F := by
  unfold callees Calls
  simp

/-- The call graph from main on describes the functions that main reaches. -/
theorem exists_collect_fn_graph (program : Program Fn) (main : Fn) :
    ∃ order graph, graph.Describes program order ∧
      (∀ F, F ∈ order ↔ program.Reached main F) ∧
      ∀ fuel ≥ program.functions.length, collectFnGraph program main fuel = some graph := by
  obtain ⟨order, horder, hrun⟩ := exists_traversal_order
    (FnGraph.collect_fn_next program) (fun _ _ F _ => program.mem_functions F)
    (List.nodup_singleton main)
  refine ⟨order, _, (FnGraph.describes_empty program).foldl (by simpa using horder.nodup),
    fun F => ?_, fun fuel hfuel => hrun fuel hfuel FnGraph.empty⟩
  have hstep : (fun P F => F ∈ program.callees P) = program.Calls := by
    funext P F
    exact propext Program.mem_callees
  rw [horder.mem_iff, hstep]
  simp [Program.Reached]

end Gino.Inliner
