import Gino.Inliner.DepthOrder
import Gino.Inliner.LoopOrder
import Mathlib.Data.List.Sort

/-!
# The progress file of the inliner

`Inliner::registerRemainingFunctions` writes the numbers of the functions that are left to a file,
and `Inliner::getFunctionsToInline` reads them in a later run. No file is written when no function
is left, and without a file the later run takes all functions with loops
(`remaining_functions_read`).
-/

namespace Gino.Inliner

open Relation

variable {Fn : Type} [DecidableEq Fn]

/-- The functions that the lines of the file number. It gives nothing where a number is out of
range. -/
def readFnInds (order : DepthOrder Fn) : List Int → Option (Finset Fn)
  | [] => some ∅
  | fnInd :: rest =>
      if 0 < fnInd ∧ fnInd < order.depthOrderedFns.length then
        match order.depthOrderedFns[fnInd.toNat]? with
        | some F => (readFnInds order rest).map (insert F)
        | none => none
      else none

/-- The functions to inline: those that the file numbers, or without a file those with loops. -/
def getFunctionsToInline (functions : List Fn) (order : DepthOrder Fn)
    (preOrderedLoops : LoopLists Fn) (file : Option (List Int)) : Option (Finset Fn) :=
  match file with
  | some lines => readFnInds order lines
  | none => some (functions.filter fun F => (preOrderedLoops F).isSome).toFinset

/-- The number of a function, which is zero if it has none. -/
def DepthOrder.fnID (order : DepthOrder Fn) (F : Fn) : Int := ((order.fnOrders F).getD 0 : Nat)

/-- The file that is left behind, and whether functions remain. -/
def registerRemainingFunctions (functions : List Fn) (order : DepthOrder Fn)
    (fnsToCheck : Finset Fn) : Option (List Int) × Bool :=
  if fnsToCheck = ∅ then (none, false)
  else
    let fnInds := ((functions.filter (· ∈ fnsToCheck)).map order.fnID).filter (· ≠ 0)
    (some (fnInds.insertionSort (· ≤ ·)), 0 < fnInds.length)

section Registered

variable {order : DepthOrder Fn} {graph : FnGraph Fn} {main F : Fn}

/-- Lines in range are read as the functions that they number. -/
theorem exists_read_fn_inds {lines : List Int}
    (hrange : ∀ line ∈ lines, 0 < line ∧ line < order.depthOrderedFns.length) :
    ∃ result, readFnInds order lines = some result ∧
      ∀ F, F ∈ result ↔ ∃ line ∈ lines, order.depthOrderedFns[line.toNat]? = some F := by
  induction lines with
  | nil => exact ⟨∅, rfl, by simp⟩
  | cons line rest ih =>
      obtain ⟨result, hresult, hmem⟩ := ih fun other hother =>
        hrange other (List.mem_cons_of_mem line hother)
      have hline := hrange line List.mem_cons_self
      have hbound : line.toNat < order.depthOrderedFns.length := by omega
      have hget : order.depthOrderedFns[line.toNat]? = some order.depthOrderedFns[line.toNat] :=
        List.getElem?_eq_getElem hbound
      refine ⟨insert order.depthOrderedFns[line.toNat] result, ?_, fun F => ?_⟩
      · rw [readFnInds, if_pos hline, hget, hresult]
        rfl
      · rw [Finset.mem_insert, hmem, List.exists_mem_cons_iff, hget, Option.some.injEq, eq_comm]

omit [DecidableEq Fn] in
/-- A function has a number other than zero exactly if main reaches it and it is another function.
The number is its position. -/
theorem DepthOrder.Lists.fn_id_ne_zero_iff (h : order.Lists graph main) (F : Fn) :
    order.fnID F ≠ 0 ↔ ReflTransGen graph.Calls main F ∧ F ≠ main := by
  have hmain : order.fnOrders main = some 0 := by
    rw [h.inverse, ← List.head?_eq_getElem?, h.first]
  rw [← h.mem_iff]
  constructor
  · intro hne
    cases hnumber : order.fnOrders F with
    | none => simp [fnID, hnumber] at hne
    | some i =>
        refine ⟨List.mem_of_getElem? ((h.inverse F i).mp hnumber), ?_⟩
        rintro rfl
        simp [fnID, hmain] at hne
  · intro ⟨hin, hne⟩ hzero
    obtain ⟨i, hi⟩ := List.mem_iff_getElem?.mp hin
    have hnumber := (h.inverse F i).mpr hi
    obtain rfl : i = 0 := by simpa [fnID, hnumber] using hzero
    rw [← List.head?_eq_getElem?, h.first] at hi
    exact hne (Option.some.inj hi).symm

omit [DecidableEq Fn] in
/-- A number other than zero is in range, and it is the number of one function. -/
theorem DepthOrder.Lists.fn_id_range (h : order.Lists graph main) (hne : order.fnID F ≠ 0) :
    (0 < order.fnID F ∧ order.fnID F < order.depthOrderedFns.length) ∧
      order.depthOrderedFns[(order.fnID F).toNat]? = some F := by
  cases hnumber : order.fnOrders F with
  | none => simp [fnID, hnumber] at hne
  | some i =>
      have hget := (h.inverse F i).mp hnumber
      have hlt := (List.getElem?_eq_some_iff.mp hget).1
      have hid : order.fnID F = i := by simp [fnID, hnumber]
      rw [hid] at hne ⊢
      exact ⟨⟨by omega, by omega⟩, by simpa using hget⟩

/-- The lines that are registered are the numbers of functions that are left, other than zero. -/
theorem mem_registered {functions : List Fn} (hfunctions : ∀ F, F ∈ functions)
    {fnsToCheck : Finset Fn} {lines : List Int}
    (hlines : (registerRemainingFunctions functions order fnsToCheck).1 = some lines) (line : Int) :
    line ∈ lines ↔ ∃ F ∈ fnsToCheck, order.fnID F ≠ 0 ∧ order.fnID F = line := by
  unfold registerRemainingFunctions at hlines
  split_ifs at hlines
  cases hlines
  simp only [List.mem_insertionSort, List.mem_filter, List.mem_map, decide_eq_true_eq]
  constructor
  · rintro ⟨⟨F, ⟨-, hleft⟩, rfl⟩, hne⟩
    exact ⟨F, hleft, hne, rfl⟩
  · rintro ⟨F, hleft, hne, rfl⟩
    exact ⟨⟨F, ⟨hfunctions F, hleft⟩, rfl⟩, hne⟩

/-- What is registered is read as the functions that main reaches, if any function is left. -/
theorem DepthOrder.Lists.read_registered (h : order.Lists graph main) {functions : List Fn}
    (hfunctions : ∀ F, F ∈ functions) {fnsToCheck : Finset Fn} {lines : List Int}
    (hlines : (registerRemainingFunctions functions order fnsToCheck).1 = some lines) :
    ∃ result, readFnInds order lines = some result ∧
      ∀ F, F ∈ result ↔ F ∈ fnsToCheck ∧ ReflTransGen graph.Calls main F ∧ F ≠ main := by
  have hmem := mem_registered hfunctions hlines
  obtain ⟨result, hresult, hfound⟩ := @exists_read_fn_inds _ _ order lines fun line hline => by
    obtain ⟨F, -, hne, rfl⟩ := (hmem line).mp hline
    exact (h.fn_id_range hne).1
  refine ⟨result, hresult, fun F => ?_⟩
  rw [hfound, ← h.fn_id_ne_zero_iff]
  constructor
  · rintro ⟨line, hline, hget⟩
    obtain ⟨G, hleft, hne, rfl⟩ := (hmem line).mp hline
    obtain rfl : G = F := Option.some.inj ((h.fn_id_range hne).2.symm.trans hget)
    exact ⟨hleft, hne⟩
  · intro ⟨hleft, hne⟩
    exact ⟨order.fnID F, (hmem _).mpr ⟨F, hleft, hne, rfl⟩, (h.fn_id_range hne).2⟩

end Registered

/-! ## A later run -/

/-- The functions call the same functions in two programs, in the same order. -/
def Program.SameCallGraph (program program' : Program Fn) : Prop :=
  ∀ P, program.callees P = program'.callees P

/-- Programs with the same call graph have the same functions on it. -/
theorem Program.SameCallGraph.calls_iff {program program' : Program Fn}
    (h : program.SameCallGraph program') (P F : Fn) :
    program.Calls P F ↔ program'.Calls P F := by
  rw [← mem_callees, ← mem_callees, h P]

/-- The order depends on who calls whom only. -/
theorem collect_in_depth_order_congr {graph graph' : FnGraph Fn}
    (hchildren : graph.childrenFns = graph'.childrenFns)
    (hparents : graph.parentFns = graph'.parentFns) (main : Fn) (fuel : Nat) :
    collectInDepthOrderFns graph main fuel = collectInDepthOrderFns graph' main fuel := by
  have hvisit : OrderState.visitChild graph = OrderState.visitChild graph' := by
    funext state F
    unfold OrderState.visitChild
    rw [hparents]
  have hinner : ∀ fuel, OrderState.orderFns graph fuel = OrderState.orderFns graph' fuel := by
    intro fuel
    induction fuel with
    | zero => rfl
    | succ fuel ih =>
        funext state
        rw [OrderState.orderFns, OrderState.orderFns, hvisit, hchildren, ih]
  have houter : ∀ rounds, OrderState.orderRemaining graph fuel rounds =
      OrderState.orderRemaining graph' fuel rounds := by
    intro rounds
    induction rounds with
    | zero => rfl
    | succ rounds ih =>
        funext state
        rw [OrderState.orderRemaining, OrderState.orderRemaining, hinner, ih]
  unfold collectInDepthOrderFns
  rw [houter]

/-- Programs with the same call graph reach the same functions. -/
theorem Program.SameCallGraph.reached_iff {program program' : Program Fn}
    (h : program.SameCallGraph program') (main F : Fn) :
    program.Reached main F ↔ program'.Reached main F := by
  have hcalls : program.Calls = program'.Calls := by
    funext P F
    exact propext (h.calls_iff P F)
  unfold Reached
  rw [hcalls]

/-- Programs with the same call graph have the same depth order. -/
theorem Program.SameCallGraph.exists_depth_order {program program' : Program Fn}
    (h : program.SameCallGraph program') (main : Fn) :
    ∃ graph graph' order,
      (∀ fuel ≥ program.functions.length, collectFnGraph program main fuel = some graph ∧
        collectInDepthOrderFns graph main fuel = some order) ∧
      (∀ fuel ≥ program'.functions.length, collectFnGraph program' main fuel = some graph' ∧
        collectInDepthOrderFns graph' main fuel = some order) ∧
      order.Lists graph main ∧ ∀ F, ReflTransGen graph.Calls main F ↔ program.Reached main F := by
  obtain ⟨done, graph, state, hgraph, hdone, hfinished, hcollect, horder⟩ :=
    Inliner.exists_depth_order program main
  obtain ⟨done', graph', state', hgraph', hdone', -, hcollect', horder'⟩ :=
    Inliner.exists_depth_order program' main
  have hsameDone : ∀ F, F ∈ done ↔ F ∈ done' := fun F => by
    rw [hdone, hdone', h.reached_iff]
  have hchildren : graph.childrenFns = graph'.childrenFns := by
    funext P
    by_cases hP : P ∈ done
    · rw [hgraph.children P hP, hgraph'.children P ((hsameDone P).mp hP), h P]
    · rw [hgraph.others P hP, hgraph'.others P fun hin => hP ((hsameDone P).mpr hin)]
  have hparents : graph.parentFns = graph'.parentFns := by
    funext F
    ext P
    rw [hgraph.parents, hgraph'.parents, hchildren]
  -- The depth order depends on the two maps alone, at an amount of fuel that both programs have.
  have hsame : state.toDepthOrder = state'.toDepthOrder := by
    have hfuel := horder (max program.functions.length program'.functions.length)
      (Nat.le_max_left _ _)
    rw [collect_in_depth_order_congr hchildren hparents,
      horder' _ (Nat.le_max_right _ _)] at hfuel
    exact (Option.some.inj hfuel).symm
  exact ⟨graph, graph', state.toDepthOrder,
    fun fuel hfuel => ⟨hcollect fuel hfuel, horder fuel hfuel⟩,
    fun fuel hfuel => ⟨hcollect' fuel hfuel, hsame ▸ horder' fuel hfuel⟩,
    hfinished.lists, hgraph.reaches_iff hdone⟩

/-- A later run on a program with the same call graph reads the functions that were left and that
main reaches. If none was left it takes all functions with loops. -/
theorem remaining_functions_read {program program' : Program Fn}
    (hsame : program.SameCallGraph program') (main : Fn) (fnsToCheck : Finset Fn)
    (preOrderedLoops : LoopLists Fn) :
    ∃ graph graph' order order',
      (∀ fuel ≥ program.functions.length, collectFnGraph program main fuel = some graph ∧
        collectInDepthOrderFns graph main fuel = some order) ∧
      (∀ fuel ≥ program'.functions.length, collectFnGraph program' main fuel = some graph' ∧
        collectInDepthOrderFns graph' main fuel = some order') ∧
      ∃ result,
        getFunctionsToInline program'.functions order' preOrderedLoops
          (registerRemainingFunctions program.functions order fnsToCheck).1 = some result ∧
        (fnsToCheck ≠ ∅ →
          ∀ F, F ∈ result ↔ F ∈ fnsToCheck ∧ program.Reached main F ∧ F ≠ main) ∧
        (fnsToCheck = ∅ → ∀ F, F ∈ result ↔ (preOrderedLoops F).isSome = true) := by
  obtain ⟨graph, graph', order, hfirst, hlater, hlists, hreaches⟩ := hsame.exists_depth_order main
  refine ⟨graph, graph', order, order, hfirst, hlater, ?_⟩
  by_cases hleft : fnsToCheck = ∅
  · refine ⟨_, by rw [registerRemainingFunctions, if_pos hleft]; rfl, fun hne => absurd hleft hne,
      fun _ F => ?_⟩
    simp [program'.mem_functions]
  · have hlines : (registerRemainingFunctions program.functions order fnsToCheck).1 =
        some ((((program.functions.filter (· ∈ fnsToCheck)).map order.fnID).filter
          (· ≠ 0)).insertionSort (· ≤ ·)) := by
      rw [registerRemainingFunctions, if_neg hleft]
    obtain ⟨result, hresult, hmem⟩ := hlists.read_registered program.mem_functions hlines
    refine ⟨result, ?_, fun _ F => ?_, fun hempty => absurd hempty hleft⟩
    · rw [hlines]
      exact hresult
    · rw [hmem, hreaches]

namespace Shared

/-- Only the helper has a loop. -/
def helperLoops : LoopLists Shared
  | .helper => some [⟨0, 3⟩]
  | _ => none

/-- The helper is left, and a later run reads that it is. -/
theorem helper_read : ∃ result,
    getFunctionsToInline program.functions order helperLoops
      (registerRemainingFunctions program.functions order {.main, .helper}).1 = some result ∧
    ∀ F, F ∈ result ↔ F ∈ ({.main, .helper} : Finset Shared) ∧
      program.Reached .main F ∧ F ≠ .main := by
  obtain ⟨graph', graph'', order', order'', hfirst, hlater, result, hresult, hleft, -⟩ :=
    remaining_functions_read (fun P => rfl : program.SameCallGraph program) .main
      {.main, .helper} helperLoops
  have hgraph : collectFnGraph program .main 4 = some graph := rfl
  have horder : collectInDepthOrderFns graph .main 4 = some order := rfl
  obtain rfl := Option.some.inj (hgraph.symm.trans (hfirst 4 (by decide)).1)
  obtain rfl := Option.some.inj (hgraph.symm.trans (hlater 4 (by decide)).1)
  obtain rfl := Option.some.inj (horder.symm.trans (hfirst 4 (by decide)).2)
  obtain rfl := Option.some.inj (horder.symm.trans (hlater 4 (by decide)).2)
  exact ⟨result, hresult, hleft (by decide)⟩

/-- No function is left, but a later run takes the helper. -/
theorem helper_taken_again :
    (registerRemainingFunctions program.functions order ∅).1 = none ∧
    getFunctionsToInline program.functions order helperLoops
      (registerRemainingFunctions program.functions order ∅).1 = some {.helper} ∧
    ¬ ∀ result, getFunctionsToInline program.functions order helperLoops
        (registerRemainingFunctions program.functions order ∅).1 = some result →
      ∀ F, F ∈ result ↔ F ∈ (∅ : Finset Shared) ∧ program.Reached .main F ∧ F ≠ .main := by
  have hread : getFunctionsToInline program.functions order helperLoops
      (registerRemainingFunctions program.functions order ∅).1 = some {.helper} := by decide
  refine ⟨by decide, hread, fun h => ?_⟩
  have hnone := ((h _ hread .helper).mp (by decide)).1
  cases hnone

end Shared

end Gino.Inliner
