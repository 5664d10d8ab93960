import Gino.Inliner.LoopOrder
import Mathlib.Data.Finset.Erase
import Mathlib.Data.List.TakeWhile

/-!
# Inlining one call

`Inliner::inlineFunctionCall` inlines a call into a function that nothing was inlined into before,
and `Inliner::adjustFnGraphAfterInline` updates the maps of the call graph. It takes the callees of
the function that was inlined from the maps and does not read the new body. So the maps say what the
bodies say exactly when every inlining copied the calls of the function (`call_graph_mirrors`).
-/

namespace Gino.Inliner

open Machine Relation

/-- What the inliner takes from the compiler: the size of a function, and the inlining of a call in
a function, which may depend on the number of attempts before. -/
structure Environment (Fn : Type) where
  getStaticInstructions : Nat → Fn → Nat
  InlineFunction : Nat → Bodies Fn → Fn → Inst Fn → Option (Bodies Fn)

/-- The state of the inliner, with the number of attempts so far. -/
structure InlinerState (Fn : Type) where
  graph : FnGraph Fn
  bodies : Bodies Fn
  fnsAffected : Finset Fn
  preOrderedLoops : LoopLists Fn
  attempts : Nat

variable {Fn : Type} [DecidableEq Fn]

/-- The functions that the calls among instructions name, in program order. -/
def calledIn (insts : List (Inst Fn)) : List (Option Fn) :=
  (insts.filter Inst.isCallInst).map Inst.calledFunction

/-- The functions that the calls of a body name, in program order. -/
def calledInBody (blocks : List (BasicBlock Fn)) : List (Option Fn) :=
  calledIn (instructions blocks)

/-- The calls that are copied come in the place of a call, and those before and after it stay. -/
def CopiedFor (call : Inst Fn) (copied : List (Option Fn)) (body body' : List (BasicBlock Fn)) :
    Prop :=
  ∃ before after, instructions body = before ++ call :: after ∧
    calledInBody body' = calledIn before ++ copied ++ calledIn after

/-- What an inlined call leaves: other functions stay, and the caller has the calls that are copied
in the place of the call. -/
structure Inlined (bodies bodies' : Bodies Fn) (F : Fn) (call : Inst Fn)
    (copied : List (Option Fn)) : Prop where
  others : ∀ G ≠ F, bodies' G = bodies G
  body : bodies' F ≠ []
  spliced : CopiedFor call copied (bodies F) (bodies' F)

/-- An inlining that succeeds inlines the call. What it copies is left open: a call through a
parameter becomes a call of the argument, and blocks that the arguments rule out are left out. -/
def Environment.Documented (env : Environment Fn) : Prop :=
  ∀ attempt bodies F call bodies', call ∈ instructions (bodies F) → call.isCallInst = true →
    env.InlineFunction attempt bodies F call = some bodies' →
    ∃ copied, Inlined bodies bodies' F call copied

/-- The maps after a call from one function to another is inlined. -/
def adjustFnGraphAfterInline (graph : FnGraph Fn) (parentF childF : Fn) (callInd : Nat) :
    FnGraph Fn :=
  let childCalled := graph.orderedCalled childF
  let erased := (graph.orderedCalled parentF).eraseIdx callInd
  let parentCalled :=
    match childCalled with
    | [] => erased
    | first :: _ => spliceInPlace first callInd childCalled erased
  let adjusted : FnGraph Fn :=
    { graph with
      orderedCalled := Function.update graph.orderedCalled parentF parentCalled
      childrenFns := Function.update graph.childrenFns parentF []
      parentFns := Function.update graph.parentFns childF
        ((graph.parentFns childF).erase parentF) }
  FnGraph.addChildren parentF parentCalled [] adjusted

/-- A call to the entry of a recursive chain is not inlined. -/
def canInlineWithoutRecursiveLoop (recursiveChainEntranceFns : Finset Fn) (childF : Fn) : Bool :=
  childF ∉ recursiveChainEntranceFns

/-- Try to inline a call from one function to another. -/
def inlineFunctionCall (env : Environment Fn) (recursiveChainEntranceFns : Finset Fn)
    (state : InlinerState Fn) (F childF : Fn) (call : Inst Fn) : Bool × InlinerState Fn :=
  if F ∈ state.fnsAffected then (false, state)
  else if ¬ canInlineWithoutRecursiveLoop recursiveChainEntranceFns childF then (false, state)
  else if env.getStaticInstructions state.attempts F > 1000 then (false, state)
  else
    let loopIndAfterCall :=
      getNextPreorderLoopAfter state.preOrderedLoops F (state.bodies F) call
    let callInd := (state.graph.orderedCalls F).idxOf call
    match env.InlineFunction state.attempts state.bodies F call with
    | some bodies =>
        (true,
          { graph := adjustFnGraphAfterInline state.graph F childF callInd
            bodies := bodies
            fnsAffected := insert F state.fnsAffected
            preOrderedLoops :=
              adjustLoopOrdersAfterInline state.preOrderedLoops F childF loopIndAfterCall
            attempts := state.attempts + 1 })
    | none => (false, { state with attempts := state.attempts + 1 })

/-- The state before the first call is inlined. -/
def InlinerState.collected (program : Program Fn) (graph : FnGraph Fn)
    (preOrderedLoops : LoopLists Fn) : InlinerState Fn :=
  ⟨graph, program.bodies, ∅, preOrderedLoops, 0⟩

/-! ## What an attempt does -/

/-- What a successful attempt to inline a call does. -/
structure InlinesCall (env : Environment Fn) (recursiveChainEntranceFns : Finset Fn)
    (state : InlinerState Fn) (F childF : Fn) (call : Inst Fn) (state' : InlinerState Fn) :
    Prop where
  unaffected : F ∉ state.fnsAffected
  noEntrance : childF ∉ recursiveChainEntranceFns
  body : env.InlineFunction state.attempts state.bodies F call = some state'.bodies
  graph : state'.graph =
    adjustFnGraphAfterInline state.graph F childF ((state.graph.orderedCalls F).idxOf call)
  affected : state'.fnsAffected = insert F state.fnsAffected

/-- An attempt inlines the call, or leaves everything but the number of attempts. -/
theorem inline_function_call_cases {env : Environment Fn} {recursiveChainEntranceFns : Finset Fn}
    {state state' : InlinerState Fn} {F childF : Fn} {call : Inst Fn} {inlined : Bool}
    (h : inlineFunctionCall env recursiveChainEntranceFns state F childF call =
      (inlined, state')) :
    inlined = true ∧ InlinesCall env recursiveChainEntranceFns state F childF call state' ∨
      inlined = false ∧ ∃ attempts, state' = { state with attempts := attempts } := by
  have hfailed : ∀ attempts, (false, { state with attempts := attempts }) = (inlined, state') →
      inlined = false ∧ ∃ attempts, state' = { state with attempts := attempts } := by
    intro attempts heq
    cases heq
    exact ⟨rfl, attempts, rfl⟩
  unfold inlineFunctionCall canInlineWithoutRecursiveLoop at h
  by_cases haffected : F ∈ state.fnsAffected
  · rw [if_pos haffected] at h
    exact .inr (hfailed _ h)
  by_cases hentrance : childF ∈ recursiveChainEntranceFns
  · rw [if_neg haffected, if_pos (by simpa using hentrance)] at h
    exact .inr (hfailed _ h)
  by_cases hlarge : env.getStaticInstructions state.attempts F > 1000
  · rw [if_neg haffected, if_neg (by simpa using hentrance), if_pos hlarge] at h
    exact .inr (hfailed _ h)
  rw [if_neg haffected, if_neg (by simpa using hentrance), if_neg hlarge] at h
  dsimp only at h
  cases hbody : env.InlineFunction state.attempts state.bodies F call with
  | none =>
      rw [hbody] at h
      exact .inr (hfailed _ h)
  | some bodies =>
      rw [hbody] at h
      cases h
      exact .inl ⟨rfl, haffected, hentrance, hbody, rfl, rfl⟩

/-! ## Calls in a spliced body -/

/-- The function, if it has a body. -/
def Program.definedCallee (program : Program Fn) (called : Option Fn) : Option Fn :=
  called.filter program.isDefined

/-- What is copied calls the functions with a body that the body of the callee calls, in the same
order. -/
def Program.CopiesCallees (program : Program Fn) (childBody : List (BasicBlock Fn))
    (copied : List (Option Fn)) : Prop :=
  copied.filterMap program.definedCallee = program.directCallees childBody

omit [DecidableEq Fn] in
/-- The functions that instructions call directly. -/
theorem direct_callees_insts (program : Program Fn) (insts : List (Inst Fn)) :
    (insts.filter program.isDirectCall).filterMap Inst.calledFunction =
      (calledIn insts).filterMap program.definedCallee := by
  unfold calledIn
  induction insts with
  | nil => rfl
  | cons call rest ih =>
      rw [List.filter_cons, List.filter_cons]
      cases hcall : call.isCallInst with
      | false =>
          have hdirect : program.isDirectCall call = false := by simp [Program.isDirectCall, hcall]
          rw [hdirect]
          exact ih
      | true =>
          rw [if_pos rfl, List.map_cons, List.filterMap_cons, ← ih]
          cases hcalled : call.calledFunction with
          | none =>
              have hdirect : program.isDirectCall call = false := by
                simp [Program.isDirectCall, hcalled]
              rw [hdirect]
              rfl
          | some F =>
              have hdirect : program.isDirectCall call = program.isDefined F := by
                simp [Program.isDirectCall, hcall, hcalled]
              rw [hdirect, Program.definedCallee, Option.filter_some]
              cases program.isDefined F with
              | false => rfl
              | true => rw [if_pos rfl, List.filterMap_cons_some hcalled]
                        rfl

omit [DecidableEq Fn] in
/-- The functions that a body calls directly. -/
theorem direct_callees_eq (program : Program Fn) (blocks : List (BasicBlock Fn)) :
    program.directCallees blocks = (calledInBody blocks).filterMap program.definedCallee :=
  direct_callees_insts program (instructions blocks)

omit [DecidableEq Fn] in
/-- Every direct call calls one function. -/
theorem length_direct_callees (program : Program Fn) (insts : List (Inst Fn)) :
    ((insts.filter program.isDirectCall).filterMap Inst.calledFunction).length =
      (insts.filter program.isDirectCall).length := by
  rw [List.length_filterMap_eq_countP, List.countP_eq_length]
  intro call hcall
  have hdirect := (List.mem_filter.mp hcall).2
  unfold Program.isDirectCall at hdirect
  cases hcalled : call.calledFunction with
  | none => simp [hcalled] at hdirect
  | some F => rfl

/-- Where a call is among the direct calls of a body, and what the body calls after the call is
inlined. -/
theorem CopiedFor.direct_callees {program : Program Fn} {body body' : List (BasicBlock Fn)}
    {childF : Fn} {call : Inst Fn} {copied : List (Option Fn)}
    (h : CopiedFor call copied body body') (hnodup : (instructions body).Nodup)
    (hdirect : program.isDirectCall call = true) (hcalled : call.calledFunction = some childF) :
    ∃ earlier later, program.directCallees body = earlier ++ childF :: later ∧
      (program.directCalls body).idxOf call = earlier.length ∧
      program.directCallees body' =
        earlier ++ copied.filterMap program.definedCallee ++ later := by
  obtain ⟨before, after, hinstructions, hcopied⟩ := h
  have hcalls : program.directCalls body =
      before.filter program.isDirectCall ++ call :: after.filter program.isDirectCall := by
    rw [Program.directCalls, hinstructions, List.filter_append, List.filter_cons_of_pos hdirect]
  have hfresh : call ∉ before.filter program.isDirectCall := by
    rw [hinstructions, List.nodup_append] at hnodup
    exact fun hcall => hnodup.2.2 call (List.mem_filter.mp hcall).1 call List.mem_cons_self rfl
  refine ⟨(before.filter program.isDirectCall).filterMap Inst.calledFunction,
    (after.filter program.isDirectCall).filterMap Inst.calledFunction, ?_, ?_, ?_⟩
  · rw [Program.directCallees, hcalls, List.filterMap_append, List.filterMap_cons_some hcalled]
  · rw [hcalls, length_direct_callees, List.idxOf_append_of_notMem hfresh, List.idxOf_cons_self,
      Nat.add_zero]
  · rw [direct_callees_eq, hcopied, List.filterMap_append, List.filterMap_append,
      direct_callees_insts, direct_callees_insts]

/-! ## The maps say what the bodies say -/

section Mirrors

/-- The maps describe the functions that main reaches: the recorded calls are those before anything
was inlined, and the functions that they call are those of the bodies into which nothing was. -/
structure Mirrors (program : Program Fn) (main : Fn) (state : InlinerState Fn) : Prop where
  calls : ∀ P, program.Reached main P →
    state.graph.orderedCalls P = program.directCalls (program.bodies P)
  called : ∀ P, program.Reached main P → P ∉ state.fnsAffected →
    state.graph.orderedCalled P = program.directCallees (state.bodies P)
  children : ∀ P, program.Reached main P →
    state.graph.childrenFns P = fresh [] (state.graph.orderedCalled P)
  parents : ∀ P F, P ∈ state.graph.parentFns F ↔ F ∈ state.graph.childrenFns P
  unaffected : ∀ P ∉ state.fnsAffected, state.bodies P = program.bodies P

variable {program : Program Fn} {main : Fn} {env : Environment Fn}
  {recursiveChainEntranceFns : Finset Fn} {state state' : InlinerState Fn} {F childF : Fn}
  {call : Inst Fn}

/-- The graph that is collected describes the bodies. -/
theorem mirrors_collected {order : List Fn} {graph : FnGraph Fn}
    (h : graph.Describes program order) (horder : ∀ F, F ∈ order ↔ program.Reached main F)
    (preOrderedLoops : LoopLists Fn) :
    Mirrors program main (InlinerState.collected program graph preOrderedLoops) := by
  refine ⟨fun P hP => h.calls P ((horder P).mpr hP),
    fun P hP _ => h.called P ((horder P).mpr hP), fun P hP => ?_, h.parents, fun _ _ => rfl⟩
  have hin := (horder P).mpr hP
  show graph.childrenFns P = fresh [] (graph.orderedCalled P)
  rw [h.children P hin, h.called P hin]
  rfl

/-- What inlining a call changes in the maps. -/
theorem adjust_fn_graph_eq (graph : FnGraph Fn) {callInd : Nat} {earlier later : List Fn}
    (hcalled : graph.orderedCalled F = earlier ++ childF :: later)
    (hindex : callInd = earlier.length) :
    (adjustFnGraphAfterInline graph F childF callInd).orderedCalls = graph.orderedCalls ∧
    (adjustFnGraphAfterInline graph F childF callInd).orderedCalled =
      Function.update graph.orderedCalled F (earlier ++ graph.orderedCalled childF ++ later) ∧
    (adjustFnGraphAfterInline graph F childF callInd).childrenFns =
      Function.update graph.childrenFns F
        (fresh [] (earlier ++ graph.orderedCalled childF ++ later)) ∧
    ∀ P X, P ∈ (adjustFnGraphAfterInline graph F childF callInd).parentFns X ↔
      P ∈ graph.parentFns X ∧ (X = childF → P ≠ F) ∨
        P = F ∧ X ∈ earlier ++ graph.orderedCalled childF ++ later := by
  have herased : (graph.orderedCalled F).eraseIdx callInd = earlier ++ later := by
    rw [hcalled, hindex, List.eraseIdx_append_of_length_le (Nat.le_refl _), Nat.sub_self]
    rfl
  -- The source splices only a list that is not empty. An empty one leaves the list erased.
  have hspliced : (match graph.orderedCalled childF with
      | [] => (graph.orderedCalled F).eraseIdx callInd
      | first :: _ => spliceInPlace first callInd (graph.orderedCalled childF)
          ((graph.orderedCalled F).eraseIdx callInd)) =
        earlier ++ graph.orderedCalled childF ++ later := by
    rw [herased]
    split
    · case _ hnone => rw [hnone, List.append_nil]
    · rw [splice_in_place_eq _ (by rw [hindex, List.length_append]; omega), hindex,
        List.take_left, List.drop_left]
  unfold adjustFnGraphAfterInline
  dsimp only
  rw [hspliced, (FnGraph.add_children_ordered _ _ _).1, (FnGraph.add_children_ordered _ _ _).2,
    FnGraph.add_children_children]
  refine ⟨rfl, rfl, by simp, fun P X => ?_⟩
  rw [FnGraph.add_children_parents, mem_fresh]
  dsimp only
  rw [Function.update_apply]
  split_ifs with hsame
  · rw [Finset.mem_erase]
    subst hsame
    simp [and_comm]
  · simp [hsame]

/-- A call among those that main reaches, which a function makes to another function. -/
structure IsCallTo (program : Program Fn) (main : Fn) (state : InlinerState Fn) (F childF : Fn)
    (call : Inst Fn) : Prop where
  reached : program.Reached main F
  inBody : call ∈ instructions (state.bodies F)
  direct : program.isDirectCall call = true
  called : call.calledFunction = some childF
  other : childF ≠ F

/-- What inlining a call does to the functions that are called: in the maps the callees of the
function come in the place of the call, and in the body those of the copied calls do. -/
structure SplicesCall (program : Program Fn) (state : InlinerState Fn) (F childF : Fn)
    (call : Inst Fn) (copied : List (Option Fn)) (state' : InlinerState Fn) : Prop where
  inlined : Inlined state.bodies state'.bodies F call copied
  others : ∀ P ≠ F, state'.graph.orderedCalled P = state.graph.orderedCalled P
  calls : program.Calls F childF
  lists : ∃ earlier later, state.graph.orderedCalled F = earlier ++ childF :: later ∧
    (state.graph.orderedCalls F).idxOf call = earlier.length ∧
    state'.graph.orderedCalled F = earlier ++ state.graph.orderedCalled childF ++ later ∧
    program.directCallees (state'.bodies F) =
      earlier ++ copied.filterMap program.definedCallee ++ later

/-- Inlining a call keeps the maps as they should be. -/
theorem Mirrors.inlines_call (h : Mirrors program main state) (henv : env.Documented)
    (hcall : IsCallTo program main state F childF call)
    (hinlines : InlinesCall env recursiveChainEntranceFns state F childF call state') :
    Mirrors program main state' ∧
      ∃ copied, SplicesCall program state F childF call copied state' := by
  -- The maps describe the body of the caller, which no inlining has changed yet.
  have hbody := h.unaffected F hinlines.unaffected
  obtain ⟨copied, hinlined⟩ := henv _ _ _ _ _ hcall.inBody
    (Program.is_call_inst_of_direct hcall.direct) hinlines.body
  obtain ⟨earlier, later, hcallees, hindex, hcallees'⟩ := hinlined.spliced.direct_callees
    (hbody ▸ program.nodup_instructions F) hcall.direct hcall.called
  have hcalls : program.Calls F childF := by
    unfold Program.Calls
    rw [← hbody, hcallees]
    simp
  rw [← h.called F hcall.reached hinlines.unaffected] at hcallees
  rw [hbody, ← h.calls F hcall.reached] at hindex
  obtain ⟨hcallsMap, hcalled, hchildren, hparents⟩ :=
    adjust_fn_graph_eq state.graph hcallees hindex
  rw [← hinlines.graph] at hcallsMap hcalled hchildren hparents
  refine ⟨⟨fun P hP => ?_, fun P hP hunaffected => ?_, fun P hP => ?_, fun P X => ?_,
    fun P hP => ?_⟩, copied, hinlined, fun P hP => ?_, hcalls, earlier, later, hcallees, hindex, ?_,
    hcallees'⟩
  · rw [hcallsMap, h.calls P hP]
  · rw [hinlines.affected, Finset.mem_insert, not_or] at hunaffected
    rw [hcalled, Function.update_of_ne hunaffected.1, h.called P hP hunaffected.2,
      hinlined.others P hunaffected.1]
  · rw [hcalled, hchildren]
    by_cases hsame : P = F
    · subst hsame
      rw [Function.update_self, Function.update_self]
    · rw [Function.update_of_ne hsame, Function.update_of_ne hsame, h.children P hP]
  · rw [hparents, hchildren]
    by_cases hsame : P = F
    · subst hsame
      rw [Function.update_self, mem_fresh, h.parents, h.children P hcall.reached, mem_fresh,
        hcallees]
      simp only [List.mem_append, List.mem_cons, List.not_mem_nil, not_false_eq_true, and_true,
        ne_eq, not_true_eq_false, imp_false, true_and]
      tauto
    · rw [Function.update_of_ne hsame, h.parents]
      simp [hsame]
  · rw [hinlines.affected, Finset.mem_insert, not_or] at hP
    rw [hinlined.others P hP.1, h.unaffected P hP.2]
  · rw [hcalled, Function.update_of_ne hP]
  · rw [hcalled, Function.update_self]

/-! ## Runs -/

/-- A call that was inlined, with the states before and after. -/
structure Inlining (Fn : Type) where
  before : InlinerState Fn
  F : Fn
  childF : Fn
  call : Inst Fn
  after : InlinerState Fn

/-- The calls that were copied call what the body of the callee called. -/
def Inlining.CopiesCallees (program : Program Fn) (inlining : Inlining Fn) : Prop :=
  ∃ copied,
    Inlined inlining.before.bodies inlining.after.bodies inlining.F inlining.call copied ∧
      program.CopiesCallees (inlining.before.bodies inlining.childF) copied

/-- Calls that are inlined one after the other, with the state that they leave. -/
inductive InlineRun (program : Program Fn) (main : Fn) (env : Environment Fn)
    (recursiveChainEntranceFns : Finset Fn) (start : InlinerState Fn) :
    List (Inlining Fn) → InlinerState Fn → Prop
  | start : InlineRun program main env recursiveChainEntranceFns start [] start
  | inline {inlinings : List (Inlining Fn)} {state state' : InlinerState Fn} {F childF : Fn}
      {call : Inst Fn} :
      InlineRun program main env recursiveChainEntranceFns start inlinings state →
      IsCallTo program main state F childF call →
      inlineFunctionCall env recursiveChainEntranceFns state F childF call = (true, state') →
      InlineRun program main env recursiveChainEntranceFns start
        (inlinings ++ [⟨state, F, childF, call, state'⟩]) state'

/-- The maps name the functions that the bodies call. -/
def NamesCallees (program : Program Fn) (main : Fn) (state : InlinerState Fn) : Prop :=
  ∀ P, program.Reached main P →
    state.graph.orderedCalled P = program.directCallees (state.bodies P)

/-- After a call is inlined the maps name the functions that the bodies call exactly if they did so
before, and the calls that were copied call what the callee called. -/
theorem SplicesCall.names_callees_iff {copied : List (Option Fn)}
    (h : SplicesCall program state F childF call copied state')
    (hmirrors : Mirrors program main state) (hreached : program.Reached main F)
    (hunaffected : F ∉ state.fnsAffected) :
    NamesCallees program main state' ↔
      NamesCallees program main state ∧ program.CopiesCallees (state.bodies childF) copied := by
  obtain ⟨earlier, later, -, -, hafter, hbody⟩ := h.lists
  have hchild := hreached.tail h.calls
  constructor
  · intro hnames
    have hbefore : NamesCallees program main state := by
      intro P hP
      by_cases hsame : P = F
      · rw [hsame]
        exact hmirrors.called F hreached hunaffected
      · rw [← h.others P hsame, hnames P hP, h.inlined.others P hsame]
    refine ⟨hbefore, ?_⟩
    have hspliced := hnames F hreached
    rw [hafter, hbody, List.append_assoc, List.append_assoc, List.append_cancel_left_eq,
      List.append_cancel_right_eq, hbefore childF hchild] at hspliced
    exact hspliced.symm
  · intro ⟨hbefore, hcopies⟩ P hP
    by_cases hsame : P = F
    · subst hsame
      rw [hafter, hbody, hbefore childF hchild, hcopies]
    · rw [h.others P hsame, hbefore P hP, h.inlined.others P hsame]

omit [DecidableEq Fn] in
/-- What is copied for a call that occurs once is determined by what the bodies call. -/
theorem CopiedFor.unique {body body' : List (BasicBlock Fn)} {copied copied' : List (Option Fn)}
    (h : CopiedFor call copied body body') (h' : CopiedFor call copied' body body')
    (hnodup : (instructions body).Nodup) : copied = copied' := by
  obtain ⟨before, after, hinsts, hcopied⟩ := h
  obtain ⟨before', after', hinsts', hcopied'⟩ := h'
  rw [hinsts, List.nodup_middle, List.nodup_cons, List.mem_append, not_or] at hnodup
  obtain ⟨rfl, -, rfl⟩ := (List.append_cons_inj_of_notMem hnodup.1.1 hnodup.1.2).mp
    (hinsts.symm.trans hinsts')
  rwa [hcopied, List.append_cancel_right_eq, List.append_cancel_left_eq] at hcopied'

/-- After any calls are inlined the maps are as they should be, and they name the functions that the
bodies call exactly if all copied calls call what the callee called. -/
theorem InlineRun.mirrors {start : InlinerState Fn} {inlinings : List (Inlining Fn)}
    (hrun : InlineRun program main env recursiveChainEntranceFns start inlinings state)
    (henv : env.Documented) (hstart : Mirrors program main start)
    (hnames : NamesCallees program main start) :
    Mirrors program main state ∧ (NamesCallees program main state ↔
      ∀ inlining ∈ inlinings, inlining.CopiesCallees program) := by
  induction hrun with
  | start => exact ⟨hstart, iff_of_true hnames fun _ hin => (List.not_mem_nil hin).elim⟩
  | @inline inlinings state state' F childF call _ hcall hinline ih =>
      obtain ⟨hmirrors, hiff⟩ := ih
      rcases inline_function_call_cases hinline with ⟨-, hinlines⟩ | ⟨hfailed, -⟩
      · obtain ⟨hmirrors', copied, hsplices⟩ := hmirrors.inlines_call henv hcall hinlines
        refine ⟨hmirrors', ?_⟩
        have hnodup : (instructions (state.bodies F)).Nodup := by
          rw [hmirrors.unaffected F hinlines.unaffected]
          exact program.nodup_instructions F
        have hcopies : Inlining.CopiesCallees program ⟨state, F, childF, call, state'⟩ ↔
            program.CopiesCallees (state.bodies childF) copied :=
          ⟨fun ⟨other, hinlined, hother⟩ =>
            hsplices.inlined.spliced.unique hinlined.spliced hnodup ▸ hother,
            fun hcopies => ⟨copied, hsplices.inlined, hcopies⟩⟩
        rw [hsplices.names_callees_iff hmirrors hcall.reached hinlines.unaffected, hiff, ← hcopies]
        simp [or_imp, forall_and]
      · cases hfailed

/-- From the call graph of main on, whatever calls are inlined: the functions that a function calls
are listed at their first calls, children and parents mirror each other, and inlining a call
replaces it in the list of the caller with the list of the callee. The lists are those of the bodies
exactly if all copied calls call what the callee called. -/
theorem call_graph_mirrors (program : Program Fn) (main : Fn) {env : Environment Fn}
    (henv : env.Documented) (recursiveChainEntranceFns : Finset Fn)
    (preOrderedLoops : LoopLists Fn) :
    ∃ graph, (∀ fuel ≥ program.functions.length,
        collectFnGraph program main fuel = some graph) ∧
      ∀ inlinings state, InlineRun program main env recursiveChainEntranceFns
          (InlinerState.collected program graph preOrderedLoops) inlinings state →
        (∀ P, program.Reached main P →
          state.graph.childrenFns P = (state.graph.orderedCalled P).eraseDups) ∧
        (∀ P F, F ∈ state.graph.childrenFns P ↔ P ∈ state.graph.parentFns F) ∧
        (∀ F childF call state', IsCallTo program main state F childF call →
          inlineFunctionCall env recursiveChainEntranceFns state F childF call =
            (true, state') →
          ∃ earlier later, state.graph.orderedCalled F = earlier ++ childF :: later ∧
            (state.graph.orderedCalls F).idxOf call = earlier.length ∧
            state'.graph.orderedCalled F =
              earlier ++ state.graph.orderedCalled childF ++ later) ∧
        ((∀ P, program.Reached main P →
            state.graph.orderedCalled P = program.directCallees (state.bodies P)) ↔
          ∀ inlining ∈ inlinings, inlining.CopiesCallees program) := by
  obtain ⟨order, graph, hgraph, horder, hcollect⟩ := exists_collect_fn_graph program main
  refine ⟨graph, hcollect, fun inlinings state hrun => ?_⟩
  obtain ⟨hmirrors, hnames⟩ := hrun.mirrors henv
    (mirrors_collected hgraph horder preOrderedLoops)
    fun P hP => hgraph.called P ((horder P).mpr hP)
  refine ⟨fun P hP => ?_, fun P F => (hmirrors.parents P F).symm,
    fun F childF call state' hcall hinline => ?_, hnames⟩
  · rw [hmirrors.children P hP, fresh_nil_eq_erase_dups]
  · rcases inline_function_call_cases hinline with ⟨-, hinlines⟩ | ⟨hfailed, -⟩
    · obtain ⟨-, copied, hsplices⟩ := hmirrors.inlines_call henv hcall hinlines
      obtain ⟨earlier, later, hbefore, hindex, hafter, -⟩ := hsplices.lists
      exact ⟨earlier, later, hbefore, hindex, hafter⟩
    · cases hfailed

end Mirrors

/-! ## A compiler that inlines functions of one block -/

/-- The inlining of a call that puts copies of the instructions of the callee in its place. -/
def Environment.copying (copy : Inst Fn → Inst Fn) : Environment Fn where
  getStaticInstructions _ _ := 0
  InlineFunction _ bodies F call :=
    match call.calledFunction, (bodies F).dropWhile fun B => call ∉ B.insts with
    | some childF, B :: after =>
        some (Function.update bodies F
          (((bodies F).takeWhile fun B => call ∉ B.insts) ++
            ⟨B.address, (B.insts.takeWhile fun I => I ≠ call) ++
              (instructions (bodies childF)).map copy ++
              (B.insts.dropWhile fun I => I ≠ call).tail⟩ :: after))
    | _, _ => none

/-- The inlining of a call that copies the instructions as they are. -/
def Environment.splicing : Environment Fn := .copying id

omit [DecidableEq Fn] in
/-- A list from the first item on that does not meet a condition. -/
theorem exists_drop_while_eq {α : Type} {p : α → Bool} {items : List α}
    (h : ∃ item ∈ items, p item = false) :
    ∃ item rest, items.dropWhile p = item :: rest ∧ p item = false := by
  cases hrest : items.dropWhile p with
  | nil =>
      obtain ⟨item, hin, hout⟩ := h
      rw [List.dropWhile_eq_nil_iff.mp hrest item hin] at hout
      cases hout
  | cons item rest =>
      have hhead :=
        List.head_dropWhile_not p (l := items) (by rw [hrest]; exact List.cons_ne_nil _ _)
      simp only [hrest, List.head_cons] at hhead
      exact ⟨item, rest, rfl, hhead⟩

/-- It inlines the call, with the copies of the calls of the callee. -/
theorem Environment.copying_inlined {copy : Inst Fn → Inst Fn} {attempt : Nat}
    {bodies bodies' : Bodies Fn} {F : Fn} {call : Inst Fn} (hin : call ∈ instructions (bodies F))
    (hinline : (Environment.copying copy).InlineFunction attempt bodies F call = some bodies') :
    ∃ childF, call.calledFunction = some childF ∧
      Inlined bodies bodies' F call (calledIn ((instructions (bodies childF)).map copy)) := by
  obtain ⟨block, hblock, hcall⟩ := List.mem_flatMap.mp hin
  obtain ⟨B, after, hblocks, hB⟩ := exists_drop_while_eq
    (p := fun B : BasicBlock Fn => decide (call ∉ B.insts))
    ⟨block, hblock, by simpa using hcall⟩
  have hcallB : call ∈ B.insts := by simpa using hB
  obtain ⟨I, last, hinsts, hI⟩ := exists_drop_while_eq
    (p := fun I : Inst Fn => decide (I ≠ call)) ⟨call, hcallB, by simp⟩
  obtain rfl : I = call := by simpa using hI
  have hsplit := List.takeWhile_append_dropWhile
    (p := fun B : BasicBlock Fn => decide (I ∉ B.insts)) (l := bodies F)
  have hsplitInsts := List.takeWhile_append_dropWhile
    (p := fun other : Inst Fn => decide (other ≠ I)) (l := B.insts)
  rw [hblocks] at hsplit
  rw [hinsts] at hsplitInsts
  cases hcalled : I.calledFunction with
  | none => simp [copying, hcalled] at hinline
  | some childF =>
      simp only [copying, hcalled, hblocks, hinsts, Option.some.injEq] at hinline
      subst hinline
      refine ⟨childF, rfl, fun G hne => Function.update_of_ne hne _ _, ?_,
        instructions ((bodies F).takeWhile fun B => decide (I ∉ B.insts)) ++
          B.insts.takeWhile (fun other => decide (other ≠ I)), last ++ instructions after, ?_, ?_⟩
      · rw [Function.update_self]
        exact List.append_ne_nil_of_right_ne_nil _ (List.cons_ne_nil _ _)
      · conv_lhs => rw [← hsplit]
        simp only [instructions, List.flatMap_append, List.flatMap_cons]
        conv_lhs => rw [← hsplitInsts]
        simp
      · simp [Function.update_self, calledInBody, calledIn, instructions]

/-- It does what an inlining is for. -/
theorem Environment.copying_documented (copy : Inst Fn → Inst Fn) :
    (Environment.copying copy).Documented := by
  intro attempt bodies F call bodies' hin _ hinline
  obtain ⟨childF, -, hinlined⟩ := copying_inlined hin hinline
  exact ⟨_, hinlined⟩

/-- Instructions that are copied as they are call what the callee calls. -/
theorem Environment.splicing_copies (program : Program Fn) (attempt : Nat)
    {bodies bodies' : Bodies Fn} {F childF : Fn} {call : Inst Fn}
    (hin : call ∈ instructions (bodies F)) (hcalled : call.calledFunction = some childF)
    (hinline : (Environment.splicing : Environment Fn).InlineFunction attempt bodies F call =
      some bodies') :
    ∃ copied, Inlined bodies bodies' F call copied ∧
      program.CopiesCallees (bodies childF) copied := by
  obtain ⟨other, hother, hinlined⟩ := copying_inlined hin hinline
  obtain rfl := Option.some.inj (hcalled.symm.trans hother)
  rw [List.map_id] at hinlined
  exact ⟨_, hinlined, (direct_callees_eq program _).symm⟩

/-! ## A chain of calls -/

/-- Main, a function that it calls, and a function that this one calls. -/
inductive Chain where
  | main
  | outer
  | inner
  deriving DecidableEq

namespace Chain

/-- The call in main. -/
def callOuter : Inst Chain := ⟨0, true, some .outer⟩

/-- The first call in the outer function. -/
def callInner : Inst Chain := ⟨1, true, some .inner⟩

/-- The second call in the outer function. -/
def callAgain : Inst Chain := ⟨2, true, some .inner⟩

/-- The bodies of the functions, each of one block. -/
def bodies : Bodies Chain
  | .main => [⟨0, [callOuter]⟩]
  | .outer => [⟨1, [callInner, callAgain]⟩]
  | .inner => [⟨2, []⟩]

/-- The program. -/
def program : Program Chain where
  functions := [.main, .outer, .inner]
  bodies := bodies
  callRecords F := (instructions (bodies F)).filter Inst.isCallInst
  mem_functions F := by cases F <;> decide
  nodup_functions := by decide
  nodup_instructions F := by cases F <;> decide
  mem_records F call := List.mem_filter

/-- Its call graph. -/
def graph : FnGraph Chain := (collectFnGraph program .main 3).get rfl

/-- The state before anything is inlined. -/
def collected : InlinerState Chain := InlinerState.collected program graph fun _ => none

/-- The state after the first call of the outer function is inlined. -/
def innerInlined : InlinerState Chain :=
  (inlineFunctionCall .splicing ∅ collected .outer .inner callInner).2

/-- The state after the outer function is inlined into main too. -/
def outerInlined : InlinerState Chain :=
  (inlineFunctionCall .splicing ∅ innerInlined .main .outer callOuter).2

/-- Main calls the inner function twice after the two calls are inlined, and the maps say so. -/
theorem chain_mirrors : outerInlined.graph.childrenFns .main = [.inner] ∧
    .main ∈ outerInlined.graph.parentFns .inner ∧
    program.directCallees (outerInlined.bodies .main) =
      outerInlined.graph.orderedCalled .main := by
  obtain ⟨other, hcollect, hmirrors⟩ := call_graph_mirrors program .main
    (Environment.copying_documented id) ∅ fun _ => none
  have hgraph : collectFnGraph program .main 3 = some graph := rfl
  obtain rfl : graph = other := Option.some.inj (hgraph.symm.trans (hcollect 3 (by decide)))
  have houter : program.Reached .main .outer := .single (by decide : program.Calls .main .outer)
  have hrun : InlineRun program .main .splicing ∅ collected
      [⟨collected, .outer, .inner, callInner, innerInlined⟩,
        ⟨innerInlined, .main, .outer, callOuter, outerInlined⟩] outerInlined :=
    .inline (.inline .start ⟨houter, by decide, by decide, rfl, by decide⟩ rfl)
      ⟨.refl, by decide, by decide, rfl, by decide⟩ rfl
  obtain ⟨hchildren, hparents, -, hcalled⟩ := hmirrors _ _ hrun
  refine ⟨?_, (hparents _ _).mp (by decide), (hcalled.mpr ?_ .main .refl).symm⟩
  · rw [hchildren .main .refl]
    decide
  · simp only [List.forall_mem_cons]
    refine ⟨?_, ?_, nofun⟩
    · exact Environment.splicing_copies program 0 (by decide) rfl rfl
    · exact Environment.splicing_copies program 1 (by decide) rfl rfl

end Chain

/-! ## A function that calls its argument -/

/-- Main, a function that calls its parameter, and the function that main passes to it. -/
inductive Callback where
  | main
  | apply
  | passed
  deriving DecidableEq

namespace Callback

/-- The call in main. -/
def callApply : Inst Callback := ⟨0, true, some .apply⟩

/-- The call through the parameter. -/
def callParameter : Inst Callback := ⟨1, true, none⟩

/-- The bodies of the functions, each of one block. -/
def bodies : Bodies Callback
  | .main => [⟨0, [callApply]⟩]
  | .apply => [⟨1, [callParameter]⟩]
  | .passed => [⟨2, []⟩]

/-- The program. -/
def program : Program Callback where
  functions := [.main, .apply, .passed]
  bodies := bodies
  callRecords F := (instructions (bodies F)).filter Inst.isCallInst
  mem_functions F := by cases F <;> decide
  nodup_functions := by decide
  nodup_instructions F := by cases F <;> decide
  mem_records F call := List.mem_filter

/-- The compiler puts the function that is passed in the place of the parameter. -/
def compiler : Environment Callback :=
  .copying fun I => { I with calledFunction := I.calledFunction.or (some .passed) }

/-- Its call graph. -/
def graph : FnGraph Callback := (collectFnGraph program .main 3).get rfl

/-- The state before anything is inlined. -/
def collected : InlinerState Callback := InlinerState.collected program graph fun _ => none

/-- The state after the call in main is inlined. -/
def applyInlined : InlinerState Callback :=
  (inlineFunctionCall compiler ∅ collected .main .apply callApply).2

/-- Main calls the function that it passed after the call is inlined, and the maps do not say so. -/
theorem callback_not_mirrored : compiler.Documented ∧
    InlineRun program .main compiler ∅ collected
      [⟨collected, .main, .apply, callApply, applyInlined⟩] applyInlined ∧
    program.directCallees (applyInlined.bodies .main) = [.passed] ∧
    ¬ ∀ P, program.Reached .main P →
      applyInlined.graph.orderedCalled P = program.directCallees (applyInlined.bodies P) := by
  have hbody : program.directCallees (applyInlined.bodies .main) = [.passed] := by decide
  refine ⟨Environment.copying_documented _,
    .inline .start ⟨.refl, by decide, by decide, rfl, by decide⟩ rfl, hbody, fun h => ?_⟩
  have hcalled := h .main .refl
  rw [hbody] at hcalled
  exact absurd hcalled (by decide)

end Callback

end Gino.Inliner
