import Gino.Inliner.Erasure
import Gino.Inliner.SubLoops

/-!
# Inlining the calls of loop-carried dependences

`Inliner::inlineCallsInvolvedInLoopCarriedDataDependencesWithinLoop` looks through the components
that keep a loop from being a DOALL loop. Among their calls that may be inlined it takes the one
with most memory dependences (`within_loop_inlines_iff`).
`Inliner::inlineCallsInvolvedInLoopCarriedDataDependences` does so for the enabled loops of one
function after the other, and stops with a function at the first call that is inlined
(`check_loops_of_fn_cases`).
-/

namespace Gino.Inliner

open Machine

/-- The kinds of the edges of a dependence graph. -/
inductive EdgeKind where
  | control
  | variable
  | memory
  deriving DecidableEq

/-- A node of a component of a dependence graph. -/
structure SCCNode (Fn : Type) where
  val : Inst Fn
  allEdges : List EdgeKind

/-- A component of a dependence graph. -/
structure SCC (Fn : Type) where
  numberOfInstructions : Nat
  nodes : List (SCCNode Fn)

/-- What the inliner asks about a loop: its contents, the components that keep it from being a DOALL
loop, the instructions of its sub-loops, and its size. -/
structure LoopSCCs (Fn : Type) extends LoopContent where
  nonDOALLSCCs : List (SCC Fn)
  isIncludedInItsSubLoops : Inst Fn → Bool
  staticInstructions : Nat

/-- What the inliner asks about the code: the loops of a function from the largest on, those that
are DOALL loops, and the functions on cycles of the call graph. -/
structure Noelle (Fn : Type) where
  numberOfProgramInstructions : Bodies Fn → Nat
  loopHeaders : Bodies Fn → Fn → List Nat
  getLoopStructures : Bodies Fn → Fn → List LoopStructure
  getLoopContents : Bodies Fn → Fn → List (LoopSCCs Fn)
  canBeAppliedToLoop : Bodies Fn → LoopContent → Bool
  doesItBelongToAnSCC : Bodies Fn → Fn → Bool
  isIntrinsic : Fn → Bool

/-- The choice of a call while the nodes are looked through. -/
structure CallChoice (Fn : Type) where
  maxMemEdges : Nat
  numberOfFunctionCallsToInline : Nat
  inlineCall : Option (Inst Fn)

/-- The number of calls from which on none is inlined. -/
def maxNumberOfFunctionCallsToInlinePerLoop : Nat := 10

/-- The number of memory dependences of a node. -/
def SCCNode.memEdgeCount {Fn : Type} (node : SCCNode Fn) : Nat := node.allEdges.count .memory

variable {Fn : Type} [DecidableEq Fn]

section Choice

variable (env : Environment Fn) (noelle : Noelle Fn) (pcg : Fn → Bool) (order : DepthOrder Fn)
  (bodies : Bodies Fn) (tracked : InlinerState Fn) (F : Fn) (LDI : LoopSCCs Fn)

/-- A call of a function in a loop may be inlined. -/
def mayInlineCall (call : Inst Fn) (callF : Fn) : Bool :=
  !(bodies callF).isEmpty && !noelle.isIntrinsic callF && decide (callF ≠ F) &&
    !decide (order.fnOrder callF < order.fnOrder F) && !LDI.isIncludedInItsSubLoops call &&
    !pcg callF && (noelle.getLoopStructures bodies callF).isEmpty

/-- The function that a node calls, if the call may be inlined. -/
def calleeToInline (node : SCCNode Fn) : Option Fn :=
  if node.val.isCallInst then
    node.val.calledFunction.filter (mayInlineCall noelle pcg order bodies F LDI node.val)
  else none

/-- A function is smaller than the loop. -/
def isSmaller (callF : Fn) : Bool :=
  env.getStaticInstructions tracked.attempts callF < LDI.staticInstructions

/-- Look at one node. -/
def checkNode (choice : CallChoice Fn) (node : SCCNode Fn) : CallChoice Fn :=
  match calleeToInline noelle pcg order tracked.bodies F LDI node with
  | none => choice
  | some callF =>
      let numberOfFunctionCallsToInline := choice.numberOfFunctionCallsToInline + 1
      if node.memEdgeCount > choice.maxMemEdges ∧ isSmaller env tracked LDI callF then
        ⟨node.memEdgeCount, numberOfFunctionCallsToInline, some node.val⟩
      else { choice with numberOfFunctionCallsToInline := numberOfFunctionCallsToInline }

/-- The nodes of the components that are looked through. -/
def nodesToCheck : List (SCCNode Fn) :=
  (LDI.nonDOALLSCCs.filter fun scc => scc.numberOfInstructions ≠ 1).flatMap SCC.nodes

/-- Look at all nodes. -/
def chooseCall : CallChoice Fn :=
  (nodesToCheck LDI).foldl (checkNode env noelle pcg order tracked F LDI) ⟨0, 0, none⟩

/-- Try to inline the call of a loop that is chosen, unless there are too many. -/
def inlineCallsInvolvedInLoopCarriedDataDependencesWithinLoop : Bool × InlinerState Fn :=
  let choice := chooseCall env noelle pcg order tracked F LDI
  match choice.inlineCall with
  | none => (false, tracked)
  | some inlineCall =>
      if choice.numberOfFunctionCallsToInline ≥ maxNumberOfFunctionCallsToInlinePerLoop then
        (false, tracked)
      else
        match inlineCall.calledFunction with
        | none => (false, tracked)
        | some callF =>
            inlineFunctionCall env order.recursiveChainEntranceFns tracked F callF inlineCall

end Choice

section Pass

variable (env : Environment Fn) (noelle : Noelle Fn) (pcg : Fn → Bool) (order : DepthOrder Fn)

/-- Check the loops of a function, until a call of one is inlined. -/
def checkLoopsOfFn (F : Fn) : List (LoopSCCs Fn) → LoopsState → InlinerState Fn →
    LoopsState × InlinerState Fn
  | [], state, tracked => (state, tracked)
  | LDI :: rest, state, tracked =>
      if ¬ isEnabled state.toCheck LDI.toLoopContent then checkLoopsOfFn F rest state tracked
      else if LDI.subLoops.length ≥ 1 ∧
          noelle.canBeAppliedToLoop tracked.bodies LDI.toLoopContent then
        let toCheck := disableSubLoops LDI.toLoopContent state.toCheck
        checkLoopsOfFn F rest
          { state with
            toCheck := toCheck
            events := state.events ++ [.disabled LDI.toLoopContent state.toCheck toCheck] }
          tracked
      else
        let (inlinedCall, tracked') :=
          inlineCallsInvolvedInLoopCarriedDataDependencesWithinLoop env noelle pcg order tracked F
            LDI
        let state' : LoopsState :=
          ⟨state.toCheck, state.inlined || inlinedCall,
            state.events ++ [.tried LDI.toLoopContent]⟩
        if state'.inlined then (state', tracked')
        else checkLoopsOfFn F rest state' tracked'

/-- The variables while the functions are checked. -/
structure PassState (Fn : Type) where
  tracked : InlinerState Fn
  loopsToCheck : Fn → List LoopStructure
  fnsToAvoid : Finset Fn
  anyInlined : Bool

/-- Check the loops of a function, or avoid its callers if the function is avoided. -/
def checkFn (state : PassState Fn) (F : Fn) : PassState Fn :=
  if F ∈ state.fnsToAvoid then
    { state with fnsToAvoid := state.fnsToAvoid ∪ state.tracked.graph.parentFns F }
  else
    let (loops, tracked) := checkLoopsOfFn env noelle pcg order F
      (noelle.getLoopContents state.tracked.bodies F) ⟨state.loopsToCheck F, false, []⟩
      state.tracked
    { tracked := tracked
      loopsToCheck := Function.update state.loopsToCheck F loops.toCheck
      anyInlined := state.anyInlined || loops.inlined
      fnsToAvoid :=
        if loops.inlined then state.fnsToAvoid ∪ tracked.graph.parentFns F
        else state.fnsToAvoid }

/-- The functions with loops to check, the deepest first. -/
def fnsToVisit (functions : List Fn) (sortInDepthOrderFns : DepthSort order.fnOrder)
    (loopsToCheck : Fn → List LoopStructure) : List Fn :=
  sortInDepthOrderFns.sort (functions.filter fun F => loopsToCheck F ≠ [])

/-- The pass over the functions. -/
def inlineCallsInvolvedInLoopCarriedDataDependences (functions : List Fn)
    (sortInDepthOrderFns : DepthSort order.fnOrder) (loopsToCheck : Fn → List LoopStructure)
    (tracked : InlinerState Fn) : PassState Fn :=
  (fnsToVisit order functions sortInDepthOrderFns loopsToCheck).foldl
    (checkFn env noelle pcg order) ⟨tracked, loopsToCheck, ∅, false⟩

end Pass

/-! ## The call that is chosen -/

section Chosen

variable {env : Environment Fn} {noelle : Noelle Fn} {pcg : Fn → Bool} {order : DepthOrder Fn}
  {bodies : Bodies Fn} {tracked tracked' : InlinerState Fn} {F callF : Fn} {LDI : LoopSCCs Fn}
  {call : Inst Fn} {node : SCCNode Fn} {nodes : List (SCCNode Fn)} {choice : CallChoice Fn}

/-- A node calls a function whose call may be inlined, and the function is smaller than the loop. -/
def Eligible (env : Environment Fn) (noelle : Noelle Fn) (pcg : Fn → Bool) (order : DepthOrder Fn)
    (tracked : InlinerState Fn) (F : Fn) (LDI : LoopSCCs Fn) (node : SCCNode Fn) : Prop :=
  ∃ callF, calleeToInline noelle pcg order tracked.bodies F LDI node = some callF ∧
    isSmaller env tracked LDI callF = true

/-- The choice among some nodes: the first of those with most memory dependences, and none if there
is no node with one. All nodes whose calls may be inlined are counted. -/
structure Chosen (env : Environment Fn) (noelle : Noelle Fn) (pcg : Fn → Bool)
    (order : DepthOrder Fn) (tracked : InlinerState Fn) (F : Fn) (LDI : LoopSCCs Fn)
    (nodes : List (SCCNode Fn)) (choice : CallChoice Fn) : Prop where
  counted : choice.numberOfFunctionCallsToInline =
    nodes.countP fun node => (calleeToInline noelle pcg order tracked.bodies F LDI node).isSome
  most : ∀ node ∈ nodes, Eligible env noelle pcg order tracked F LDI node →
    node.memEdgeCount ≤ choice.maxMemEdges
  none_iff : choice.inlineCall = none ↔ choice.maxMemEdges = 0
  chosen : ∀ call, choice.inlineCall = some call → ∃ earlier node later,
    nodes = earlier ++ node :: later ∧ node.val = call ∧
      Eligible env noelle pcg order tracked F LDI node ∧
      node.memEdgeCount = choice.maxMemEdges ∧
      ∀ other ∈ earlier, Eligible env noelle pcg order tracked F LDI other →
        other.memEdgeCount < choice.maxMemEdges

/-- Looking at one node more keeps the choice right. -/
theorem Chosen.check_node (h : Chosen env noelle pcg order tracked F LDI nodes choice) :
    Chosen env noelle pcg order tracked F LDI (nodes ++ [node])
      (checkNode env noelle pcg order tracked F LDI choice node) := by
  -- A node that is not taken leaves the choice and only counts if its call may be inlined.
  have hkept : ∀ count, count = (nodes ++ [node]).countP (fun node =>
      (calleeToInline noelle pcg order tracked.bodies F LDI node).isSome) →
      (Eligible env noelle pcg order tracked F LDI node →
        node.memEdgeCount ≤ choice.maxMemEdges) →
      Chosen env noelle pcg order tracked F LDI (nodes ++ [node])
        { choice with numberOfFunctionCallsToInline := count } := by
    intro count hcount hle
    refine ⟨hcount, fun other hother heligible => ?_, h.none_iff, fun call hcall => ?_⟩
    · rcases List.mem_append.mp hother with hold | hlast
      · exact h.most other hold heligible
      · obtain rfl := List.mem_singleton.mp hlast
        exact hle heligible
    · obtain ⟨earlier, taken, later, hnodes, hrest⟩ := h.chosen call hcall
      exact ⟨earlier, taken, later ++ [node], by rw [hnodes]; simp, hrest⟩
  unfold checkNode
  split
  · case _ hnone =>
      refine hkept _ ?_ fun ⟨callF, hcallee, _⟩ => ?_
      · rw [List.countP_append, List.countP_singleton, hnone, h.counted]
        rfl
      · rw [hnone] at hcallee
        cases hcallee
  · case _ callF hsome =>
      have hcount : choice.numberOfFunctionCallsToInline + 1 = (nodes ++ [node]).countP
          fun node => (calleeToInline noelle pcg order tracked.bodies F LDI node).isSome := by
        rw [List.countP_append, List.countP_singleton, hsome, h.counted]
        rfl
      dsimp only
      split_ifs with htaken
      · refine ⟨hcount, fun other hother heligible => ?_, ?_, fun call hcall => ?_⟩
        · rcases List.mem_append.mp hother with hold | hlast
          · exact Nat.le_of_lt (Nat.lt_of_le_of_lt (h.most other hold heligible) htaken.1)
          · obtain rfl := List.mem_singleton.mp hlast
            exact Nat.le_refl _
        · exact iff_of_false (fun hnone => by cases hnone)
            (Nat.ne_of_gt (Nat.lt_of_le_of_lt (Nat.zero_le _) htaken.1))
        · cases hcall
          exact ⟨nodes, node, [], rfl, rfl, ⟨callF, hsome, htaken.2⟩, rfl,
            fun other hother heligible =>
              Nat.lt_of_le_of_lt (h.most other hother heligible) htaken.1⟩
      · refine hkept _ hcount fun ⟨other, hcallee, hsmaller⟩ => ?_
        rw [hsome, Option.some.injEq] at hcallee
        subst hcallee
        exact Nat.le_of_not_lt fun hlt => htaken ⟨hlt, hsmaller⟩

/-- The choice among the nodes of a loop is right. -/
theorem choose_call_chosen (env : Environment Fn) (noelle : Noelle Fn) (pcg : Fn → Bool)
    (order : DepthOrder Fn) (tracked : InlinerState Fn) (F : Fn) (LDI : LoopSCCs Fn) :
    Chosen env noelle pcg order tracked F LDI (nodesToCheck LDI)
      (chooseCall env noelle pcg order tracked F LDI) := by
  unfold chooseCall
  induction nodesToCheck LDI using List.reverseRecOn with
  | nil =>
      refine ⟨rfl, fun _ hin => ?_, by simp, fun _ hcall => ?_⟩
      · cases hin
      · cases hcall
  | append_singleton nodes node ih =>
      rw [List.foldl_append]
      exact ih.check_node

/-- A call that may be inlined in a loop of a function. -/
structure CallOfLoop (noelle : Noelle Fn) (pcg : Fn → Bool) (order : DepthOrder Fn)
    (bodies : Bodies Fn) (F : Fn) (LDI : LoopSCCs Fn) (call : Inst Fn) (callF : Fn) : Prop where
  node : ∃ scc ∈ LDI.nonDOALLSCCs, ∃ node ∈ scc.nodes, node.val = call
  isCall : call.isCallInst = true
  called : call.calledFunction = some callF
  mayInline : mayInlineCall noelle pcg order bodies F LDI call callF = true

/-- A node whose call may be inlined has such a call. -/
theorem call_of_loop_of_callee (hnode : node ∈ nodesToCheck LDI)
    (h : calleeToInline noelle pcg order bodies F LDI node = some callF) :
    CallOfLoop noelle pcg order bodies F LDI node.val callF := by
  obtain ⟨scc, hscc, hin⟩ := List.mem_flatMap.mp hnode
  unfold calleeToInline at h
  split_ifs at h with hcall
  obtain ⟨hcalled, hmay⟩ := Option.filter_eq_some_iff.mp h
  exact ⟨⟨scc, (List.mem_filter.mp hscc).1, node, hin, rfl⟩, hcall, hcalled, hmay⟩

/-- A node of a list with most memory dependences of those that may be inlined, the first of them.
It has some memory dependences. -/
structure MostDependent (env : Environment Fn) (noelle : Noelle Fn) (pcg : Fn → Bool)
    (order : DepthOrder Fn) (tracked : InlinerState Fn) (F : Fn) (LDI : LoopSCCs Fn)
    (nodes earlier : List (SCCNode Fn)) (node : SCCNode Fn) : Prop where
  split : ∃ later, nodes = earlier ++ node :: later
  eligible : Eligible env noelle pcg order tracked F LDI node
  dependent : 0 < node.memEdgeCount
  most : ∀ other ∈ nodes, Eligible env noelle pcg order tracked F LDI other →
    other.memEdgeCount ≤ node.memEdgeCount
  first : ∀ other ∈ earlier, Eligible env noelle pcg order tracked F LDI other →
    other.memEdgeCount < node.memEdgeCount

/-- No two nodes are the first with most memory dependences. -/
theorem MostDependent.unique {earlier earlier' : List (SCCNode Fn)} {node' : SCCNode Fn}
    (h : MostDependent env noelle pcg order tracked F LDI nodes earlier node)
    (h' : MostDependent env noelle pcg order tracked F LDI nodes earlier' node') :
    node = node' := by
  obtain ⟨later, hsplit⟩ := h.split
  obtain ⟨later', hsplit'⟩ := h'.split
  have hin : node ∈ nodes := by rw [hsplit]; simp
  have hin' : node' ∈ nodes := by rw [hsplit']; simp
  rcases List.append_eq_append_iff.mp (hsplit.symm.trans hsplit') with
    ⟨between, hearlier, hcons⟩ | ⟨between, hearlier, hcons⟩
  · cases between with
    | nil => exact (List.cons.inj hcons).1
    | cons first rest =>
        -- The first node is among those before the other one.
        obtain rfl : node = first := (List.cons.inj hcons).1
        have hlt := h'.first node (by rw [hearlier]; simp) h.eligible
        exact absurd (h.most node' hin' h'.eligible) (Nat.not_le.mpr hlt)
  · cases between with
    | nil => exact (List.cons.inj hcons).1.symm
    | cons first rest =>
        obtain rfl : node' = first := (List.cons.inj hcons).1
        have hlt := h.first node' (by rw [hearlier]; simp) h'.eligible
        exact absurd (h'.most node hin h.eligible) (Nat.not_le.mpr hlt)

/-- The call that is chosen is that of the first node with most memory dependences. -/
theorem Chosen.inline_call_iff
    (h : Chosen env noelle pcg order tracked F LDI nodes choice) (call : Inst Fn) :
    choice.inlineCall = some call ↔ ∃ earlier node,
      MostDependent env noelle pcg order tracked F LDI nodes earlier node ∧ node.val = call := by
  have hmost : ∀ call, choice.inlineCall = some call → ∃ earlier node,
      MostDependent env noelle pcg order tracked F LDI nodes earlier node ∧ node.val = call := by
    intro call hcall
    obtain ⟨earlier, node, later, hnodes, hval, heligible, hmax, hfirst⟩ := h.chosen call hcall
    have hpos : choice.maxMemEdges ≠ 0 := by
      rw [ne_eq, ← h.none_iff, hcall]
      exact Option.some_ne_none call
    refine ⟨earlier, node, ⟨⟨later, hnodes⟩, heligible, ?_, ?_, ?_⟩, hval⟩
    · rw [hmax]
      exact Nat.pos_of_ne_zero hpos
    · rw [hmax]
      exact h.most
    · rw [hmax]
      exact hfirst
  refine ⟨hmost call, fun ⟨earlier, node, hnode, hval⟩ => ?_⟩
  obtain ⟨later, hnodes⟩ := hnode.split
  have hle := h.most node (by rw [hnodes]; simp) hnode.eligible
  have hsome : choice.inlineCall ≠ none := by
    rw [ne_eq, h.none_iff]
    exact Nat.ne_of_gt (Nat.lt_of_lt_of_le hnode.dependent hle)
  obtain ⟨chosen, hchosen⟩ := Option.ne_none_iff_exists'.mp hsome
  obtain ⟨earlier', node', hnode', hval'⟩ := hmost chosen hchosen
  rw [hchosen, ← hval', ← hval, hnode.unique hnode']

/-- A call of a loop is inlined exactly if it is that of the first node with most memory
dependences, fewer than ten calls may be inlined, and the attempt to inline it succeeds. -/
theorem within_loop_inlines_iff (env : Environment Fn) (noelle : Noelle Fn) (pcg : Fn → Bool)
    (order : DepthOrder Fn) (tracked tracked' : InlinerState Fn) (F : Fn) (LDI : LoopSCCs Fn) :
    inlineCallsInvolvedInLoopCarriedDataDependencesWithinLoop env noelle pcg order tracked F LDI =
        (true, tracked') ↔
      ∃ earlier node callF,
        MostDependent env noelle pcg order tracked F LDI (nodesToCheck LDI) earlier node ∧
        node.val.calledFunction = some callF ∧
        (nodesToCheck LDI).countP (fun node =>
          (calleeToInline noelle pcg order tracked.bodies F LDI node).isSome) < 10 ∧
        inlineFunctionCall env order.recursiveChainEntranceFns tracked F callF node.val =
          (true, tracked') := by
  have hchosen := choose_call_chosen env noelle pcg order tracked F LDI
  unfold inlineCallsInvolvedInLoopCarriedDataDependencesWithinLoop
  dsimp only
  rw [← hchosen.counted]
  constructor
  · intro h
    split at h
    · cases h
    · case _ call hcall =>
        obtain ⟨earlier, node, hnode, rfl⟩ := (hchosen.inline_call_iff call).mp hcall
        split_ifs at h with hmany
        · cases h
        · split at h
          · cases h
          · case _ callF hcalled =>
              exact ⟨earlier, node, callF, hnode, hcalled, Nat.not_le.mp hmany, h⟩
  · intro ⟨earlier, node, callF, hnode, hcalled, hfew, hinline⟩
    rw [(hchosen.inline_call_iff node.val).mpr ⟨earlier, node, hnode, rfl⟩]
    dsimp only
    rw [hcalled, maxNumberOfFunctionCallsToInlinePerLoop, if_neg (Nat.not_le.mpr hfew)]
    exact hinline

/-- A call that is inlined changes the lists of loops by adding those of the callee to those of the
caller. -/
theorem inline_function_call_loops {recursiveChainEntranceFns : Finset Fn}
    (h : inlineFunctionCall env recursiveChainEntranceFns tracked F callF call =
      (true, tracked')) :
    ∃ index, tracked'.preOrderedLoops =
      adjustLoopOrdersAfterInline tracked.preOrderedLoops F callF index := by
  unfold inlineFunctionCall at h
  dsimp only at h
  split_ifs at h with haffected hentrance hlarge
  · cases h
  · cases h
  · split at h
    · cases h
      exact ⟨_, rfl⟩
    · cases h
  · cases h

/-- Trying a loop inlines a call that may be inlined, or leaves everything but the number of
attempts. -/
theorem within_loop_cases {inlined : Bool}
    (h : inlineCallsInvolvedInLoopCarriedDataDependencesWithinLoop env noelle pcg order tracked F
      LDI = (inlined, tracked')) :
    inlined = true ∧ (∃ call callF,
        CallOfLoop noelle pcg order tracked.bodies F LDI call callF ∧
        InlinesCall env order.recursiveChainEntranceFns tracked F callF call tracked' ∧
        ∃ index, tracked'.preOrderedLoops =
          adjustLoopOrdersAfterInline tracked.preOrderedLoops F callF index) ∨
      inlined = false ∧ ∃ attempts, tracked' = { tracked with attempts := attempts } := by
  have hsame : (false, tracked) = (inlined, tracked') →
      inlined = false ∧ ∃ attempts, tracked' = { tracked with attempts := attempts } := by
    intro heq
    cases heq
    exact ⟨rfl, tracked.attempts, rfl⟩
  have hchosen := choose_call_chosen env noelle pcg order tracked F LDI
  unfold inlineCallsInvolvedInLoopCarriedDataDependencesWithinLoop at h
  dsimp only at h
  split at h
  · exact .inr (hsame h)
  · case _ call hcall =>
      split_ifs at h with hmany
      · exact .inr (hsame h)
      · split at h
        · exact .inr (hsame h)
        · case _ callF hcalled =>
            obtain ⟨earlier, node, later, hnodes, rfl, ⟨other, hcallee, -⟩, -⟩ :=
              hchosen.chosen call hcall
            have hof := call_of_loop_of_callee (hnodes ▸ by simp) hcallee
            obtain rfl := Option.some.inj (hcalled.symm.trans hof.called)
            rcases inline_function_call_cases h with ⟨rfl, hinlines⟩ | hfailed
            · refine .inl ⟨rfl, node.val, callF, hof, hinlines, ?_⟩
              exact inline_function_call_loops h
            · exact .inr hfailed

/-- What checking the loops of a function did: one call that may be inlined in one of the loops is
inlined in the function. -/
structure InlinesOfLoop (env : Environment Fn) (noelle : Noelle Fn) (pcg : Fn → Bool)
    (order : DepthOrder Fn) (tracked : InlinerState Fn) (F : Fn) (call : Inst Fn) (callF : Fn)
    (tracked' : InlinerState Fn) : Prop where
  loop : ∃ LDI ∈ noelle.getLoopContents tracked.bodies F,
    CallOfLoop noelle pcg order tracked.bodies F LDI call callF
  inlines : ∃ attempts, InlinesCall env order.recursiveChainEntranceFns
    { tracked with attempts := attempts } F callF call tracked'
  loops : ∃ index, tracked'.preOrderedLoops =
    adjustLoopOrdersAfterInline tracked.preOrderedLoops F callF index

/-- Checking loops of a function inlines one call, or leaves everything but the number of attempts.
-/
theorem check_loops_of_fn_cases {allLoops : List (LoopSCCs Fn)} {state state' : LoopsState}
    (hloops : ∀ LDI ∈ allLoops, LDI ∈ noelle.getLoopContents tracked.bodies F)
    (hstate : state.inlined = false)
    (h : checkLoopsOfFn env noelle pcg order F allLoops state tracked = (state', tracked')) :
    state'.inlined = true ∧
        (∃ call callF, InlinesOfLoop env noelle pcg order tracked F call callF tracked') ∨
      state'.inlined = false ∧ ∃ attempts, tracked' = { tracked with attempts := attempts } := by
  induction allLoops generalizing state tracked with
  | nil =>
      cases h
      exact .inr ⟨hstate, _, rfl⟩
  | cons LDI rest ih =>
      rw [List.forall_mem_cons] at hloops
      unfold checkLoopsOfFn at h
      split_ifs at h with henabled hdoall
      · dsimp only at h
        exact ih hloops.2 (by exact hstate) h
      · generalize hrun : inlineCallsInvolvedInLoopCarriedDataDependencesWithinLoop env noelle pcg
          order tracked F LDI = run at h
        obtain ⟨inlinedCall, tracked₁⟩ := run
        dsimp only at h
        rw [hstate, Bool.false_or] at h
        rcases within_loop_cases hrun with
          ⟨rfl, call, callF, hcall, hinlines, hadjusted⟩ | ⟨rfl, attempts, rfl⟩
        · cases h
          exact .inl ⟨rfl, call, callF, ⟨LDI, hloops.1, hcall⟩,
            ⟨tracked.attempts, hinlines⟩, hadjusted⟩
        · -- The attempt failed, so that only their number differs for the loops that are left.
          rw [if_neg Bool.false_ne_true] at h
          rcases ih (by exact hloops.2) (by rfl) h with ⟨hinlined, call, callF, hof⟩ | hfailed
          · exact .inl ⟨hinlined, call, callF, hof.loop, hof.inlines, hof.loops⟩
          · exact .inr hfailed
      · exact ih hloops.2 hstate h

end Chosen

end Gino.Inliner
