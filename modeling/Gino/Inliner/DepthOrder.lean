import Gino.Inliner.CallGraph

/-!
# The depth order of the functions

`Inliner::collectInDepthOrderFns` numbers the functions from main on. A function gets its number
when all functions that call it have theirs. When no function is left for which this is so, all
those that were deferred get the next numbers and count as entrances of recursive chains. Whether a
function is an entrance depends on how many such releases its callers need (`OrderedWithin`), so
that functions on no cycle become entrances too (`depth_order_correct_iff`).
-/

namespace Gino.Inliner

open Machine Relation

/-- The depth order of the functions. -/
structure DepthOrder (Fn : Type) where
  depthOrderedFns : List Fn
  recursiveChainEntranceFns : Finset Fn
  fnOrders : Fn → Option Nat

/-- The state of the loops that compute it. -/
structure OrderState (Fn : Type) extends DepthOrder Fn where
  funcToTraverse : List Fn
  reached : Finset Fn
  deferred : List Fn

variable {Fn : Type} [DecidableEq Fn]

namespace OrderState

/-- Give a function the next number, and add it to the queue. -/
def assign (state : OrderState Fn) (F : Fn) : OrderState Fn :=
  { state with
    funcToTraverse := state.funcToTraverse ++ [F]
    fnOrders := Function.update state.fnOrders F (some state.depthOrderedFns.length)
    depthOrderedFns := state.depthOrderedFns ++ [F]
    reached := insert F state.reached }

/-- Number a function if all functions that call it are numbered, or defer it. -/
def visitChild (graph : FnGraph Fn) (state : OrderState Fn) (F : Fn) : OrderState Fn :=
  if F ∈ state.reached then state
  else if ∀ parent ∈ graph.parentFns F, parent ∈ state.reached then state.assign F
  else { state with deferred := state.deferred ++ [F] }

/-- Number the functions that can be numbered. It gives nothing where the fuel does not suffice. -/
def orderFns (graph : FnGraph Fn) : Nat → OrderState Fn → Option (OrderState Fn)
  | 0, state => if state.funcToTraverse = [] then some state else none
  | fuel + 1, state =>
      match state.funcToTraverse with
      | [] => some state
      | func :: rest =>
          orderFns graph fuel
            ((graph.childrenFns func).foldl (visitChild graph)
              { state with funcToTraverse := rest })

/-- Number a deferred function that has no number yet, as an entrance of a recursive chain. -/
def releaseFn (state : OrderState Fn × List Fn) (left : Fn) : OrderState Fn × List Fn :=
  if state.1.fnOrders left = none then
    ({ state.1.assign left with
        recursiveChainEntranceFns := insert left state.1.recursiveChainEntranceFns },
      state.2 ++ [left])
  else state

/-- Number the deferred functions that have no number yet. -/
def releaseDeferred (state : OrderState Fn) : OrderState Fn :=
  let (released, remaining) := state.deferred.foldl releaseFn (state, [])
  { released with deferred := remaining }

/-- Number all functions, with the given fuel for each round. -/
def orderRemaining (graph : FnGraph Fn) (fuel : Nat) : Nat → OrderState Fn → Option (OrderState Fn)
  | 0, state => if state.funcToTraverse = [] then some state else none
  | rounds + 1, state =>
      if state.funcToTraverse = [] then some state
      else (orderFns graph fuel state).bind fun state =>
        orderRemaining graph fuel rounds state.releaseDeferred

/-- Main has the first number. -/
def start (main : Fn) : OrderState Fn where
  depthOrderedFns := [main]
  recursiveChainEntranceFns := ∅
  fnOrders := Function.update (fun _ => none) main (some 0)
  funcToTraverse := [main]
  reached := {main}
  deferred := []

end OrderState

/-- The depth order from main on. It gives nothing where the fuel does not suffice. -/
def collectInDepthOrderFns (graph : FnGraph Fn) (main : Fn) (fuel : Nat) :
    Option (DepthOrder Fn) :=
  (OrderState.orderRemaining graph fuel fuel (OrderState.start main)).map OrderState.toDepthOrder

/-! ## What the order depends on -/

section Releases

variable {α : Type*} (calls : α → α → Prop) (main : α)

/-- A function is numbered within some releases: main without any, a function with the last of its
callers, and a function that is deferred one release after its first caller. -/
inductive OrderedWithin : Nat → α → Prop where
  | main {releases : Nat} : OrderedWithin releases main
  | called {releases : Nat} {P F : α} : calls P F →
      (∀ caller, calls caller F → OrderedWithin releases caller) → OrderedWithin releases F
  | deferred {releases : Nat} {P F : α} : calls P F → OrderedWithin releases P →
      OrderedWithin (releases + 1) F

/-- The callers of a function are numbered within the same releases. -/
def CallersTogether (F : α) : Prop :=
  ∀ releases P Q, calls P F → calls Q F →
    OrderedWithin calls main releases P → OrderedWithin calls main releases Q

variable {calls main}

/-- More releases number no fewer functions. -/
theorem OrderedWithin.mono {F : α} {releases more : Nat}
    (h : OrderedWithin calls main releases F) (hle : releases ≤ more) :
    OrderedWithin calls main more F := by
  induction h generalizing more with
  | main => exact .main
  | called hcall _ ih => exact .called hcall fun caller hcaller => ih caller hcaller hle
  | deferred hcall _ ih =>
      obtain ⟨before, rfl⟩ : ∃ before, more = before + 1 := ⟨more - 1, by omega⟩
      exact .deferred hcall (ih (by omega))

end Releases

/-- A function calls a function in the graph. -/
def FnGraph.Calls (graph : FnGraph Fn) (P F : Fn) : Prop := F ∈ graph.childrenFns P

/-- The order numbers what main reaches, main first, and `fnOrders` is its inverse. -/
structure DepthOrder.Lists (order : DepthOrder Fn) (graph : FnGraph Fn) (main : Fn) : Prop where
  nodup : order.depthOrderedFns.Nodup
  first : order.depthOrderedFns.head? = some main
  mem_iff : ∀ F, F ∈ order.depthOrderedFns ↔ ReflTransGen graph.Calls main F
  inverse : ∀ F i, order.fnOrders F = some i ↔ order.depthOrderedFns[i]? = some F

/-- The order respects the call graph: callers come before functions on no cycle, and every entrance
of a recursive chain is on a cycle. -/
structure DepthOrder.Correct (order : DepthOrder Fn) (graph : FnGraph Fn) (main : Fn) : Prop
    extends order.Lists graph main where
  before : ∀ P F i j, graph.Calls P F → ¬ TransGen graph.Calls F F →
    order.fnOrders P = some i → order.fnOrders F = some j → i < j
  entrances : ∀ F ∈ order.recursiveChainEntranceFns, TransGen graph.Calls F F

/-! ## What the loops keep -/

namespace OrderState

variable {graph : FnGraph Fn} {main F : Fn} {releases : Nat} {pending : List Fn}
  {state : OrderState Fn}

/-- The numbers are those of the positions in the list, and the queue holds numbered functions. -/
structure Listed (main : Fn) (state : OrderState Fn) : Prop where
  nodup : state.depthOrderedFns.Nodup
  first : state.depthOrderedFns.head? = some main
  mem_reached : ∀ F, F ∈ state.reached ↔ F ∈ state.depthOrderedFns
  inverse : ∀ F i, state.fnOrders F = some i ↔ state.depthOrderedFns[i]? = some F
  queue : ∀ F ∈ state.funcToTraverse, F ∈ state.reached
  short : state.funcToTraverse.length ≤ state.depthOrderedFns.length

omit [DecidableEq Fn] in
/-- Main is numbered. -/
theorem Listed.main_mem (h : Listed main state) : main ∈ state.reached := by
  rw [h.mem_reached]
  exact List.mem_of_head? h.first

omit [DecidableEq Fn] in
/-- A function has no number exactly if it is not reached. -/
theorem Listed.fn_orders_eq_none (h : Listed main state) :
    state.fnOrders F = none ↔ F ∉ state.reached := by
  rw [h.mem_reached, List.mem_iff_getElem?, Option.eq_none_iff_forall_ne_some]
  simp only [← h.inverse, not_exists, ne_eq]

/-- Giving a function the next number keeps the numbers those of the positions. -/
theorem Listed.assign (h : Listed main state) (hnew : F ∉ state.reached) :
    Listed main (state.assign F) := by
  have hnotin : F ∉ state.depthOrderedFns := fun hin => hnew ((h.mem_reached F).mpr hin)
  refine ⟨?_, ?_, fun X => ?_, fun X i => ?_, fun X hX => ?_, ?_⟩
  · show (state.depthOrderedFns ++ [F]).Nodup
    rw [← List.concat_eq_append]
    exact List.Nodup.concat hnotin h.nodup
  · exact List.head?_append_of_ne_nil _ (List.ne_nil_of_mem (List.mem_of_head? h.first)) ▸ h.first
  · show X ∈ insert F state.reached ↔ X ∈ state.depthOrderedFns ++ [F]
    rw [Finset.mem_insert, List.mem_append, List.mem_singleton, h.mem_reached, or_comm]
  · show Function.update state.fnOrders F (some state.depthOrderedFns.length) X = some i ↔
      (state.depthOrderedFns ++ [F])[i]? = some X
    by_cases hX : X = F
    · subst hX
      rw [Function.update_self, Option.some.injEq]
      constructor
      · rintro rfl
        simp
      · intro hget
        by_contra hne
        rcases Nat.lt_or_ge i state.depthOrderedFns.length with hlt | hge
        · rw [List.getElem?_append_left hlt] at hget
          exact hnotin (List.mem_of_getElem? hget)
        · rw [List.getElem?_eq_none (by rw [List.length_append, List.length_singleton]; omega)]
            at hget
          cases hget
    · rw [Function.update_of_ne hX, h.inverse]
      rcases Nat.lt_trichotomy i state.depthOrderedFns.length with hlt | rfl | hgt
      · rw [List.getElem?_append_left hlt]
      · simp [Ne.symm hX]
      · rw [List.getElem?_eq_none (by omega), List.getElem?_eq_none
          (by rw [List.length_append, List.length_singleton]; omega)]
  · show X ∈ insert F state.reached
    rcases List.mem_append.mp hX with hold | hlast
    · exact Finset.mem_insert_of_mem (h.queue X hold)
    · rw [List.mem_singleton.mp hlast]
      exact Finset.mem_insert_self F _
  · show (state.funcToTraverse ++ [F]).length ≤ (state.depthOrderedFns ++ [F]).length
    have := h.short
    simp only [List.length_append, List.length_singleton]
    omega

/-- A function comes after all functions that call it. -/
def AfterCallers (graph : FnGraph Fn) (order : List Fn) (F : Fn) : Prop :=
  ∃ before after, order = before ++ F :: after ∧ ∀ P, graph.Calls P F → P ∈ before

/-- The invariant of the loops, after some releases and with children of the current function left
to visit. -/
structure OrderInv (graph : FnGraph Fn) (main : Fn) (releases : Nat) (pending : List Fn)
    (state : OrderState Fn) : Prop extends Listed main state where
  reaches : ∀ F ∈ state.reached, ReflTransGen graph.Calls main F
  pendingCalled : ∀ F ∈ pending, ∃ P ∈ state.reached, graph.Calls P F
  deferredCalled : ∀ F ∈ state.deferred, ∃ P ∈ state.reached, graph.Calls P F
  children : ∀ P ∈ state.reached, P ∈ state.funcToTraverse ∨
    ∀ F, graph.Calls P F → F ∈ state.reached ∨ F ∈ state.deferred ∨ F ∈ pending
  waiting : ∀ F ∉ state.reached, F ∉ pending → ∀ P, graph.Calls P F →
    ∃ Q, graph.Calls Q F ∧ (Q ∉ state.reached ∨ Q ∈ state.funcToTraverse)
  within : ∀ F ∈ state.reached, OrderedWithin graph.Calls main releases F
  earlier : ∀ before < releases, ∀ P F, graph.Calls P F →
    OrderedWithin graph.Calls main before P → F ∈ state.reached
  after : ∀ F ∈ state.reached, F = main ∨ F ∈ state.recursiveChainEntranceFns ∨
    AfterCallers graph state.depthOrderedFns F
  together : ∀ F ∈ state.reached, F = main ∨ F ∈ state.recursiveChainEntranceFns ∨
    CallersTogether graph.Calls main F
  apart : ∀ F ∈ state.recursiveChainEntranceFns, ¬ CallersTogether graph.Calls main F

omit [DecidableEq Fn] in
/-- A function that comes after its callers still does so when functions are added at the end. -/
theorem AfterCallers.append {order : List Fn} (h : AfterCallers graph order F) (more : List Fn) :
    AfterCallers graph (order ++ more) F := by
  obtain ⟨before, after, rfl, hcallers⟩ := h
  exact ⟨before, after ++ more, by simp, hcallers⟩

omit [DecidableEq Fn] in
/-- A child that has a number needs no visit. -/
theorem OrderInv.skip_child (h : OrderInv graph main releases (F :: pending) state)
    (hreached : F ∈ state.reached) : OrderInv graph main releases pending state := by
  refine { h with
    pendingCalled := fun X hX => h.pendingCalled X (List.mem_cons_of_mem F hX)
    children := fun P hP => ?_
    waiting := fun X hX hpending => h.waiting X hX fun hin => ?_ }
  · refine (h.children P hP).imp_right fun hall X hcalls => ?_
    rcases hall X hcalls with hX | hX | hX
    · exact .inl hX
    · exact .inr (.inl hX)
    · rcases List.mem_cons.mp hX with rfl | hX
      · exact .inl hreached
      · exact .inr (.inr hX)
  · rcases List.mem_cons.mp hin with rfl | hin
    · exact hX hreached
    · exact hpending hin

/-- A child gets its number when all its callers have theirs. -/
theorem OrderInv.assign_child (h : OrderInv graph main releases (F :: pending) state)
    (hreached : F ∉ state.reached) (hcallers : ∀ P, graph.Calls P F → P ∈ state.reached) :
    OrderInv graph main releases pending (state.assign F) := by
  obtain ⟨caller, hcaller, hcalls⟩ := h.pendingCalled F List.mem_cons_self
  have hmem : ∀ X, X ∈ (state.assign F).reached ↔ X = F ∨ X ∈ state.reached := fun X =>
    Finset.mem_insert
  have hwithin : OrderedWithin graph.Calls main releases F :=
    .called hcalls fun P hP => h.within P (hcallers P hP)
  refine ⟨h.toListed.assign hreached, fun X hX => ?_, fun X hX => ?_, fun X hX => ?_,
    fun P hP => ?_, fun X hX hpending P hP => ?_, fun X hX => ?_, fun before hlt P X hP hX => ?_,
    fun X hX => ?_, fun X hX => ?_, h.apart⟩
  · rcases (hmem X).mp hX with rfl | hX
    · exact (h.reaches caller hcaller).tail hcalls
    · exact h.reaches X hX
  · obtain ⟨P, hP, hcalls⟩ := h.pendingCalled X (List.mem_cons_of_mem F hX)
    exact ⟨P, (hmem P).mpr (.inr hP), hcalls⟩
  · obtain ⟨P, hP, hcalls⟩ := h.deferredCalled X hX
    exact ⟨P, (hmem P).mpr (.inr hP), hcalls⟩
  · rcases (hmem P).mp hP with rfl | hP
    · exact .inl (List.mem_append_right _ List.mem_cons_self)
    · rcases h.children P hP with hqueue | hall
      · exact .inl (List.mem_append_left _ hqueue)
      · refine .inr fun X hcalls => ?_
        rcases hall X hcalls with hX | hX | hX
        · exact .inl ((hmem X).mpr (.inr hX))
        · exact .inr (.inl hX)
        · rcases List.mem_cons.mp hX with rfl | hX
          · exact .inl ((hmem X).mpr (.inl rfl))
          · exact .inr (.inr hX)
  · rw [hmem, not_or] at hX
    obtain ⟨Q, hQ, hwaits⟩ := h.waiting X hX.2
      (fun hin => (List.mem_cons.mp hin).elim hX.1 hpending) P hP
    refine ⟨Q, hQ, ?_⟩
    by_cases hsame : Q = F
    · subst hsame
      exact .inr (List.mem_append_right _ List.mem_cons_self)
    · exact hwaits.imp (fun hout hin => ((hmem Q).mp hin).elim hsame hout)
        (List.mem_append_left _)
  · rcases (hmem X).mp hX with rfl | hX
    · exact hwithin
    · exact h.within X hX
  · exact (hmem X).mpr (.inr (h.earlier before hlt P X hP hX))
  · rcases (hmem X).mp hX with rfl | hX
    · exact .inr (.inr ⟨state.depthOrderedFns, [], rfl, fun P hP =>
        (h.mem_reached P).mp (hcallers P hP)⟩)
    · exact (h.after X hX).imp_right (Or.imp_right fun hafter => hafter.append [F])
  · rcases (hmem X).mp hX with rfl | hX
    · refine .inr (.inr fun count P Q hP hQ hcount => ?_)
      -- Within fewer releases the child would have been reached before.
      rcases Nat.lt_or_ge count releases with hlt | hge
      · exact absurd (h.earlier count hlt P X hP hcount) hreached
      · exact (h.within Q (hcallers Q hQ)).mono hge
    · exact h.together X hX

/-- A child is deferred while some caller has no number. -/
theorem OrderInv.defer_child (h : OrderInv graph main releases (F :: pending) state)
    (hcaller : ∃ Q, graph.Calls Q F ∧ Q ∉ state.reached) :
    OrderInv graph main releases pending { state with deferred := state.deferred ++ [F] } := by
  refine { h with
    pendingCalled := fun X hX => h.pendingCalled X (List.mem_cons_of_mem F hX)
    deferredCalled := fun X hX => ?_
    children := fun P hP => ?_
    waiting := fun X hX hpending P hP => ?_ }
  · rcases List.mem_append.mp hX with hX | hX
    · exact h.deferredCalled X hX
    · rw [List.mem_singleton.mp hX]
      exact h.pendingCalled F List.mem_cons_self
  · refine (h.children P hP).imp_right fun hall X hcalls => ?_
    rcases hall X hcalls with hX | hX | hX
    · exact .inl hX
    · exact .inr (.inl (List.mem_append_left _ hX))
    · rcases List.mem_cons.mp hX with rfl | hX
      · exact .inr (.inl (List.mem_append_right _ List.mem_cons_self))
      · exact .inr (.inr hX)
  · by_cases hsame : X = F
    · subst hsame
      obtain ⟨Q, hQ, hout⟩ := hcaller
      exact ⟨Q, hQ, .inl hout⟩
    · exact h.waiting X hX (fun hin => (List.mem_cons.mp hin).elim hsame hpending) P hP

/-- Visiting a child keeps the invariant. -/
theorem OrderInv.visit_child (h : OrderInv graph main releases (F :: pending) state)
    (hmirror : ∀ P X, P ∈ graph.parentFns X ↔ graph.Calls P X) :
    OrderInv graph main releases pending (visitChild graph state F) := by
  unfold visitChild
  split_ifs with hreached hparents
  · exact h.skip_child hreached
  · exact h.assign_child hreached fun P hP => hparents P ((hmirror P F).mpr hP)
  · push Not at hparents
    obtain ⟨Q, hQ, hout⟩ := hparents
    exact h.defer_child ⟨Q, (hmirror Q F).mp hQ, hout⟩

/-- Visiting the children of a function keeps the invariant. -/
theorem OrderInv.visit_children (h : OrderInv graph main releases pending state)
    (hmirror : ∀ P X, P ∈ graph.parentFns X ↔ graph.Calls P X) :
    OrderInv graph main releases [] (pending.foldl (visitChild graph) state) := by
  induction pending generalizing state with
  | nil => exact h
  | cons F pending ih => exact ih (h.visit_child hmirror)

omit [DecidableEq Fn] in
/-- Taking a function from the queue leaves its children to be visited. -/
theorem OrderInv.pop {func : Fn} {rest : List Fn} (h : OrderInv graph main releases [] state)
    (hqueue : state.funcToTraverse = func :: rest) :
    OrderInv graph main releases (graph.childrenFns func)
      { state with funcToTraverse := rest } := by
  have hfunc : func ∈ state.reached := h.queue func (hqueue ▸ List.mem_cons_self)
  refine { h with
    queue := fun X hX => h.queue X (hqueue ▸ List.mem_cons_of_mem func hX)
    short := ?_
    pendingCalled := fun X hX => ⟨func, hfunc, hX⟩
    children := fun P hP => ?_
    waiting := fun X hX hpending P hP => ?_ }
  · have hshort := h.short
    rw [hqueue, List.length_cons] at hshort
    exact Nat.le_of_succ_le hshort
  · rcases h.children P hP with hwaits | hall
    · rw [hqueue] at hwaits
      rcases List.mem_cons.mp hwaits with rfl | hwaits
      · exact .inr fun X hcalls => .inr (.inr hcalls)
      · exact .inl hwaits
    · refine .inr fun X hcalls => (hall X hcalls).imp_right (Or.imp_right fun hX => ?_)
      cases hX
  · obtain ⟨Q, hQ, hwaits⟩ := h.waiting X hX (List.not_mem_nil) P hP
    refine ⟨Q, hQ, hwaits.imp_right fun hin => ?_⟩
    rw [hqueue] at hin
    rcases List.mem_cons.mp hin with rfl | hin
    · exact absurd hQ hpending
    · exact hin

/-- Every function that a child is visited for enters both the queue and the list. -/
theorem visit_children_lengths (pending : List Fn) (state : OrderState Fn) :
    (pending.foldl (visitChild graph) state).funcToTraverse.length +
        state.depthOrderedFns.length =
      state.funcToTraverse.length +
        (pending.foldl (visitChild graph) state).depthOrderedFns.length ∧
    state.depthOrderedFns.length ≤
      (pending.foldl (visitChild graph) state).depthOrderedFns.length := by
  induction pending generalizing state with
  | nil => exact ⟨rfl, Nat.le_refl _⟩
  | cons F pending ih =>
      have hstep : (visitChild graph state F).funcToTraverse.length +
            state.depthOrderedFns.length =
          state.funcToTraverse.length + (visitChild graph state F).depthOrderedFns.length ∧
          state.depthOrderedFns.length ≤ (visitChild graph state F).depthOrderedFns.length := by
        unfold visitChild
        split_ifs
        · exact ⟨rfl, Nat.le_refl _⟩
        · simp only [assign, List.length_append, List.length_singleton]
          omega
        · exact ⟨rfl, Nat.le_refl _⟩
      have hrest := ih (visitChild graph state F)
      rw [List.foldl_cons]
      omega

section Loops

variable {functions : List Fn}

omit [DecidableEq Fn] in
/-- No more functions are numbered than there are. -/
theorem Listed.length_le (h : Listed main state) (hfunctions : ∀ F, F ∈ functions) :
    state.depthOrderedFns.length ≤ functions.length :=
  (List.subperm_of_subset h.nodup fun F _ => hfunctions F).length_le

/-- Numbering the functions that can be numbered ends with an empty queue. -/
theorem OrderInv.exists_order_fns (hfunctions : ∀ F, F ∈ functions)
    (hmirror : ∀ P X, P ∈ graph.parentFns X ↔ graph.Calls P X) (left : Nat)
    {state : OrderState Fn} (h : OrderInv graph main releases [] state)
    (hleft : state.funcToTraverse.length + functions.length ≤
      left + state.depthOrderedFns.length) :
    ∃ state', OrderInv graph main releases [] state' ∧ state'.funcToTraverse = [] ∧
      state.depthOrderedFns.length ≤ state'.depthOrderedFns.length ∧
      ∀ fuel ≥ left, orderFns graph fuel state = some state' := by
  have hempty : ∀ {state : OrderState Fn}, state.funcToTraverse = [] → ∀ fuel,
      orderFns graph fuel state = some state := by
    intro state hqueue fuel
    cases fuel with
    | zero => rw [orderFns, if_pos hqueue]
    | succ fuel => rw [orderFns, hqueue]
  induction left generalizing state with
  | zero =>
      have hlength := h.length_le hfunctions
      have hqueue : state.funcToTraverse = [] := List.eq_nil_of_length_eq_zero (by omega)
      exact ⟨state, h, hqueue, Nat.le_refl _, fun fuel _ => hempty hqueue fuel⟩
  | succ left ih =>
      cases hqueue : state.funcToTraverse with
      | nil => exact ⟨state, h, hqueue, Nat.le_refl _, fun fuel _ => hempty hqueue fuel⟩
      | cons func rest =>
          rw [hqueue, List.length_cons] at hleft
          have hlengths := @visit_children_lengths _ _ graph (graph.childrenFns func)
            { state with funcToTraverse := rest }
          dsimp only at hlengths
          obtain ⟨state', hinv, hdone, hmore, hrun⟩ :=
            ih ((h.pop hqueue).visit_children hmirror) (by omega)
          refine ⟨state', hinv, hdone, by omega, fun fuel hfuel => ?_⟩
          obtain ⟨fuel, rfl⟩ : ∃ before, fuel = before + 1 := ⟨fuel - 1, by omega⟩
          rw [orderFns, hqueue]
          exact hrun fuel (by omega)

/-! ## Releases -/

/-- What releases have numbered so far: functions among the deferred ones. -/
structure ReleaseInv (main : Fn) (before : OrderState Fn) (state : OrderState Fn × List Fn) : Prop
    extends Listed main state.1 where
  order : state.1.depthOrderedFns = before.depthOrderedFns ++ state.2
  queue_eq : state.1.funcToTraverse = state.2
  reached : ∀ F, F ∈ state.1.reached ↔ F ∈ before.reached ∨ F ∈ state.2
  entrances : ∀ F, F ∈ state.1.recursiveChainEntranceFns ↔
    F ∈ before.recursiveChainEntranceFns ∨ F ∈ state.2
  remaining : ∀ F ∈ state.2, F ∈ before.deferred ∧ F ∉ before.reached

/-- Releasing a deferred function keeps the invariant, and the function is numbered. -/
theorem ReleaseInv.release_fn {before : OrderState Fn} {state : OrderState Fn × List Fn}
    (h : ReleaseInv main before state) (hdeferred : F ∈ before.deferred) :
    ReleaseInv main before (releaseFn state F) ∧
      (∀ X ∈ state.1.reached, X ∈ (releaseFn state F).1.reached) ∧
      F ∈ (releaseFn state F).1.reached := by
  unfold releaseFn
  split_ifs with hnumber
  · have hnew := h.fn_orders_eq_none.mp hnumber
    have hnotin := hnew
    rw [h.reached, not_or] at hnotin
    have hlisted := h.toListed.assign hnew
    refine ⟨⟨⟨hlisted.nodup, hlisted.first, hlisted.mem_reached, hlisted.inverse, hlisted.queue,
      hlisted.short⟩, ?_, ?_, fun X => ?_, fun X => ?_, fun X hX => ?_⟩,
      fun X hX => Finset.mem_insert_of_mem hX, Finset.mem_insert_self F _⟩
    · show state.1.depthOrderedFns ++ [F] = before.depthOrderedFns ++ (state.2 ++ [F])
      rw [h.order, List.append_assoc]
    · show state.1.funcToTraverse ++ [F] = state.2 ++ [F]
      rw [h.queue_eq]
    · show X ∈ insert F state.1.reached ↔ X ∈ before.reached ∨ X ∈ state.2 ++ [F]
      rw [Finset.mem_insert, h.reached, List.mem_append, List.mem_singleton]
      tauto
    · show X ∈ insert F state.1.recursiveChainEntranceFns ↔
        X ∈ before.recursiveChainEntranceFns ∨ X ∈ state.2 ++ [F]
      rw [Finset.mem_insert, h.entrances, List.mem_append, List.mem_singleton]
      tauto
    · rcases List.mem_append.mp hX with hold | hlast
      · exact h.remaining X hold
      · rw [List.mem_singleton.mp hlast]
        exact ⟨hdeferred, hnotin.1⟩
  · rw [h.fn_orders_eq_none, not_not] at hnumber
    exact ⟨h, fun X hX => hX, hnumber⟩

/-- Releasing deferred functions keeps the invariant, and they are all numbered. -/
theorem ReleaseInv.release_fns {before : OrderState Fn} {state : OrderState Fn × List Fn}
    (h : ReleaseInv main before state) {lefts : List Fn}
    (hdeferred : ∀ F ∈ lefts, F ∈ before.deferred) :
    ReleaseInv main before (lefts.foldl releaseFn state) ∧
      (∀ X ∈ state.1.reached, X ∈ (lefts.foldl releaseFn state).1.reached) ∧
      ∀ F ∈ lefts, F ∈ (lefts.foldl releaseFn state).1.reached := by
  induction lefts generalizing state with
  | nil => exact ⟨h, fun _ hX => hX, by simp⟩
  | cons F lefts ih =>
      obtain ⟨hnext, hkept, hF⟩ := h.release_fn (hdeferred F List.mem_cons_self)
      obtain ⟨hlast, hrest, hlefts⟩ := ih hnext fun X hX => hdeferred X (List.mem_cons_of_mem F hX)
      refine ⟨hlast, fun X hX => hrest X (hkept X hX), fun X hX => ?_⟩
      rcases List.mem_cons.mp hX with rfl | hX
      · exact hrest X hF
      · exact hlefts X hX

/-- When the queue is empty, what can be numbered within the releases so far is. -/
theorem OrderInv.reached_of_within (h : OrderInv graph main releases [] state)
    (hqueue : state.funcToTraverse = [])
    (hwithin : OrderedWithin graph.Calls main releases F) : F ∈ state.reached := by
  generalize hcount : releases = count at hwithin
  induction hwithin with
  | main => exact h.main_mem
  | @called count P F hcalls _ ih =>
      by_contra hout
      obtain ⟨Q, hQ, hwaits⟩ := h.waiting F hout List.not_mem_nil P hcalls
      rw [hqueue] at hwaits
      exact hwaits.elim (fun hnot => hnot (ih Q hQ hcount)) List.not_mem_nil
  | @deferred count P F hcalls hbefore _ =>
      exact h.earlier count (by omega) P F hcalls hbefore

omit [DecidableEq Fn] in
/-- When the queue is empty, the functions that numbered functions call are numbered or deferred. -/
theorem OrderInv.reached_or_deferred {P : Fn} (h : OrderInv graph main releases [] state)
    (hqueue : state.funcToTraverse = []) (hP : P ∈ state.reached) (hcalls : graph.Calls P F) :
    F ∈ state.reached ∨ F ∈ state.deferred := by
  rcases h.children P hP with hwaits | hcovered
  · rw [hqueue] at hwaits
    cases hwaits
  · rcases hcovered F hcalls with hF | hF | hF
    · exact .inl hF
    · exact .inr hF
    · cases hF

omit [DecidableEq Fn] in
/-- When the queue is empty, a deferred function without a number has a caller with a number and a
caller without. -/
theorem OrderInv.callers_of_deferred (h : OrderInv graph main releases [] state)
    (hqueue : state.funcToTraverse = []) (hdeferred : F ∈ state.deferred)
    (hout : F ∉ state.reached) :
    (∃ P ∈ state.reached, graph.Calls P F) ∧ ∃ Q, graph.Calls Q F ∧ Q ∉ state.reached := by
  obtain ⟨P, hP, hcalls⟩ := h.deferredCalled F hdeferred
  obtain ⟨Q, hQ, hwaits⟩ := h.waiting F hout List.not_mem_nil P hcalls
  refine ⟨⟨P, hP, hcalls⟩, Q, hQ, hwaits.resolve_right fun hin => ?_⟩
  rw [hqueue] at hin
  cases hin

/-- A release keeps the invariant, with one release more. -/
theorem OrderInv.release_deferred (h : OrderInv graph main releases [] state)
    (hqueue : state.funcToTraverse = []) :
    OrderInv graph main (releases + 1) [] state.releaseDeferred ∧
      (∀ F ∈ state.releaseDeferred.deferred, F ∈ state.releaseDeferred.reached) ∧
      state.depthOrderedFns.length + state.releaseDeferred.funcToTraverse.length =
        state.releaseDeferred.depthOrderedFns.length := by
  have hstart : ReleaseInv main state (state, []) :=
    ⟨h.toListed, by simp, hqueue, by simp, by simp, by simp⟩
  obtain ⟨hinv, -, hall⟩ := hstart.release_fns fun F hF => hF
  unfold releaseDeferred
  dsimp only
  generalize state.deferred.foldl releaseFn (state, []) = result at hinv hall
  obtain ⟨released, remaining⟩ := result
  dsimp only at hinv hall
  have hwaiting : ∀ F ∈ remaining, F ∈ released.funcToTraverse := fun F hF =>
    hinv.queue_eq.symm ▸ hF
  have hstalled : ∀ F, OrderedWithin graph.Calls main releases F → F ∈ state.reached := fun F =>
    h.reached_of_within hqueue
  have hreleased : ∀ F ∈ remaining, (∃ P ∈ state.reached, graph.Calls P F) ∧
      ∃ Q, graph.Calls Q F ∧ Q ∉ state.reached := by
    intro F hF
    obtain ⟨hdeferred, hout⟩ := hinv.remaining F hF
    exact h.callers_of_deferred hqueue hdeferred hout
  have hchildren : ∀ P ∈ state.reached, ∀ F, graph.Calls P F → F ∈ released.reached := by
    intro P hP F hcalls
    rcases h.reached_or_deferred hqueue hP hcalls with hF | hF
    · exact (hinv.reached F).mpr (.inl hF)
    · exact hall F hF
  refine ⟨⟨⟨hinv.nodup, hinv.first, hinv.mem_reached, hinv.inverse, hinv.queue, hinv.short⟩,
    fun F hF => ?_, by simp, fun F hF => ?_, fun P hP => ?_, fun F hF _ P hcalls => ?_,
    fun F hF => ?_, fun before hlt P F hcalls hwithin => ?_, fun F hF => ?_, fun F hF => ?_,
    fun F hF => ?_⟩, fun F hF => (hinv.reached F).mpr (.inr hF), ?_⟩
  · rcases (hinv.reached F).mp hF with hold | hnew
    · exact h.reaches F hold
    · obtain ⟨⟨P, hP, hcalls⟩, -⟩ := hreleased F hnew
      exact (h.reaches P hP).tail hcalls
  · obtain ⟨⟨P, hP, hcalls⟩, -⟩ := hreleased F hF
    exact ⟨P, (hinv.reached P).mpr (.inl hP), hcalls⟩
  · rcases (hinv.reached P).mp hP with hold | hnew
    · exact .inr fun F hcalls => .inl (hchildren P hold F hcalls)
    · exact .inl (hwaiting P hnew)
  · obtain ⟨Q, hQ, hwaits⟩ := h.waiting F (fun hin => hF ((hinv.reached F).mpr (.inl hin)))
      List.not_mem_nil P hcalls
    refine ⟨Q, hQ, ?_⟩
    by_cases hnew : Q ∈ remaining
    · exact .inr (hwaiting Q hnew)
    · refine .inl fun hin => ?_
      have hold := ((hinv.reached Q).mp hin).resolve_right hnew
      rw [hqueue] at hwaits
      exact hwaits.elim (fun hout => hout hold) List.not_mem_nil
  · rcases (hinv.reached F).mp hF with hold | hnew
    · exact (h.within F hold).mono (Nat.le_succ releases)
    · obtain ⟨⟨P, hP, hcalls⟩, -⟩ := hreleased F hnew
      exact .deferred hcalls (h.within P hP)
  · exact hchildren P (hstalled P (hwithin.mono (Nat.le_of_lt_succ hlt))) F hcalls
  · rcases (hinv.reached F).mp hF with hold | hnew
    · refine (h.after F hold).imp_right (Or.imp (fun hin => ?_) fun hafter => ?_)
      · exact (hinv.entrances F).mpr (.inl hin)
      · rw [hinv.order]
        exact hafter.append remaining
    · exact .inr (.inl ((hinv.entrances F).mpr (.inr hnew)))
  · rcases (hinv.reached F).mp hF with hold | hnew
    · exact (h.together F hold).imp_right (Or.imp_left fun hin =>
        (hinv.entrances F).mpr (.inl hin))
    · exact .inr (.inl ((hinv.entrances F).mpr (.inr hnew)))
  · rcases (hinv.entrances F).mp hF with hold | hnew
    · exact h.apart F hold
    · intro htogether
      obtain ⟨⟨P, hP, hcalls⟩, Q, hQ, hout⟩ := hreleased F hnew
      exact hout (hstalled Q (htogether releases P Q hcalls hQ (h.within P hP)))
  · rw [hinv.order, hinv.queue_eq, List.length_append]

/-! ## All rounds -/

/-- When no function is left, all that main reaches are numbered. -/
structure Finished (graph : FnGraph Fn) (main : Fn) (state : OrderState Fn) : Prop where
  inv : ∃ releases, OrderInv graph main releases [] state
  closed : ∀ F, F ∈ state.reached ↔ ReflTransGen graph.Calls main F

omit [DecidableEq Fn] in
/-- With an empty queue and no deferred function left, nothing is left. -/
theorem OrderInv.finished (h : OrderInv graph main releases [] state)
    (hqueue : state.funcToTraverse = [])
    (hdeferred : ∀ F ∈ state.deferred, F ∈ state.reached) : Finished graph main state := by
  refine ⟨⟨releases, h⟩, fun F => ⟨h.reaches F, fun hreach => ?_⟩⟩
  induction hreach with
  | refl => exact h.main_mem
  | @tail P F _ hcalls ih => exact (h.reached_or_deferred hqueue ih hcalls).elim id (hdeferred F)

/-- The rounds end with all functions numbered. -/
theorem OrderInv.exists_order_remaining (hfunctions : ∀ F, F ∈ functions)
    (hmirror : ∀ P X, P ∈ graph.parentFns X ↔ graph.Calls P X) (left : Nat)
    {state : OrderState Fn} {releases : Nat} (h : OrderInv graph main releases [] state)
    (hdeferred : ∀ F ∈ state.deferred, F ∈ state.reached)
    (hleft : functions.length < left + state.depthOrderedFns.length) :
    ∃ state', Finished graph main state' ∧ ∀ fuel ≥ functions.length, ∀ rounds ≥ left,
      orderRemaining graph fuel rounds state = some state' := by
  have hempty : ∀ {state : OrderState Fn}, state.funcToTraverse = [] → ∀ fuel rounds,
      orderRemaining graph fuel rounds state = some state := by
    intro state hqueue fuel rounds
    cases rounds with
    | zero => rw [orderRemaining, if_pos hqueue]
    | succ rounds => rw [orderRemaining, if_pos hqueue]
  induction left generalizing state releases with
  | zero =>
      have hlength := h.length_le hfunctions
      omega
  | succ left ih =>
      by_cases hqueue : state.funcToTraverse = []
      · exact ⟨state, h.finished hqueue hdeferred, fun fuel _ rounds _ =>
          hempty hqueue fuel rounds⟩
      · have hshort := h.short
        obtain ⟨middle, hmiddle, hdone, hmore, hrun⟩ :=
          h.exists_order_fns hfunctions hmirror functions.length (by omega)
        obtain ⟨hnext, hreached, hlength⟩ := hmiddle.release_deferred hdone
        have hround : ∀ fuel ≥ functions.length, ∀ rounds,
            orderRemaining graph fuel (rounds + 1) state =
              orderRemaining graph fuel rounds middle.releaseDeferred := by
          intro fuel hfuel rounds
          rw [orderRemaining, if_neg hqueue, hrun fuel hfuel]
          rfl
        by_cases hstop : middle.releaseDeferred.funcToTraverse = []
        · refine ⟨_, hnext.finished hstop hreached, fun fuel hfuel rounds hrounds => ?_⟩
          obtain ⟨rounds, rfl⟩ : ∃ before, rounds = before + 1 := ⟨rounds - 1, by omega⟩
          rw [hround fuel hfuel, hempty hstop]
        · have hpos := List.length_pos_of_ne_nil hstop
          obtain ⟨state', hfinished, hlater⟩ := ih hnext hreached (by omega)
          refine ⟨state', hfinished, fun fuel hfuel rounds hrounds => ?_⟩
          obtain ⟨rounds, rfl⟩ : ∃ before, rounds = before + 1 := ⟨rounds - 1, by omega⟩
          rw [hround fuel hfuel, hlater fuel hfuel rounds (by omega)]

/-- The invariant holds when main has its number. -/
theorem order_inv_start (graph : FnGraph Fn) (main : Fn) :
    OrderInv graph main 0 [] (start main) := by
  have hmem : ∀ F, F ∈ (start main).reached ↔ F = main := fun F => Finset.mem_singleton
  refine ⟨⟨List.nodup_singleton main, rfl, fun F => ?_, fun F i => ?_, fun F hF => ?_,
    Nat.le_refl 1⟩, fun F hF => ?_, by simp, by simp [start], fun P hP => ?_,
    fun F hF _ P hcalls => ?_, fun F hF => ?_, by simp, fun F hF => ?_, fun F hF => ?_,
    by simp [start]⟩
  · rw [hmem]
    exact List.mem_singleton.symm
  · show Function.update (fun _ => none) main (some 0) F = some i ↔ [main][i]? = some F
    by_cases hF : F = main
    · subst hF
      cases i with
      | zero => simp
      | succ i => simp
    · rw [Function.update_of_ne hF]
      cases i with
      | zero => simp [Ne.symm hF]
      | succ i => simp
  · rw [hmem]
    exact List.mem_singleton.mp hF
  · rw [(hmem F).mp hF]
  · rw [(hmem P).mp hP]
    exact .inl List.mem_cons_self
  · by_cases hP : P = main
    · subst hP
      exact ⟨P, hcalls, .inr List.mem_cons_self⟩
    · exact ⟨P, hcalls, .inl fun hin => hP ((hmem P).mp hin)⟩
  · rw [(hmem F).mp hF]
    exact .main
  · exact .inl ((hmem F).mp hF)
  · exact .inl ((hmem F).mp hF)

end Loops

end OrderState

/-! ## The order -/

section Order

variable {graph : FnGraph Fn} {main : Fn}

omit [DecidableEq Fn] in
/-- The order lists the functions that main reaches. -/
theorem OrderState.Finished.lists {state : OrderState Fn} (h : Finished graph main state) :
    state.toDepthOrder.Lists graph main := by
  obtain ⟨releases, hinv⟩ := h.inv
  exact ⟨hinv.nodup, hinv.first, fun F => (hinv.mem_reached F).symm.trans (h.closed F),
    hinv.inverse⟩

omit [DecidableEq Fn] in
/-- The order is correct exactly when the callers of every function on no cycle are numbered within
the same releases. -/
theorem OrderState.Finished.correct_iff {state : OrderState Fn} (h : Finished graph main state)
    (hcallers : ∀ P F, graph.Calls P F → ReflTransGen graph.Calls main P) :
    state.toDepthOrder.Correct graph main ↔
      ∀ F, ¬ TransGen graph.Calls F F → CallersTogether graph.Calls main F := by
  have hlists := h.lists
  obtain ⟨releases, hinv⟩ := h.inv
  have hreached : ∀ P F, graph.Calls P F → F ∈ state.reached := fun P F hcalls =>
    (h.closed F).mpr ((hcallers P F hcalls).tail hcalls)
  -- Main is on a cycle if it is called.
  have hmain : ∀ P F, graph.Calls P F → ¬ TransGen graph.Calls F F → F ≠ main := by
    rintro P F hcalls hcycle rfl
    exact hcycle (TransGen.tail' (hcallers P F hcalls) hcalls)
  constructor
  · intro hcorrect F hcycle count P Q hP hQ hcount
    rcases hinv.together F (hreached P F hP) with hF | hF | hF
    · exact absurd hF (hmain P F hP hcycle)
    · exact absurd (hcorrect.entrances F hF) hcycle
    · exact hF count P Q hP hQ hcount
  · intro htogether
    refine { hlists with
      before := fun P F i j hcalls hcycle hi hj => ?_
      entrances := fun F hF => ?_ }
    · rcases hinv.after F (hreached P F hcalls) with hF | hF | ⟨before, after, horder, hafter⟩
      · exact absurd hF (hmain P F hcalls hcycle)
      · exact absurd (htogether F hcycle) (hinv.apart F hF)
      · have hnodup := hinv.nodup
        have hatP := (hinv.inverse P i).mp hi
        have hatF := (hinv.inverse F j).mp hj
        rw [horder] at hnodup hatP hatF
        obtain ⟨-, -, hdisjoint⟩ := List.nodup_append.mp hnodup
        have hearly : i < before.length := by
          by_contra hlate
          rw [List.getElem?_append_right (by omega)] at hatP
          exact hdisjoint P (hafter P hcalls) P (List.mem_of_getElem? hatP) rfl
        have hlate : before.length ≤ j := by
          by_contra hearly
          rw [List.getElem?_append_left (by omega)] at hatF
          exact hdisjoint F (List.mem_of_getElem? hatF) F List.mem_cons_self rfl
        omega
    · by_contra hcycle
      exact hinv.apart F hF (htogether F hcycle)

end Order

/-- In the collected graph a function calls another if main reaches it and its body does. -/
theorem FnGraph.Describes.calls_iff {program : Program Fn} {main : Fn} {order : List Fn}
    {graph : FnGraph Fn} (h : graph.Describes program order)
    (horder : ∀ F, F ∈ order ↔ program.Reached main F) (P F : Fn) :
    graph.Calls P F ↔ program.Reached main P ∧ program.Calls P F := by
  unfold FnGraph.Calls
  by_cases hP : P ∈ order
  · rw [h.children P hP, Program.mem_callees, ← horder]
    exact (and_iff_right hP).symm
  · rw [h.others P hP, ← horder]
    simp [hP]

/-- Main reaches the same functions in the program and in the collected graph. -/
theorem FnGraph.Describes.reaches_iff {program : Program Fn} {main : Fn} {order : List Fn}
    {graph : FnGraph Fn} (h : graph.Describes program order)
    (horder : ∀ F, F ∈ order ↔ program.Reached main F) (F : Fn) :
    ReflTransGen graph.Calls main F ↔ program.Reached main F := by
  constructor
  · intro hreach
    induction hreach with
    | refl => exact .refl
    | tail _ hcall ih => exact ih.tail ((h.calls_iff horder _ _).mp hcall).2
  · intro hreach
    induction hreach with
    | refl => exact .refl
    | tail hbefore hcall ih => exact ih.tail ((h.calls_iff horder _ _).mpr ⟨hbefore, hcall⟩)

/-- The depth order of a program is computed, and ends with all functions numbered. -/
theorem exists_depth_order (program : Program Fn) (main : Fn) :
    ∃ done graph state, graph.Describes program done ∧
      (∀ F, F ∈ done ↔ program.Reached main F) ∧ OrderState.Finished graph main state ∧
      (∀ fuel ≥ program.functions.length, collectFnGraph program main fuel = some graph) ∧
      ∀ fuel ≥ program.functions.length,
        collectInDepthOrderFns graph main fuel = some state.toDepthOrder := by
  obtain ⟨done, graph, hgraph, hdone, hcollect⟩ := exists_collect_fn_graph program main
  obtain ⟨state, hfinished, hrun⟩ := (OrderState.order_inv_start graph main).exists_order_remaining
    program.mem_functions hgraph.parents program.functions.length (by simp [OrderState.start])
    (by simp [OrderState.start])
  refine ⟨done, graph, state, hgraph, hdone, hfinished, hcollect, fun fuel hfuel => ?_⟩
  unfold collectInDepthOrderFns
  rw [hrun fuel hfuel fuel hfuel]
  rfl

/-- The depth order is correct exactly when the callers of every function on no cycle are numbered
within the same releases. -/
theorem depth_order_correct_iff (program : Program Fn) (main : Fn) :
    ∃ graph order,
      (∀ fuel ≥ program.functions.length, collectFnGraph program main fuel = some graph) ∧
      (∀ fuel ≥ program.functions.length,
        collectInDepthOrderFns graph main fuel = some order) ∧
      (order.Correct graph main ↔
        ∀ F, ¬ TransGen graph.Calls F F → CallersTogether graph.Calls main F) := by
  obtain ⟨done, graph, state, hgraph, hdone, hfinished, hcollect, horder⟩ :=
    exists_depth_order program main
  exact ⟨graph, state.toDepthOrder, hcollect, horder, hfinished.correct_iff fun P F hcall =>
    (hgraph.reaches_iff hdone P).mpr ((hgraph.calls_iff hdone P F).mp hcall).1⟩

/-! ## A function shared with a recursion -/

/-- Main and two functions that call each other, with a function that main and one of them call. -/
inductive Shared where
  | main
  | even
  | odd
  | helper
  deriving DecidableEq

namespace Shared

/-- A call of a function. -/
def callTo (address : Nat) (F : Shared) : Inst Shared := ⟨address, true, some F⟩

/-- The bodies of the functions, each of one block. -/
def bodies : Bodies Shared
  | .main => [⟨0, [callTo 0 .helper, callTo 1 .even]⟩]
  | .even => [⟨1, [callTo 2 .odd]⟩]
  | .odd => [⟨2, [callTo 3 .even, callTo 4 .helper]⟩]
  | .helper => [⟨3, []⟩]

/-- The program. -/
def program : Program Shared where
  functions := [.main, .even, .odd, .helper]
  bodies := bodies
  callRecords F := (instructions (bodies F)).filter Inst.isCallInst
  mem_functions F := by cases F <;> decide
  nodup_functions := by decide
  nodup_instructions F := by cases F <;> decide
  mem_records F call := List.mem_filter

/-- Its call graph. -/
def graph : FnGraph Shared := (collectFnGraph program .main 4).get rfl

/-- Its depth order. -/
def order : DepthOrder Shared := (collectInDepthOrderFns graph .main 4).get rfl

/-- The helper calls nothing and is called by a function of the recursion, but it comes before it
and counts as the entrance of a recursive chain. -/
theorem helper_counts_as_entrance : collectFnGraph program .main 4 = some graph ∧
    collectInDepthOrderFns graph .main 4 = some order ∧
    order.depthOrderedFns = [.main, .helper, .even, .odd] ∧
    .helper ∈ order.recursiveChainEntranceFns ∧ ¬ order.Correct graph .main := by
  refine ⟨rfl, rfl, by decide, by decide, fun hcorrect => ?_⟩
  have hcycle := hcorrect.entrances .helper (by decide)
  obtain ⟨F, hcalls, -⟩ := TransGen.head'_iff.mp hcycle
  have hnone : graph.childrenFns .helper = [] := by decide
  unfold FnGraph.Calls at hcalls
  rw [hnone] at hcalls
  cases hcalls

end Shared

end Gino.Inliner
