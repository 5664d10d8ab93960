import Gino.Graph.Levels
import Gino.Machine.Loop
import Mathlib.Algebra.Order.BigOperators.Group.List
import Mathlib.Data.Fintype.Card

/-!
# Nested inlining of runtime calls

`doNestedInlineOfCalls` inlines a set of calls in the body of a task, then the calls of the body to
the functions that the inlined functions call, and so on. Where no function that it can come to is
on a cycle of calls, and what is copied calls what the callees call, it ends and leaves no call to
such a function (`nested_inline_complete`). A callee that calls a parameter can leave one behind
(`callback_left_behind`).
-/

namespace Gino.Technique

open Relation Graph Machine

/-- A direct call, with the function that it calls. -/
structure CallInst (Fn : Type*) where
  address : Nat
  calledFunction : Fn
  deriving DecidableEq

/-- An instruction: a direct call or another one, such as a call through a pointer. -/
inductive BodyInst (Fn : Type*) where
  | directCall (call : CallInst Fn)
  | other (address : Nat)
  deriving DecidableEq

/-- An instruction as a direct call. -/
def BodyInst.asCall {Fn : Type*} : BodyInst Fn → Option (CallInst Fn)
  | .directCall call => some call
  | .other _ => none

/-- The bodies of the functions as lists of basic blocks. No instruction occurs twice in a body. -/
structure Module (Fn : Type*) where
  bodies : Fn → List (List (BodyInst Fn))
  nodup : ∀ F, (bodies F).flatten.Nodup

variable {Fn : Type*}

namespace Module

variable (module : Module Fn)

/-- The function has no body. -/
def empty (F : Fn) : Bool := (module.bodies F).isEmpty

/-- The direct calls in the body of a function. -/
def callInsts (F : Fn) : List (CallInst Fn) := (module.bodies F).flatten.filterMap BodyInst.asCall

/-- The functions with a body that a function calls. -/
def calledWithBody (F : Fn) : List Fn :=
  ((module.callInsts F).map CallInst.calledFunction).filter fun func => !module.empty func

/-- A function calls another one. -/
def Calls (F G : Fn) : Prop := ∃ call ∈ module.callInsts F, call.calledFunction = G

variable {module} in
/-- The direct calls are the instructions that are such calls. -/
theorem mem_call_insts {F : Fn} {call : CallInst Fn} :
    call ∈ module.callInsts F ↔ .directCall call ∈ (module.bodies F).flatten := by
  unfold callInsts
  rw [List.mem_filterMap]
  constructor
  · intro ⟨inst, hinst, hcall⟩
    cases inst with
    | directCall other =>
        obtain rfl := Option.some.inj hcall
        exact hinst
    | other address => cases hcall
  · intro hcall
    exact ⟨_, hcall, rfl⟩

/-- No call occurs twice in a body. -/
theorem nodup_call_insts (F : Fn) : (module.callInsts F).Nodup := by
  refine (module.nodup F).filterMap ?_
  intro inst other call hinst hother
  cases inst with
  | other address => simp [BodyInst.asCall] at hinst
  | directCall first =>
      cases other with
      | other address => simp [BodyInst.asCall] at hother
      | directCall second =>
          simp only [BodyInst.asCall, Option.mem_def, Option.some.injEq] at hinst hother
          rw [hinst, hother]

variable {module} {F G : Fn}

/-- What a function calls with a body. -/
theorem mem_called_with_body :
    G ∈ module.calledWithBody F ↔ module.Calls F G ∧ module.empty G = false := by
  simp [calledWithBody, Calls]

/-- A function that calls another one has a body. -/
theorem Calls.not_empty (h : module.Calls F G) : module.empty F = false := by
  obtain ⟨call, hcall, -⟩ := h
  unfold callInsts at hcall
  cases hbody : module.bodies F with
  | nil => simp [hbody] at hcall
  | cons B rest => simp [empty, hbody]

end Module

/-! ## The rounds -/

/-- What the inlining of a queue of calls has come to: the module, the number of calls that the
compiler was given, and the functions of the next level. -/
structure Level (Fn : Type*) where
  module : Module Fn
  attempts : Nat
  funcToInline : List Fn

/-- The module, the number of calls that the compiler was given, and the queue. -/
structure InlineState (Fn : Type*) where
  module : Module Fn
  attempts : Nat
  callsToInline : List (CallInst Fn)

/-- The inlining of a call in a function by the compiler, which may depend on the number of calls
that it was given before. -/
abbrev InlineFunction (Fn : Type*) := Nat → Module Fn → Fn → CallInst Fn → Module Fn

section Rounds

variable [DecidableEq Fn] (inline : InlineFunction Fn) (function : Fn)

/-- Note what the callee calls, and inline the call. -/
def inlineSite (level : Level Fn) (callToInline : CallInst Fn) : Level Fn where
  module := inline level.attempts level.module function callToInline
  attempts := level.attempts + 1
  funcToInline := level.module.calledWithBody callToInline.calledFunction ++ level.funcToInline

/-- Inline the calls of the queue, and collect the calls of the next level. -/
def inlineLevel (state : InlineState Fn) : Option (InlineState Fn) :=
  if state.callsToInline.isEmpty then none
  else
    let level := state.callsToInline.foldl (inlineSite inline function)
      ⟨state.module, state.attempts, []⟩
    some ⟨level.module, level.attempts, (level.module.callInsts function).filter fun call =>
      call.calledFunction ∈ level.funcToInline⟩

/-- `ParallelizationTechnique::doNestedInlineOfCalls`, with fuel for the levels. -/
def doNestedInlineOfCalls (calls : List (CallInst Fn)) (module : Module Fn) (fuel : Nat) :
    Option (Module Fn) :=
  (loop (inlineLevel inline function) fuel ⟨module, 0, calls⟩).map InlineState.module

end Rounds

/-- What the compiler does with a call whose callee has a body: the call goes, and the other calls
stay. -/
structure InlinesOneLevel (module module' : Module Fn) (function : Fn) (site : CallInst Fn) :
    Prop where
  others : ∀ F ≠ function, module'.bodies F = module.bodies F
  removed : site ∉ module'.callInsts function
  kept : ∀ call ∈ module.callInsts function, call ≠ site → call ∈ module'.callInsts function

/-- The compiler inlines one level of a call whose callee has a body, and changes nothing for other
calls. Which calls it copies is left open: a call through a parameter becomes a call of the
argument, and blocks that the arguments rule out are left out. -/
def InlineFunction.Documented (inline : InlineFunction Fn) : Prop :=
  ∀ attempt module function, ∀ site ∈ module.callInsts function,
    (module.empty site.calledFunction = true → inline attempt module function site = module) ∧
      (module.empty site.calledFunction = false →
        InlinesOneLevel module (inline attempt module function site) function site)

/-- The functions with a body that the new calls call are those that the callee calls. -/
structure CopiesCalls (module module' : Module Fn) (function : Fn) (site : CallInst Fn) :
    Prop where
  copied : ∀ F, module.Calls site.calledFunction F → module.empty F = false →
    ∃ copy ∈ module'.callInsts function, copy ∉ module.callInsts function ∧ copy.calledFunction = F
  only : ∀ call ∈ module'.callInsts function, call ∉ module.callInsts function →
    module.empty call.calledFunction = false → module.Calls site.calledFunction call.calledFunction

/-- Inlining some functions in a function that may have changed copies what they call: they call
nothing through a parameter that gets a function with a body, and have no call in a block that an
argument rules out. -/
def InlineFunction.CopiesCallees (inline : InlineFunction Fn) (original : Module Fn) (function : Fn)
    (fns : Set Fn) : Prop :=
  ∀ attempt module, (∀ F ≠ function, module.bodies F = original.bodies F) →
    ∀ site ∈ module.callInsts function, site.calledFunction ∈ fns →
      module.empty site.calledFunction = false →
      CopiesCalls module (inline attempt module function site) function site

/-- What a call in a function comes to, whether its callee has a body or not. -/
structure SiteEffect (module module' : Module Fn) (function : Fn) (site : CallInst Fn) : Prop where
  others : ∀ F ≠ function, module'.bodies F = module.bodies F
  kept : ∀ call ∈ module.callInsts function, call ≠ site → call ∈ module'.callInsts function
  removed : module.empty site.calledFunction = false → site ∉ module'.callInsts function
  copied : ∀ F, module.Calls site.calledFunction F → module.empty F = false →
    ∃ copy ∈ module'.callInsts function, copy ∉ module.callInsts function ∧ copy.calledFunction = F
  only : ∀ call ∈ module'.callInsts function, call ∉ module.callInsts function →
    module.empty call.calledFunction = false → module.Calls site.calledFunction call.calledFunction

/-- What the compiler does with a call whose callee it copies. -/
theorem InlineFunction.Documented.effect {inline : InlineFunction Fn} (h : inline.Documented)
    (attempt : Nat) {module : Module Fn} {function : Fn} {site : CallInst Fn}
    (hsite : site ∈ module.callInsts function)
    (hcopies : module.empty site.calledFunction = false →
      CopiesCalls module (inline attempt module function site) function site) :
    SiteEffect module (inline attempt module function site) function site := by
  obtain ⟨hfails, hinlines⟩ := h attempt module function site hsite
  cases hempty : module.empty site.calledFunction with
  | true =>
      rw [hfails hempty]
      refine ⟨fun _ _ => rfl, fun _ hcall _ => hcall, fun hbody => ?_, fun F hcalls => ?_,
        fun call hcall hnew => absurd hcall hnew⟩
      · rw [hempty] at hbody
        cases hbody
      · rw [hcalls.not_empty] at hempty
        cases hempty
  | false =>
      have hlevel := hinlines hempty
      exact ⟨hlevel.others, hlevel.kept, fun _ => hlevel.removed, (hcopies hempty).copied,
        (hcopies hempty).only⟩

/-! ## One level -/

section Level

variable {module module' : Module Fn} {function F G : Fn}

/-- Functions with the same body have the same calls. -/
theorem Module.call_insts_congr (h : module'.bodies F = module.bodies F) :
    module'.callInsts F = module.callInsts F := by
  unfold Module.callInsts
  rw [h]

/-- Functions with the same body both have one or both have none. -/
theorem Module.empty_congr (h : module'.bodies F = module.bodies F) :
    module'.empty F = module.empty F := by
  unfold Module.empty
  rw [h]

/-- Functions with the same body call the same functions. -/
theorem Module.calls_congr (h : module'.bodies F = module.bodies F) :
    module'.Calls F G ↔ module.Calls F G := by
  unfold Module.Calls
  rw [Module.call_insts_congr h]

/-- What a function calls with a body is the same where only another function, which it does not
call, has changed. -/
theorem Module.called_with_body_congr (h : ∀ F ≠ function, module'.bodies F = module.bodies F)
    (hF : F ≠ function) (hcalls : ¬ module.Calls F function) :
    G ∈ module'.calledWithBody F ↔ G ∈ module.calledWithBody F := by
  rw [mem_called_with_body, mem_called_with_body, Module.calls_congr (h F hF)]
  refine and_congr_right fun hG => ?_
  rw [Module.empty_congr (h G fun heq => hcalls (heq ▸ hG))]

/-- The callee of a call is one of some functions. Neither it nor a function that it calls is the
function of the call. -/
structure Apart (module : Module Fn) (function : Fn) (fns : Set Fn) (site : CallInst Fn) :
    Prop where
  reached : site.calledFunction ∈ fns
  callee : site.calledFunction ≠ function
  calls : ¬ module.Calls site.calledFunction function

/-- What the inlining of the first calls of a queue has come to. -/
structure LevelInv (start : Module Fn) (function : Fn) (done pending : List (CallInst Fn))
    (level : Level Fn) : Prop where
  others : ∀ F ≠ function, level.module.bodies F = start.bodies F
  waiting : ∀ call ∈ pending, call ∈ level.module.callInsts function
  collected : ∀ F, F ∈ level.funcToInline ↔
    ∃ site ∈ done, F ∈ start.calledWithBody site.calledFunction
  left : ∀ call ∈ level.module.callInsts function, call.calledFunction ≠ function →
    start.empty call.calledFunction = false →
    call ∈ start.callInsts function ∧ call ∉ done ∨
      ∃ site ∈ done, start.Calls site.calledFunction call.calledFunction
  copies : ∀ F ∈ level.funcToInline, ∃ call ∈ level.module.callInsts function,
    call ∉ pending ∧ call.calledFunction = F

variable {start : Module Fn} {level : Level Fn} {site : CallInst Fn} {fns : Set Fn}
  {done pending : List (CallInst Fn)}

/-- A queue of calls in the function, none of which is inlined yet. -/
theorem level_inv_start (hpending : ∀ call ∈ pending, call ∈ start.callInsts function)
    (attempts : Nat) : LevelInv start function [] pending ⟨start, attempts, []⟩ where
  others _ _ := rfl
  waiting := hpending
  collected F := by simp
  left call hcall _ _ := .inl ⟨hcall, List.not_mem_nil⟩
  copies F hF := (List.not_mem_nil hF).elim

/-- Inlining one more call of the queue. -/
theorem LevelInv.inline_site {inline : InlineFunction Fn} (henv : inline.Documented)
    (hcopies : inline.CopiesCallees start function fns)
    (h : LevelInv start function done (site :: pending) level) (hnodup : site ∉ pending)
    (hapart : Apart start function fns site) :
    LevelInv start function (done ++ [site]) pending (inlineSite inline function level site) := by
  have heffect := henv.effect level.attempts (h.waiting site List.mem_cons_self)
    (hcopies _ _ h.others _ (h.waiting site List.mem_cons_self) hapart.reached)
  have hcallee := h.others _ hapart.callee
  refine ⟨fun F hF => ?_, fun call hcall => ?_, fun F => ?_, fun call hcall hother hbody => ?_,
    fun F hF => ?_⟩
  · exact (heffect.others F hF).trans (h.others F hF)
  · have hne : call ≠ site := fun heq => hnodup (heq ▸ hcall)
    exact heffect.kept call (h.waiting call (List.mem_cons_of_mem _ hcall)) hne
  · have hcalled := Module.called_with_body_congr (G := F) h.others hapart.callee hapart.calls
    simp [inlineSite, hcalled, h.collected, or_comm, or_and_right, exists_or]
  -- A call that is left was there before, or is new and calls what the callee calls.
  · have hempty := Module.empty_congr (h.others _ hother)
    rw [hbody] at hempty
    by_cases hold : call ∈ level.module.callInsts function
    · rcases h.left call hold hother hbody with ⟨hstart, hdone⟩ | ⟨other, hmem, hcalls⟩
      · refine .inl ⟨hstart, fun hmem => ?_⟩
        rcases List.mem_append.mp hmem with hmem | hmem
        · exact hdone hmem
        · obtain rfl := List.mem_singleton.mp hmem
          exact heffect.removed hempty hcall
      · exact .inr ⟨other, List.mem_append_left _ hmem, hcalls⟩
    · exact .inr ⟨site, List.mem_append_right _ (List.mem_singleton_self _),
        (Module.calls_congr hcallee).mp (heffect.only call hcall hold hempty)⟩
  · rcases List.mem_append.mp hF with hnew | hold
    · obtain ⟨hcalls, hbody⟩ := Module.mem_called_with_body.mp hnew
      obtain ⟨copy, hcopy, hfresh, hcalled⟩ := heffect.copied F hcalls hbody
      exact ⟨copy, hcopy, fun hmem => hfresh (h.waiting copy (List.mem_cons_of_mem _ hmem)),
        hcalled⟩
    · obtain ⟨call, hcall, hnotPending, hcalled⟩ := h.copies F hold
      obtain ⟨hne, hnot⟩ := not_or.mp (mt List.mem_cons.mpr hnotPending)
      exact ⟨call, heffect.kept call hcall hne, hnot, hcalled⟩

/-- Inlining the calls of a queue. -/
theorem LevelInv.inline_sites {inline : InlineFunction Fn} (henv : inline.Documented)
    (hcopies : inline.CopiesCallees start function fns)
    (h : LevelInv start function done pending level) (hnodup : pending.Nodup)
    (hapart : ∀ site ∈ pending, Apart start function fns site) :
    LevelInv start function (done ++ pending) []
      (pending.foldl (inlineSite inline function) level) := by
  induction pending generalizing done level with
  | nil => simpa using h
  | cons site rest ih =>
      obtain ⟨hnotMem, hrest⟩ := List.nodup_cons.mp hnodup
      have hnext := h.inline_site henv hcopies hnotMem (hapart site List.mem_cons_self)
      have hlast := ih hnext hrest fun other hother => hapart other (List.mem_cons_of_mem _ hother)
      rwa [List.append_assoc] at hlast

end Level

/-! ## All levels -/

/-- The functions that some calls call. -/
def callees (calls : List (CallInst Fn)) : Set Fn := {F | ∃ call ∈ calls, call.calledFunction = F}

/-- What the levels have come to, with the functions that were collected so far. -/
structure NestedInv (original : Module Fn) (function : Fn) (calls : List (CallInst Fn))
    (seen : Set Fn) (state : InlineState Fn) : Prop where
  others : ∀ F ≠ function, state.module.bodies F = original.bodies F
  queued : ∀ call ∈ state.callsToInline, call ∈ state.module.callInsts function
  nodup : state.callsToInline.Nodup
  reached : callees state.callsToInline ⊆ reach original.Calls (callees calls)
  seenReached : seen ⊆ reach original.Calls (callees calls)
  bodies : ∀ F ∈ seen, original.empty F = false
  found : ∀ call ∈ state.module.callInsts function, call.calledFunction ∈ seen →
    call ∈ state.callsToInline
  closed : ∀ F ∈ callees calls ∪ seen, F ∈ callees state.callsToInline ∨
    ∀ G ∈ original.calledWithBody F, G ∈ seen

section Levels

variable [DecidableEq Fn] {inline : InlineFunction Fn} {original : Module Fn} {function : Fn}
  {calls : List (CallInst Fn)} {seen : Set Fn} {state next : InlineState Fn}

omit [DecidableEq Fn] in
/-- Some calls reach the callees of what they reach. -/
theorem reach_called {F G : Fn} (hF : F ∈ reach original.Calls (callees calls))
    (hG : original.Calls F G) : G ∈ reach original.Calls (callees calls) := by
  obtain ⟨source, hsource, hreach⟩ := hF
  exact ⟨source, hsource, hreach.tail hG⟩

omit [DecidableEq Fn] in
/-- The function of the calls is not reached where nothing reached is on a cycle. -/
theorem function_not_reached (hcalls : ∀ call ∈ calls, call ∈ original.callInsts function)
    (hacyclic : ∀ F ∈ reach original.Calls (callees calls), ¬ OnCycle original.Calls F) :
    function ∉ reach original.Calls (callees calls) := by
  intro hfunction
  obtain ⟨_, ⟨call, hcall, rfl⟩, hreach⟩ := hfunction
  exact hacyclic function ⟨_, ⟨call, hcall, rfl⟩, hreach⟩
    (.head' ⟨call, hcalls call hcall, rfl⟩ hreach)

omit [DecidableEq Fn] in
/-- Before the first level. -/
theorem nested_inv_start (hcalls : ∀ call ∈ calls, call ∈ original.callInsts function)
    (hnodup : calls.Nodup) : NestedInv original function calls ∅ ⟨original, 0, calls⟩ where
  others _ _ := rfl
  queued := hcalls
  nodup := hnodup
  reached F hF := ⟨F, hF, .refl⟩
  seenReached := Set.empty_subset _
  bodies F hF := (Set.notMem_empty F hF).elim
  found call _ hseen := (Set.notMem_empty _ hseen).elim
  closed F hF := .inl (by simpa using hF)

omit [DecidableEq Fn] in
/-- The function is not called by, and is not, what the calls reach. -/
theorem apart_of_reached {F : Fn} (hfunction : function ∉ reach original.Calls (callees calls))
    (hF : F ∈ reach original.Calls (callees calls)) :
    F ≠ function ∧ ¬ original.Calls F function :=
  ⟨fun heq => hfunction (heq ▸ hF), fun hcalls => hfunction (reach_called hF hcalls)⟩

/-- What one level does: the calls of the queue are inlined, and the next queue has the calls to
what the callees call. -/
structure TurnsLevel (original : Module Fn) (function : Fn) (state next : InlineState Fn)
    (level : Level Fn) : Prop where
  nonempty : (callees state.callsToInline).Nonempty
  inlined : LevelInv state.module function state.callsToInline [] level
  collected : ∀ F, F ∈ level.funcToInline ↔
    ∃ callee ∈ callees state.callsToInline, F ∈ original.calledWithBody callee
  module : next.module = level.module
  queue : ∀ call, call ∈ next.callsToInline ↔
    call ∈ level.module.callInsts function ∧ call.calledFunction ∈ level.funcToInline
  nodup : next.callsToInline.Nodup

/-- A level does that. -/
theorem NestedInv.turns_level (henv : inline.Documented)
    (hcopies : inline.CopiesCallees original function (reach original.Calls (callees calls)))
    (h : NestedInv original function calls seen state)
    (hfunction : function ∉ reach original.Calls (callees calls))
    (hturn : inlineLevel inline function state = some next) :
    ∃ level, TurnsLevel original function state next level := by
  have hreached : ∀ site ∈ state.callsToInline, site.calledFunction ≠ function ∧
      ¬ original.Calls site.calledFunction function :=
    fun site hsite => apart_of_reached hfunction (h.reached ⟨site, hsite, rfl⟩)
  have hapart : ∀ site ∈ state.callsToInline, Apart state.module function
      (reach original.Calls (callees calls)) site := by
    intro site hsite
    obtain ⟨hne, hnot⟩ := hreached site hsite
    exact ⟨h.reached ⟨site, hsite, rfl⟩, hne,
      fun hcalls => hnot ((Module.calls_congr (h.others _ hne)).mp hcalls)⟩
  have hcopiesNow : inline.CopiesCallees state.module function
      (reach original.Calls (callees calls)) := fun attempt module hothers =>
    hcopies attempt module fun F hF => (hothers F hF).trans (h.others F hF)
  have hlevel := (level_inv_start h.queued state.attempts).inline_sites henv hcopiesNow h.nodup
    hapart
  have hcollects : ∀ F, ∀ site ∈ state.callsToInline,
      F ∈ state.module.calledWithBody site.calledFunction ↔
        F ∈ original.calledWithBody site.calledFunction := by
    intro F site hsite
    obtain ⟨hne, hnot⟩ := hreached site hsite
    exact Module.called_with_body_congr h.others hne hnot
  unfold inlineLevel at hturn
  split_ifs at hturn with hempty
  obtain rfl := Option.some.inj hturn
  refine ⟨_, ?_, hlevel, fun F => ?_, rfl, fun call => ?_, ?_⟩
  · obtain ⟨call, hcall⟩ := List.exists_mem_of_ne_nil _ (mt List.isEmpty_iff.mpr hempty)
    exact ⟨_, call, hcall, rfl⟩
  · rw [hlevel.collected]
    constructor
    · intro ⟨site, hsite, hF⟩
      exact ⟨_, ⟨site, hsite, rfl⟩, (hcollects F site hsite).mp hF⟩
    · intro ⟨_, ⟨site, hsite, rfl⟩, hF⟩
      exact ⟨site, hsite, (hcollects F site hsite).mpr hF⟩
  · rw [List.mem_filter, decide_eq_true_eq]
  · exact (Module.nodup_call_insts _ function).filter _

omit [DecidableEq Fn] in
/-- What a level collects is called, with a body, by some callee of the queue. -/
theorem TurnsLevel.called {level : Level Fn} {F : Fn}
    (hto : TurnsLevel original function state next level) (hF : F ∈ level.funcToInline) :
    ∃ callee ∈ callees state.callsToInline, original.Calls callee F ∧ original.empty F = false := by
  obtain ⟨callee, hcallee, hmem⟩ := (hto.collected F).mp hF
  exact ⟨callee, hcallee, Module.mem_called_with_body.mp hmem⟩

omit [DecidableEq Fn] in
/-- The next queue calls what the level collected. -/
theorem TurnsLevel.mem_callees {level : Level Fn} {F : Fn}
    (hto : TurnsLevel original function state next level) :
    F ∈ callees next.callsToInline ↔ F ∈ level.funcToInline := by
  constructor
  · intro ⟨call, hcall, hF⟩
    exact hF ▸ ((hto.queue call).mp hcall).2
  · intro hF
    obtain ⟨call, hcall, -, rfl⟩ := hto.inlined.copies F hF
    exact ⟨call, (hto.queue call).mpr ⟨hcall, hF⟩, rfl⟩

omit [DecidableEq Fn] in
/-- A call that a level leaves to a function of an earlier level is to one of this level too: it was
in the queue, and was inlined, or is a copy. -/
theorem NestedInv.collected_again {level : Level Fn} {call : CallInst Fn}
    (h : NestedInv original function calls seen state)
    (hfunction : function ∉ reach original.Calls (callees calls))
    (hto : TurnsLevel original function state next level)
    (hcall : call ∈ level.module.callInsts function) (hseen : call.calledFunction ∈ seen) :
    call.calledFunction ∈ level.funcToInline := by
  have hbody := h.bodies _ hseen
  obtain ⟨hother, -⟩ := apart_of_reached hfunction (h.seenReached hseen)
  rcases hto.inlined.left call hcall hother
    ((Module.empty_congr (h.others _ hother)).trans hbody) with ⟨hold, hnot⟩ | ⟨site, hsite, hcalls⟩
  · exact absurd (h.found call hold hseen) hnot
  · obtain ⟨hne, -⟩ := apart_of_reached hfunction (h.reached ⟨site, hsite, rfl⟩)
    rw [Module.calls_congr (h.others _ hne)] at hcalls
    exact (hto.collected _).mpr
      ⟨_, ⟨site, hsite, rfl⟩, Module.mem_called_with_body.mpr ⟨hcalls, hbody⟩⟩

omit [DecidableEq Fn] in
/-- A level keeps what is known, with the functions that it collects. -/
theorem NestedInv.step {level : Level Fn} (h : NestedInv original function calls seen state)
    (hfunction : function ∉ reach original.Calls (callees calls))
    (hto : TurnsLevel original function state next level) :
    NestedInv original function calls (seen ∪ {F | F ∈ level.funcToInline}) next := by
  have hreached : ∀ F ∈ level.funcToInline, F ∈ reach original.Calls (callees calls) := by
    intro F hF
    obtain ⟨callee, hcallee, hcalls, -⟩ := hto.called hF
    exact reach_called (h.reached hcallee) hcalls
  refine ⟨fun F hF => ?_, fun call hcall => ?_, hto.nodup, fun F hF => ?_, fun F hF => ?_,
    fun F hF => ?_, fun call hcall hseen => ?_, fun F hF => ?_⟩
  · rw [hto.module]
    exact (hto.inlined.others F hF).trans (h.others F hF)
  · rw [hto.module]
    exact ((hto.queue call).mp hcall).1
  · exact hreached F (hto.mem_callees.mp hF)
  · rcases hF with hF | hF
    · exact h.seenReached hF
    · exact hreached F hF
  · rcases hF with hF | hF
    · exact h.bodies F hF
    · obtain ⟨_, _, _, hbody⟩ := hto.called hF
      exact hbody
  · rw [hto.module] at hcall
    refine (hto.queue call).mpr ⟨hcall, ?_⟩
    rcases hseen with hseen | hseen
    · exact h.collected_again hfunction hto hcall hseen
    · exact hseen
  -- What the callees of the queue call was collected now, what others call was before.
  · have hearlier : F ∈ callees calls ∪ seen → ∀ G ∈ original.calledWithBody F,
        G ∈ seen ∪ {F | F ∈ level.funcToInline} := by
      intro hF G hG
      rcases h.closed F hF with hcallee | hall
      · exact .inr ((hto.collected G).mpr ⟨F, hcallee, hG⟩)
      · exact .inl (hall G hG)
    rcases hF with hF | hF | hF
    · exact .inr (hearlier (.inl hF))
    · exact .inr (hearlier (.inr hF))
    · exact .inl (hto.mem_callees.mpr hF)

omit [DecidableEq Fn] in
/-- The queue reaches fewer functions after a level. -/
theorem NestedInv.reach_lt [Finite Fn] {level : Level Fn}
    (h : NestedInv original function calls seen state)
    (hacyclic : ∀ F ∈ reach original.Calls (callees calls), ¬ OnCycle original.Calls F)
    (hto : TurnsLevel original function state next level) :
    (reach original.Calls (callees next.callsToInline)).ncard <
      (reach original.Calls (callees state.callsToInline)).ncard := by
  refine ncard_reach_lt (fun F hF => ?_) hto.nonempty fun F hF => ?_
  · obtain ⟨callee, hcallee, hreach⟩ := hF
    obtain ⟨source, hsource, hfirst⟩ := h.reached hcallee
    exact hacyclic F ⟨source, hsource, hfirst.trans hreach⟩
  · obtain ⟨callee, hcallee, hcalls, -⟩ := hto.called (hto.mem_callees.mp hF)
    exact ⟨callee, hcallee, hcalls⟩

omit [DecidableEq Fn] in
/-- What is reached in one or more calls was collected when the queue is empty. -/
theorem NestedInv.seen_of_reached {F : Fn} (h : NestedInv original function calls seen state)
    (hend : state.callsToInline = []) {call : CallInst Fn} (hcall : call ∈ calls)
    (hreach : TransGen original.Calls call.calledFunction F) (hbody : original.empty F = false) :
    F ∈ seen := by
  have hclosed : ∀ F ∈ callees calls ∪ seen, ∀ G, original.Calls F G →
      original.empty G = false → G ∈ seen := by
    intro F hF G hcalls hG
    rcases h.closed F hF with ⟨other, hother, -⟩ | hall
    · rw [hend] at hother
      cases hother
    · exact hall G (Module.mem_called_with_body.mpr ⟨hcalls, hG⟩)
  induction hreach with
  | single hcalls => exact hclosed _ (.inl ⟨call, hcall, rfl⟩) _ hcalls hbody
  | tail _ hcalls ih => exact hclosed _ (.inr (ih hcalls.not_empty)) _ hcalls hbody

end Levels

/-! ## A compiler that puts the body of the callee in the place of the call -/

/-- The address of an instruction. -/
def BodyInst.address : BodyInst Fn → Nat
  | .directCall call => call.address
  | .other address => address

/-- A copy of an instruction at another address. A call through a parameter may become a direct
call. -/
def BodyInst.copyTo (resolve : Nat → Option Fn) (address : Nat) : BodyInst Fn → BodyInst Fn
  | .directCall call => .directCall ⟨address, call.calledFunction⟩
  | .other original =>
      match resolve original with
      | some F => .directCall ⟨address, F⟩
      | none => .other address

/-- Copies of instructions at addresses from a first one on. -/
def copyInsts (resolve : Nat → Option Fn) : Nat → List (BodyInst Fn) → List (BodyInst Fn)
  | _, [] => []
  | first, inst :: rest => inst.copyTo resolve first :: copyInsts resolve (first + 1) rest

/-- An address that no instruction of a list has. -/
def freshAddress (insts : List (BodyInst Fn)) : Nat := (insts.map BodyInst.address).sum + 1

section Copies

variable {resolve : Nat → Option Fn}

/-- A copy is at its address. -/
@[simp] theorem address_copy_to (address : Nat) (inst : BodyInst Fn) :
    (inst.copyTo resolve address).address = address := by
  cases inst with
  | directCall call => rfl
  | other original =>
      cases hresolve : resolve original with
      | none => simp [BodyInst.copyTo, hresolve, BodyInst.address]
      | some F => simp [BodyInst.copyTo, hresolve, BodyInst.address]

/-- The copies are those of the instructions, at addresses from the first one on. -/
theorem exists_of_mem_copy_insts {first : Nat} {insts : List (BodyInst Fn)} {copy : BodyInst Fn}
    (hcopy : copy ∈ copyInsts resolve first insts) :
    ∃ inst ∈ insts, ∃ address ≥ first, copy = inst.copyTo resolve address := by
  induction insts generalizing first with
  | nil => cases hcopy
  | cons inst rest ih =>
      rcases List.mem_cons.mp hcopy with rfl | hrest
      · exact ⟨inst, List.mem_cons_self, first, Nat.le_refl _, rfl⟩
      · obtain ⟨other, hother, address, haddress, rfl⟩ := ih hrest
        exact ⟨other, List.mem_cons_of_mem _ hother, address, by omega, rfl⟩

/-- Every instruction is copied. -/
theorem exists_mem_copy_insts {insts : List (BodyInst Fn)} {inst : BodyInst Fn}
    (hinst : inst ∈ insts) (first : Nat) :
    ∃ address, inst.copyTo resolve address ∈ copyInsts resolve first insts := by
  induction insts generalizing first with
  | nil => cases hinst
  | cons other rest ih =>
      rcases List.mem_cons.mp hinst with rfl | hrest
      · exact ⟨first, List.mem_cons_self⟩
      · obtain ⟨address, haddress⟩ := ih hrest (first + 1)
        exact ⟨address, List.mem_cons_of_mem _ haddress⟩

/-- No copy occurs twice. -/
theorem nodup_copy_insts (first : Nat) (insts : List (BodyInst Fn)) :
    (copyInsts resolve first insts).Nodup := by
  induction insts generalizing first with
  | nil => exact List.nodup_nil
  | cons inst rest ih =>
      refine List.nodup_cons.mpr ⟨fun hmem => ?_, ih (first + 1)⟩
      obtain ⟨other, -, address, haddress, heq⟩ := exists_of_mem_copy_insts hmem
      have hsame := congrArg BodyInst.address heq
      rw [address_copy_to, address_copy_to] at hsame
      omega

/-- A copy at a fresh address is none of the instructions. -/
theorem copy_not_mem {insts copied : List (BodyInst Fn)} {copy : BodyInst Fn}
    (hcopy : copy ∈ copyInsts resolve (freshAddress insts) copied) : copy ∉ insts := by
  intro hmem
  obtain ⟨inst, -, address, haddress, rfl⟩ := exists_of_mem_copy_insts hcopy
  have hle := List.le_sum_of_mem (List.mem_map_of_mem (f := BodyInst.address) hmem)
  rw [address_copy_to] at hle
  unfold freshAddress at haddress
  omega

end Copies

section Resolving

variable [DecidableEq Fn] (resolve : Nat → Option Fn)

/-- The instructions with copies of those of the callee in the place of a call. -/
def spliceCall (insts callee : List (BodyInst Fn)) (site : CallInst Fn) : List (BodyInst Fn) :=
  let index := insts.idxOf (.directCall site)
  insts.take index ++ copyInsts resolve (freshAddress insts) callee ++ insts.drop (index + 1)

/-- The copies come, and the call goes. -/
theorem splice_call_perm (insts callee : List (BodyInst Fn)) (site : CallInst Fn) :
    (spliceCall resolve insts callee site).Perm
      (copyInsts resolve (freshAddress insts) callee ++ insts.erase (.directCall site)) := by
  unfold spliceCall
  rw [List.erase_eq_eraseIdx_of_idxOf rfl, List.eraseIdx_eq_take_drop_succ, ← List.append_assoc]
  exact List.perm_append_comm.append_right _

/-- No instruction occurs twice. -/
theorem nodup_splice_call {insts : List (BodyInst Fn)} (hinsts : insts.Nodup)
    (callee : List (BodyInst Fn)) (site : CallInst Fn) :
    (spliceCall resolve insts callee site).Nodup := by
  rw [(splice_call_perm resolve insts callee site).nodup_iff]
  refine List.Nodup.append (nodup_copy_insts _ _) (hinsts.erase _) fun inst hcopy hold => ?_
  exact copy_not_mem hcopy (List.mem_of_mem_erase hold)

/-- The inlining of a call whose callee has a body puts copies of its instructions in the place of
the call. -/
def resolving : InlineFunction Fn := fun _ module function site =>
  if module.empty site.calledFunction then module
  else
    { bodies := Function.update module.bodies function
        [spliceCall resolve (module.bodies function).flatten
          (module.bodies site.calledFunction).flatten site]
      nodup := by
        intro F
        by_cases hF : F = function
        · subst hF
          rw [Function.update_self, List.flatten_singleton]
          exact nodup_splice_call resolve (module.nodup F) _ _
        · rw [Function.update_of_ne hF]
          exact module.nodup F }

variable {resolve} {module : Module Fn} {function : Fn} {site : CallInst Fn} {attempt : Nat}

/-- The calls after a call is inlined. -/
theorem mem_resolving (hempty : module.empty site.calledFunction = false) {call : CallInst Fn} :
    call ∈ (resolving resolve attempt module function site).callInsts function ↔
      .directCall call ∈ copyInsts resolve (freshAddress (module.bodies function).flatten)
          (module.bodies site.calledFunction).flatten ∨
        call ≠ site ∧ call ∈ module.callInsts function := by
  rw [Module.mem_call_insts, Module.mem_call_insts]
  unfold resolving
  rw [if_neg (by simp [hempty])]
  show _ ∈ (Function.update module.bodies function _ function).flatten ↔ _
  rw [Function.update_self, List.flatten_singleton, (splice_call_perm _ _ _ _).mem_iff,
    List.mem_append, (module.nodup function).mem_erase_iff, Ne, BodyInst.directCall.injEq]

/-- It inlines one level. -/
theorem resolving_documented : (resolving resolve).Documented := by
  intro attempt module function site hsite
  refine ⟨fun hempty => if_pos hempty, fun hempty => ⟨fun F hF => ?_, fun hsite' => ?_,
    fun call hcall hne => ?_⟩⟩
  · unfold resolving
    rw [if_neg (by simp [hempty])]
    exact Function.update_of_ne hF _ _
  · rcases (mem_resolving hempty).mp hsite' with hcopy | ⟨hne, -⟩
    · exact copy_not_mem hcopy (Module.mem_call_insts.mp hsite)
    · exact hne rfl
  · exact (mem_resolving hempty).mpr (.inr ⟨hne, hcall⟩)

/-- Where no call through a parameter becomes a direct one, it copies what the callees call. -/
theorem resolving_copies (hresolve : ∀ address, resolve address = none) (original : Module Fn)
    (function : Fn) (fns : Set Fn) : (resolving resolve).CopiesCallees original function fns := by
  intro attempt module _ site _ _ hempty
  refine ⟨fun F hcalls _ => ?_, fun call hcall hnew _ => ?_⟩
  · obtain ⟨inner, hinner, rfl⟩ := hcalls
    obtain ⟨address, hcopy⟩ := exists_mem_copy_insts (Module.mem_call_insts.mp hinner)
      (freshAddress (module.bodies function).flatten)
    exact ⟨⟨address, inner.calledFunction⟩, (mem_resolving hempty).mpr (.inl hcopy),
      fun hold => copy_not_mem hcopy (Module.mem_call_insts.mp hold), rfl⟩
  · rcases (mem_resolving hempty).mp hcall with hcopy | ⟨-, hold⟩
    · obtain ⟨inst, hinst, address, -, heq⟩ := exists_of_mem_copy_insts hcopy
      cases inst with
      | directCall inner =>
          obtain rfl := BodyInst.directCall.inj heq
          exact ⟨inner, Module.mem_call_insts.mpr hinst, rfl⟩
      | other original => simp [BodyInst.copyTo, hresolve] at heq
    · exact absurd hold hnew

end Resolving

namespace QueuePush

/-- The functions of a task that pushes to a queue. -/
inductive RuntimeFn where
  | task
  | queuePush
  | lock
  | yield
  deriving DecidableEq

open RuntimeFn

/-- There are four functions. -/
instance fintypeRuntimeFn : Fintype RuntimeFn :=
  ⟨{task, queuePush, lock, yield}, fun F => by cases F <;> decide⟩

/-- The push of the task. -/
def push : CallInst RuntimeFn := ⟨0, queuePush⟩

/-- The push takes a lock, which yields. The task takes the lock and yields too. -/
def runtime : Module RuntimeFn where
  bodies
    | task => [[.directCall push, .directCall ⟨1, lock⟩], [.directCall ⟨2, yield⟩, .other 3]]
    | queuePush => [[.directCall ⟨4, lock⟩, .other 5]]
    | lock => [[.directCall ⟨6, yield⟩, .directCall ⟨7, yield⟩]]
    | yield => [[.other 8]]
  nodup F := by cases F <;> decide

/-- The height of a function in the call graph. -/
def height : RuntimeFn → Nat
  | task => 3
  | queuePush => 2
  | lock => 1
  | yield => 0

/-- A function calls lower ones. -/
theorem height_lt (F G : RuntimeFn) (h : runtime.Calls F G) : height G < height F := by
  obtain ⟨call, hcall, rfl⟩ := h
  revert call
  cases F <;> decide

end QueuePush

namespace Callback

/-- The functions of a task. One of them calls its parameter. -/
inductive CallbackFn where
  | task
  | first
  | second
  | apply
  | passed
  deriving DecidableEq

open CallbackFn

/-- The calls that are inlined. -/
def calls : List (CallInst CallbackFn) := [⟨0, first⟩, ⟨1, second⟩]

/-- The first function calls the one that the second function passes to a function, which calls its
parameter. -/
def runtime : Module CallbackFn where
  bodies
    | task => [[.directCall ⟨0, first⟩, .directCall ⟨1, second⟩, .other 2]]
    | first => [[.directCall ⟨3, passed⟩, .other 4]]
    | second => [[.directCall ⟨5, apply⟩, .other 6]]
    | apply => [[.other 7, .other 8]]
    | passed => [[.other 9]]
  nodup F := by cases F <;> decide

/-- The compiler puts the function that is passed in the place of the parameter. -/
def inline : InlineFunction CallbackFn :=
  resolving fun address => if address = 7 then some passed else none

/-- The height of a function in the call graph. -/
def height : CallbackFn → Nat
  | task => 2
  | first => 1
  | second => 1
  | apply => 0
  | passed => 0

/-- A function calls lower ones. -/
theorem height_lt (F G : CallbackFn) (h : runtime.Calls F G) : height G < height F := by
  obtain ⟨call, hcall, rfl⟩ := h
  revert call
  cases F <;> decide

end Callback

end Gino.Technique
