import Gino.Inliner.CallGraph
import Gino.Machine.Splice

/-!
# The loops of a function in program order

When a call is inlined, the loops of the callee become loops of the caller.
`Inliner::getNextPreorderLoopAfter` finds where they belong in the list of the caller, and
`Inliner::adjustLoopOrdersAfterInline` inserts them there. The search takes the first block after
the call for the header of the first loop when it is no header, so that the list keeps its order
only in the cases of `loop_order_kept_iff`.
-/

namespace Gino.Inliner

open Machine

/-- The structure of a loop. -/
structure LoopStructure where
  address : Nat
  header : Nat
  deriving DecidableEq

/-- The lists of loops, for the functions that have one. -/
abbrev LoopLists (Fn : Type) := Fn → Option (List LoopStructure)

variable {Fn : Type} [DecidableEq Fn]

/-- The index of the loop with the block as its header. -/
def getSummaryIfHeader (summaries : List LoopStructure) (BB : BasicBlock Fn) : Int :=
  match summaries.findIdx? fun summary => summary.header = BB.address with
  | some i => i
  | none => 0

/-- The index of the first loop with a header among blocks. -/
def searchNextHeader (summaries : List LoopStructure) : List (BasicBlock Fn) → Int
  | [] => 0
  | BB :: rest =>
      let sInd := getSummaryIfHeader summaries BB
      if sInd ≠ -1 then sInd else searchNextHeader summaries rest

/-- The blocks after the one with the call. -/
def blocksAfter (call : Inst Fn) (blocks : List (BasicBlock Fn)) : List (BasicBlock Fn) :=
  (blocks.dropWhile fun B => call ∉ B.insts).tail

/-- The index in the list of the function of the loop after a call. -/
def getNextPreorderLoopAfter (preOrderedLoops : LoopLists Fn) (F : Fn)
    (blocks : List (BasicBlock Fn)) (call : Inst Fn) : Int :=
  match preOrderedLoops F with
  | none => 0
  | some summaries => searchNextHeader summaries (blocksAfter call blocks)

/-- The lists of loops after a call from one function to another is inlined. -/
def adjustLoopOrdersAfterInline (preOrderedLoops : LoopLists Fn) (parentF childF : Fn)
    (nextLoopInd : Int) : LoopLists Fn :=
  match preOrderedLoops childF with
  | none => preOrderedLoops
  | some [] => preOrderedLoops
  | some (first :: rest) =>
      let parentLoops := (preOrderedLoops parentF).getD []
      Function.update preOrderedLoops parentF
        (some (spliceInPlace first nextLoopInd.toNat (first :: rest) parentLoops))

/-- The loops of a function. -/
def loopsOf (preOrderedLoops : LoopLists Fn) (F : Fn) : List LoopStructure :=
  (preOrderedLoops F).getD []

/-- The loops are in the order of their headers in the layout, and each block is the header of one
loop at most. -/
def InProgramOrder (blocks : List (BasicBlock Fn)) (loops : List LoopStructure) : Prop :=
  (blocks.map BasicBlock.address).Nodup ∧
    (loops.map LoopStructure.header).Sublist (blocks.map BasicBlock.address)

/-- The loops with a header among blocks. -/
def loopsAmong (blocks : List (BasicBlock Fn)) (loops : List LoopStructure) :
    List LoopStructure :=
  loops.filter fun loop => loop.header ∈ blocks.map BasicBlock.address

section ProgramOrder

omit [DecidableEq Fn]

variable {before after : List (BasicBlock Fn)} {loops : List LoopStructure}

/-- Loops with their headers among the blocks are all kept. -/
theorem loops_among_eq_self (h : ∀ loop ∈ loops, loop.header ∈ before.map BasicBlock.address) :
    loopsAmong before loops = loops :=
  List.filter_eq_self.mpr fun loop hloop => decide_eq_true (h loop hloop)

/-- Loops with their headers elsewhere are all left out. -/
theorem loops_among_eq_nil (h : ∀ loop ∈ loops, loop.header ∉ before.map BasicBlock.address) :
    loopsAmong before loops = [] :=
  List.filter_eq_nil_iff.mpr fun loop hloop hin => h loop hloop (of_decide_eq_true hin)

/-- The loops in program order are those with a header in the first part of the blocks, followed by
those with a header in the second. -/
theorem InProgramOrder.loops_among_append (h : InProgramOrder (before ++ after) loops) :
    loops = loopsAmong before loops ++ loopsAmong after loops ∧
      ((loopsAmong after loops).map LoopStructure.header).Sublist
        (after.map BasicBlock.address) := by
  obtain ⟨hnodup, hsub⟩ := h
  rw [List.map_append] at hnodup hsub
  obtain ⟨headers, headers', hheaders, hbefore, hafter⟩ := List.sublist_append_iff.mp hsub
  obtain ⟨first, second, rfl, rfl, rfl⟩ := List.map_eq_append_iff.mp hheaders
  have hdisjoint := (List.nodup_append.mp hnodup).2.2
  have hfirst : ∀ loop ∈ first, loop.header ∈ before.map BasicBlock.address := fun loop hloop =>
    hbefore.subset (List.mem_map_of_mem hloop)
  have hsecond : ∀ loop ∈ second, loop.header ∈ after.map BasicBlock.address := fun loop hloop =>
    hafter.subset (List.mem_map_of_mem hloop)
  have hloopsBefore : loopsAmong before (first ++ second) = first := by
    have hout : loopsAmong before second = [] := loops_among_eq_nil fun loop hloop hin =>
      hdisjoint _ hin _ (hsecond loop hloop) rfl
    rw [loopsAmong, List.filter_append, ← loopsAmong, ← loopsAmong, hout,
      loops_among_eq_self hfirst, List.append_nil]
  have hloopsAfter : loopsAmong after (first ++ second) = second := by
    have hout : loopsAmong after first = [] := loops_among_eq_nil fun loop hloop hin =>
      hdisjoint _ (hfirst loop hloop) _ hin rfl
    rw [loopsAmong, List.filter_append, ← loopsAmong, ← loopsAmong, hout,
      loops_among_eq_self hsecond, List.nil_append]
  rw [hloopsBefore, hloopsAfter]
  exact ⟨rfl, hafter⟩

/-- The search for the header looks at one block only, and takes the first loop if that block is no
header. -/
theorem search_next_header_cons (BB : BasicBlock Fn) (rest : List (BasicBlock Fn)) :
    searchNextHeader loops (BB :: rest) = getSummaryIfHeader loops BB := by
  unfold searchNextHeader
  have hfound : getSummaryIfHeader loops BB ≠ -1 := by
    unfold getSummaryIfHeader
    split
    · omega
    · omega
  dsimp only
  rw [if_pos hfound]

/-- A block that is no header gives the index of the first loop. -/
theorem get_summary_of_no_header {BB : BasicBlock Fn} (h : loopsAmong [BB] loops = []) :
    getSummaryIfHeader loops BB = 0 := by
  have hnone : (loops.findIdx? fun summary => decide (summary.header = BB.address)) = none := by
    rw [List.findIdx?_eq_none_iff]
    intro loop hloop
    have hout := List.filter_eq_nil_iff.mp h loop hloop
    simpa using hout
  unfold getSummaryIfHeader
  rw [hnone]

/-- The header that comes first among the blocks gives the number of the loops before. -/
theorem get_summary_of_header {BB : BasicBlock Fn}
    (h : InProgramOrder (before ++ BB :: after) loops) (hheader : loopsAmong [BB] loops ≠ []) :
    getSummaryIfHeader loops BB = (loopsAmong before loops).length := by
  obtain ⟨hsplit, hlater⟩ := h.loops_among_append
  obtain ⟨hnodup, -⟩ := h
  rw [List.map_append, List.nodup_append] at hnodup
  obtain ⟨-, hnodupAfter, hdisjoint⟩ := hnodup
  obtain ⟨loop, hloop⟩ := List.exists_mem_of_ne_nil _ hheader
  obtain ⟨hin, hat⟩ := List.mem_filter.mp hloop
  have hat : loop.header = BB.address := by simpa using hat
  have hout : ((loopsAmong before loops).findIdx? fun summary =>
      decide (summary.header = BB.address)) = none := by
    rw [List.findIdx?_eq_none_iff]
    intro other hother
    have hbefore := of_decide_eq_true (List.mem_filter.mp hother).2
    exact decide_eq_false fun heq => hdisjoint _ hbefore _ List.mem_cons_self heq
  -- The loop is the first one with a header from the block on.
  have hfirst : ∃ first rest, loopsAmong (BB :: after) loops = first :: rest ∧
      first.header = BB.address := by
    have hloop : loop ∈ loopsAmong (BB :: after) loops :=
      List.mem_filter.mpr ⟨hin, decide_eq_true (hat ▸ List.mem_cons_self)⟩
    cases hrest : loopsAmong (BB :: after) loops with
    | nil => simp [hrest] at hloop
    | cons first rest =>
        refine ⟨first, rest, rfl, ?_⟩
        rw [hrest] at hlater hloop
        rcases List.sublist_cons_iff.mp hlater with hskip | ⟨headers, heq, -⟩
        · have hagain := hskip.subset (List.mem_map_of_mem hloop)
          rw [hat] at hagain
          exact absurd hagain (List.nodup_cons.mp hnodupAfter).1
        · exact (List.cons.inj heq).1
  obtain ⟨first, rest, hafter, hheader⟩ := hfirst
  unfold getSummaryIfHeader
  rw [hsplit, List.findIdx?_append, ← hsplit, hout, hafter, List.findIdx?_cons,
    if_pos (decide_eq_true hheader)]
  simp

end ProgramOrder

/-- The lists after an inlining at an index of the list of the caller. -/
theorem loops_of_adjust {preOrderedLoops : LoopLists Fn} {parentF childF : Fn} {index : Nat}
    (hindex : index ≤ (loopsOf preOrderedLoops parentF).length) :
    loopsOf (adjustLoopOrdersAfterInline preOrderedLoops parentF childF index) parentF =
      (loopsOf preOrderedLoops parentF).take index ++ loopsOf preOrderedLoops childF ++
        (loopsOf preOrderedLoops parentF).drop index := by
  unfold adjustLoopOrdersAfterInline
  cases hchild : preOrderedLoops childF with
  | none => simp [loopsOf, hchild]
  | some childLoops =>
      cases childLoops with
      | nil => simp [loopsOf, hchild]
      | cons first rest =>
          have hupdate : loopsOf preOrderedLoops childF = first :: rest := by
            unfold loopsOf
            rw [hchild]
            rfl
          dsimp only
          rw [hupdate, ← splice_in_place_eq first hindex]
          unfold loopsOf
          rw [Function.update_self, Int.toNat_natCast]
          rfl

/-- The blocks after the first one with the call. -/
theorem blocks_after_eq {before after : List (BasicBlock Fn)} {B : BasicBlock Fn} {call : Inst Fn}
    (hcall : call ∈ B.insts) (hbefore : ∀ C ∈ before, call ∉ C.insts) :
    blocksAfter call (before ++ B :: after) = after := by
  unfold blocksAfter
  rw [List.dropWhile_append_of_pos fun C hC => decide_eq_true (hbefore C hC),
    List.dropWhile_cons_of_neg (by simpa using hcall), List.tail_cons]

section Caller

variable {preOrderedLoops : LoopLists Fn} {F callee : Fn} {call : Inst Fn}
  {before after : List (BasicBlock Fn)} {B : BasicBlock Fn}

/-- The block after the call is a header of a loop. -/
def HeaderFollows (after : List (BasicBlock Fn)) (loops : List LoopStructure) : Prop :=
  ∃ next ∈ after.head?, loopsAmong [next] loops ≠ []

/-- The index that is found: that of the loop whose header follows, or else the first. -/
theorem get_next_preorder_loop_after_eq (hcall : call ∈ B.insts)
    (hbefore : ∀ C ∈ before, call ∉ C.insts)
    (horder : InProgramOrder (before ++ B :: after) (loopsOf preOrderedLoops F)) :
    HeaderFollows after (loopsOf preOrderedLoops F) ∧
        getNextPreorderLoopAfter preOrderedLoops F (before ++ B :: after) call =
          (loopsAmong (before ++ [B]) (loopsOf preOrderedLoops F)).length ∨
      ¬ HeaderFollows after (loopsOf preOrderedLoops F) ∧
        getNextPreorderLoopAfter preOrderedLoops F (before ++ B :: after) call = 0 := by
  unfold getNextPreorderLoopAfter loopsOf at *
  rw [blocks_after_eq hcall hbefore]
  cases hloops : preOrderedLoops F with
  | none =>
      refine .inr ⟨?_, rfl⟩
      intro ⟨next, _, hheader⟩
      exact hheader rfl
  | some loops =>
      rw [hloops, Option.getD_some] at horder
      dsimp only [Option.getD_some]
      cases after with
      | nil =>
          refine .inr ⟨?_, rfl⟩
          intro ⟨next, hnext, _⟩
          cases hnext
      | cons next rest =>
          rw [search_next_header_cons]
          by_cases hheader : loopsAmong [next] loops = []
          · refine .inr ⟨?_, get_summary_of_no_header hheader⟩
            intro ⟨other, hother, hagain⟩
            cases hother
            exact hagain hheader
          · refine .inl ⟨⟨next, rfl, hheader⟩, ?_⟩
            rw [List.append_cons] at horder
            exact get_summary_of_header horder hheader

/-- The list of the caller keeps its program order exactly when the callee has no loops, the block
after the call is a header of a loop, or no loop starts at or before the call. -/
theorem loop_order_kept_iff (hcall : call ∈ B.insts) (hbefore : ∀ C ∈ before, call ∉ C.insts)
    (horder : InProgramOrder (before ++ B :: after) (loopsOf preOrderedLoops F))
    (hother : ∀ loop ∈ loopsOf preOrderedLoops callee,
      loop.header ∉ (before ++ B :: after).map BasicBlock.address) :
    loopsOf (adjustLoopOrdersAfterInline preOrderedLoops F callee
        (getNextPreorderLoopAfter preOrderedLoops F (before ++ B :: after) call)) F =
      loopsAmong (before ++ [B]) (loopsOf preOrderedLoops F) ++ loopsOf preOrderedLoops callee ++
        loopsAmong after (loopsOf preOrderedLoops F) ↔
    loopsOf preOrderedLoops callee = [] ∨ HeaderFollows after (loopsOf preOrderedLoops F) ∨
      loopsAmong (before ++ [B]) (loopsOf preOrderedLoops F) = [] := by
  have hsplit := (List.append_cons before B after ▸ horder).loops_among_append.1
  rcases get_next_preorder_loop_after_eq hcall hbefore horder with ⟨hnext, hindex⟩ | ⟨hnext, hindex⟩
  · have hlength : (loopsAmong (before ++ [B]) (loopsOf preOrderedLoops F)).length ≤
        (loopsOf preOrderedLoops F).length := List.length_filter_le _ _
    rw [hindex, loops_of_adjust hlength]
    refine iff_of_true ?_ (.inr (.inl hnext))
    generalize loopsAmong (before ++ [B]) (loopsOf preOrderedLoops F) = first at hsplit ⊢
    generalize loopsAmong after (loopsOf preOrderedLoops F) = second at hsplit ⊢
    rw [hsplit, List.take_left, List.drop_left]
  · have hadjust := @loops_of_adjust _ _ preOrderedLoops F callee 0 (Nat.zero_le _)
    rw [List.take_zero, List.nil_append, List.drop_zero] at hadjust
    rw [hindex, ← Int.natCast_zero, hadjust]
    constructor
    · intro hkept
      cases hcallee : loopsOf preOrderedLoops callee with
      | nil => exact .inl rfl
      | cons loop rest =>
          cases hearlier : loopsAmong (before ++ [B]) (loopsOf preOrderedLoops F) with
          | nil => exact .inr (.inr rfl)
          | cons first others =>
              -- The list would start with a loop of the callee and with one of the caller.
              rw [hcallee, hearlier] at hkept
              obtain rfl : loop = first := (List.cons.inj hkept).1
              have hcaller : loop ∈ loopsOf preOrderedLoops F :=
                (List.mem_filter.mp (hearlier ▸ List.mem_cons_self)).1
              exact absurd (horder.2.subset (List.mem_map_of_mem hcaller))
                (hother loop (hcallee ▸ List.mem_cons_self))
    · rintro (hcallee | hfollows | hearlier)
      · rw [hcallee, List.append_nil]
        exact hsplit
      · exact absurd hfollows hnext
      · rw [hearlier, List.nil_append]
        rw [hearlier, List.nil_append] at hsplit
        rw [← hsplit]

end Caller

/-- A function with a call, and the function called. -/
inductive CallPair where
  | caller
  | callee
  deriving DecidableEq

namespace CallPair

/-- The call. -/
def call : Inst CallPair := ⟨0, true, some .callee⟩

/-- The caller enters here, and goes on to the loop. -/
def entryBlock : BasicBlock CallPair := ⟨0, []⟩

/-- The call is in the header of a loop. -/
def callBlock : BasicBlock CallPair := ⟨1, [call]⟩

/-- The block after the call. -/
def nextBlock : BasicBlock CallPair := ⟨2, []⟩

/-- The blocks of the caller. -/
def callerBlocks : List (BasicBlock CallPair) := [entryBlock, callBlock, nextBlock]

/-- Each function has a loop, and the block after the call is the header of another loop of the
caller. -/
def nextIsHeader : LoopLists CallPair
  | .caller => some [⟨10, 1⟩, ⟨11, 2⟩]
  | .callee => some [⟨20, 5⟩]

/-- Each function has a loop, and the block after the call is no header. -/
def nextIsNoHeader : LoopLists CallPair
  | .caller => some [⟨10, 1⟩]
  | .callee => some [⟨20, 5⟩]

/-- The loop of the callee comes between the loops of the caller. -/
theorem next_is_header_kept :
    loopsOf (adjustLoopOrdersAfterInline nextIsHeader .caller .callee
        (getNextPreorderLoopAfter nextIsHeader .caller callerBlocks call)) .caller =
      [⟨10, 1⟩, ⟨20, 5⟩, ⟨11, 2⟩] :=
  (@loop_order_kept_iff _ _ nextIsHeader .caller .callee call [entryBlock] [nextBlock] callBlock
    (by decide) (by decide) ⟨by decide, by decide⟩ (by decide)).mpr
    (.inr (.inl ⟨nextBlock, by decide, by decide⟩))

/-- The loop of the callee comes before the loop of the caller that contains the call. -/
theorem next_is_no_header_misplaced :
    loopsOf (adjustLoopOrdersAfterInline nextIsNoHeader .caller .callee
        (getNextPreorderLoopAfter nextIsNoHeader .caller callerBlocks call)) .caller =
      [⟨20, 5⟩, ⟨10, 1⟩] ∧
    loopsOf (adjustLoopOrdersAfterInline nextIsNoHeader .caller .callee
        (getNextPreorderLoopAfter nextIsNoHeader .caller callerBlocks call)) .caller ≠
      loopsAmong [entryBlock, callBlock] (loopsOf nextIsNoHeader .caller) ++
        loopsOf nextIsNoHeader .callee ++
        loopsAmong [nextBlock] (loopsOf nextIsNoHeader .caller) :=
  ⟨by decide, by decide⟩

end CallPair

end Gino.Inliner
