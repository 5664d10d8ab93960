import Gino.Graph.PostDominance

/-!
# The control flow of a DSWP stage

`generateLoopSubsetForStage` keeps the terminators of the subset of a stage and gives every other
block that it visits a jump to its immediate post-dominator. For subsets that are closed under
control dependence the traversal meets no failing assertion (`exists_generate_loop_subset`).
-/

namespace Gino.Dswp

open Relation Graph Machine

/-- A loop in the control flow graph of its function. The final blocks are the roots of the
post-dominator tree. -/
structure LoopCFG (Inst Block : Type*) where
  functionBlocks : List Block
  successors : Block → List Block
  isFinal : Block → Bool
  basicBlocks : List Block
  header : Block
  parent : Inst → Block
  terminator : Block → Inst
  functionBlocks_complete : ∀ B, B ∈ functionBlocks
  header_mem : header ∈ basicBlocks
  parent_terminator : ∀ B, parent (terminator B) = B
  not_final : ∀ B ∈ basicBlocks, isFinal B = false
  reaches_final : ∀ B ∈ basicBlocks, ReachesFinal (Successor successors)
    (fun final => isFinal final = true) B

namespace LoopCFG

variable {Inst Block : Type*} (cfg : LoopCFG Inst Block)

/-- A step of the loop. -/
def LoopStep (B after : Block) : Prop := B ∈ cfg.basicBlocks ∧ after ∈ cfg.successors B

/-- One block depends on the control of another. -/
def ControlDependent (branch node : Block) : Prop :=
  Graph.ControlDependent (Successor cfg.successors) (fun final => cfg.isFinal final = true) branch
    node

variable {cfg} in
/-- The walks of the loop are walks of its function. -/
theorem walk_of_loop {path : List Block} {source target : Block}
    (h : Walk cfg.LoopStep path source target) :
    Walk (Successor cfg.successors) path source target :=
  ⟨h.chain.imp fun _ _ hstep => hstep.2, h.head, h.last⟩

variable {cfg} in
/-- The blocks of a walk of the loop before its target are in the loop. -/
theorem mem_basic_blocks_of_walk {path : List Block} {source target B : Block}
    (h : Walk cfg.LoopStep (path ++ [target]) source target) (hB : B ∈ path) :
    B ∈ cfg.basicBlocks := by
  obtain ⟨before, after, rfl⟩ := List.append_of_mem hB
  have hwhole : before ++ B :: after ++ [target] = before ++ B :: (after ++ [target]) := by simp
  have hsuffix := (h.split hwhole).2
  cases after with
  | nil => exact hsuffix.tail.1.1
  | cons next rest => exact hsuffix.tail.1.1

section Blocks

variable [DecidableEq Block]

/-- The blocks outside the loop that follow a block of it. -/
def loopExitBasicBlocks : List Block :=
  (cfg.basicBlocks.flatMap cfg.successors).filter fun B => B ∉ cfg.basicBlocks

/-- The parent of a block in the post-dominator tree. -/
def postDominatingBB (originalB : Block) : Option Block :=
  immediatePostDominator cfg.successors cfg.isFinal cfg.functionBlocks originalB

variable {cfg} in
/-- The blocks that exits of the loop lead to. -/
theorem mem_loop_exit_basic_blocks {exit : Block} : exit ∈ cfg.loopExitBasicBlocks ↔
    exit ∉ cfg.basicBlocks ∧ ∃ B ∈ cfg.basicBlocks, exit ∈ cfg.successors B := by
  unfold loopExitBasicBlocks
  rw [List.mem_filter, decide_eq_true_eq, List.mem_flatMap]
  exact and_comm

variable (subset : List Inst)

/-- The clone of a block has an instruction of the subset. -/
def holds (B : Block) : Bool := subset.any fun inst => cfg.parent inst = B

variable {cfg subset} in
/-- A block of the subset. -/
theorem holds_iff {B : Block} :
    cfg.holds subset B = true ↔ ∃ inst ∈ subset, cfg.parent inst = B := by
  unfold holds
  simp

end Blocks

variable [DecidableEq Inst] (subset : List Inst)

/-- The clone of a block has its terminator. -/
def keeps (B : Block) : Bool := cfg.terminator B ∈ subset

variable {cfg subset} in
/-- A block whose terminator is in the subset. -/
theorem keeps_iff {B : Block} : cfg.keeps subset B = true ↔ cfg.terminator B ∈ subset := by
  unfold keeps
  rw [decide_eq_true_eq]

/-- The branches of the loop that a block depends on are in the subset. -/
def Controlled (B : Block) : Prop :=
  ∀ branch ∈ cfg.basicBlocks, cfg.ControlDependent branch B → cfg.keeps subset branch = true

variable [DecidableEq Block]

/-- Visit a block: a clone without a terminator gets a jump. The assertions that the block is one of
the loop, that its post-dominator is not a loop exit, and that it has a clone, may fail. -/
def visitBlock (jumps : Option (List (Block × Block))) (originalB : Block) :
    Option (List (Block × Block)) × List Block :=
  match jumps with
  | none => (none, [])
  | some jumps =>
      if originalB ∉ cfg.basicBlocks then (none, [])
      else if cfg.keeps subset originalB then (some jumps, cfg.successors originalB)
      else
        match cfg.postDominatingBB originalB with
        | none => (none, [])
        | some postDominatingBB =>
            if postDominatingBB ∈ cfg.loopExitBasicBlocks then (none, [])
            else if postDominatingBB ∉ cfg.basicBlocks then (none, [])
            else (some ((originalB, postDominatingBB) :: jumps), [postDominatingBB])

/-- The jumps that `generateLoopSubsetForStage` adds. It gives nothing where the fuel does not
suffice, and `some none` where an assertion fails. -/
def generateLoopSubsetForStage (fuel : Nat) : Option (Option (List (Block × Block))) :=
  worklist (cfg.visitBlock subset) fuel [cfg.header] cfg.loopExitBasicBlocks (some [])

/-- The successors of the clone of a block of the loop, unless it has no terminator and is
erased. -/
def clonedSuccessors (jumps : List (Block × Block)) (B : Block) : Option (List Block) :=
  if cfg.keeps subset B then some (cfg.successors B)
  else (jumps.lookup B).map fun postDominatingBB => [postDominatingBB]

/-- A step of the stage. -/
def StageStep (jumps : List (Block × Block)) (B after : Block) : Prop :=
  B ∈ cfg.basicBlocks ∧ ∃ successors, cfg.clonedSuccessors subset jumps B = some successors ∧
    after ∈ successors

/-- A subset of the instructions of the loop that has its exiting branches and is closed under
control dependence. -/
structure Closed : Prop where
  inside : ∀ inst ∈ subset, cfg.parent inst ∈ cfg.basicBlocks
  exits : ∀ B ∈ cfg.basicBlocks, ∀ exit ∈ cfg.successors B, exit ∉ cfg.basicBlocks →
    cfg.terminator B ∈ subset
  controls : ∀ inst ∈ subset, ∀ B ∈ cfg.basicBlocks, cfg.ControlDependent B (cfg.parent inst) →
    cfg.terminator B ∈ subset

variable {cfg subset}

/-- A block with its terminator is one of the subset. -/
theorem holds_of_keeps {B : Block} (h : cfg.keeps subset B = true) : cfg.holds subset B = true :=
  holds_iff.mpr ⟨_, keeps_iff.mp h, cfg.parent_terminator B⟩

namespace Closed

/-- The branches that the blocks of the subset depend on are kept. -/
theorem controlled (h : cfg.Closed subset) {B : Block} (hholds : cfg.holds subset B = true) :
    cfg.Controlled subset B := by
  intro branch hbranch hdependent
  obtain ⟨inst, hinst, rfl⟩ := holds_iff.mp hholds
  exact keeps_iff.mpr (h.controls inst hinst branch hbranch hdependent)

/-- The branches that such a block depends on through other branches are kept too. -/
theorem keeps_of_control_dependent (h : cfg.Closed subset) {branch B : Block}
    (hcontrols : TransGen (fun branch node => branch ∈ cfg.basicBlocks ∧
      cfg.ControlDependent branch node) branch B)
    (hcontrolled : cfg.Controlled subset B) : cfg.keeps subset branch = true := by
  induction hcontrols using TransGen.head_induction_on with
  | single hdependent => exact hcontrolled _ hdependent.1 hdependent.2
  | head hdependent _ ih => exact h.controlled (holds_of_keeps ih) _ hdependent.1 hdependent.2

/-- A walk from a block without its terminator to a block with the branches that it depends on meets
the immediate post-dominator of its source. -/
theorem meets_post_dominator (h : cfg.Closed subset) {source B : Block} {path : List Block}
    (hwalk : Walk cfg.LoopStep (source :: path ++ [B]) source B)
    (hkeeps : cfg.keeps subset source = false) (hcontrolled : cfg.Controlled subset B) :
    ∃ postDominatingBB ∈ path ++ [B], cfg.postDominatingBB source = some postDominatingBB := by
  have hinside : ∀ other ∈ source :: path, other ∈ cfg.basicBlocks := fun _ hother =>
    mem_basic_blocks_of_walk hwalk hother
  have hfunction := walk_of_loop hwalk
  have hmeets : ∃ node ∈ path ++ [B], StrictlyPostDominates (Successor cfg.successors)
      (fun final => cfg.isFinal final = true) node source := by
    by_contra hnone
    push Not at hnone
    have hcontrols := hfunction.transitively_control_dependent path hinside hnone
    rw [h.keeps_of_control_dependent hcontrols hcontrolled] at hkeeps
    cases hkeeps
  obtain ⟨node, hnode, hpost⟩ := hmeets
  obtain ⟨near, hnear, himmediate⟩ := hfunction.exists_immediate_post_dominator
    ⟨node, List.mem_cons_of_mem _ hnode, hpost⟩
  refine ⟨near, (List.mem_cons.mp hnear).resolve_left himmediate.1.1, ?_⟩
  exact (immediate_post_dominator_eq_some cfg.functionBlocks_complete
    (cfg.reaches_final source (hinside source List.mem_cons_self))).mpr himmediate

/-- A block of the loop reaches an exiting branch, which is kept. -/
theorem exists_exiting (h : cfg.Closed subset) {B : Block} (hB : B ∈ cfg.basicBlocks) :
    ∃ exiting ∈ cfg.basicBlocks, cfg.keeps subset exiting = true ∧
      ReflTransGen cfg.LoopStep B exiting := by
  obtain ⟨final, hfinal, hreach⟩ := cfg.reaches_final B hB
  induction hreach using ReflTransGen.head_induction_on with
  | refl => exact absurd hfinal (by rw [cfg.not_final final hB]; exact Bool.false_ne_true)
  | @head B next hstep _ ih =>
      by_cases hnext : next ∈ cfg.basicBlocks
      · obtain ⟨exiting, hexiting, hkeeps, hreach⟩ := ih hnext
        exact ⟨exiting, hexiting, hkeeps, .head ⟨hB, hstep⟩ hreach⟩
      · exact ⟨B, hB, keeps_iff.mpr (h.exits B hB next hstep hnext), .refl⟩

/-- A block of the loop without its terminator has its immediate post-dominator in the loop. -/
theorem exists_post_dominator (h : cfg.Closed subset) {B : Block} (hB : B ∈ cfg.basicBlocks)
    (hkeeps : cfg.keeps subset B = false) :
    ∃ postDominatingBB ∈ cfg.basicBlocks, cfg.postDominatingBB B = some postDominatingBB := by
  obtain ⟨exiting, hexiting, hkept, hreach⟩ := h.exists_exiting hB
  obtain ⟨path, hwalk⟩ := exists_walk_of_ne hreach
    (fun heq => by rw [heq, hkept] at hkeeps; cases hkeeps)
  obtain ⟨near, hnear, hpost⟩ :=
    h.meets_post_dominator hwalk hkeeps (h.controlled (holds_of_keeps hkept))
  refine ⟨near, ?_, hpost⟩
  rcases List.mem_append.mp hnear with hmem | hmem
  · exact mem_basic_blocks_of_walk hwalk (List.mem_cons_of_mem _ hmem)
  · exact List.mem_singleton.mp hmem ▸ hexiting

end Closed

/-! ## The traversal -/

/-- What the traversal has found: every visited block has its successors visited or in the queue,
and its jump where it lost its terminator. -/
structure Found (cfg : LoopCFG Inst Block) (subset : List Inst) (jumps : List (Block × Block))
    (queue visited : List Block) : Prop where
  header : cfg.header ∈ queue ∨ cfg.header ∈ visited
  exits : ∀ exit ∈ cfg.loopExitBasicBlocks, exit ∈ visited
  queued : ∀ B ∈ queue, B ∈ cfg.basicBlocks ∨ B ∈ cfg.loopExitBasicBlocks
  closed : ∀ B ∈ visited, B ∈ cfg.basicBlocks → ∃ successors,
    cfg.clonedSuccessors subset jumps B = some successors ∧
      ∀ after ∈ successors, after ∈ queue ∨ after ∈ visited
  jumps : ∀ jump ∈ jumps, jump.1 ∈ visited ∧ jump.1 ∈ cfg.basicBlocks ∧
    cfg.keeps subset jump.1 = false ∧ cfg.postDominatingBB jump.1 = some jump.2 ∧
      jump.2 ∈ cfg.basicBlocks

/-- Skipping a visited block. -/
theorem Found.skip {jumps : List (Block × Block)} {item : Block} {queue visited : List Block}
    (h : Found cfg subset jumps (item :: queue) visited) (hitem : item ∈ visited) :
    Found cfg subset jumps queue visited where
  header := by
    rcases h.header with hqueue | hvisited
    · rcases List.mem_cons.mp hqueue with heq | hqueue
      · exact .inr (heq ▸ hitem)
      · exact .inl hqueue
    · exact .inr hvisited
  exits := h.exits
  queued B hB := h.queued B (List.mem_cons_of_mem _ hB)
  closed B hB hloop := by
    obtain ⟨successors, hsuccessors, hafter⟩ := h.closed B hB hloop
    refine ⟨successors, hsuccessors, fun after hmem => ?_⟩
    rcases hafter after hmem with hqueue | hvisited
    · rcases List.mem_cons.mp hqueue with heq | hqueue
      · exact .inr (heq ▸ hitem)
      · exact .inl hqueue
    · exact .inr hvisited
  jumps := h.jumps

/-- Visiting a block that has its successors then. -/
theorem Found.extend {jumps jumps' : List (Block × Block)} {item : Block}
    {queue visited pushed : List Block} (h : Found cfg subset jumps (item :: queue) visited)
    (hloop : item ∈ cfg.basicBlocks)
    (hsame : ∀ B ∈ visited, cfg.clonedSuccessors subset jumps' B =
      cfg.clonedSuccessors subset jumps B)
    (hitem : cfg.clonedSuccessors subset jumps' item = some pushed)
    (hpushed : ∀ B ∈ pushed, B ∈ cfg.basicBlocks ∨ B ∈ cfg.loopExitBasicBlocks)
    (hjumps : ∀ jump ∈ jumps', jump ∈ jumps ∨ jump.1 = item ∧ cfg.keeps subset item = false ∧
      cfg.postDominatingBB item = some jump.2 ∧ jump.2 ∈ cfg.basicBlocks) :
    Found cfg subset jumps' (queue ++ pushed) (item :: visited) where
  header := by
    have hheader := h.header
    simp only [List.mem_cons, List.mem_append] at hheader ⊢
    tauto
  exits exit hexit := List.mem_cons_of_mem _ (h.exits exit hexit)
  queued B hB := by
    rcases List.mem_append.mp hB with hqueue | hnew
    · exact h.queued B (List.mem_cons_of_mem _ hqueue)
    · exact hpushed B hnew
  closed B hB hinside := by
    rcases List.mem_cons.mp hB with rfl | hvisited
    · exact ⟨pushed, hitem, fun after hafter => .inl (List.mem_append_right _ hafter)⟩
    · obtain ⟨successors, hsuccessors, hafter⟩ := h.closed B hvisited hinside
      refine ⟨successors, (hsame B hvisited).trans hsuccessors, fun after hmem => ?_⟩
      have hcases := hafter after hmem
      simp only [List.mem_cons, List.mem_append] at hcases ⊢
      tauto
  jumps jump hjump := by
    rcases hjumps jump hjump with hold | ⟨heq, hkeeps, hpost, hmem⟩
    · obtain ⟨hvisited, hrest⟩ := h.jumps jump hold
      exact ⟨List.mem_cons_of_mem _ hvisited, hrest⟩
    · exact ⟨heq ▸ List.mem_cons_self, heq ▸ hloop, heq ▸ hkeeps, heq ▸ hpost, hmem⟩

/-- Visiting a block of a closed subset fails no assertion. -/
theorem Found.visit (hclosed : cfg.Closed subset) {jumps : List (Block × Block)} {item : Block}
    {queue visited : List Block} (h : Found cfg subset jumps (item :: queue) visited)
    (hitem : item ∉ visited) :
    ∃ jumps', (cfg.visitBlock subset (some jumps) item).1 = some jumps' ∧
      Found cfg subset jumps' (queue ++ (cfg.visitBlock subset (some jumps) item).2)
        (item :: visited) := by
  have hloop : item ∈ cfg.basicBlocks :=
    (h.queued item List.mem_cons_self).resolve_right fun hexit => hitem (h.exits item hexit)
  unfold visitBlock
  dsimp only
  rw [if_neg (not_not_intro hloop)]
  cases hkeeps : cfg.keeps subset item with
  | true =>
      rw [if_pos rfl]
      refine ⟨jumps, rfl, h.extend hloop (fun _ _ => rfl) ?_ (fun B hB => ?_) fun _ => .inl⟩
      · unfold clonedSuccessors
        rw [if_pos hkeeps]
      · by_cases hinside : B ∈ cfg.basicBlocks
        · exact .inl hinside
        · exact .inr (mem_loop_exit_basic_blocks.mpr ⟨hinside, item, hloop, hB⟩)
  | false =>
      obtain ⟨postDominatingBB, hinside, hpost⟩ := hclosed.exists_post_dominator hloop hkeeps
      -- The source asserts that the stage jumps to no exit and to a block of the loop.
      have hexit : postDominatingBB ∉ cfg.loopExitBasicBlocks := fun hmem =>
        (mem_loop_exit_basic_blocks.mp hmem).1 hinside
      rw [if_neg Bool.false_ne_true, hpost]
      dsimp only
      rw [if_neg hexit, if_neg (not_not_intro hinside)]
      refine ⟨_, rfl, h.extend hloop (fun B hB => ?_) ?_ (fun B hB => ?_) fun jump hjump => ?_⟩
      · have hne : (B == item) = false := by
          rw [beq_eq_false_iff_ne]
          exact fun heq => hitem (heq ▸ hB)
        unfold clonedSuccessors
        rw [List.lookup_cons, hne]
      · unfold clonedSuccessors
        rw [hkeeps, if_neg Bool.false_ne_true, List.lookup_cons_self]
        rfl
      · exact .inl (List.mem_singleton.mp hB ▸ hinside)
      · rcases List.mem_cons.mp hjump with rfl | hold
        · exact .inr ⟨rfl, hkeeps, hpost, hinside⟩
        · exact .inl hold

variable (cfg) in
/-- The fuel that suffices for the traversal. -/
def traversalFuel : Nat :=
  1 + pushesLeft (fun B => (cfg.successors B).length + 1) cfg.functionBlocks cfg.loopExitBasicBlocks

/-- The traversal terminates, and for a closed subset no assertion fails. -/
theorem exists_generate_loop_subset (hclosed : cfg.Closed subset) {fuel : Nat}
    (hfuel : cfg.traversalFuel ≤ fuel) : ∃ jumps visited,
      cfg.generateLoopSubsetForStage subset fuel = some (some jumps) ∧
        Found cfg subset jumps [] visited := by
  have hpush : ∀ jumps B, (cfg.visitBlock subset jumps B).2.length ≤
      (cfg.successors B).length + 1 := by
    intro jumps B
    unfold visitBlock
    repeat' split
    all_goals simp
  obtain ⟨final, hfinal⟩ := exists_worklist (cfg.visitBlock subset)
    (fun B => (cfg.successors B).length + 1) cfg.functionBlocks_complete hpush [cfg.header]
    cfg.loopExitBasicBlocks (some []) hfuel
  have hinv := worklist_invariant (fun queue visited result =>
    ∃ jumps, result = some jumps ∧ Found cfg subset jumps queue visited) ?_ ?_ ⟨[], rfl, ?_⟩ hfinal
  · obtain ⟨visited, jumps, rfl, hfound⟩ := hinv
    exact ⟨jumps, visited, hfinal, hfound⟩
  · intro item queue visited result hmem ⟨jumps, hresult, hfound⟩
    exact ⟨jumps, hresult, hfound.skip hmem⟩
  · intro item queue visited result hfresh ⟨jumps, hresult, hfound⟩
    subst hresult
    exact hfound.visit hclosed hfresh
  · refine ⟨.inl (List.mem_singleton_self _), fun _ => id, fun B hB => ?_, fun B hB hloop => ?_,
      by simp⟩
    · exact .inl (List.mem_singleton.mp hB ▸ cfg.header_mem)
    · exact absurd hloop (mem_loop_exit_basic_blocks.mp hB).1

end LoopCFG

end Gino.Dswp
