import Gino.Dswp.StageCFG

/-!
# The control flow of a DSWP stage is a projection

Along every path of the loop the stage visits the blocks that hold its instructions in the same
order and as often, when its branches go as those of the path (`stage_projects`).
-/

namespace Gino.Dswp.LoopCFG

open Relation Graph Machine

variable {Inst Block : Type*} [DecidableEq Inst] (cfg : LoopCFG Inst Block) (subset : List Inst)

/-- The directions that the kept branches take along a path. -/
def decisions : List Block → List (Block × Block)
  | B :: after :: rest =>
      if cfg.keeps subset B then (B, after) :: decisions (after :: rest)
      else decisions (after :: rest)
  | _ => []

variable {cfg subset} in
/-- A kept branch takes a direction. -/
theorem decisions_cons {B next : Block} {path : List Block} (h : cfg.keeps subset B = true)
    (hhead : path.head? = some next) :
    cfg.decisions subset (B :: path) = (B, next) :: cfg.decisions subset path := by
  cases path with
  | nil => cases hhead
  | cons first rest =>
      obtain rfl := Option.some.inj hhead
      simp [decisions, h]

variable {cfg subset} in
/-- The directions do not depend on blocks without their terminators. -/
theorem decisions_skip {B : Block} (rest : List Block) (h : cfg.keeps subset B = false) :
    cfg.decisions subset (B :: rest) = cfg.decisions subset rest := by
  cases rest with
  | nil => rfl
  | cons after rest => simp [decisions, h]

variable {cfg subset} in
/-- The directions do not depend on skipped blocks. -/
theorem decisions_append {skipped : List Block} (rest : List Block)
    (h : ∀ B ∈ skipped, cfg.keeps subset B = false) :
    cfg.decisions subset (skipped ++ rest) = cfg.decisions subset rest := by
  induction skipped with
  | nil => rfl
  | cons B skipped ih =>
      rw [List.cons_append, decisions_skip _ (h B List.mem_cons_self),
        ih fun other hother => h other (List.mem_cons_of_mem _ hother)]

/-- A block in front keeps the blocks with a property. -/
theorem filter_cons_congr {holds : Block → Bool} (B : Block) {path other : List Block}
    (h : path.filter holds = other.filter holds) :
    (B :: path).filter holds = (B :: other).filter holds := by
  rw [List.filter_cons, List.filter_cons, h]

variable [DecidableEq Block]

/-- A path of the loop has a path of the stage with the same directions and the same blocks of the
subset, and to the same exit. -/
def HasStagePath (jumps : List (Block × Block)) (path : List Block) (source target : Block) :
    Prop :=
  ∃ stagePath stageTarget, Walk (cfg.StageStep subset jumps) stagePath source stageTarget ∧
    cfg.decisions subset stagePath = cfg.decisions subset path ∧
    stagePath.filter (cfg.holds subset) = path.filter (cfg.holds subset) ∧
    (target ∈ cfg.loopExitBasicBlocks → stageTarget = target)

/-- The stage visits, along the paths of the loop, the blocks of its instructions. -/
structure Projects (jumps : List (Block × Block)) : Prop where
  /-- The post-dominators that are used are in the loop. -/
  inside : ∀ jump ∈ jumps, cfg.postDominatingBB jump.1 = some jump.2 ∧ jump.2 ∈ cfg.basicBlocks
  /-- Every path of the loop has a path of the stage. -/
  exists_path : ∀ path target, Walk cfg.LoopStep path cfg.header target →
    cfg.HasStagePath subset jumps path cfg.header target
  /-- Every path of the stage to an exit with the directions of a path of the loop to an exit has
  the same blocks of the subset. -/
  same_blocks : ∀ path exit stagePath stageExit, Walk cfg.LoopStep path cfg.header exit →
    exit ∈ cfg.loopExitBasicBlocks →
    Walk (cfg.StageStep subset jumps) stagePath cfg.header stageExit →
    stageExit ∈ cfg.loopExitBasicBlocks →
    cfg.decisions subset stagePath = cfg.decisions subset path →
      stageExit = exit ∧ stagePath.filter (cfg.holds subset) = path.filter (cfg.holds subset)
  /-- No block of the subset that a path reaches is erased. -/
  not_erased : ∀ path B, Walk cfg.LoopStep path cfg.header B → cfg.holds subset B = true →
    cfg.clonedSuccessors subset jumps B ≠ none

/-- The traversal terminates without a failing assertion, and the stage projects the loop. -/
def StageProjects : Prop :=
  ∃ bound, ∀ fuel, bound ≤ fuel → ∃ jumps,
    cfg.generateLoopSubsetForStage subset fuel = some (some jumps) ∧ cfg.Projects subset jumps

variable {cfg subset} {jumps : List (Block × Block)} {visited : List Block}

/-- A block that does not hold an instruction does not hold its terminator. -/
theorem keeps_of_not_holds {B : Block} (h : cfg.holds subset B = false) :
    cfg.keeps subset B = false := by
  cases hkeeps : cfg.keeps subset B with
  | false => rfl
  | true => rw [holds_of_keeps hkeeps] at h; cases h

/-- The clone of a visited block without its terminator jumps to the immediate post-dominator. -/
theorem Found.cloned_successors (h : Found cfg subset jumps [] visited) {B P : Block}
    (hvisited : B ∈ visited) (hloop : B ∈ cfg.basicBlocks) (hkeeps : cfg.keeps subset B = false)
    (hpost : cfg.postDominatingBB B = some P) :
    cfg.clonedSuccessors subset jumps B = some [P] := by
  obtain ⟨successors, hsuccessors, -⟩ := h.closed B hvisited hloop
  rw [hsuccessors]
  unfold clonedSuccessors at hsuccessors
  rw [hkeeps, if_neg Bool.false_ne_true, Option.map_eq_some_iff] at hsuccessors
  obtain ⟨Q, hlookup, rfl⟩ := hsuccessors
  obtain ⟨before, after, hsplit, -⟩ := List.lookup_eq_some_iff.mp hlookup
  obtain ⟨-, -, -, hQ, -⟩ := h.jumps (B, Q) (by rw [hsplit]; simp)
  rw [hpost] at hQ
  cases hQ
  rfl

/-- The blocks of a path of the stage are visited. -/
theorem Found.visited_of_step (h : Found cfg subset jumps [] visited) {B after : Block}
    (hvisited : B ∈ visited) (hstep : cfg.StageStep subset jumps B after) : after ∈ visited := by
  obtain ⟨hloop, successors, hsuccessors, hafter⟩ := hstep
  obtain ⟨found, hfound, hqueue⟩ := h.closed B hvisited hloop
  rw [hsuccessors] at hfound
  cases hfound
  exact (hqueue after hafter).resolve_left (by simp)

/-- The blocks that the stage reaches are visited. -/
theorem Found.visited_of_reaches (h : Found cfg subset jumps [] visited) {B after : Block}
    (hvisited : B ∈ visited) (hreach : ReflTransGen (cfg.StageStep subset jumps) B after) :
    after ∈ visited := by
  induction hreach with
  | refl => exact hvisited
  | tail _ hstep ih => exact h.visited_of_step ih hstep

/-- The blocks of a path before the immediate post-dominator hold no instruction of a subset that
has not the terminator of its source. -/
theorem Closed.not_holds (hclosed : cfg.Closed subset) {source target P B : Block}
    {skipped rest : List Block}
    (hwalk : Walk cfg.LoopStep (source :: skipped ++ rest) source target)
    (hkeeps : cfg.keeps subset source = false) (hpost : cfg.postDominatingBB source = some P)
    (hP : P ∉ skipped) (hB : B ∈ skipped) : cfg.holds subset B = false := by
  by_contra hholds
  rw [Bool.not_eq_false] at hholds
  obtain ⟨before, after, rfl⟩ := List.append_of_mem hB
  have hwhole :
      source :: (before ++ B :: after) ++ rest = source :: before ++ B :: (after ++ rest) := by
    simp
  obtain ⟨near, hnear, hpost'⟩ :=
    hclosed.meets_post_dominator (hwalk.split hwhole).1 hkeeps (hclosed.controlled hholds)
  rw [hpost] at hpost'
  cases hpost'
  refine hP ?_
  simp only [List.mem_append, List.mem_cons, List.not_mem_nil, or_false] at hnear ⊢
  tauto

omit [DecidableEq Inst] in
/-- Blocks without an instruction of the subset are left out. -/
theorem filter_holds_eq_nil {skipped : List Block}
    (h : ∀ B ∈ skipped, cfg.holds subset B = false) : skipped.filter (cfg.holds subset) = [] :=
  List.filter_eq_nil_iff.mpr fun B hB => by rw [h B hB]; exact Bool.false_ne_true

namespace HasStagePath

variable {source next target : Block} {path : List Block}

/-- A kept branch is taken in the stage too. -/
theorem of_keeps (h : cfg.HasStagePath subset jumps path next target)
    (hstep : cfg.StageStep subset jumps source next) (hkeeps : cfg.keeps subset source = true)
    (hhead : path.head? = some next) :
    cfg.HasStagePath subset jumps (source :: path) source target := by
  obtain ⟨stagePath, stageTarget, hstage, hdecisions, hblocks, hexit⟩ := h
  refine ⟨source :: stagePath, stageTarget, hstage.cons hstep, ?_, ?_, hexit⟩
  · rw [decisions_cons hkeeps hstage.head, decisions_cons hkeeps hhead, hdecisions]
  · exact filter_cons_congr source hblocks

/-- The stage jumps over blocks without an instruction of the subset. -/
theorem of_jump (h : cfg.HasStagePath subset jumps path next target)
    (hstep : cfg.StageStep subset jumps source next) (hkeeps : cfg.keeps subset source = false)
    {skipped : List Block} (hskipped : ∀ B ∈ skipped, cfg.holds subset B = false) :
    cfg.HasStagePath subset jumps (source :: (skipped ++ path)) source target := by
  obtain ⟨stagePath, stageTarget, hstage, hdecisions, hblocks, hexit⟩ := h
  refine ⟨source :: stagePath, stageTarget, hstage.cons hstep, ?_, ?_, hexit⟩
  · rw [decisions_skip _ hkeeps, hdecisions, decisions_skip _ hkeeps,
      decisions_append _ fun B hB => keeps_of_not_holds (hskipped B hB)]
  · refine filter_cons_congr source ?_
    rw [hblocks, List.filter_append, filter_holds_eq_nil hskipped, List.nil_append]

/-- A path that ends before the post-dominator of a block without its terminator ends in the
loop. -/
theorem of_end (hclosed : cfg.Closed subset) {skipped : List Block}
    (hwalk : Walk cfg.LoopStep (source :: skipped) source target)
    (hkeeps : cfg.keeps subset source = false) (hloop : source ∈ cfg.basicBlocks)
    (hskipped : ∀ B ∈ skipped, cfg.holds subset B = false) :
    cfg.HasStagePath subset jumps (source :: skipped) source target := by
  refine ⟨[source], source, .single source, ?_, ?_, fun hexit => ?_⟩
  · rw [decisions_skip _ hkeeps, decisions_skip _ hkeeps, ← List.append_nil skipped,
      decisions_append _ fun B hB => keeps_of_not_holds (hskipped B hB)]
  · refine filter_cons_congr source ?_
    rw [filter_holds_eq_nil hskipped, List.filter_nil]
  · -- The branch to an exit is kept, and it is neither the source nor after it.
    have houtside := (mem_loop_exit_basic_blocks.mp hexit).1
    obtain ⟨last, ⟨hlast, hstep⟩, hbefore⟩ :=
      hwalk.dropLast_walk fun heq => houtside (heq ▸ hloop)
    have hkept := keeps_iff.mpr (hclosed.exits last hlast target hstep houtside)
    rcases List.mem_cons.mp (List.dropLast_subset _ hbefore.target_mem) with rfl | hmem
    · rw [hkept] at hkeeps
      cases hkeeps
    · have hholds := holds_of_keeps hkept
      rw [hskipped last hmem] at hholds
      cases hholds

end HasStagePath

/-- A path of the loop from a visited block has a path of the stage. -/
theorem Found.has_stage_path (h : Found cfg subset jumps [] visited) (hclosed : cfg.Closed subset)
    {source target : Block} (path : List Block) (hwalk : Walk cfg.LoopStep path source target)
    (hvisited : source ∈ visited) : cfg.HasStagePath subset jumps path source target := by
  induction hlength : path.length using Nat.strong_induction_on generalizing path source with
  | _ length ih =>
  match path, hwalk, hlength with
  | [], hwalk, _ => simpa using hwalk.head
  | [B], hwalk, _ =>
      obtain rfl : B = source := by simpa using hwalk.head
      obtain rfl : B = target := by simpa using hwalk.last
      exact ⟨[B], B, .single B, rfl, rfl, fun _ => rfl⟩
  | B :: next :: rest, hwalk, hlength =>
      obtain rfl : B = source := by simpa using hwalk.head
      obtain ⟨⟨hloop, hnext⟩, htail⟩ := hwalk.tail
      cases hkeeps : cfg.keeps subset B with
      | true =>
          have hstep : cfg.StageStep subset jumps B next := ⟨hloop, _, if_pos hkeeps, hnext⟩
          have hrest := ih _ (by simp [← hlength]) (next :: rest) htail
            (h.visited_of_step hvisited hstep) rfl
          exact hrest.of_keeps hstep hkeeps rfl
      | false =>
          obtain ⟨P, hinside, hpost⟩ := hclosed.exists_post_dominator hloop hkeeps
          have hcloned := h.cloned_successors hvisited hloop hkeeps hpost
          have hstep : cfg.StageStep subset jumps B P :=
            ⟨hloop, [P], hcloned, List.mem_singleton_self P⟩
          -- The stage jumps over what the loop does up to the post-dominator, or over all that is
          -- left.
          by_cases hP : P ∈ next :: rest
          · obtain ⟨skipped, after, hsplit, hfirst⟩ := List.eq_append_cons_of_mem hP
            rw [hsplit] at hwalk hlength ⊢
            have hskipped : ∀ other ∈ skipped, cfg.holds subset other = false := fun other =>
              hclosed.not_holds hwalk hkeeps hpost hfirst
            have hwhole : B :: (skipped ++ P :: after) = (B :: skipped) ++ P :: after := rfl
            have hshorter : (P :: after).length < length := by
              simp only [List.length_cons, List.length_append] at hlength ⊢
              omega
            have hrest := ih _ hshorter (P :: after) (hwalk.split hwhole).2
              (h.visited_of_step hvisited hstep) rfl
            exact hrest.of_jump hstep hkeeps hskipped
          · have hwhole : Walk cfg.LoopStep (B :: (next :: rest) ++ []) B target := by
              rwa [List.append_nil]
            exact .of_end hclosed hwalk hkeeps hloop fun other =>
              hclosed.not_holds hwhole hkeeps hpost hP

/-- A block outside the loop has no step of the stage. -/
theorem not_stage_step_of_exit {exit after : Block} (hexit : exit ∈ cfg.loopExitBasicBlocks) :
    ¬ cfg.StageStep subset jumps exit after := fun hstep =>
  (mem_loop_exit_basic_blocks.mp hexit).1 hstep.1

/-- Two paths of the stage to exits that take the same directions are the same. -/
theorem stage_path_unique {source exit otherExit : Block} {path other : List Block}
    (h : Walk (cfg.StageStep subset jumps) path source exit)
    (hother : Walk (cfg.StageStep subset jumps) other source otherExit)
    (hexit : exit ∈ cfg.loopExitBasicBlocks) (hotherExit : otherExit ∈ cfg.loopExitBasicBlocks)
    (hdecisions : cfg.decisions subset path = cfg.decisions subset other) : path = other := by
  induction path generalizing source other with
  | nil => simpa using h.head
  | cons B rest ih =>
      obtain rfl : B = source := by simpa using h.head
      cases other with
      | nil => simpa using hother.head
      | cons first others =>
          obtain rfl : first = B := by simpa using hother.head
          match rest, others, h, hother with
          | [], [], _, _ => rfl
          | [], next :: others, h, hother =>
              obtain rfl : first = exit := by simpa using h.last
              exact absurd hother.tail.1 (not_stage_step_of_exit hexit)
          | next :: rest, [], h, hother =>
              obtain rfl : first = otherExit := by simpa using hother.last
              exact absurd h.tail.1 (not_stage_step_of_exit hotherExit)
          | next :: rest, after :: others, h, hother =>
              obtain ⟨⟨_, successors, hsuccessors, hnext⟩, htail⟩ := h.tail
              obtain ⟨⟨_, successors', hsuccessors', hafter⟩, hotherTail⟩ := hother.tail
              rw [hsuccessors] at hsuccessors'
              cases hsuccessors'
              -- The directions decide after a block that is kept. After another one there is one
              -- successor.
              cases hkeeps : cfg.keeps subset first with
              | true =>
                  rw [decisions_cons hkeeps rfl, decisions_cons hkeeps rfl] at hdecisions
                  obtain ⟨hdirection, hrest⟩ := List.cons_eq_cons.mp hdecisions
                  obtain rfl := congrArg Prod.snd hdirection
                  rw [ih htail hotherTail hrest]
              | false =>
                  rw [decisions_skip _ hkeeps, decisions_skip _ hkeeps] at hdecisions
                  unfold clonedSuccessors at hsuccessors
                  rw [hkeeps, if_neg Bool.false_ne_true, Option.map_eq_some_iff] at hsuccessors
                  obtain ⟨P, -, rfl⟩ := hsuccessors
                  obtain rfl := List.mem_singleton.mp hnext
                  obtain rfl := List.mem_singleton.mp hafter
                  rw [ih htail hotherTail hdecisions]

/-- The stage of a closed subset follows the control flow of the loop. -/
theorem stage_projects (hclosed : cfg.Closed subset) : cfg.StageProjects subset := by
  refine ⟨cfg.traversalFuel, fun fuel hfuel => ?_⟩
  obtain ⟨jumps, visited, hjumps, hfound⟩ := exists_generate_loop_subset hclosed hfuel
  have hheader : cfg.header ∈ visited := hfound.header.resolve_left (by simp)
  refine ⟨jumps, hjumps, ⟨fun jump hjump => (hfound.jumps jump hjump).2.2.2, ?_, ?_, ?_⟩⟩
  · exact fun path target hwalk => hfound.has_stage_path hclosed path hwalk hheader
  · intro path exit stagePath stageExit hwalk hexit hstage hstageExit hdecisions
    obtain ⟨other, otherTarget, hother, hotherDecisions, hblocks, htarget⟩ :=
      hfound.has_stage_path hclosed path hwalk hheader
    obtain rfl := htarget hexit
    obtain rfl := stage_path_unique hstage hother hstageExit hexit
      (hdecisions.trans hotherDecisions.symm)
    exact ⟨Option.some.inj (hstage.last.symm.trans hother.last), hblocks⟩
  · intro path B hwalk hholds
    obtain ⟨stagePath, stageTarget, hstage, -, hblocks, -⟩ :=
      hfound.has_stage_path hclosed path hwalk hheader
    have hmem : B ∈ stagePath.filter (cfg.holds subset) := by
      rw [hblocks]
      exact List.mem_filter.mpr ⟨hwalk.target_mem, hholds⟩
    have hvisited := hfound.visited_of_reaches hheader
      (hstage.source_reaches (List.mem_filter.mp hmem).1)
    obtain ⟨inst, hinst, rfl⟩ := holds_iff.mp hholds
    obtain ⟨successors, hsuccessors, -⟩ := hfound.closed _ hvisited (hclosed.inside inst hinst)
    rw [hsuccessors]
    exact Option.some_ne_none _

/-! ## A loop with a diamond -/

/-- The blocks of a loop `while (c) { if (d) p; else q; y; }` and the block after it. -/
inductive DiamondBlock where
  | header | branch | left | right | join | after
  deriving DecidableEq

/-- The terminators of the blocks and the instruction `y`. -/
inductive DiamondInst where
  | terminator (B : DiamondBlock)
  | y
  deriving DecidableEq

/-- The loop with a diamond. -/
def diamondLoop : LoopCFG DiamondInst DiamondBlock where
  functionBlocks := [.header, .branch, .left, .right, .join, .after]
  successors
    | .header => [.branch, .after]
    | .branch => [.left, .right]
    | .left | .right => [.join]
    | .join => [.header]
    | .after => []
  isFinal B := B = .after
  basicBlocks := [.header, .branch, .left, .right, .join]
  header := .header
  parent
    | .terminator B => B
    | .y => .join
  terminator := .terminator
  functionBlocks_complete B := by cases B <;> decide
  header_mem := by decide
  parent_terminator _ := rfl
  not_final := by decide
  reaches_final := by
    have hblocks : ∀ B : DiamondBlock, B ∈ ([.header, .branch, .left, .right, .join, .after] :
        List DiamondBlock) := by
      intro B
      cases B <;> decide
    simp only [reaches_final_iff hblocks]
    decide

/-- The subset of `y` and the branch that leaves the loop is closed. -/
theorem diamond_closed : diamondLoop.Closed [.terminator .header, .y] where
  inside := by decide
  exits := by decide
  controls := by
    unfold ControlDependent
    simp only [control_dependent_iff diamondLoop.functionBlocks_complete]
    decide

/-- The stage with `y` skips the diamond. -/
theorem diamond_stage_projects : diamondLoop.StageProjects [.terminator .header, .y] :=
  stage_projects diamond_closed

end Gino.Dswp.LoopCFG
