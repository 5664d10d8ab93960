import Gino.Helix.Spiller
import Mathlib.Data.Finset.Card

/-!
# The frontier of the loads

What `createLoadsAndStoresToSpilledLCD` inserts, said without its lists (`exists_spill_code`). A
block is overtaken when a block of the loop after a store comes before it; a load goes to each
block that is the nearest dominator of a place, among those that are not overtaken, and that has no
other such block above it (`LoadBlock`). The places are the users and the exits.
-/

namespace Gino.Helix

open Graph Relation

variable {Block : Type*} {loop : LoopStructure Block}

/-- The block that a value from a latch is stored in. -/
def IncomingValue.storeBlock (loop : LoopStructure Block) (latch : Block) :
    IncomingValue Block → Block
  | .instruction block _ => if loop.isIncluded block then block else latch
  | .noInstruction => latch

/-- The block that a user needs the value in: its own or, for a PHI, the nearest one that dominates
the blocks it takes the value from too. -/
def SpillUser.NeedsAt (loop : LoopStructure Block) (user : SpillUser Block) (place : Block) :
    Prop :=
  loop.NearestDominator
    (fun near => user.IsPHI loop → ∀ block ∈ user.incomingBlocks, loop.Dominates near block)
    user.block place

namespace SpilledLoopCarriedDependence

variable (spill : SpilledLoopCarriedDependence loop)

/-- A value from a latch is stored in the block. -/
def HoldsStore (block : Block) : Prop :=
  ∃ latch value, (some latch, value) ∈ spill.incoming ∧ value.storeBlock loop latch = block

/-- The block comes after a block of the loop that comes after a store. -/
def Overtaken (block : Block) : Prop :=
  ∃ holder next, spill.HoldsStore holder ∧ loop.Step holder next ∧ loop.isIncluded next = true ∧
    ReflTransGen loop.Step next block

variable {spill}

/-- Stores are in the loop. -/
theorem HoldsStore.included {block : Block} (h : spill.HoldsStore block) :
    loop.isIncluded block = true := by
  obtain ⟨latch, value, hvalue, rfl⟩ := h
  cases value with
  | noInstruction => exact spill.latch_included latch _ hvalue
  | instruction block index =>
      rw [IncomingValue.storeBlock]
      split_ifs with hincluded
      · exact hincluded
      · exact spill.latch_included latch _ hvalue

/-- The header is not overtaken. -/
theorem not_overtaken_header : ¬ spill.Overtaken loop.header := by
  rintro ⟨holder, next, -, hstep, -, hreach⟩
  rcases hreach.cases_tail with heq | ⟨last, -, hlast⟩
  · exact hstep.2.2 heq.symm
  · exact hlast.2.2 rfl

end SpilledLoopCarriedDependence

open SpilledLoopCarriedDependence

variable {spill : SpilledLoopCarriedDependence loop}

/-- The block of a store. -/
theorem store_insert_point_block (latch : Block) (value : IncomingValue Block) :
    (storeInsertPoint loop latch value).1 = value.storeBlock loop latch := by
  cases value with
  | noInstruction => rfl
  | instruction block index =>
      rw [storeInsertPoint, IncomingValue.storeBlock]
      split_ifs <;> rfl

/-- The stores are in the blocks that hold one. -/
theorem holds_store_iff {block : Block} :
    spill.HoldsStore block ↔ ∃ position, (block, position) ∈ insertStoresToSpilledLCD spill := by
  simp only [HoldsStore, insertStoresToSpilledLCD, List.mem_filterMap, Prod.exists,
    Option.map_eq_some_iff]
  constructor
  · rintro ⟨latch, value, hvalue, rfl⟩
    refine ⟨(storeInsertPoint loop latch value).2, some latch, value, hvalue, latch, rfl, ?_⟩
    rw [← store_insert_point_block]
  · rintro ⟨position, _, value, hvalue, latch, rfl, hpoint⟩
    refine ⟨latch, value, hvalue, ?_⟩
    rw [← store_insert_point_block, hpoint]

/-- A store comes after the PHIs of its block and at the latest before the terminator. -/
theorem store_position {block : Block} {position : Nat}
    (h : (block, position) ∈ insertStoresToSpilledLCD spill) :
    loop.numPHIs block ≤ position ∧ position ≤ loop.size block := by
  simp only [insertStoresToSpilledLCD, List.mem_filterMap, Prod.exists,
    Option.map_eq_some_iff] at h
  obtain ⟨_, value, hvalue, latch, rfl, hpoint⟩ := h
  have hsize : ∀ block, loop.numPHIs block ≤ loop.size block := fun _ => Nat.le_add_right _ _
  cases value with
  | noInstruction =>
      cases hpoint
      exact ⟨hsize _, Nat.le_refl _⟩
  | instruction source index =>
      have hvalid := spill.value_valid _ _ _ hvalue
      rw [storeInsertPoint] at hpoint
      split_ifs at hpoint with hincluded hphi
      · cases hpoint
        exact ⟨Nat.le_refl _, hsize _⟩
      · cases hpoint
        exact ⟨(Nat.not_lt.mp hphi).trans (Nat.le_succ _), hvalid⟩
      · cases hpoint
        exact ⟨hsize _, Nat.le_refl _⟩

/-! ## Dominators -/

section Dominators

variable {analyses : SpillAnalyses Block} (hdoc : analyses.Documented loop)

include hdoc

/-- The immediate dominator has fewer dominators. -/
theorem dominators_decrease {block : Block} (hne : block ≠ loop.header) :
    (loop.blocks.filter
      (analyses.dominates · (analyses.immediateDominator block))).length <
    (loop.blocks.filter (analyses.dominates · block)).length := by
  have hidom := hdoc.immediateDominator block hne
  have hsub : List.Sublist
      (loop.blocks.filter (analyses.dominates · (analyses.immediateDominator block)))
      (loop.blocks.filter (analyses.dominates · block)) := by
    refine List.monotone_filter_right _ fun other hother => ?_
    exact (hdoc.dominates _ _).mpr (((hdoc.dominates _ _).mp hother).trans hidom.dominates)
  refine lt_of_le_of_ne hsub.length_le fun hlength => ?_
  -- The block dominates itself, but not its immediate dominator.
  have hmem : block ∈ loop.blocks.filter (analyses.dominates · block) :=
    List.mem_filter.mpr ⟨loop.mem_blocks block, (hdoc.dominates _ _).mpr (.refl block)⟩
  rw [← hsub.eq_of_length hlength, List.mem_filter, hdoc.dominates] at hmem
  exact hidom.holds (hidom.dominates.antisymm hmem.2 (loop.reached _))

/-- The block of a user is where its value is needed. -/
theorem needed_by_user_block (user : SpillUser Block) :
    user.NeedsAt loop (originalUserBlock loop analyses user) := by
  have hfold : ∀ (blocks : List Block) (start : Block),
      loop.NearestDominator (fun near => ∀ block ∈ blocks, loop.Dominates near block) start
        (blocks.foldl analyses.findNearestCommonDominator start) := by
    intro blocks
    induction blocks with
    | nil => exact fun start => .self (by simp)
    | cons first rest ih =>
        intro start
        have hcommon := hdoc.findNearestCommonDominator start first
        have hrest := ih (analyses.findNearestCommonDominator start first)
        refine ⟨hrest.dominates.trans hcommon.dominates, ?_, fun other hother hall => ?_⟩
        · intro block hblock
          rcases List.mem_cons.mp hblock with rfl | hmem
          · exact hrest.dominates.trans hcommon.holds
          · exact hrest.holds block hmem
        · refine hrest.nearest other (hcommon.nearest other hother ?_) fun block hmem => ?_
          · exact hall first List.mem_cons_self
          · exact hall block (List.mem_cons_of_mem _ hmem)
  unfold SpillUser.NeedsAt originalUserBlock
  split_ifs with hphi
  · simpa only [hphi, true_implies] using hfold user.incomingBlocks user.block
  · exact .self fun h => absurd h hphi

end Dominators

variable [DecidableEq Block] {analyses : SpillAnalyses Block}

/-- The users, a store of the PHI among them, are in the loop. -/
theorem clone_user_included {user : SpillUser Block} (h : user ∈ spill.cloneUsers) :
    loop.isIncluded user.block = true := by
  rcases List.mem_append.mp h with huser | hstore
  · exact spill.user_included user huser
  · obtain ⟨⟨source, value⟩, hvalue, hself⟩ := List.mem_filterMap.mp hstore
    dsimp only at hself
    split_ifs at hself with heq
    obtain ⟨latch, rfl, rfl⟩ := Option.map_eq_some_iff.mp hself
    have hholds : spill.HoldsStore (storeInsertPoint loop latch value).1 :=
      ⟨latch, value, hvalue, (store_insert_point_block latch value).symm⟩
    exact hholds.included

/-! ## The walk up the dominator tree -/

section Walk

variable (hdoc : analyses.Documented loop)

include hdoc

/-- The invalidated blocks are those overtaken. -/
theorem mem_invalidated_blocks {block : Block} :
    block ∈ invalidatedBlocks loop analyses (insertStoresToSpilledLCD spill) ↔
      spill.Overtaken block := by
  -- Of the blocks of the loop, the ones that the reachability analysis gives.
  have hstores : ∀ block, (block ∈ (insertStoresToSpilledLCD spill).flatMap fun store =>
      ((loop.successors store.1).filter fun successor =>
        successor ≠ loop.header ∧ loop.isIncluded successor).flatMap fun successor =>
          successor :: analyses.OUT successor) ↔
      ∃ holder next, spill.HoldsStore holder ∧ loop.Step holder next ∧
        loop.isIncluded next = true ∧ (block = next ∨ block ∈ analyses.OUT next) := by
    intro block
    simp only [List.mem_flatMap, List.mem_filter, List.mem_cons, Prod.exists, decide_eq_true_eq]
    constructor
    · rintro ⟨holder, position, hstore, next, ⟨hsuccessor, hne, hnext⟩, hblock⟩
      have hholds : spill.HoldsStore holder := holds_store_iff.mpr ⟨position, hstore⟩
      exact ⟨holder, next, hholds, ⟨hholds.included, hsuccessor, hne⟩, hnext, hblock⟩
    · rintro ⟨holder, next, hholds, hstep, hnext, hblock⟩
      obtain ⟨position, hstore⟩ := holds_store_iff.mp hholds
      exact ⟨holder, position, hstore, next, ⟨hstep.2.1, hstep.2.2, hnext⟩, hblock⟩
  have hsound : ∀ {block next}, loop.isIncluded next = true →
      block = next ∨ block ∈ analyses.OUT next → ReflTransGen loop.Step next block := by
    rintro block next hnext (rfl | hout)
    · exact .refl
    · exact (hdoc.reaches_of_out _ _ hnext hout).to_reflTransGen
  have hcomplete : ∀ {block next}, loop.isIncluded next = true → loop.isIncluded block = true →
      ReflTransGen loop.Step next block → block = next ∨ block ∈ analyses.OUT next := by
    intro block next hnext hblock hreach
    rcases reflTransGen_iff_eq_or_transGen.mp hreach with heq | htrans
    · exact .inl heq
    · exact .inr (hdoc.out_of_reaches _ _ hnext hblock htrans)
  unfold invalidatedBlocks
  simp only [List.mem_append, hstores, List.mem_map, List.mem_filter, Prod.exists,
    LoopStructure.mem_exit_edges, decide_eq_true_eq, exists_eq_right]
  constructor
  · rintro (⟨holder, next, hholds, hstep, hnext, hblock⟩ |
      ⟨exiting, ⟨hexit, -⟩, holder, next, hholds, hstep, hnext, hexiting⟩)
    · exact ⟨holder, next, hholds, hstep, hnext, hsound hnext hblock⟩
    · exact ⟨holder, next, hholds, hstep, hnext, (hsound hnext hexiting).tail hexit⟩
  · rintro ⟨holder, next, hholds, hstep, hnext, hreach⟩
    by_cases hblock : loop.isIncluded block = true
    · exact .inl ⟨holder, next, hholds, hstep, hnext, hcomplete hnext hblock hreach⟩
    · -- An exit block is entered from a block of the loop.
      rcases hreach.cases_tail with rfl | ⟨exiting, hbefore, hexit⟩
      · exact absurd hnext hblock
      · exact .inr ⟨exiting, ⟨hexit, Bool.eq_false_iff.mpr hblock⟩, holder, next, hholds, hstep,
          hnext, hcomplete hnext hexit.1 hbefore⟩

/-- The walk up ends at the nearest dominator that is not overtaken. -/
theorem valid_block_to_load_in (spill : SpilledLoopCarriedDependence loop) (block : Block) :
    ∃ valid, getValidBlockToLoadIn loop analyses
        (invalidatedBlocks loop analyses (insertStoresToSpilledLCD spill))
        loop.blocks.length block = some valid ∧
      loop.NearestDominator (¬ spill.Overtaken ·) block valid := by
  have hfuel : (loop.blocks.filter (analyses.dominates · block)).length ≤ loop.blocks.length :=
    List.length_filter_le _ _
  generalize loop.blocks.length = fuel at hfuel ⊢
  induction fuel generalizing block with
  | zero =>
      have hnil : loop.blocks.filter (analyses.dominates · block) = [] :=
        List.length_eq_zero_iff.mp (Nat.le_zero.mp hfuel)
      have hself := List.filter_eq_nil_iff.mp hnil block (loop.mem_blocks block)
      exact absurd ((hdoc.dominates _ _).mpr (.refl block)) hself
  | succ fuel ih =>
      rw [getValidBlockToLoadIn]
      have hmem : block ∈ invalidatedBlocks loop analyses (insertStoresToSpilledLCD spill) ↔
          spill.Overtaken block := mem_invalidated_blocks hdoc
      by_cases hovertaken : spill.Overtaken block
      · have hne : block ≠ loop.header := by
          rintro rfl
          exact not_overtaken_header hovertaken
        have hdecrease := dominators_decrease hdoc hne
        obtain ⟨valid, hvalid, hnearest⟩ := ih (analyses.immediateDominator block) (by omega)
        have hidom := hdoc.immediateDominator block hne
        rw [if_pos (hmem.mpr hovertaken), if_neg hne]
        exact ⟨valid, hvalid, .of_above (not_not.mpr hovertaken) hidom.dominates hidom.nearest
          hnearest⟩
      · rw [if_neg (hmem.not.mpr hovertaken)]
        exact ⟨block, rfl, .self hovertaken⟩

end Walk

/-! ## The blocks of the loads -/

namespace SpilledLoopCarriedDependence

variable (spill)

/-- The value is needed in the block: for a user, or as it is an exit. -/
def NeededAt (place : Block) : Prop :=
  (∃ user ∈ spill.cloneUsers, user.NeedsAt loop place) ∨ loop.isIncluded place = false

/-- The block is the nearest one for a place where the value is needed. -/
def NearestFor (block : Block) : Prop :=
  ∃ place, spill.NeededAt place ∧ loop.NearestDominator (¬ spill.Overtaken ·) place block

/-- The block has a load: it is the nearest one for a place, and no other such dominates it. -/
def LoadBlock (block : Block) : Prop :=
  spill.NearestFor block ∧
    ∀ other, spill.NearestFor other → loop.Dominates other block → other = block

variable {spill}

/-- A block of a load is not overtaken. -/
theorem LoadBlock.not_overtaken {block : Block} (h : spill.LoadBlock block) :
    ¬ spill.Overtaken block :=
  let ⟨_, _, hnearest⟩ := h.1
  hnearest.holds

/-- One block of a load dominates a block at most. -/
theorem LoadBlock.unique {block other later : Block} (h : spill.LoadBlock block)
    (hother : spill.LoadBlock other) (hdom : loop.Dominates block later)
    (hdom' : loop.Dominates other later) : block = other := by
  rcases hdom.total hdom' (loop.reached later) with hbelow | hbelow
  · exact hother.2 block h.1 hbelow
  · exact (h.2 other hother.1 hbelow).symm

/-- Every place has a block of a load that dominates it. -/
theorem NeededAt.exists_load_block {place : Block} (h : spill.NeededAt place) :
    ∃ block, spill.LoadBlock block ∧ loop.Dominates block place := by
  obtain ⟨near, hnear⟩ := exists_nearest_dominator (P := (¬ spill.Overtaken ·)) loop.mem_blocks
    (loop.reached place) ⟨loop.header, .source_left _, not_overtaken_header⟩
  obtain ⟨top, htop, hfor, honly⟩ := exists_top_dominator (P := spill.NearestFor)
    (loop.reached near) ⟨near, .refl near, place, h, hnear⟩
  exact ⟨top, ⟨hfor, honly⟩, htop.trans hnear.dominates⟩

end SpilledLoopCarriedDependence

/-- What succeeds for each item of a list succeeds for the list. -/
theorem exists_mapM {α β : Type*} {f : α → Option β} {items : List α}
    (h : ∀ item ∈ items, ∃ result, f item = some result) :
    ∃ results, items.mapM f = some results ∧
      ∀ result, result ∈ results ↔ ∃ item ∈ items, f item = some result := by
  induction items with
  | nil => exact ⟨[], rfl, by simp⟩
  | cons first rest ih =>
      obtain ⟨result, hresult⟩ := h first List.mem_cons_self
      obtain ⟨results, hresults, hmem⟩ := ih fun item hmem => h item (List.mem_cons_of_mem _ hmem)
      refine ⟨result :: results, ?_, fun other => ?_⟩
      · rw [List.mapM_cons, hresult, hresults]
        rfl
      · rw [List.mem_cons, hmem, List.exists_mem_cons_iff, hresult, Option.some.injEq,
          eq_comm]

section Frontier

variable (hdoc : analyses.Documented loop)

include hdoc

/-- The walks up from the places end at the blocks that are the nearest for one. -/
theorem nearest_for_iff {block : Block} :
    spill.NearestFor block ↔
      ∃ place ∈ spill.cloneUsers.map (originalUserBlock loop analyses) ++
        loop.getLoopExitBasicBlocks,
        getValidBlockToLoadIn loop analyses
          (invalidatedBlocks loop analyses (insertStoresToSpilledLCD spill))
          loop.blocks.length place = some block := by
  have hvalid : ∀ place, getValidBlockToLoadIn loop analyses
      (invalidatedBlocks loop analyses (insertStoresToSpilledLCD spill))
      loop.blocks.length place = some block ↔
        loop.NearestDominator (¬ spill.Overtaken ·) place block := by
    intro place
    obtain ⟨valid, hvalid, hnearest⟩ := valid_block_to_load_in hdoc spill place
    rw [hvalid, Option.some.injEq]
    refine ⟨fun heq => heq ▸ hnearest, fun h => hnearest.unique h (loop.reached place)⟩
  simp only [hvalid, List.mem_append, List.mem_map, LoopStructure.mem_exit_blocks]
  refine exists_congr fun place => and_congr_left fun _ => or_congr_left ?_
  refine exists_congr fun user => and_congr_right fun _ => ?_
  have huser := needed_by_user_block hdoc user
  exact ⟨fun h => huser.unique h (loop.reached _), fun heq => heq ▸ huser⟩

/-- The frontier is the blocks of the loads. -/
theorem exists_frontier_for_loads (spill : SpilledLoopCarriedDependence loop) :
    ∃ frontier, defineFrontierForLoadsToSpilledLCD spill analyses
        (insertStoresToSpilledLCD spill) = some frontier ∧
      ∀ block, block ∈ frontier ↔ spill.LoadBlock block := by
  have hplaces : ∀ place ∈ spill.cloneUsers.map (originalUserBlock loop analyses) ++
      loop.getLoopExitBasicBlocks, ∃ valid, getValidBlockToLoadIn loop analyses
        (invalidatedBlocks loop analyses (insertStoresToSpilledLCD spill)) loop.blocks.length
        place = some valid :=
    fun place _ => (valid_block_to_load_in hdoc spill place).imp fun _ h => h.1
  obtain ⟨valid, hvalid, hmem⟩ := exists_mapM hplaces
  refine ⟨_, by rw [defineFrontierForLoadsToSpilledLCD, hvalid]; rfl, fun block => ?_⟩
  simp only [List.mem_dedup, List.mem_filter, decide_eq_true_eq, hmem, ← nearest_for_iff hdoc,
    hdoc.dominates]
  refine and_congr_right fun _ => ⟨fun h other hother hdom => ?_, fun h => ?_⟩
  · by_contra hne
    exact h ⟨other, hother, Ne.symm hne, hdom⟩
  · rintro ⟨other, hother, hne, hdom⟩
    exact hne (h other hother hdom).symm

section Loads

variable {loads : List (Block × Nat)}
  (hloads : ∀ load, load ∈ loads ↔ ∃ block, spill.LoadBlock block ∧
    load = loadInsertPoint spill (insertStoresToSpilledLCD spill) block)

include hloads

/-- The first load that dominates a user is that of the block that dominates where it needs the
value. -/
theorem exists_load_of_user (user : SpillUser Block) (huser : user ∈ spill.cloneUsers) :
    ∃ block place, spill.LoadBlock block ∧ user.NeedsAt loop place ∧ loop.Dominates block place ∧
      loads.find? (fun load => analyses.dominates load.1 user.block) =
        some (loadInsertPoint spill (insertStoresToSpilledLCD spill) block) := by
  have hneeds := needed_by_user_block hdoc user
  have hneeded : spill.NeededAt _ := .inl ⟨user, huser, hneeds⟩
  obtain ⟨block, hblock, hdom⟩ := hneeded.exists_load_block
  refine ⟨block, _, hblock, hneeds, hdom, ?_⟩
  cases hfind : loads.find? fun load => analyses.dominates load.1 user.block with
  | none =>
      have hnone := List.find?_eq_none.mp hfind _ ((hloads _).mpr ⟨block, hblock, rfl⟩)
      exact absurd ((hdoc.dominates _ _).mpr (hdom.trans hneeds.dominates)) hnone
  | some load =>
      -- Another load that dominates the user would be in the same block.
      obtain ⟨other, hother, rfl⟩ := (hloads load).mp (List.mem_of_find?_eq_some hfind)
      have hfound := List.find?_some hfind
      have hdom' : loop.Dominates other user.block := (hdoc.dominates _ _).mp hfound
      rw [hblock.unique hother (hdom.trans hneeds.dominates) hdom']

/-- The loads that dominate an exit are those of the blocks that dominate it. -/
theorem mem_live_outs {exit : Block} {load : Block × Nat} :
    load ∈ loads.filter (fun load => analyses.dominates load.1 exit) ↔
      ∃ block, spill.LoadBlock block ∧ loop.Dominates block exit ∧
        load = loadInsertPoint spill (insertStoresToSpilledLCD spill) block := by
  rw [List.mem_filter, hloads, hdoc.dominates]
  constructor
  · rintro ⟨⟨block, hblock, rfl⟩, hdom⟩
    exact ⟨block, hblock, hdom, rfl⟩
  · rintro ⟨block, hblock, hdom, rfl⟩
    exact ⟨⟨block, hblock, rfl⟩, hdom⟩

/-- A load dominates every exit. -/
theorem live_outs_ne_nil {exit : Block} (hexit : loop.isIncluded exit = false) :
    loads.filter (fun load => analyses.dominates load.1 exit) ≠ [] := by
  have hneeded : spill.NeededAt exit := .inr hexit
  obtain ⟨block, hblock, hdom⟩ := hneeded.exists_load_block
  exact List.ne_nil_of_mem ((mem_live_outs hdoc hloads).mpr ⟨block, hblock, hdom, rfl⟩)

end Loads

variable (spill) in
/-- The inserted code. -/
theorem exists_spill_code :
    ∃ code, createLoadsAndStoresToSpilledLCD spill analyses = some code ∧
      code.environmentStores = insertStoresToSpilledLCD spill ∧
      (∀ load, load ∈ code.environmentLoads ↔ ∃ block, spill.LoadBlock block ∧
        load = loadInsertPoint spill (insertStoresToSpilledLCD spill) block) ∧
      (∀ user ∈ spill.cloneUsers, ∃ block place, spill.LoadBlock block ∧
        user.NeedsAt loop place ∧ loop.Dominates block place ∧ code.replacement user =
          some (loadInsertPoint spill (insertStoresToSpilledLCD spill) block)) ∧
      ∀ exit, loop.isIncluded exit = false → code.liveOuts exit ≠ [] ∧
        ∀ load, load ∈ code.liveOuts exit ↔ ∃ block, spill.LoadBlock block ∧
          loop.Dominates block exit ∧
          load = loadInsertPoint spill (insertStoresToSpilledLCD spill) block := by
  obtain ⟨frontier, hfrontier, hblocks⟩ := exists_frontier_for_loads hdoc spill
  have hloads : ∀ load, load ∈ frontier.map
      (loadInsertPoint spill (insertStoresToSpilledLCD spill)) ↔
        ∃ block, spill.LoadBlock block ∧
          load = loadInsertPoint spill (insertStoresToSpilledLCD spill) block := by
    intro load
    simp only [List.mem_map, hblocks, eq_comm (a := load)]
  have husers := exists_load_of_user hdoc hloads
  refine ⟨⟨_, _, _, _⟩, ?_, rfl, hloads, husers, fun exit hexit =>
    ⟨live_outs_ne_nil hdoc hloads hexit, fun load => mem_live_outs hdoc hloads⟩⟩
  rw [createLoadsAndStoresToSpilledLCD]
  simp only [hfrontier, Option.bind_eq_bind, Option.bind_some]
  refine if_pos ⟨fun user huser => ?_, fun exit hexit => ?_⟩
  · obtain ⟨block, place, -, -, -, hfound⟩ := husers user huser
    exact Option.isSome_iff_exists.mpr ⟨_, hfound⟩
  · exact live_outs_ne_nil hdoc hloads (LoopStructure.mem_exit_blocks.mp hexit)

end Frontier

end Gino.Helix
