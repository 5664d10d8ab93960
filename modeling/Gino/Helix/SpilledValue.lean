import Gino.Helix.SpillFrontier

/-!
# The value of a spilled PHI

An iteration starts with the value of the PHI in its cell of the environment. `runPath` executes
the inserted loads and stores along the blocks of an iteration; what the stores store is arbitrary.
`PreservesValue` says that every user and every exit gets the value of the PHI from its load. It
holds exactly where no exit depends on a load in the exit block itself that comes after a store
(`spill_preserves_value_iff`).
-/

namespace Gino.Helix

open Graph Relation SpilledLoopCarriedDependence

variable {Block V : Type*}

/-! ## An iteration -/

/-- The cell of the PHI, what the loads have read, and the number of blocks executed. -/
structure IterationState (Block V : Type*) where
  cell : V
  registers : Block × Nat → Option V
  executed : Nat

/-- The start of an iteration with the value of the PHI in its cell. -/
def IterationState.start (value : V) : IterationState Block V := ⟨value, fun _ => none, 0⟩

section Run

variable [DecidableEq Block] (code : SpillCode Block) (stored : Nat → Block × Nat → V)

/-- The inserted code at a position of a block: the load is before the stores. -/
def runPosition (block : Block) (state : IterationState Block V) (position : Nat) :
    IterationState Block V :=
  let loaded := if (block, position) ∈ code.environmentLoads then
    { state with registers := Function.update state.registers (block, position) (some state.cell) }
    else state
  if (block, position) ∈ code.environmentStores then
    { loaded with cell := stored state.executed (block, position) }
  else loaded

/-- The inserted code at the first positions of a block. -/
def runPositions (block : Block) (positions : Nat) (state : IterationState Block V) :
    IterationState Block V :=
  (List.range positions).foldl (runPosition code stored block) state

/-- The inserted code of a block, up to its terminator. -/
def runBlock (loop : LoopStructure Block) (state : IterationState Block V) (block : Block) :
    IterationState Block V :=
  { runPositions code stored block (loop.size block + 1) state with executed := state.executed + 1 }

/-- The inserted code of blocks, one after the other. -/
def runPath (loop : LoopStructure Block) (path : List Block) (value : V) :
    IterationState Block V :=
  path.foldl (runBlock code stored loop) (.start value)

end Run

/-! ## What has to hold, and when -/

section Statement

variable [DecidableEq Block] {loop : LoopStructure Block}

/-- A user has a load, which has read the value of the PHI wherever the user is executed. A PHI
reads at the end of the blocks it takes the value from. -/
def SpillCode.UserReads (code : SpillCode Block) (loop : LoopStructure Block)
    (user : SpillUser Block) : Prop :=
  ∃ load, code.replacement user = some load ∧
    ∀ (V : Type) (value : V) (stored : Nat → Block × Nat → V) (path : List Block),
      if user.IsPHI loop then
        ∀ block ∈ user.incomingBlocks, Walk loop.Step path loop.header block →
          (runPath code stored loop path value).registers load = some value
      else
        Walk loop.Step path loop.header user.block →
          (runPositions code stored user.block (user.index + 1)
            (runPath code stored loop path.dropLast value)).registers load = some value

/-- An exit has live-out loads, and each has read the value of the PHI when the exit is reached. -/
def SpillCode.ExitReads (code : SpillCode Block) (loop : LoopStructure Block) (exit : Block) :
    Prop :=
  code.liveOuts exit ≠ [] ∧ ∀ load ∈ code.liveOuts exit,
    ∀ (V : Type) (value : V) (stored : Nat → Block × Nat → V) (path : List Block),
      Walk loop.Step path loop.header exit →
        (runPath code stored loop path value).registers load = some value

/-- The code is inserted, and its loads give the value of the PHI to every user and every exit. -/
def PreservesValue (spill : SpilledLoopCarriedDependence loop) (analyses : SpillAnalyses Block) :
    Prop :=
  ∃ code, createLoadsAndStoresToSpilledLCD spill analyses = some code ∧
    (∀ user ∈ spill.cloneUsers, code.UserReads loop user) ∧
    ∀ exit, loop.isIncluded exit = false → code.ExitReads loop exit

/-- Every exit that is entered from a block with a store is strictly dominated by the load block of
some place. -/
def SpilledLoopCarriedDependence.LoadsBeforeExits (spill : SpilledLoopCarriedDependence loop) :
    Prop :=
  ∀ exiting exit, spill.HoldsStore exiting → loop.Step exiting exit →
    loop.isIncluded exit = false →
      ∃ early, spill.NearestFor early ∧ early ≠ exit ∧ loop.Dominates early exit

end Statement

/-! ## The inserted code of one block -/

section Positions

variable [DecidableEq Block] {code : SpillCode Block} {stored : Nat → Block × Nat → V}
  {block : Block} {state : IterationState Block V}

/-- One more position. -/
theorem run_positions_succ (positions : Nat) :
    runPositions code stored block (positions + 1) state =
      runPosition code stored block (runPositions code stored block positions state) positions := by
  rw [runPositions, List.range_succ, List.foldl_append]
  rfl

/-- The cell after a position. -/
theorem run_position_cell (position : Nat) :
    (runPosition code stored block state position).cell =
      if (block, position) ∈ code.environmentStores then stored state.executed (block, position)
      else state.cell := by
  unfold runPosition
  split_ifs <;> rfl

/-- The loads at other positions are left alone. -/
theorem run_position_registers {load : Block × Nat} {position : Nat}
    (hne : load ≠ (block, position)) :
    (runPosition code stored block state position).registers load = state.registers load := by
  unfold runPosition
  split_ifs <;> simp [Function.update_of_ne hne]

/-- A load reads the cell. -/
theorem run_position_load {position : Nat} (h : (block, position) ∈ code.environmentLoads) :
    (runPosition code stored block state position).registers (block, position) =
      some state.cell := by
  unfold runPosition
  split_ifs <;> simp

/-- The cell is kept where there is no store. -/
theorem run_positions_cell {positions : Nat}
    (h : ∀ position < positions, (block, position) ∉ code.environmentStores) :
    (runPositions code stored block positions state).cell = state.cell := by
  induction positions with
  | zero => rfl
  | succ positions ih =>
      rw [run_positions_succ, run_position_cell, if_neg (h positions (Nat.lt_succ_self _)),
        ih fun position hlt => h position (hlt.trans (Nat.lt_succ_self _))]

/-- The loads of other blocks are left alone. -/
theorem run_positions_registers {load : Block × Nat} (hne : load.1 ≠ block) (positions : Nat) :
    (runPositions code stored block positions state).registers load = state.registers load := by
  induction positions with
  | zero => rfl
  | succ positions ih =>
      rw [run_positions_succ, run_position_registers fun heq => hne (congrArg Prod.fst heq), ih]

/-- A load before the stores of its block reads what the cell has at the start of the block. -/
theorem run_positions_load {position positions : Nat}
    (hload : (block, position) ∈ code.environmentLoads) (hlt : position < positions)
    (hbefore : ∀ other < position, (block, other) ∉ code.environmentStores) :
    (runPositions code stored block positions state).registers (block, position) =
      some state.cell := by
  induction positions with
  | zero => exact absurd hlt (Nat.not_lt_zero _)
  | succ positions ih =>
      rw [run_positions_succ]
      rcases Nat.lt_succ_iff_lt_or_eq.mp hlt with hlt | rfl
      · rw [run_position_registers fun heq => hlt.ne (congrArg Prod.snd heq), ih hlt]
      · rw [run_position_load hload, run_positions_cell hbefore]

/-- A value that only a store of another value could change. -/
theorem run_positions_stored {value : V} (hvalue : ∀ time position, stored time position = value)
    {positions : Nat} (h : state.cell = value ∨
      ∃ position < positions, (block, position) ∈ code.environmentStores) :
    (runPositions code stored block positions state).cell = value := by
  induction positions with
  | zero =>
      rcases h with h | ⟨position, hlt, -⟩
      · exact h
      · exact absurd hlt (Nat.not_lt_zero _)
  | succ positions ih =>
      rw [run_positions_succ, run_position_cell]
      split_ifs with hstore
      · exact hvalue _ _
      · refine ih (h.imp_right ?_)
        rintro ⟨position, hlt, hmem⟩
        rcases Nat.lt_succ_iff_lt_or_eq.mp hlt with hlt | rfl
        · exact ⟨position, hlt, hmem⟩
        · exact absurd hmem hstore

end Positions

/-! ## The load of a block -/

/-- The first number of a range with a property, or the end of the range, is at most each number
with the property. -/
theorem find_range_getD_le {P : Nat → Bool} {start length number : Nat} (hlow : start ≤ number)
    (h : P number = true) :
    ((List.range' start length).find? P).getD (start + length) ≤ number := by
  cases hfind : (List.range' start length).find? P with
  | none =>
      have hnone := List.find?_range'_eq_none.mp hfind number hlow
      by_contra hlt
      have hfalse := hnone (by simpa using hlt)
      rw [h] at hfalse
      exact absurd hfalse (by decide)
  | some first =>
      obtain ⟨-, -, hearlier⟩ := List.find?_range'_eq_some.mp hfind
      by_contra hlt
      have hfalse := hearlier number hlow (by simpa using hlt)
      rw [h] at hfalse
      exact absurd hfalse (by decide)

section LoadPoint

variable [DecidableEq Block] {loop : LoopStructure Block}
  {spill : SpilledLoopCarriedDependence loop} {block : Block}

/-- The load of a block comes before its terminator. -/
theorem load_insert_point_le_size :
    (loadInsertPoint spill (insertStoresToSpilledLCD spill) block).2 ≤ loop.size block := by
  unfold loadInsertPoint
  cases hfind : (List.range' (loop.numPHIs block) (loop.numOthers block)).find? _ with
  | none => exact Nat.le_refl _
  | some position =>
      have hrange := (List.find?_range'_eq_some.mp hfind).2.1
      exact (List.mem_range'_1.mp hrange).2.le

/-- The load of a block comes before the stores of the block. -/
theorem load_insert_point_le_store {position : Nat}
    (h : (block, position) ∈ insertStoresToSpilledLCD spill) :
    (loadInsertPoint spill (insertStoresToSpilledLCD spill) block).2 ≤ position := by
  exact find_range_getD_le (store_position h).1 (decide_eq_true (.inr h))

/-- The load of a block comes before the users in the block that are no PHIs. -/
theorem load_insert_point_le_user {user : SpillUser Block} (huser : user ∈ spill.cloneUsers)
    (hphi : ¬ user.IsPHI loop) :
    (loadInsertPoint spill (insertStoresToSpilledLCD spill) user.block).2 ≤ user.index :=
  find_range_getD_le (Nat.not_lt.mp hphi) (decide_eq_true (.inl ⟨user, huser, rfl, rfl⟩))

end LoadPoint

/-! ## No store comes before a load -/

namespace SpilledLoopCarriedDependence

variable {loop : LoopStructure Block} {spill : SpilledLoopCarriedDependence loop}

/-- No store can have been executed when the block starts. -/
def Clear (spill : SpilledLoopCarriedDependence loop) (block : Block) : Prop :=
  ¬ spill.Overtaken block ∧
    (loop.isIncluded block = false →
      ∀ exiting, loop.Step exiting block → ¬ spill.HoldsStore exiting)

/-- The blocks before a clear one hold no store. -/
theorem Clear.not_holds_store {block : Block} (h : spill.Clear block) {path : List Block}
    (hpath : Walk loop.Step path loop.header block) :
    ∀ before ∈ path.dropLast, ¬ spill.HoldsStore before := by
  intro before hbefore hholds
  have hsplit : path = path.dropLast ++ [block] :=
    (List.dropLast_append_getLast? block hpath.last).symm
  obtain ⟨first, rest, hrest⟩ := List.append_of_mem hbefore
  rw [hrest, List.append_assoc, List.cons_append] at hsplit
  have hsuffix := (hpath.split hsplit).2
  cases hnext : rest ++ [block] with
  | nil => simp at hnext
  | cons next later =>
      rw [hnext] at hsuffix
      obtain ⟨hstep, hlater⟩ := hsuffix.tail
      have hreach := hlater.source_reaches hlater.target_mem
      by_cases hincluded : loop.isIncluded next = true
      · exact h.1 ⟨before, next, hholds, hstep, hincluded, hreach⟩
      · -- The walk ends outside the loop.
        rcases hreach.cases_head with rfl | ⟨after, hafter, -⟩
        · exact h.2 (Bool.eq_false_iff.mpr hincluded) before hstep hholds
        · exact hincluded hafter.1

end SpilledLoopCarriedDependence

section Loads

variable [DecidableEq Block] {loop : LoopStructure Block}
  {spill : SpilledLoopCarriedDependence loop} {code : SpillCode Block}
  {stored : Nat → Block × Nat → V} {value : V}

/-- One more block. -/
theorem run_path_concat (path : List Block) (block : Block) :
    runPath code stored loop (path ++ [block]) value =
      runBlock code stored loop (runPath code stored loop path value) block := by
  rw [runPath, List.foldl_append]
  rfl

/-- Blocks without stores keep the value in the cell. -/
theorem run_path_cell (hstores : code.environmentStores = insertStoresToSpilledLCD spill)
    {path : List Block} (h : ∀ block ∈ path, ¬ spill.HoldsStore block) :
    (runPath code stored loop path value).cell = value := by
  induction path using List.reverseRecOn with
  | nil => rfl
  | append_singleton path block ih =>
      rw [run_path_concat]
      have hkeep := ih fun before hbefore => h before (List.mem_append_left _ hbefore)
      refine (run_positions_cell fun position _ hmem => ?_).trans hkeep
      rw [hstores] at hmem
      exact h block (by simp) (holds_store_iff.mpr ⟨position, hmem⟩)

variable (hstores : code.environmentStores = insertStoresToSpilledLCD spill)
  (hloads : ∀ load, load ∈ code.environmentLoads ↔ ∃ block, spill.LoadBlock block ∧
    load = loadInsertPoint spill (insertStoresToSpilledLCD spill) block)

include hstores hloads

/-- A load reads what the cell has at the start of its block. -/
theorem load_reads_cell {block : Block} (hblock : spill.LoadBlock block)
    (state : IterationState Block V) {positions : Nat}
    (hpositions :
      (loadInsertPoint spill (insertStoresToSpilledLCD spill) block).2 < positions) :
    (runPositions code stored block positions state).registers
      (loadInsertPoint spill (insertStoresToSpilledLCD spill) block) = some state.cell := by
  have hload := (hloads _).mpr ⟨block, hblock, rfl⟩
  refine run_positions_load hload hpositions fun other hlt hmem => ?_
  rw [hstores] at hmem
  exact absurd (load_insert_point_le_store hmem) (Nat.not_le.mpr hlt)

variable (stored value) in
/-- A load in a clear block reads the value. -/
theorem load_reads {block : Block} (hblock : spill.LoadBlock block) (hclear : spill.Clear block)
    {path : List Block} (hpath : Walk loop.Step path loop.header block) {positions : Nat}
    (hpositions :
      (loadInsertPoint spill (insertStoresToSpilledLCD spill) block).2 < positions) :
    (runPositions code stored block positions
      (runPath code stored loop path.dropLast value)).registers
        (loadInsertPoint spill (insertStoresToSpilledLCD spill) block) = some value := by
  rw [load_reads_cell hstores hloads hblock _ hpositions,
    run_path_cell hstores (hclear.not_holds_store hpath)]

/-- A walk through the block of a load ends with the value read. -/
theorem run_path_reads {block : Block} (hblock : spill.LoadBlock block)
    (hclear : spill.Clear block) {target : Block} {path : List Block}
    (hpath : Walk loop.Step path loop.header target) (hmem : block ∈ path) :
    (runPath code stored loop path value).registers
      (loadInsertPoint spill (insertStoresToSpilledLCD spill) block) = some value := by
  induction path using List.reverseRecOn generalizing target with
  | nil => simp at hmem
  | append_singleton path last ih =>
      have hlast : last = target := by simpa using hpath.last
      subst hlast
      rw [run_path_concat]
      by_cases heq : block = last
      · subst heq
        have hread := load_reads stored value hstores hloads hblock hclear hpath
          (Nat.lt_succ_of_le load_insert_point_le_size)
        rwa [List.dropLast_concat] at hread
      · -- The load was executed before, and the last block leaves it alone.
        have hbefore : block ∈ path := (List.mem_append.mp hmem).resolve_right fun hmem =>
          heq (List.mem_singleton.mp hmem)
        obtain ⟨before, -, hprefix⟩ := hpath.of_concat (List.ne_nil_of_mem hbefore)
        exact (run_positions_registers heq _).trans (ih hprefix hbefore)

end Loads

/-! ## When the value is preserved -/

section Preserved

variable {loop : LoopStructure Block} {spill : SpilledLoopCarriedDependence loop}

/-- An exit block dominates no other block. -/
theorem eq_of_exit_dominates {exit block : Block} (hexit : loop.isIncluded exit = false)
    (hdom : loop.Dominates exit block) : exit = block := by
  rcases (hdom.reaches (loop.reached block)).cases_head with heq | ⟨next, hstep, -⟩
  · exact heq
  · have hincluded := hstep.1
    rw [hexit] at hincluded
    exact absurd hincluded (by decide)

variable [DecidableEq Block] {analyses : SpillAnalyses Block}

/-- A load block in the loop is clear. -/
theorem LoadBlock.clear_of_included {block : Block} (hblock : spill.LoadBlock block)
    (hincluded : loop.isIncluded block = true) : spill.Clear block :=
  ⟨hblock.not_overtaken, fun hexit => absurd (hexit.symm.trans hincluded) (by decide)⟩

/-- A load block is clear where every exit that a store comes right before has an earlier load. -/
theorem LoadBlock.clear (h : spill.LoadsBeforeExits) {block : Block}
    (hblock : spill.LoadBlock block) : spill.Clear block := by
  refine ⟨hblock.not_overtaken, fun hexit exiting hstep hholds => ?_⟩
  obtain ⟨early, hearly, hne, hdom⟩ := h exiting block hholds hstep hexit
  exact hne (hblock.2 early hearly hdom)

/-- The users read the value of the PHI. -/
theorem user_reads {code : SpillCode Block} {block place : Block} {user : SpillUser Block}
    (hstores : code.environmentStores = insertStoresToSpilledLCD spill)
    (hloads : ∀ load, load ∈ code.environmentLoads ↔ ∃ block, spill.LoadBlock block ∧
      load = loadInsertPoint spill (insertStoresToSpilledLCD spill) block)
    (huser : user ∈ spill.cloneUsers) (hblock : spill.LoadBlock block)
    (hplace : user.NeedsAt loop place) (hdom : loop.Dominates block place)
    (hreplaced : code.replacement user =
      some (loadInsertPoint spill (insertStoresToSpilledLCD spill) block)) :
    code.UserReads loop user := by
  -- The load is in the loop, as the user is.
  have hincluded : loop.isIncluded block = true := by
    by_contra hexit
    have heq := eq_of_exit_dominates (Bool.eq_false_iff.mpr hexit) (hdom.trans hplace.dominates)
    exact hexit (heq ▸ clone_user_included huser)
  have hclear := LoadBlock.clear_of_included hblock hincluded
  refine ⟨_, hreplaced, fun V value stored path => ?_⟩
  split_ifs with hphi
  · intro before hbefore hpath
    exact run_path_reads hstores hloads hblock hclear hpath
      (hdom.trans (hplace.holds hphi before hbefore) path hpath)
  · intro hpath
    by_cases heq : block = user.block
    · subst heq
      exact load_reads _ _ hstores hloads hblock hclear hpath
        (Nat.lt_succ_of_le (load_insert_point_le_user huser hphi))
    · -- The load was executed before the block of the user.
      have hmem := hdom.trans hplace.dominates path hpath
      have hsplit : path = path.dropLast ++ [user.block] :=
        (List.dropLast_append_getLast? user.block hpath.last).symm
      rw [hsplit] at hmem hpath
      have hbefore := (List.mem_append.mp hmem).resolve_right fun hmem =>
        heq (List.mem_singleton.mp hmem)
      obtain ⟨before, -, hprefix⟩ := hpath.of_concat (List.ne_nil_of_mem hbefore)
      exact (run_positions_registers heq _).trans
        (run_path_reads hstores hloads hblock hclear hprefix hbefore)

/-- A store right before an exit is what a load in the exit block reads. -/
theorem exit_load_stale {code : SpillCode Block}
    (hstores : code.environmentStores = insertStoresToSpilledLCD spill)
    (hloads : ∀ load, load ∈ code.environmentLoads ↔ ∃ block, spill.LoadBlock block ∧
      load = loadInsertPoint spill (insertStoresToSpilledLCD spill) block)
    {exiting exit : Block} (hholds : spill.HoldsStore exiting) (hstep : loop.Step exiting exit)
    (hexit : spill.LoadBlock exit) :
    ∃ path, Walk loop.Step path loop.header exit ∧
      (runPath code (fun _ _ => true) loop path false).registers
        (loadInsertPoint spill (insertStoresToSpilledLCD spill) exit) = some true := by
  obtain ⟨path, hpath⟩ := exists_walk (loop.reached exiting)
  refine ⟨path ++ [exit], hpath.append hstep (Walk.single exit), ?_⟩
  have hsplit : path = path.dropLast ++ [exiting] :=
    (List.dropLast_append_getLast? exiting hpath.last).symm
  obtain ⟨position, hstore⟩ := holds_store_iff.mp hholds
  have hcell : (runPath code (fun _ _ => true) loop path false).cell = true := by
    rw [hsplit, run_path_concat]
    refine run_positions_stored (fun _ _ => rfl) (.inr ⟨position, ?_, hstores ▸ hstore⟩)
    exact Nat.lt_succ_of_le (store_position hstore).2
  rw [run_path_concat]
  refine (load_reads_cell hstores hloads hexit _ ?_).trans (congrArg some hcell)
  exact Nat.lt_succ_of_le load_insert_point_le_size

/-- An exit that has no earlier load has a load of its own. -/
theorem exit_load_block {exit : Block} (hexit : loop.isIncluded exit = false)
    (h : ¬ ∃ early, spill.NearestFor early ∧ early ≠ exit ∧ loop.Dominates early exit) :
    spill.LoadBlock exit := by
  have hothers : ∀ other, spill.NearestFor other → loop.Dominates other exit → other = exit := by
    intro other hother hdom
    by_contra hne
    exact h ⟨other, hother, hne, hdom⟩
  obtain ⟨near, hnear⟩ := exists_nearest_dominator (P := (¬ spill.Overtaken ·)) loop.mem_blocks
    (loop.reached exit) ⟨loop.header, .source_left _, not_overtaken_header⟩
  have hfor : spill.NearestFor near := ⟨exit, .inr hexit, hnear⟩
  have heq := hothers near hfor hnear.dominates
  exact ⟨heq ▸ hfor, hothers⟩

/-- The value of a spilled PHI is preserved exactly where every exit entered from a block with a
store is strictly dominated by the nearest block, of those not overtaken, of some place where the
value is needed. -/
theorem spill_preserves_value_iff (hdoc : analyses.Documented loop)
    (spill : SpilledLoopCarriedDependence loop) :
    PreservesValue spill analyses ↔ spill.LoadsBeforeExits := by
  obtain ⟨code, hcode, hstores, hloads, husers, hexits⟩ := exists_spill_code spill hdoc
  constructor
  · rintro ⟨code', hcode', -, hreads⟩ exiting exit hholds hstep hexit
    obtain rfl : code' = code := Option.some.inj (hcode'.symm.trans hcode)
    by_contra hearly
    -- The load in the exit block reads what the store before it stored.
    have hblock := exit_load_block hexit hearly
    obtain ⟨path, hpath, hstale⟩ := exit_load_stale hstores hloads hholds hstep hblock
    have hread := (hreads exit hexit).2 _
      (((hexits exit hexit).2 _).mpr ⟨exit, hblock, .refl exit, rfl⟩) Bool false (fun _ _ => true)
      path hpath
    rw [hstale] at hread
    exact absurd hread (by decide)
  · intro hearly
    refine ⟨code, hcode, fun user huser => ?_, fun exit hexit => ⟨(hexits exit hexit).1, ?_⟩⟩
    · obtain ⟨block, place, hblock, hplace, hdom, hreplaced⟩ := husers user huser
      exact user_reads hstores hloads huser hblock hplace hdom hreplaced
    · intro load hload V value stored path hpath
      obtain ⟨block, hblock, hdom, rfl⟩ := ((hexits exit hexit).2 load).mp hload
      exact run_path_reads hstores hloads hblock (LoadBlock.clear hearly hblock) hpath
        (hdom path hpath)

end Preserved

/-! ## A loop along a list -/

/-- The loop `while (cur != NULL) { ...; prev = cur; cur = cur->next; }`: the header with the PHIs
of `prev` and `cur` and the test, the body, and the exit block. -/
def listLoop : LoopStructure (Fin 3) where
  header := 0
  blocks := [0, 1, 2]
  isIncluded block := block ≠ 2
  successors
    | 0 => [1, 2]
    | 1 => [0]
    | 2 => []
  numPHIs block := if block = 0 then 2 else 0
  numOthers
    | 0 => 1
    | 1 => 2
    | 2 => 0
  mem_blocks := by decide
  header_included := rfl
  from_header
    | 0 => .refl
    | 1 => .single (by decide)
    | 2 => .single (by decide)

instance : DecidableRel listLoop.Step := fun block next =>
  inferInstanceAs (Decidable (_ ∧ next ∈ listLoop.successors block ∧ next ≠ 0))

/-- The PHI of `prev`, which takes the value of `cur` from the body, with its users. -/
def prevSpill (users : List (SpillUser (Fin 3)))
    (husers : ∀ user ∈ users, listLoop.isIncluded user.block = true) :
    SpilledLoopCarriedDependence listLoop where
  index := 0
  incoming := [(none, .noInstruction), (some 1, .instruction 0 1)]
  users := users
  isPHI := by decide
  latch_included latch value hmem := by
    obtain ⟨rfl, -⟩ : latch = 1 ∧ value = .instruction 0 1 := by simpa using hmem
    rfl
  value_valid source block index hmem := by
    have heq : (source, IncomingValue.instruction block index) =
        (some 1, IncomingValue.instruction 0 1) := by simpa using hmem
    cases heq
    decide
  user_included := husers

/-- Where the body reads `prev`, the load goes to the header and also serves the exit. -/
theorem list_loop_preserves :
    PreservesValue (prevSpill [⟨1, 0, []⟩] (by decide)) (SpillAnalyses.reference listLoop) := by
  refine (spill_preserves_value_iff SpillAnalyses.reference_documented _).mpr ?_
  intro exiting exit _ _ hexit
  -- The body comes after the store in the header, which dominates it and the exit.
  have hovertaken : (prevSpill [⟨1, 0, []⟩] (by decide)).Overtaken 1 :=
    ⟨0, 1, ⟨1, .instruction 0 1, by decide, rfl⟩, by decide, rfl, .refl⟩
  have hneeded : (prevSpill [⟨1, 0, []⟩] (by decide)).NeededAt 1 :=
    .inl ⟨⟨1, 0, []⟩, by decide, .self fun hphi => absurd hphi (by decide)⟩
  have hnearest : listLoop.NearestDominator
      (¬ (prevSpill [⟨1, 0, []⟩] (by decide)).Overtaken ·) 1 0 := by
    refine ⟨.source_left 1, not_overtaken_header, fun other hother hclear => ?_⟩
    have hmem := hother [0, 1] ⟨by decide, rfl, rfl⟩
    obtain rfl | rfl : other = 0 ∨ other = 1 := by simpa using hmem
    · exact .refl 0
    · exact absurd hovertaken hclear
  refine ⟨0, ⟨1, hneeded, hnearest⟩, ?_, .source_left exit⟩
  rintro rfl
  exact absurd hexit (by decide)

/-- Where only the exit needs `prev`, its load comes after the store and gets `cur`. -/
theorem list_loop_stale :
    ¬ PreservesValue (prevSpill [] (by decide)) (SpillAnalyses.reference listLoop) := by
  rintro ⟨code, hcode, -, hexits⟩
  have hlive : (createLoadsAndStoresToSpilledLCD (prevSpill [] (by decide))
      (SpillAnalyses.reference listLoop)).map (fun code => decide ((2, 0) ∈ code.liveOuts 2)) =
        some true := by decide +kernel
  have hstale : (createLoadsAndStoresToSpilledLCD (prevSpill [] (by decide))
      (SpillAnalyses.reference listLoop)).map (fun code =>
        (runPath code (fun _ _ => true) listLoop [0, 2] false).registers (2, 0)) =
          some (some true) := by decide +kernel
  rw [hcode, Option.map_some, Option.some.injEq] at hlive hstale
  have hread := (hexits 2 rfl).2 (2, 0) (of_decide_eq_true hlive) Bool false (fun _ _ => true)
    [0, 2] ⟨by decide, rfl, rfl⟩
  rw [hstale] at hread
  exact absurd hread (by decide)

end Gino.Helix
