import Gino.Dswp.LoopProgram
import Gino.Dswp.Queues
import Mathlib.Data.List.FinRange

/-!
# The code of a DSWP stage

A stage has clones of the instructions of its subset. `popValueQueues` puts the pops of a block
before its first instruction that is not a PHI, and `pushValueQueues` puts a push right after the
clone of its producer, or after the PHIs if that is followed by another PHI. `placed_stage_code`
says what comes of it: after its PHIs a block pops, and then executes its other instructions in
order, and pushes a value once and after the clone that has it.
-/

namespace Gino.Dswp

/-- An instruction of a stage: the clone of one of the loop, or a use of a queue. -/
inductive StageInst (Inst Queue : Type*) where
  | original (I : Inst)
  | pop (queue : Queue)
  | push (queue : Queue)
  deriving DecidableEq

/-- Whether an instruction pushes. -/
def StageInst.isPush {Inst Queue : Type*} : StageInst Inst Queue → Bool
  | .push _ => true
  | _ => false

/-- A loop with a pipeline for it. -/
structure Pipeline (Inst Block Value Region Content : Type*) extends
    LoopProgram Inst Block Value Region Content where
  numTaskInstances : Nat
  subset : Nat → List Inst
  queues : List (QueueInfo Inst)
  liveOuts : Nat → List Inst

/-! ## Lists that start with what has a property -/

section Lists

variable {α : Type*} {p : α → Bool} {first rest : List α}

/-- The part of a list with a property, when the rest has not. -/
theorem take_while_of_parts (hfirst : ∀ a ∈ first, p a = true) (hrest : ∀ a ∈ rest, p a = false) :
    (first ++ rest).takeWhile p = first := by
  rw [List.takeWhile_append_of_pos hfirst]
  cases rest with
  | nil => simp
  | cons a rest =>
      rw [List.takeWhile_cons_of_neg (by simp [hrest a List.mem_cons_self]), List.append_nil]

/-- What follows the part of a list with a property, when it has not. -/
theorem drop_while_of_parts (hfirst : ∀ a ∈ first, p a = true) (hrest : ∀ a ∈ rest, p a = false) :
    (first ++ rest).dropWhile p = rest := by
  rw [List.dropWhile_append_of_pos hfirst]
  cases rest with
  | nil => rfl
  | cons a rest => exact List.dropWhile_cons_of_neg (by simp [hrest a List.mem_cons_self])

/-- The parts of a list before and from the first place of a member. -/
theorem split_at_first [DecidableEq α] {a : α} (h : a ∉ first) :
    (first ++ a :: rest).takeWhile (· ≠ a) = first ∧
      (first ++ a :: rest).dropWhile (· ≠ a) = a :: rest := by
  have hfirst : ∀ other ∈ first, (decide (other ≠ a)) = true := fun other hother =>
    decide_eq_true fun heq => h (heq ▸ hother)
  rw [List.takeWhile_append_of_pos hfirst, List.dropWhile_append_of_pos hfirst]
  simp

end Lists

namespace Pipeline

variable {Inst Block Value Region Content : Type*}
  (pipeline : Pipeline Inst Block Value Region Content)

/-- A queue, as its index. -/
abbrev Queue : Type := Fin pipeline.queues.length

/-- An instruction of a stage. -/
abbrev StageInstruction : Type _ := StageInst Inst pipeline.Queue

/-- The instruction whose value a queue carries. -/
def producer (queue : pipeline.Queue) : Inst := (pipeline.queues.get queue).producer

/-- The queues that a stage pops, in order. -/
def popQueues (stage : Nat) : List pipeline.Queue :=
  (List.finRange pipeline.queues.length).filter fun queue =>
    (pipeline.queues.get queue).toStage = stage

/-- The queues that a stage pushes, in order. -/
def pushQueues (stage : Nat) : List pipeline.Queue :=
  (List.finRange pipeline.queues.length).filter fun queue =>
    (pipeline.queues.get queue).fromStage = stage

variable {pipeline} in
/-- A queue is popped by the stage that it goes to. -/
theorem mem_pop_queues {stage : Nat} {queue : pipeline.Queue} :
    queue ∈ pipeline.popQueues stage ↔ (pipeline.queues.get queue).toStage = stage := by
  unfold popQueues
  simp

variable {pipeline} in
/-- A queue is pushed by the stage that it comes from. -/
theorem mem_push_queues {stage : Nat} {queue : pipeline.Queue} :
    queue ∈ pipeline.pushQueues stage ↔ (pipeline.queues.get queue).fromStage = stage := by
  unfold pushQueues
  simp

variable [DecidableEq Inst]

/-- The clone that has the value of an instruction in a stage: its own, or what was popped last in
the order of the queues. -/
def getCloneOfOriginalInstruction (stage : Nat) (original : Inst) : pipeline.StageInstruction :=
  match (pipeline.popQueues stage).reverse.find? fun queue =>
      pipeline.producer queue = original with
  | some queue => .pop queue
  | none => .original original

/-- The clones of the instructions of a block, without its terminator. -/
def cloneSequentialLoopSubset (stage : Nat) (B : Block) : List pipeline.StageInstruction :=
  ((pipeline.phis B ++ pipeline.body B).filter fun I => I ∈ pipeline.subset stage).map .original

/-- Whether an instruction of a stage is a PHI. -/
def isPHI : pipeline.StageInstruction → Bool
  | .original I => I ∈ pipeline.phis (pipeline.parent I)
  | _ => false

/-- Insert an instruction at the first one that is not a PHI. -/
def insertAtFirstNonPHI (I : pipeline.StageInstruction) (block : List pipeline.StageInstruction) :
    List pipeline.StageInstruction :=
  block.takeWhile pipeline.isPHI ++ I :: block.dropWhile pipeline.isPHI

/-- Insert a push after the clone of its producer. -/
def insertPush (stage : Nat) (queue : pipeline.Queue) (block : List pipeline.StageInstruction) :
    List pipeline.StageInstruction :=
  let producerClone := pipeline.getCloneOfOriginalInstruction stage (pipeline.producer queue)
  match block.dropWhile (· ≠ producerClone) with
  | [] => block
  | _ :: rest =>
      if rest.head?.any pipeline.isPHI then pipeline.insertAtFirstNonPHI (.push queue) block
      else block.takeWhile (· ≠ producerClone) ++ producerClone :: .push queue :: rest

variable [DecidableEq Block]

/-- Insert the pops of the queues of a block. -/
def popValueQueues (stage : Nat) (B : Block) (block : List pipeline.StageInstruction) :
    List pipeline.StageInstruction :=
  (pipeline.popQueues stage).foldl (fun block queue =>
    if pipeline.parent (pipeline.producer queue) = B
    then pipeline.insertAtFirstNonPHI (.pop queue) block else block) block

/-- Insert the pushes of the queues of a block. -/
def pushValueQueues (stage : Nat) (B : Block) (block : List pipeline.StageInstruction) :
    List pipeline.StageInstruction :=
  (pipeline.pushQueues stage).foldl (fun block queue =>
    if pipeline.parent (pipeline.producer queue) = B
    then pipeline.insertPush stage queue block else block) block

/-- The block of a stage, without its terminator. -/
def stageBlock (stage : Nat) (B : Block) : List pipeline.StageInstruction :=
  pipeline.pushValueQueues stage B (pipeline.popValueQueues stage B
    (pipeline.cloneSequentialLoopSubset stage B))

/-- The code of a block of a stage after its PHIs. -/
def stageCode (stage : Nat) (B : Block) : List pipeline.StageInstruction :=
  (pipeline.stageBlock stage B).dropWhile pipeline.isPHI

/-! ## What the code is -/

/-- The clones of the PHIs of a block. -/
def phiClones (stage : Nat) (B : Block) : List pipeline.StageInstruction :=
  ((pipeline.phis B).filter fun I => I ∈ pipeline.subset stage).map .original

/-- The queues that are popped in a block, the last one first. -/
def blockPops (stage : Nat) (B : Block) : List pipeline.Queue :=
  ((pipeline.popQueues stage).filter fun queue =>
    pipeline.parent (pipeline.producer queue) = B).reverse

/-- A stage has the value of an instruction, as its own or from a queue. -/
def Holds (stage : Nat) (P : Inst) : Prop :=
  P ∈ pipeline.subset stage ∨ ∃ queue ∈ pipeline.popQueues stage, pipeline.producer queue = P

/-- Code that pops, then executes instructions, and pushes after the clones of the producers. -/
structure Placed (stage : Nat) (B : Block) (code : List pipeline.StageInstruction) : Prop where
  no_phi : ∀ I ∈ code, pipeline.isPHI I = false
  others : code.filter (fun I => !I.isPush) = (pipeline.blockPops stage B).map .pop ++
    ((pipeline.body B).filter fun I => I ∈ pipeline.subset stage).map .original
  after_clone : code.Pairwise fun first later => ∀ queue, first = .push queue →
    later ≠ pipeline.getCloneOfOriginalInstruction stage (pipeline.producer queue)

variable {pipeline} {stage : Nat} {B : Block} {code : List pipeline.StageInstruction}

omit [DecidableEq Inst] in
/-- The pops of a block. -/
theorem mem_block_pops {queue : pipeline.Queue} : queue ∈ pipeline.blockPops stage B ↔
    queue ∈ pipeline.popQueues stage ∧ pipeline.parent (pipeline.producer queue) = B := by
  unfold blockPops
  rw [List.mem_reverse, List.mem_filter, decide_eq_true_eq]

omit [DecidableEq Inst] in
/-- A queue is popped once. -/
theorem nodup_block_pops : (pipeline.blockPops stage B).Nodup :=
  List.nodup_reverse.mpr (((List.nodup_finRange _).filter _).filter _)

omit [DecidableEq Block] in
/-- The clone of an instruction that a stage has. -/
theorem clone_cases {P : Inst} (h : pipeline.Holds stage P) :
    (P ∈ pipeline.subset stage ∧
      pipeline.getCloneOfOriginalInstruction stage P = .original P) ∨
    ∃ queue ∈ pipeline.popQueues stage, pipeline.producer queue = P ∧
      pipeline.getCloneOfOriginalInstruction stage P = .pop queue := by
  unfold getCloneOfOriginalInstruction
  split
  · case _ queue hfind =>
      refine .inr ⟨queue, ?_, ?_, rfl⟩
      · exact List.mem_reverse.mp (List.mem_of_find?_eq_some hfind)
      · simpa using List.find?_some hfind
  · case _ hfind =>
      rcases h with hsubset | ⟨queue, hqueue, hproducer⟩
      · exact .inl ⟨hsubset, rfl⟩
      · have hnot := List.find?_eq_none.mp hfind queue (List.mem_reverse.mpr hqueue)
        exact absurd (decide_eq_true hproducer) hnot

omit [DecidableEq Block] in
/-- No clone is a push. -/
theorem clone_ne_push (stage : Nat) (P : Inst) (queue : pipeline.Queue) :
    pipeline.getCloneOfOriginalInstruction stage P ≠ .push queue := by
  unfold getCloneOfOriginalInstruction
  split
  · exact nofun
  · exact nofun

omit [DecidableEq Block] in
/-- The clones of PHIs are PHIs. -/
theorem is_phi_of_mem {I : pipeline.StageInstruction} (h : I ∈ pipeline.phiClones stage B) :
    pipeline.isPHI I = true := by
  obtain ⟨phi, hphi, rfl⟩ := List.mem_map.mp h
  have hmem := (List.mem_filter.mp hphi).1
  refine decide_eq_true ?_
  rw [pipeline.parent_phi B phi hmem]
  exact hmem

/-- Inserting pops puts them after the PHIs. -/
theorem pop_value_queues_eq (queues : List pipeline.Queue) {rest : List pipeline.StageInstruction}
    (hrest : ∀ I ∈ rest, pipeline.isPHI I = false) :
    queues.foldl (fun block queue => if pipeline.parent (pipeline.producer queue) = B
      then pipeline.insertAtFirstNonPHI (.pop queue) block else block)
        (pipeline.phiClones stage B ++ rest) =
      pipeline.phiClones stage B ++ ((queues.filter fun queue =>
        pipeline.parent (pipeline.producer queue) = B).reverse.map .pop ++ rest) := by
  induction queues generalizing rest with
  | nil => rfl
  | cons queue queues ih =>
      rw [List.foldl_cons]
      by_cases hB : pipeline.parent (pipeline.producer queue) = B
      · have hrest' : ∀ I ∈ StageInst.pop queue :: rest, pipeline.isPHI I = false := by
          intro I hI
          rcases List.mem_cons.mp hI with rfl | hI
          · rfl
          · exact hrest I hI
        rw [if_pos hB, insertAtFirstNonPHI, take_while_of_parts (fun _ => is_phi_of_mem) hrest,
          drop_while_of_parts (fun _ => is_phi_of_mem) hrest, ih hrest']
        simp [hB]
      · rw [if_neg hB, ih hrest]
        simp [hB]

variable (pipeline) in
/-- The block with its pops is placed. -/
theorem exists_placed_pops (stage : Nat) (B : Block) : ∃ code,
    pipeline.popValueQueues stage B (pipeline.cloneSequentialLoopSubset stage B) =
      pipeline.phiClones stage B ++ code ∧ pipeline.Placed stage B code ∧
      ∀ queue, .push queue ∉ code := by
  have hbody : ∀ I ∈ ((pipeline.body B).filter fun I => I ∈ pipeline.subset stage).map
      (StageInst.original : Inst → pipeline.StageInstruction), pipeline.isPHI I = false := by
    intro I hI
    obtain ⟨inst, hinst, rfl⟩ := List.mem_map.mp hI
    have hmem := (List.mem_filter.mp hinst).1
    refine decide_eq_false ?_
    rw [pipeline.parent_body B inst hmem]
    exact pipeline.not_phi B inst hmem
  have hnopush : ∀ queue, StageInst.push queue ∉ (pipeline.blockPops stage B).map .pop ++
      ((pipeline.body B).filter fun I => I ∈ pipeline.subset stage).map .original := by
    simp
  refine ⟨(pipeline.blockPops stage B).map .pop ++ ((pipeline.body B).filter fun I =>
    I ∈ pipeline.subset stage).map .original, ?_, ⟨?_, ?_, ?_⟩, hnopush⟩
  · unfold popValueQueues cloneSequentialLoopSubset
    rw [List.filter_append, List.map_append]
    exact pop_value_queues_eq _ hbody
  · intro I hI
    rcases List.mem_append.mp hI with hpop | hI
    · obtain ⟨queue, -, rfl⟩ := List.mem_map.mp hpop
      rfl
    · exact hbody I hI
  · refine List.filter_eq_self.mpr fun I hI => ?_
    cases I with
    | push queue => exact absurd hI (hnopush queue)
    | original I => rfl
    | pop queue => rfl
  · refine List.pairwise_iff_forall_sublist.mpr fun hsublist queue heq => ?_
    exact absurd (hsublist.subset (heq ▸ List.mem_cons_self)) (hnopush queue)

/-! ## Inserting pushes -/

namespace Placed

/-- The instructions of placed code other than pushes are there once. -/
theorem nodup_others (h : pipeline.Placed stage B code) :
    (code.filter fun I => !I.isPush).Nodup := by
  rw [h.others, List.nodup_append]
  refine ⟨nodup_block_pops.map fun _ _ heq => by simpa using heq,
    ((pipeline.nodup_body B).filter _).map fun _ _ heq => by simpa using heq, ?_⟩
  intro I hI other hother heq
  obtain ⟨queue, -, rfl⟩ := List.mem_map.mp hI
  obtain ⟨inst, -, rfl⟩ := List.mem_map.mp hother
  cases heq

/-- An instruction of placed code other than a push does not come again. -/
theorem not_mem_after (h : pipeline.Placed stage B code) {I : pipeline.StageInstruction}
    {before after : List pipeline.StageInstruction} (hcode : code = before ++ I :: after)
    (hpush : ∀ queue, I ≠ .push queue) : I ∉ after := by
  have hkept : I.isPush = false := by
    cases I with
    | push queue => exact absurd rfl (hpush queue)
    | original I => rfl
    | pop queue => rfl
  have hnodup := h.nodup_others
  simp only [hcode, List.filter_append, List.filter_cons, hkept, Bool.not_false, if_true,
    List.nodup_append, List.nodup_cons, List.mem_filter, and_true] at hnodup
  exact hnodup.2.1.1

/-- A push can be inserted where its clone does not come later. -/
theorem insert (h : pipeline.Placed stage B code) {before after : List pipeline.StageInstruction}
    {queue : pipeline.Queue} (hcode : code = before ++ after)
    (hafter : pipeline.getCloneOfOriginalInstruction stage (pipeline.producer queue) ∉ after) :
    pipeline.Placed stage B (before ++ .push queue :: after) := by
  subst hcode
  refine ⟨fun I hI => ?_, ?_, ?_⟩
  · rcases List.mem_append.mp hI with hbefore | hI
    · exact h.no_phi I (List.mem_append_left _ hbefore)
    · rcases List.mem_cons.mp hI with rfl | hI
      · rfl
      · exact h.no_phi I (List.mem_append_right _ hI)
  · rw [List.filter_append, List.filter_cons_of_neg (by simp [StageInst.isPush]),
      ← List.filter_append]
    exact h.others
  · obtain ⟨hbefore, hrest, hboth⟩ := List.pairwise_append.mp h.after_clone
    refine List.pairwise_append.mpr ⟨hbefore, List.pairwise_cons.mpr ⟨?_, hrest⟩, ?_⟩
    · intro later hlater other heq hclone
      cases heq
      exact hafter (hclone ▸ hlater)
    · intro first hfirst later hlater
      rcases List.mem_cons.mp hlater with rfl | hlater
      · exact fun other _ heq => clone_ne_push _ _ _ heq.symm
      · exact hboth first hfirst later hlater

/-- `pushValueQueues` inserts a push in placed code. -/
theorem insert_push (h : pipeline.Placed stage B code) {queue : pipeline.Queue}
    (hclone : pipeline.getCloneOfOriginalInstruction stage (pipeline.producer queue) ∈
      pipeline.phiClones stage B ++ code) :
    ∃ before after, code = before ++ after ∧
      pipeline.insertPush stage queue (pipeline.phiClones stage B ++ code) =
        pipeline.phiClones stage B ++ (before ++ .push queue :: after) ∧
      pipeline.Placed stage B (before ++ .push queue :: after) := by
  unfold insertPush
  generalize hwhich : pipeline.getCloneOfOriginalInstruction stage (pipeline.producer queue) = clone
    at hclone ⊢
  by_cases hphi : clone ∈ pipeline.phiClones stage B
  · -- The clone is a PHI, and the push comes after the last PHI.
    have hnot : clone ∉ code := fun hmem => by
      have hno := h.no_phi clone hmem
      rw [is_phi_of_mem hphi] at hno
      cases hno
    refine ⟨[], code, rfl, ?_, h.insert rfl (hwhich ▸ hnot)⟩
    obtain ⟨first, rest, hsplit, hfirst⟩ := List.eq_append_cons_of_mem hphi
    have hwhole : pipeline.phiClones stage B ++ code = first ++ clone :: (rest ++ code) := by
      rw [hsplit, List.append_assoc, List.cons_append]
    dsimp only
    rw [hwhole, (split_at_first hfirst).2, ← hwhole]
    dsimp only
    cases rest with
    | nil =>
        have hhead : code.head?.any pipeline.isPHI = false := by
          cases code with
          | nil => rfl
          | cons I code => exact h.no_phi I List.mem_cons_self
        rw [List.nil_append, hhead, if_neg Bool.false_ne_true, hwhole, (split_at_first hfirst).1,
          hsplit]
        simp
    | cons next rest =>
        have hnext : pipeline.isPHI next = true := is_phi_of_mem (by rw [hsplit]; simp)
        have hhead : ((next :: rest) ++ code).head?.any pipeline.isPHI = true := hnext
        rw [hhead, if_pos rfl, insertAtFirstNonPHI, take_while_of_parts (fun _ => is_phi_of_mem)
          h.no_phi, drop_while_of_parts (fun _ => is_phi_of_mem) h.no_phi]
        rfl
  · -- The clone is in the code, and the push comes right after it.
    have hcode := (List.mem_append.mp hclone).resolve_left hphi
    obtain ⟨first, rest, rfl, hfirst⟩ := List.eq_append_cons_of_mem hcode
    have hrest : clone ∉ rest :=
      h.not_mem_after rfl fun other heq => clone_ne_push _ _ _ (hwhich.trans heq)
    refine ⟨first ++ [clone], rest, by simp, ?_, h.insert (by simp) (hwhich ▸ hrest)⟩
    have hwhole : pipeline.phiClones stage B ++ (first ++ clone :: rest) =
        (pipeline.phiClones stage B ++ first) ++ clone :: rest := (List.append_assoc _ _ _).symm
    have hbefore : clone ∉ pipeline.phiClones stage B ++ first := by
      simp [hphi, hfirst]
    -- What comes after a clone in the code is no PHI, so that the push is not moved down.
    have hhead : rest.head?.any pipeline.isPHI = false := by
      cases rest with
      | nil => rfl
      | cons I rest => exact h.no_phi I (by simp)
    dsimp only
    rw [hwhole, (split_at_first hbefore).2, (split_at_first hbefore).1]
    dsimp only
    rw [hhead, if_neg Bool.false_ne_true]
    simp

/-- The clone of what a stage has is in its block. -/
theorem clone_mem (h : pipeline.Placed stage B code) {P : Inst} (hholds : pipeline.Holds stage P)
    (hB : pipeline.parent P = B) (hmem : P ∈ pipeline.phis B ++ pipeline.body B) :
    pipeline.getCloneOfOriginalInstruction stage P ∈ pipeline.phiClones stage B ++ code := by
  have hcode : ∀ I, I ∈ (pipeline.blockPops stage B).map .pop ++
      ((pipeline.body B).filter fun I => I ∈ pipeline.subset stage).map .original → I ∈ code := by
    intro I hI
    rw [← h.others] at hI
    exact List.mem_of_mem_filter hI
  rcases clone_cases hholds with ⟨hsubset, hclone⟩ | ⟨queue, hqueue, hproducer, hclone⟩
  · rw [hclone]
    have hkept : (decide (P ∈ pipeline.subset stage)) = true := decide_eq_true hsubset
    rcases List.mem_append.mp hmem with hphi | hbody
    · exact List.mem_append_left _ (List.mem_map_of_mem (List.mem_filter.mpr ⟨hphi, hkept⟩))
    · refine List.mem_append_right _ (hcode _ (List.mem_append_right _ ?_))
      exact List.mem_map_of_mem (List.mem_filter.mpr ⟨hbody, hkept⟩)
  · rw [hclone]
    refine List.mem_append_right _ (hcode _ (List.mem_append_left _ (List.mem_map_of_mem ?_)))
    exact mem_block_pops.mpr ⟨hqueue, by rw [hproducer, hB]⟩

/-- A block pops the queues whose producers it has, once. -/
theorem count_pop (h : pipeline.Placed stage B code) (queue : pipeline.Queue) :
    code.count (.pop queue) = if queue ∈ pipeline.popQueues stage ∧
      pipeline.parent (pipeline.producer queue) = B then 1 else 0 := by
  have hothers : code.count (.pop queue) = (code.filter fun I => !I.isPush).count (.pop queue) :=
    (List.count_filter rfl).symm
  have hmem : StageInst.pop queue ∈ code.filter (fun I => !I.isPush) ↔
      queue ∈ pipeline.popQueues stage ∧ pipeline.parent (pipeline.producer queue) = B := by
    rw [h.others, ← mem_block_pops]
    simp
  rw [hothers]
  split
  · case _ hpops => exact List.count_eq_one_of_mem h.nodup_others (hmem.mpr hpops)
  · case _ hpops => exact List.count_eq_zero_of_not_mem fun hpop => hpops (hmem.mp hpop)

end Placed

/-- Inserting the pushes of a list of queues. -/
theorem exists_placed_pushes (queues : List pipeline.Queue) (h : pipeline.Placed stage B code)
    (hqueues : ∀ queue ∈ queues, pipeline.Holds stage (pipeline.producer queue) ∧
      pipeline.producer queue ∈ pipeline.phis (pipeline.parent (pipeline.producer queue)) ++
        pipeline.body (pipeline.parent (pipeline.producer queue))) :
    ∃ code', queues.foldl (fun block queue => if pipeline.parent (pipeline.producer queue) = B
        then pipeline.insertPush stage queue block else block)
        (pipeline.phiClones stage B ++ code) =
        pipeline.phiClones stage B ++ code' ∧ pipeline.Placed stage B code' ∧
      ∀ queue, code'.count (.push queue) = code.count (.push queue) +
        (queues.filter fun queue => pipeline.parent (pipeline.producer queue) = B).count queue := by
  induction queues generalizing code with
  | nil => exact ⟨code, rfl, h, fun _ => rfl⟩
  | cons first queues ih =>
      have hrest := fun queue hqueue => hqueues queue (List.mem_cons_of_mem _ hqueue)
      rw [List.foldl_cons]
      by_cases hB : pipeline.parent (pipeline.producer first) = B
      · obtain ⟨hholds, hmem⟩ := hqueues first List.mem_cons_self
        rw [hB] at hmem
        obtain ⟨before, after, hcode, hinsert, hplaced⟩ :=
          h.insert_push (h.clone_mem hholds hB hmem)
        obtain ⟨code', hfold, hplaced', hcount⟩ := ih hplaced hrest
        refine ⟨code', by rw [if_pos hB, hinsert, hfold], hplaced', fun queue => ?_⟩
        have hfilter : (first :: queues).filter (fun queue =>
            pipeline.parent (pipeline.producer queue) = B) = first :: queues.filter fun queue =>
              pipeline.parent (pipeline.producer queue) = B :=
          List.filter_cons_of_pos (decide_eq_true hB)
        rw [hcount, hcode, hfilter, List.count_append, List.count_append, List.count_cons,
          List.count_cons]
        have hsame : (StageInst.push first == (StageInst.push queue : pipeline.StageInstruction)) =
            (first == queue) := by
          simp only [Bool.beq_eq_decide_eq, StageInst.push.injEq]
        rw [hsame]
        omega
      · obtain ⟨code', hfold, hplaced', hcount⟩ := ih h hrest
        refine ⟨code', by rw [if_neg hB, hfold], hplaced', fun queue => ?_⟩
        rw [hcount, List.filter_cons_of_neg (by simpa using hB)]

/-- The code of a block of a stage. -/
theorem placed_stage_code (stage : Nat) (B : Block)
    (hpushes : ∀ queue ∈ pipeline.pushQueues stage,
      pipeline.Holds stage (pipeline.producer queue) ∧
      pipeline.producer queue ∈ pipeline.phis (pipeline.parent (pipeline.producer queue)) ++
        pipeline.body (pipeline.parent (pipeline.producer queue))) :
    (pipeline.stageBlock stage B).takeWhile pipeline.isPHI = pipeline.phiClones stage B ∧
      pipeline.Placed stage B (pipeline.stageCode stage B) ∧
      ∀ queue, (pipeline.stageCode stage B).count (.push queue) =
        if queue ∈ pipeline.pushQueues stage ∧ pipeline.parent (pipeline.producer queue) = B
        then 1 else 0 := by
  obtain ⟨code, hpops, hplaced, hnopush⟩ := exists_placed_pops pipeline stage B
  obtain ⟨code', hfold, hplaced', hcount⟩ := exists_placed_pushes _ hplaced hpushes
  have hblock : pipeline.stageBlock stage B = pipeline.phiClones stage B ++ code' := by
    unfold stageBlock pushValueQueues
    rw [hpops, hfold]
  have hcode : pipeline.stageCode stage B = code' := by
    unfold stageCode
    rw [hblock, drop_while_of_parts (fun _ => is_phi_of_mem) hplaced'.no_phi]
  rw [hcode, hblock, take_while_of_parts (fun _ => is_phi_of_mem) hplaced'.no_phi]
  refine ⟨rfl, hplaced', fun queue => ?_⟩
  rw [hcount, List.count_eq_zero_of_not_mem (hnopush queue), Nat.zero_add]
  have hnodup : ((pipeline.pushQueues stage).filter fun queue =>
      pipeline.parent (pipeline.producer queue) = B).Nodup :=
    ((List.nodup_finRange _).filter _).filter _
  have hmem : (queue ∈ (pipeline.pushQueues stage).filter fun queue =>
      pipeline.parent (pipeline.producer queue) = B) ↔
      queue ∈ pipeline.pushQueues stage ∧ pipeline.parent (pipeline.producer queue) = B := by
    rw [List.mem_filter, decide_eq_true_eq]
  split
  · case _ hpushed => exact List.count_eq_one_of_mem hnodup (hmem.mpr hpushed)
  · case _ hpushed => exact List.count_eq_zero_of_not_mem fun hin => hpushed (hmem.mp hin)

end Pipeline

end Gino.Dswp
