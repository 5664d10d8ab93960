import Mathlib.Algebra.GroupWithZero.Nat
import Mathlib.Data.List.Basic
import Mathlib.Data.List.Dedup
import Mathlib.Data.List.Perm.Subperm
import Mathlib.Logic.Relation

/-!
# First-in first-out worklists

`worklist` takes items from the front of a queue, skips those it has visited, and lets `visit`
update a result and name the items to push at the back. `worklist_invariant` is the rule for what
holds when the queue is empty, and `exists_worklist` bounds the fuel by the pushes that are left.
`reachableList` is the plain traversal of a graph, with its nodes as result, and `pushedList` the
one that marks nodes when it pushes them.
-/

namespace Gino.Machine

open Relation

variable {α ρ : Type*} [DecidableEq α]

/-- A traversal from a queue. It gives nothing when the fuel does not suffice. -/
def worklist (visit : ρ → α → ρ × List α) : Nat → List α → List α → ρ → Option ρ
  | _, [], _, result => some result
  | 0, _ :: _, _, _ => none
  | fuel + 1, item :: queue, visited, result =>
      if item ∈ visited then worklist visit fuel queue visited result
      else
        let (result', pushed) := visit result item
        worklist visit fuel (queue ++ pushed) (item :: visited) result'

variable {visit : ρ → α → ρ × List α}

/-- What skipping and visiting an item keep holds at the end. -/
theorem worklist_invariant (Inv : List α → List α → ρ → Prop)
    (hskip : ∀ item queue visited result, item ∈ visited →
      Inv (item :: queue) visited result → Inv queue visited result)
    (hvisit : ∀ item queue visited result, item ∉ visited →
      Inv (item :: queue) visited result →
      Inv (queue ++ (visit result item).2) (item :: visited) (visit result item).1)
    {fuel : Nat} {queue visited : List α} {result final : ρ} (h : Inv queue visited result)
    (hfinal : worklist visit fuel queue visited result = some final) :
    ∃ visited, Inv [] visited final := by
  induction fuel generalizing queue visited result with
  | zero =>
      cases queue with
      | nil =>
          cases hfinal
          exact ⟨_, h⟩
      | cons item queue => simp [worklist] at hfinal
  | succ fuel ih =>
      cases queue with
      | nil =>
          cases hfinal
          exact ⟨_, h⟩
      | cons item queue =>
          rw [worklist] at hfinal
          split_ifs at hfinal with hmem
          · exact ih (hskip _ _ _ _ hmem h) hfinal
          · exact ih (hvisit _ _ _ _ hmem h) hfinal

/-- The pushes that unvisited items may still make. -/
def pushesLeft (degree : α → Nat) (items visited : List α) : Nat :=
  ((items.filter (· ∉ visited)).map degree).sum

/-- The pushes left with one more item. -/
theorem pushes_left_cons (degree : α → Nat) (item : α) (items visited : List α) :
    pushesLeft degree (item :: items) visited =
      (if item ∈ visited then 0 else degree item) + pushesLeft degree items visited := by
  unfold pushesLeft
  rw [List.filter_cons]
  by_cases hmem : item ∈ visited <;> simp [hmem]

/-- Visiting an item adds no pushes. -/
theorem pushes_left_mono (degree : α → Nat) (items visited : List α) (item : α) :
    pushesLeft degree items (item :: visited) ≤ pushesLeft degree items visited := by
  induction items with
  | nil => exact Nat.le_refl _
  | cons first rest ih =>
      rw [pushes_left_cons, pushes_left_cons]
      by_cases hmem : first ∈ visited
      · rw [if_pos hmem, if_pos (List.mem_cons_of_mem _ hmem)]
        omega
      · rw [if_neg hmem]
        split_ifs <;> omega

/-- Visiting an item uses up its pushes. -/
theorem pushes_left_visit (degree : α → Nat) {items visited : List α} {item : α}
    (hitem : item ∈ items) (hfresh : item ∉ visited) :
    pushesLeft degree items (item :: visited) + degree item ≤
      pushesLeft degree items visited := by
  induction items with
  | nil => simp at hitem
  | cons first rest ih =>
      rw [pushes_left_cons, pushes_left_cons]
      by_cases hfirst : first = item
      · subst hfirst
        have := pushes_left_mono degree rest visited first
        rw [if_neg hfresh, if_pos List.mem_cons_self]
        omega
      · have hrest := ih ((List.mem_cons.mp hitem).resolve_left (Ne.symm hfirst))
        by_cases hmem : first ∈ visited
        · rw [if_pos hmem, if_pos (List.mem_cons_of_mem _ hmem)]
          omega
        · rw [if_neg hmem, if_neg (by simp [hfirst, hmem])]
          omega

/-- A traversal with fuel for its queue and for all pushes finishes. -/
theorem exists_worklist (visit : ρ → α → ρ × List α) (degree : α → Nat) {items : List α}
    (hitems : ∀ item, item ∈ items)
    (hpush : ∀ result item, (visit result item).2.length ≤ degree item) {fuel : Nat}
    (queue visited : List α) (result : ρ)
    (hfuel : queue.length + pushesLeft degree items visited ≤ fuel) :
    ∃ final, worklist visit fuel queue visited result = some final := by
  induction fuel generalizing queue visited result with
  | zero =>
      cases queue with
      | nil => exact ⟨_, rfl⟩
      | cons item queue => simp at hfuel
  | succ fuel ih =>
      cases queue with
      | nil => exact ⟨_, rfl⟩
      | cons item queue =>
          rw [worklist]
          rw [List.length_cons] at hfuel
          split_ifs with hmem
          · exact ih _ _ _ (by omega)
          · refine ih _ _ _ ?_
            have hleft := pushes_left_visit degree (hitems item) hmem
            have hlength := hpush result item
            rw [List.length_append]
            omega

/-! ## Reachable nodes -/

/-- The nodes reachable from the nodes of a queue. -/
def reachableList (next : α → List α) (items queue : List α) : List α :=
  (worklist (fun result item => (item :: result, next item))
    (queue.length + pushesLeft (fun item => (next item).length) items []) queue [] []).getD []

/-- What holds of a traversal that lists what it visits: it loses no node of the queue and no
successor, and finds only what the queue reaches. -/
structure ReachableInv (next : α → List α) (queue rest visited result : List α) : Prop where
  listed : visited = result
  started : ∀ item ∈ queue, item ∈ rest ∨ item ∈ result
  closed : ∀ item ∈ result, ∀ after ∈ next item, after ∈ rest ∨ after ∈ result
  reaches : ∀ item, item ∈ rest ∨ item ∈ result → ∃ start ∈ queue,
    ReflTransGen (fun item after => after ∈ next item) start item

section ReachableInv

variable {next : α → List α} {queue rest visited result : List α} {item : α}

omit [DecidableEq α] in
/-- Skipping a visited node keeps it. -/
theorem ReachableInv.skip (h : ReachableInv next queue (item :: rest) visited result)
    (hitem : item ∈ visited) : ReachableInv next queue rest visited result := by
  -- The node is listed already, so that taking it off the queue loses nothing.
  have hkept : ∀ other, other ∈ item :: rest ∨ other ∈ result → other ∈ rest ∨ other ∈ result := by
    rintro other (hother | hother)
    · rcases List.mem_cons.mp hother with rfl | hrest
      · exact .inr (h.listed ▸ hitem)
      · exact .inl hrest
    · exact .inr hother
  exact ⟨h.listed, fun other hother => hkept other (h.started other hother),
    fun other hother after hafter => hkept after (h.closed other hother after hafter),
    fun other hother => h.reaches other (hother.imp_left (List.mem_cons_of_mem _))⟩

omit [DecidableEq α] in
/-- Pushing the successors of a new node keeps it. -/
theorem ReachableInv.push (h : ReachableInv next queue (item :: rest) visited result) :
    ReachableInv next queue (rest ++ next item) (item :: visited) (item :: result) := by
  have hmem : ∀ other, other ∈ rest ++ next item ∨ other ∈ item :: result ↔
      (other ∈ item :: rest ∨ other ∈ result) ∨ other ∈ next item := by
    intro other
    simp only [List.mem_cons, List.mem_append]
    tauto
  refine ⟨by rw [h.listed], fun other hother => (hmem other).mpr (.inl (h.started other hother)),
    fun other hother after hafter => (hmem after).mpr ?_, fun other hother => ?_⟩
  · rcases List.mem_cons.mp hother with rfl | hother
    · exact .inr hafter
    · exact .inl (h.closed other hother after hafter)
  · rcases (hmem other).mp hother with hold | hpushed
    · exact h.reaches other hold
    · obtain ⟨start, hstart, hreach⟩ := h.reaches item (.inl List.mem_cons_self)
      exact ⟨start, hstart, hreach.tail hpushed⟩

omit [DecidableEq α] in
/-- When no node waits, those listed are the ones that the queue reaches. -/
theorem ReachableInv.mem_iff (h : ReachableInv next queue [] visited result) {node : α} :
    node ∈ result ↔
      ∃ start ∈ queue, ReflTransGen (fun item after => after ∈ next item) start node := by
  refine ⟨fun hnode => h.reaches _ (.inr hnode), ?_⟩
  intro ⟨start, hstart, hreach⟩
  induction hreach with
  | refl => exact (h.started _ hstart).resolve_left List.not_mem_nil
  | tail _ hstep ih => exact (h.closed _ ih _ hstep).resolve_left List.not_mem_nil

end ReachableInv

/-- The traversal finds what its queue reaches. -/
theorem mem_reachable_list {next : α → List α} {items queue : List α}
    (hitems : ∀ item, item ∈ items) {node : α} :
    node ∈ reachableList next items queue ↔
      ∃ start ∈ queue, ReflTransGen (fun item after => after ∈ next item) start node := by
  obtain ⟨final, hfinal⟩ := exists_worklist (fun result item => (item :: result, next item))
    (fun item => (next item).length) hitems (fun _ _ => Nat.le_refl _) queue [] ([] : List α)
    (Nat.le_refl _)
  have hlist : reachableList next items queue = final := by
    unfold reachableList
    rw [hfinal]
    rfl
  have hstart : ReachableInv next queue queue [] [] :=
    ⟨rfl, fun _ => .inl, by simp, fun item hitem => ⟨item, by simpa using hitem, .refl⟩⟩
  obtain ⟨_, hend⟩ := worklist_invariant (ReachableInv next queue)
    (fun _ _ _ _ hitem h => h.skip hitem) (fun _ _ _ _ _ h => h.push) hstart hfinal
  rw [hlist, hend.mem_iff]

/-! ## Pushed nodes -/

/-- A traversal from a queue that marks nodes when it pushes them. It gives nothing when the fuel
does not suffice. -/
def pushOnce (next : α → List α) : Nat → List α → List α → Option (List α)
  | _, [], visited => some visited
  | 0, _ :: _, _ => none
  | fuel + 1, item :: queue, visited =>
      let fresh := ((next item).filter (· ∉ visited)).dedup
      pushOnce next fuel (queue ++ fresh) (fresh ++ visited)

/-- The nodes that are pushed in a traversal from a queue. -/
def pushedList (next : α → List α) (items queue : List α) : List α :=
  (pushOnce next (queue.length + items.length) queue []).getD []

/-- New marks leave as many fewer items unmarked. -/
theorem unmarked_length_add {items fresh visited : List α} (hitems : ∀ item, item ∈ items)
    (hnodup : fresh.Nodup) (hfresh : ∀ item ∈ fresh, item ∉ visited) :
    (items.filter (· ∉ fresh ++ visited)).length + fresh.length ≤
      (items.filter (· ∉ visited)).length := by
  have hsub : fresh.Subperm ((items.filter (· ∉ visited)).filter (· ∈ fresh)) :=
    List.subperm_of_subset hnodup fun item hitem => by simp [hitems, hfresh item hitem, hitem]
  have hsplit := List.length_eq_length_filter_add (l := items.filter (· ∉ visited)) (· ∈ fresh)
  have hrest : (items.filter (· ∉ visited)).filter (fun item => !decide (item ∈ fresh)) =
      items.filter (· ∉ fresh ++ visited) := by
    rw [List.filter_filter]
    refine List.filter_congr fun item _ => ?_
    by_cases hfresh : item ∈ fresh <;> simp [hfresh]
  rw [hrest] at hsplit
  have := hsub.length_le
  omega

/-- A traversal with fuel for its queue and for all unmarked nodes finishes. -/
theorem exists_push_once (next : α → List α) {items : List α} (hitems : ∀ item, item ∈ items)
    {fuel : Nat} (queue visited : List α)
    (hfuel : queue.length + (items.filter (· ∉ visited)).length ≤ fuel) :
    ∃ final, pushOnce next fuel queue visited = some final := by
  induction fuel generalizing queue visited with
  | zero =>
      cases queue with
      | nil => exact ⟨_, rfl⟩
      | cons item queue => simp at hfuel
  | succ fuel ih =>
      cases queue with
      | nil => exact ⟨_, rfl⟩
      | cons item queue =>
          rw [pushOnce]
          refine ih _ _ ?_
          have hfresh : ∀ after ∈ ((next item).filter (· ∉ visited)).dedup, after ∉ visited := by
            intro after hafter
            simpa using (List.mem_filter.mp (List.mem_dedup.mp hafter)).2
          have hunmarked := unmarked_length_add hitems (List.nodup_dedup _) hfresh
          rw [List.length_cons] at hfuel
          rw [List.length_append]
          omega

/-- What pushing the new nodes of an item keeps holds at the end. -/
theorem push_once_invariant {next : α → List α} (Inv : List α → List α → Prop)
    (hstep : ∀ item queue visited, Inv (item :: queue) visited →
      Inv (queue ++ ((next item).filter (· ∉ visited)).dedup)
        (((next item).filter (· ∉ visited)).dedup ++ visited))
    {fuel : Nat} {queue visited final : List α} (h : Inv queue visited)
    (hfinal : pushOnce next fuel queue visited = some final) : Inv [] final := by
  induction fuel generalizing queue visited with
  | zero =>
      cases queue with
      | nil =>
          cases hfinal
          exact h
      | cons item queue => cases hfinal
  | succ fuel ih =>
      cases queue with
      | nil =>
          cases hfinal
          exact h
      | cons item queue =>
          rw [pushOnce] at hfinal
          exact ih (hstep _ _ _ h) hfinal

/-- What holds of a traversal that marks what it pushes: marked is what the queue reaches in one or
more steps, and the successors of what does not wait are marked. -/
structure PushedInv (next : α → List α) (queue rest visited : List α) : Prop where
  reaches : ∀ item ∈ visited, ∃ start ∈ queue,
    TransGen (fun item after => after ∈ next item) start item
  waiting : ∀ item ∈ rest, item ∈ queue ∨ item ∈ visited
  closed : ∀ item, item ∈ queue ∨ item ∈ visited →
    item ∈ rest ∨ ∀ after ∈ next item, after ∈ visited

section PushedInv

variable {next : α → List α} {queue rest visited : List α} {item : α}

/-- Pushing the successors of a node keeps it. -/
theorem PushedInv.push (h : PushedInv next queue (item :: rest) visited) :
    PushedInv next queue (rest ++ ((next item).filter (· ∉ visited)).dedup)
      (((next item).filter (· ∉ visited)).dedup ++ visited) := by
  have hmem : ∀ after, after ∈ ((next item).filter (· ∉ visited)).dedup ++ visited ↔
      after ∈ next item ∨ after ∈ visited := by
    intro after
    simp only [List.mem_append, List.mem_dedup, List.mem_filter, decide_eq_true_eq]
    tauto
  refine ⟨fun other hother => ?_, fun other hother => ?_, fun other hother => ?_⟩
  · rcases (hmem other).mp hother with hnext | hvisited
    · rcases h.waiting item List.mem_cons_self with hqueue | hvisited
      · exact ⟨item, hqueue, .single hnext⟩
      · obtain ⟨start, hstart, hreach⟩ := h.reaches item hvisited
        exact ⟨start, hstart, hreach.tail hnext⟩
    · exact h.reaches other hvisited
  · rw [hmem]
    rcases List.mem_append.mp hother with hold | hnew
    · exact (h.waiting other (List.mem_cons_of_mem _ hold)).imp_right .inr
    · exact .inr (.inl (List.mem_filter.mp (List.mem_dedup.mp hnew)).1)
  · by_cases hsame : other = item
    · -- The successors of the item are marked now.
      subst hsame
      exact .inr fun after hafter => (hmem after).mpr (.inl hafter)
    · rw [hmem] at hother
      by_cases hbefore : other ∈ queue ∨ other ∈ visited
      · rcases h.closed other hbefore with hwaiting | hdone
        · exact .inl (List.mem_append_left _ ((List.mem_cons.mp hwaiting).resolve_left hsame))
        · exact .inr fun after hafter => (hmem after).mpr (.inr (hdone after hafter))
      · refine .inl (List.mem_append_right _ ?_)
        rw [List.mem_dedup, List.mem_filter, decide_eq_true_eq]
        tauto

omit [DecidableEq α] in
/-- When no node waits, those marked are the ones that the queue reaches in one or more steps. -/
theorem PushedInv.mem_iff (h : PushedInv next queue [] visited) {node : α} :
    node ∈ visited ↔
      ∃ start ∈ queue, TransGen (fun item after => after ∈ next item) start node := by
  refine ⟨h.reaches node, ?_⟩
  intro ⟨start, hstart, hreach⟩
  induction hreach with
  | single hnext => exact (h.closed start (.inl hstart)).resolve_left List.not_mem_nil _ hnext
  | tail _ hnext ih => exact (h.closed _ (.inr ih)).resolve_left List.not_mem_nil _ hnext

end PushedInv

/-- The traversal pushes what its queue reaches in one or more steps. -/
theorem mem_pushed_list {next : α → List α} {items queue : List α}
    (hitems : ∀ item, item ∈ items) {node : α} :
    node ∈ pushedList next items queue ↔
      ∃ start ∈ queue, TransGen (fun item after => after ∈ next item) start node := by
  have hfuel : queue.length + (items.filter (· ∉ ([] : List α))).length ≤
      queue.length + items.length := Nat.add_le_add_left (List.length_filter_le _ _) _
  obtain ⟨final, hfinal⟩ := exists_push_once next hitems queue [] hfuel
  have hlist : pushedList next items queue = final := by
    unfold pushedList
    rw [hfinal]
    rfl
  have hstart : PushedInv next queue queue [] :=
    ⟨by simp, fun _ => .inl, fun item hitem => .inl (by simpa using hitem)⟩
  have hend := push_once_invariant (PushedInv next queue) (fun _ _ _ h => h.push) hstart hfinal
  rw [hlist, hend.mem_iff]

end Gino.Machine
