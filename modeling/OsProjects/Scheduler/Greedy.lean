import Mathlib.Algebra.Order.Group.Nat
import Mathlib.Data.List.DropRight
import Mathlib.Data.List.Nodup
import OsProjects.Lib.Run

/-!
# The greedy I/O scheduler

The scheduler keeps pending requests in two queues in ascending order of start sector,
those below the disk head and those at or above it as they arrive, and dispatches
either the last of the lower or the first of the upper queue. This file embeds its
operations on lists of requests.

## Main definitions

* `Request`, `GreedyData` — a request of the block layer, the scheduler's state
* `addSorted` — the insertion that `greedy_add_request` makes by scanning backwards
* `GreedyData.greedyDispatch`, `greedyAddRequest`, `greedyMergedRequests`,
  `greedyFormerRequest`, `greedyLatterRequest` — the operations of the elevator
* `GreedyAct`, `GreedyData.Step` — what the block layer may do

## Main results

* `GreedyData.dispatch_cases` — what a dispatch does
* `Ascending.addSorted` — the insertion keeps a queue in order
-/

namespace OsProjects.Scheduler

/-! ### Sector arithmetic -/

/-- Addition of `sector_t`, an unsigned type of 64 bits. -/
def add64 (a b : ℕ) : ℕ := (a + b) % 2 ^ 64

/-- Subtraction of `sector_t`. -/
def sub64 (a b : ℕ) : ℕ := (a + 2 ^ 64 - b) % 2 ^ 64

theorem add64_of_lt {a b : ℕ} (h : a + b < 2 ^ 64) : add64 a b = a + b := Nat.mod_eq_of_lt h

theorem sub64_of_le {a b : ℕ} (hle : b ≤ a) (hlt : a < 2 ^ 64) : sub64 a b = a - b := by
  unfold sub64
  omega

/-- Subtracting the larger of two sectors wraps around. -/
theorem sub64_of_lt {a b : ℕ} (hlt : a < b) (hb : b ≤ 2 ^ 64) : sub64 a b = 2 ^ 64 - (b - a) := by
  unfold sub64
  omega

/-! ### Requests and queues -/

/-- What the scheduler reads of a `struct request`: which one it is, `blk_rq_pos` and
`blk_rq_sectors`. -/
structure Request (ι : Type*) where
  id : ι
  sector : ℕ
  sectors : ℕ
  deriving DecidableEq

variable {ι : Type*}

/-- `rq_end_sector` -/
def Request.endSector (rq : Request ι) : ℕ := add64 rq.sector rq.sectors

/-- `struct greedy_data` -/
structure GreedyData (ι : Type*) where
  lowerQueue : List (Request ι)
  upperQueue : List (Request ι)
  diskHead : ℕ

/-- Insert behind the last request that starts at a smaller sector. -/
def addSorted (rq : Request ι) (queue : List (Request ι)) : List (Request ι) :=
  queue.rdropWhile (fun pos => rq.sector ≤ pos.sector) ++
    rq :: queue.rtakeWhile fun pos => rq.sector ≤ pos.sector

/-- The request behind `rq` in a queue. -/
def behind [DecidableEq ι] (rq : Request ι) : List (Request ι) → Option (Request ι)
  | x :: y :: queue => if x = rq then some y else behind rq (y :: queue)
  | _ => none

namespace GreedyData

/-- `greedy_init_queue` -/
def greedyInitQueue : GreedyData ι := ⟨[], [], 0⟩

/-- `greedy_merged_requests` -/
def greedyMergedRequests [DecidableEq ι] (gd : GreedyData ι) (next : Request ι) : GreedyData ι :=
  { gd with lowerQueue := gd.lowerQueue.erase next, upperQueue := gd.upperQueue.erase next }

/-- `greedy_dispatch`: the request moved to the dispatch queue and the new state, or
`none` when it returns 0. -/
def greedyDispatch (gd : GreedyData ι) : Option (Request ι × GreedyData ι) :=
  let dispatchLower (rq : Request ι) :=
    (rq, { gd with lowerQueue := gd.lowerQueue.dropLast, diskHead := rq.endSector })
  let dispatchUpper (rq : Request ι) :=
    (rq, { gd with upperQueue := gd.upperQueue.tail, diskHead := rq.endSector })
  match gd.lowerQueue.getLast?, gd.upperQueue.head? with
  | none, none => none
  | none, some nextUpper => some (dispatchUpper nextUpper)
  | some nextLower, none => some (dispatchLower nextLower)
  | some nextLower, some nextUpper =>
    let lowerDistance := sub64 gd.diskHead nextLower.sector
    let upperDistance := sub64 nextUpper.sector gd.diskHead
    if lowerDistance < upperDistance then some (dispatchLower nextLower)
    else some (dispatchUpper nextUpper)

/-- `greedy_add_request` -/
def greedyAddRequest (gd : GreedyData ι) (rq : Request ι) : GreedyData ι :=
  if rq.sector < gd.diskHead then { gd with lowerQueue := addSorted rq gd.lowerQueue }
  else { gd with upperQueue := addSorted rq gd.upperQueue }

/-- `greedy_former_request` -/
def greedyFormerRequest [DecidableEq ι] (gd : GreedyData ι) (rq : Request ι) : Option (Request ι) :=
  if rq ∈ gd.lowerQueue then behind rq gd.lowerQueue.reverse else behind rq gd.upperQueue.reverse

/-- `greedy_latter_request` -/
def greedyLatterRequest [DecidableEq ι] (gd : GreedyData ι) (rq : Request ι) : Option (Request ι) :=
  if rq ∈ gd.lowerQueue then behind rq gd.lowerQueue else behind rq gd.upperQueue

/-- The requests in both queues. -/
def pending (gd : GreedyData ι) : List (Request ι) := gd.lowerQueue ++ gd.upperQueue

end GreedyData

/-! ### The block layer -/

/-- A request extended over the one merged into it. -/
def Request.extend (rq next : Request ι) : Request ι :=
  { rq with sectors := rq.sectors + next.sectors }

/-- What the block layer does to a queue of which it merges `next` into `rq`. -/
def extendOver [DecidableEq ι] (rq next : Request ι) (queue : List (Request ι)) :
    List (Request ι) :=
  queue.map fun x => if x = rq then rq.extend next else x

/-- What the block layer may do with the scheduler. -/
inductive GreedyAct (ι : Type*)
  | add (rq : Request ι)
  | merge (rq next : Request ι)
  | dispatch

namespace GreedyData

/-- A merge: `next` leaves its queue and `rq` is extended over it. -/
def merge [DecidableEq ι] (gd : GreedyData ι) (rq next : Request ι) : GreedyData ι :=
  let gd := gd.greedyMergedRequests next
  { gd with
    lowerQueue := extendOver rq next gd.lowerQueue
    upperQueue := extendOver rq next gd.upperQueue }

/-- The state after a dispatch, whether it finds a request or not. -/
def afterDispatch (gd : GreedyData ι) : GreedyData ι :=
  match gd.greedyDispatch with
  | some (_, gd) => gd
  | none => gd

/-- The state after an action. -/
def act [DecidableEq ι] (gd : GreedyData ι) : GreedyAct ι → GreedyData ι
  | .add rq => gd.greedyAddRequest rq
  | .merge rq next => gd.merge rq next
  | .dispatch => gd.afterDispatch

/-- The block layer adds only requests that are not queued, and merges only two
different requests of one queue. -/
def Allowed (gd : GreedyData ι) : GreedyAct ι → Prop
  | .add rq => ∀ x ∈ gd.pending, x.id ≠ rq.id
  | .merge rq next => rq ≠ next ∧
    (rq ∈ gd.lowerQueue ∧ next ∈ gd.lowerQueue ∨ rq ∈ gd.upperQueue ∧ next ∈ gd.upperQueue)
  | .dispatch => True

instance [DecidableEq ι] (gd : GreedyData ι) (a : GreedyAct ι) : Decidable (gd.Allowed a) :=
  match a with
  | .add _ => List.decidableBAll _ _
  | .merge _ _ => instDecidableAnd
  | .dispatch => instDecidableTrue

def Step [DecidableEq ι] (s : GreedyData ι) (a : GreedyAct ι) (t : GreedyData ι) : Prop :=
  s.Allowed a ∧ t = s.act a

end GreedyData

/-! ### Insertion -/

/-- A queue in ascending order of start sector. -/
def Ascending (queue : List (Request ι)) : Prop :=
  queue.Pairwise fun x y => x.sector ≤ y.sector

section Insertion

variable {rq : Request ι} {queue : List (Request ι)}

/-- The insertion splits the queue around the new request. -/
theorem addSorted_split (rq : Request ι) (queue : List (Request ι)) :
    ∃ front back, queue = front ++ back ∧ addSorted rq queue = front ++ rq :: back ∧
      (∀ x ∈ back, rq.sector ≤ x.sector) ∧
        ∀ x front', front = front' ++ [x] → x.sector < rq.sector := by
  refine ⟨_, _, List.rdropWhile_append_rtakeWhile.symm, rfl, ?_, ?_⟩
  · intro x hx
    simpa using List.mem_rtakeWhile_imp hx
  · intro x front' hfront
    have hne : queue.rdropWhile (fun pos => decide (rq.sector ≤ pos.sector)) ≠ [] := by
      simp [hfront]
    have hlast := List.rdropWhile_last_not _ _ hne
    simp only [hfront, List.getLast_append_singleton] at hlast
    simpa using hlast

theorem addSorted_perm (rq : Request ι) (queue : List (Request ι)) :
    (addSorted rq queue).Perm (rq :: queue) := by
  obtain ⟨front, back, hqueue, hadd, -, -⟩ := addSorted_split rq queue
  rw [hadd, hqueue]
  exact List.perm_middle

@[simp] theorem mem_addSorted {x : Request ι} : x ∈ addSorted rq queue ↔ x = rq ∨ x ∈ queue := by
  rw [(addSorted_perm rq queue).mem_iff, List.mem_cons]

/-- The insertion keeps a queue in order. -/
theorem Ascending.addSorted (h : Ascending queue) : Ascending (addSorted rq queue) := by
  obtain ⟨front, back, hqueue, hadd, hback, hfront⟩ := addSorted_split rq queue
  rw [hqueue, Ascending, List.pairwise_append] at h
  obtain ⟨hf, hb, hfb⟩ := h
  -- the front ends below the new request, so all of it is
  have hbelow : ∀ x ∈ front, x.sector ≤ rq.sector := by
    intro x hx
    rcases List.eq_nil_or_concat' front with rfl | ⟨front', last, rfl⟩
    · cases hx
    · have hlast := hfront last front' rfl
      rcases List.mem_append.mp hx with hx' | hx'
      · have hle := (List.pairwise_append.mp hf).2.2 x hx' last (List.mem_singleton.mpr rfl)
        omega
      · obtain rfl := List.mem_singleton.mp hx'
        exact hlast.le
  rw [hadd, Ascending, List.pairwise_append]
  refine ⟨hf, List.pairwise_cons.mpr ⟨hback, hb⟩, ?_⟩
  intro x hx y hy
  rcases List.mem_cons.mp hy with rfl | hy
  · exact hbelow x hx
  · exact hfb x hx y hy

/-- An ascending queue ends with its greatest start. -/
theorem Ascending.le_last {x : Request ι} (h : Ascending (queue ++ [rq]))
    (hx : x ∈ queue ++ [rq]) : x.sector ≤ rq.sector := by
  rcases List.mem_append.mp hx with hx | hx
  · exact (List.pairwise_append.mp h).2.2 x hx rq (List.mem_singleton.mpr rfl)
  · exact le_of_eq (congrArg Request.sector (List.mem_singleton.mp hx))

/-- An ascending queue begins with its least start. -/
theorem Ascending.head_le {x : Request ι} (h : Ascending (rq :: queue)) (hx : x ∈ rq :: queue) :
    rq.sector ≤ x.sector := by
  rcases List.mem_cons.mp hx with rfl | hx
  · exact le_rfl
  · exact (List.pairwise_cons.mp h).1 x hx

end Insertion

/-! ### Merges -/

@[simp] theorem extend_sector (rq next : Request ι) : (rq.extend next).sector = rq.sector := rfl

section Merge

variable [DecidableEq ι] {rq next : Request ι} {queue : List (Request ι)}

/-- A merge leaves the requests of a queue as they are, but for the one it extends. -/
theorem mem_extendOver {x : Request ι} (h : x ∈ extendOver rq next (queue.erase next)) :
    x ∈ queue ∨ rq ∈ queue ∧ x = rq.extend next := by
  obtain ⟨y, hy, hx⟩ := List.mem_map.mp h
  have hmem := List.mem_of_mem_erase hy
  split at hx
  · subst hx
    rename_i heq
    exact .inr ⟨heq ▸ hmem, rfl⟩
  · exact .inl (hx ▸ hmem)

/-- A merge keeps a queue in order. -/
theorem Ascending.merge (h : Ascending queue) :
    Ascending (extendOver rq next (queue.erase next)) := by
  have hsector : ∀ x : Request ι, (if x = rq then rq.extend next else x).sector = x.sector := by
    intro x
    split
    · subst x
      rfl
    · rfl
  unfold Ascending extendOver
  rw [List.pairwise_map]
  simp only [hsector]
  exact h.sublist List.erase_sublist

end Merge

/-- Where only one of two lists holds `a`, erasing it from both erases it from all. -/
theorem erase_append_erase {α : Type*} [DecidableEq α] {xs ys : List α}
    (h : (xs ++ ys).Nodup) (a : α) : xs.erase a ++ ys.erase a = (xs ++ ys).erase a := by
  rw [List.erase_append]
  split
  · rename_i hxs
    have hys : a ∉ ys := List.disjoint_of_nodup_append h hxs
    rw [List.erase_of_not_mem hys]
  · rename_i hxs
    rw [List.erase_of_not_mem hxs]

/-! ### Neighbours -/

theorem behind_eq [DecidableEq ι] {rq : Request ι} {front back : List (Request ι)}
    (h : (front ++ rq :: back).Nodup) : behind rq (front ++ rq :: back) = back.head? := by
  induction front with
  | nil =>
    cases back with
    | nil => rfl
    | cons y back => simp [behind]
  | cons x front ih =>
    rw [List.cons_append, List.nodup_cons] at h
    have hne : x ≠ rq := by
      rintro rfl
      exact h.1 (by simp)
    rw [← ih h.2]
    cases front with
    | nil => simp [behind, hne]
    | cons z front => simp [behind, hne]

/-! ### What is pending -/

namespace GreedyData

theorem add_pending_perm (gd : GreedyData ι) (rq : Request ι) :
    (gd.greedyAddRequest rq).pending.Perm (rq :: gd.pending) := by
  unfold greedyAddRequest
  split
  · exact (addSorted_perm rq gd.lowerQueue).append_right gd.upperQueue
  · exact ((addSorted_perm rq gd.upperQueue).append_left gd.lowerQueue).trans List.perm_middle

end GreedyData

/-! ### Dispatch -/

namespace GreedyData

variable {gd gd' : GreedyData ι} {rq : Request ι}

/-- A dispatch takes the last of the lower or the first of the upper queue, as the
distances say when both are there. -/
theorem dispatch_cases (h : gd.greedyDispatch = some (rq, gd')) :
    (∃ lower, gd.lowerQueue = lower ++ [rq] ∧
        gd' = { gd with lowerQueue := lower, diskHead := rq.endSector } ∧
        ∀ u upper, gd.upperQueue = u :: upper →
          sub64 gd.diskHead rq.sector < sub64 u.sector gd.diskHead) ∨
      ∃ upper, gd.upperQueue = rq :: upper ∧
        gd' = { gd with upperQueue := upper, diskHead := rq.endSector } ∧
        ∀ l lower, gd.lowerQueue = lower ++ [l] →
          sub64 rq.sector gd.diskHead ≤ sub64 gd.diskHead l.sector := by
  obtain ⟨lower, upper, head⟩ := gd
  rcases List.eq_nil_or_concat' lower with rfl | ⟨lower', l, rfl⟩
  · cases upper with
    | nil => cases h
    | cons u upper' =>
      cases h
      exact .inr ⟨upper', rfl, rfl, by simp⟩
  · cases upper with
    | nil =>
      simp only [greedyDispatch, List.getLast?_concat, List.head?_nil, List.dropLast_concat] at h
      cases h
      exact .inl ⟨lower', rfl, rfl, by simp⟩
    | cons u upper' =>
      simp only [greedyDispatch, List.getLast?_concat, List.head?_cons, List.dropLast_concat,
        List.tail_cons] at h
      split at h
      · cases h
        refine .inl ⟨lower', rfl, rfl, ?_⟩
        intro x xs hx
        cases hx
        assumption
      · cases h
        refine .inr ⟨upper', rfl, rfl, ?_⟩
        intro x xs hx
        obtain ⟨-, hx⟩ := List.append_inj' hx rfl
        cases hx
        exact Nat.le_of_not_lt ‹_›

theorem dispatch_diskHead (h : gd.greedyDispatch = some (rq, gd')) :
    gd'.diskHead = rq.endSector := by
  rcases dispatch_cases h with ⟨lower, -, rfl, -⟩ | ⟨upper, -, rfl, -⟩
  · rfl
  · rfl

theorem dispatch_pending_perm (h : gd.greedyDispatch = some (rq, gd')) :
    gd.pending.Perm (rq :: gd'.pending) := by
  rcases dispatch_cases h with ⟨lower, hlower, rfl, -⟩ | ⟨upper, hupper, rfl, -⟩
  · simp only [pending, hlower, List.append_assoc]
    exact List.perm_middle
  · simp only [pending, hupper]
    exact List.perm_middle

/-- It finds nothing exactly when both queues are empty. -/
theorem dispatch_eq_none_iff : gd.greedyDispatch = none ↔ gd.pending = [] := by
  obtain ⟨lower, upper, head⟩ := gd
  rcases List.eq_nil_or_concat' lower with rfl | ⟨lower', l, rfl⟩
  · cases upper with
    | nil => exact iff_of_true rfl rfl
    | cons u upper' => exact iff_of_false nofun nofun
  · refine iff_of_false ?_ (by simp [pending])
    cases upper with
    | nil => simp [greedyDispatch]
    | cons u upper' =>
      simp only [greedyDispatch, List.getLast?_concat, List.head?_cons]
      split <;> simp

end GreedyData

end OsProjects.Scheduler
