import OsProjects.Scheduler.Nearest
import OsProjects.Scheduler.Simulation

/-!
# The rings in order

Every step of the elevator in memory is an operation on the lists of requests that its
two rings hold, so that what the operations on lists keep holds of the rings in every run.
As long as the block layer does not move a queued request, both rings ascend; and when
requests are not empty and end below `2 ^ 63`, the lower ring is below the disk head,
whether or not the upper ring is above it.

## Main definitions

* `queuesAfter` — what an action does to the queues as lists
* `KeepsPos`, `KeepsSize` — the steps under which the rings stay in order
* `GreedyData.Ascends` — both queues ascend
* `Neighbourly` — the two look-ups find the neighbours in order of sectors

## Main results

* `Elevator.Conserves.step_queues` — every step is an operation on lists
* `lower_below_head` — in every run, with ranges that may overlap
* `neighbours_adjacent` — in every run, with any ranges
-/

namespace OsProjects.Scheduler

open ListHead Run

variable {ι : Type*}

/-! ### Steps as operations on lists -/

section Queues

variable [DecidableEq ι]

/-- A request that changes its extent, if it is queued. -/
def GreedyData.resize (gd : GreedyData ι) (rq : ι) (pos sectors : ℕ) : GreedyData ι :=
  let resized (x : Request ι) : Request ι := if x.id = rq then ⟨rq, pos, sectors⟩ else x
  { gd with lowerQueue := gd.lowerQueue.map resized, upperQueue := gd.upperQueue.map resized }

/-- What an action does to the queues as lists. -/
def queuesAfter (h : Heap ι) (gd : GreedyData ι) : ElevatorAct ι → GreedyData ι
  | .add rq => gd.greedyAddRequest (h.request rq)
  -- the request that takes `next` over is resized by an action of its own
  | .merge _ next => gd.greedyMergedRequests (h.request next)
  | .dispatch => gd.afterDispatch
  | .resize rq pos sectors => gd.resize rq pos sectors
  | .relink _ => gd

theorem Heap.queues_resize_eq (h : Heap ι) (rq : ι) (pos sectors : ℕ) (lower upper : List ι) :
    (h.resize rq pos sectors).queues lower upper =
      (h.queues lower upper).resize rq pos sectors := by
  have hmap : ∀ queue : List ι, queue.map (h.resize rq pos sectors).request =
      (queue.map h.request).map fun x => if x.id = rq then ⟨rq, pos, sectors⟩ else x := by
    intro queue
    rw [List.map_map]
    apply List.map_congr_left
    intro x _
    by_cases hx : x = rq
    · subst hx
      simp
    · simp [Heap.resize_request_of_ne hx, hx]
  simp only [queues, hmap, GreedyData.resize]
  rfl

namespace Elevator

variable {s t : Elevator ι} {lower upper : List ι} {a : ElevatorAct ι}

/-- **Every step is an operation on lists.** -/
theorem Conserves.step_queues (h : s.Conserves lower upper) (hstep : s.Step a t) :
    ∃ lower' upper', t.Conserves lower' upper' ∧
      t.heap.queues lower' upper' = queuesAfter s.heap (s.heap.queues lower upper) a := by
  cases a with
  | add rq =>
    obtain ⟨t', lower', upper', hstep', ht, hqueues⟩ := h.add hstep.1
    obtain rfl := hstep.unique hstep'
    exact ⟨lower', upper', ht, hqueues⟩
  | merge rq next =>
    obtain ⟨hallowed, rfl⟩ := hstep
    obtain ⟨ht, hqueues⟩ := h.merge hallowed
    exact ⟨_, _, ht, hqueues⟩
  | dispatch =>
    obtain ⟨t', lower', upper', hstep', ht, hqueues⟩ := h.dispatch
    obtain rfl := hstep.unique hstep'
    exact ⟨lower', upper', ht, hqueues⟩
  | resize rq pos sectors =>
    obtain ⟨-, rfl⟩ := hstep
    exact ⟨lower, upper, h.resize rq pos sectors, s.heap.queues_resize_eq rq pos sectors _ _⟩
  | relink links =>
    obtain ⟨hallowed, rfl⟩ := hstep
    exact ⟨lower, upper, h.relink hallowed, rfl⟩

/-- A request that shows in the queues is queued. -/
theorem Conserves.queued_of_pending (h : s.Conserves lower upper) {x : Request ι}
    (hx : x ∈ (s.heap.queues lower upper).pending) : x.id ∈ s.queued ∧ s.heap.request x.id = x := by
  rw [GreedyData.pending, Heap.queues, ← List.map_append] at hx
  obtain ⟨rq, hrq, rfl⟩ := List.mem_map.mp hx
  exact ⟨h.mem_queued.mpr hrq, rfl⟩

end Elevator

end Queues

/-! ### What the operations on lists keep -/

/-- Both queues ascend. -/
structure GreedyData.Ascends (gd : GreedyData ι) : Prop where
  lower : Ascending gd.lowerQueue
  upper : Ascending gd.upperQueue

section Map

variable [DecidableEq ι] {queue : List (Request ι)} {rq : ι} {pos sectors : ℕ}

/-- A request that keeps its start leaves a queue in order. -/
theorem Ascending.resize (h : Ascending queue) (hpos : ∀ x ∈ queue, x.id = rq → pos = x.sector) :
    Ascending (queue.map fun x => if x.id = rq then ⟨rq, pos, sectors⟩ else x) := by
  have hsector : ∀ x ∈ queue,
      (if x.id = rq then (⟨rq, pos, sectors⟩ : Request ι) else x).sector = x.sector := by
    intro x hx
    split
    · exact hpos x hx ‹_›
    · rfl
  rw [Ascending, List.pairwise_map]
  refine List.Pairwise.imp_of_mem ?_ h
  intro x y hx hy hle
  rw [hsector x hx, hsector y hy]
  exact hle

end Map

namespace GreedyData

variable {gd gd' : GreedyData ι} {rq next : Request ι}

theorem ascends_init : (greedyInitQueue : GreedyData ι).Ascends :=
  ⟨List.Pairwise.nil, List.Pairwise.nil⟩

theorem Ascends.add (h : gd.Ascends) (rq : Request ι) : (gd.greedyAddRequest rq).Ascends := by
  unfold greedyAddRequest
  split
  · exact ⟨h.lower.addSorted, h.upper⟩
  · exact ⟨h.lower, h.upper.addSorted⟩

theorem Ascends.dispatch (h : gd.Ascends) (hd : gd.greedyDispatch = some (rq, gd')) :
    gd'.Ascends := by
  rcases dispatch_cases hd with ⟨lower, hlower, rfl, -⟩ | ⟨upper, hupper, rfl, -⟩
  · have hasc := h.lower
    rw [hlower] at hasc
    exact ⟨(List.pairwise_append.mp hasc).1, h.upper⟩
  · have hasc := h.upper
    rw [hupper] at hasc
    exact ⟨h.lower, (List.pairwise_cons.mp hasc).2⟩

theorem Ascends.afterDispatch (h : gd.Ascends) : gd.afterDispatch.Ascends := by
  unfold GreedyData.afterDispatch
  split
  · rename_i rq gd' hd
    exact h.dispatch hd
  · exact h

theorem Ordered.afterDispatch (h : gd.Ordered) : gd.afterDispatch.Ordered := by
  unfold GreedyData.afterDispatch
  split
  · rename_i rq gd' hd
    exact h.dispatch hd
  · exact h

variable [DecidableEq ι] {id : ι} {pos sectors : ℕ}

theorem Ascends.merged (h : gd.Ascends) (next : Request ι) :
    (gd.greedyMergedRequests next).Ascends :=
  ⟨h.lower.sublist List.erase_sublist, h.upper.sublist List.erase_sublist⟩

theorem Ordered.merged (h : gd.Ordered) (next : Request ι) :
    (gd.greedyMergedRequests next).Ordered where
  lower := h.lower.sublist List.erase_sublist
  upper := h.upper.sublist List.erase_sublist
  below x hx := h.below x (List.mem_of_mem_erase hx)
  sound x hx := by
    have hsub : (gd.greedyMergedRequests next).pending.Sublist gd.pending :=
      List.erase_sublist.append List.erase_sublist
    exact h.sound x (hsub.mem hx)
  head := h.head

theorem Ascends.resize (h : gd.Ascends) (hpos : ∀ x ∈ gd.pending, x.id = id → pos = x.sector) :
    (gd.resize id pos sectors).Ascends where
  lower := h.lower.resize fun x hx => hpos x (List.mem_append_left _ hx)
  upper := h.upper.resize fun x hx => hpos x (List.mem_append_right _ hx)

theorem Ordered.resize (h : gd.Ordered) (hpos : ∀ x ∈ gd.pending, x.id = id → pos = x.sector)
    (hsize : ∀ x ∈ gd.pending, x.id = id → 1 ≤ sectors ∧ pos + sectors < 2 ^ 63) :
    (gd.resize id pos sectors).Ordered where
  lower := h.lower.resize fun x hx => hpos x (List.mem_append_left _ hx)
  upper := h.upper.resize fun x hx => hpos x (List.mem_append_right _ hx)
  below x hx := by
    obtain ⟨y, hy, rfl⟩ := List.mem_map.mp hx
    have hbelow := h.below y hy
    split
    · rename_i hid
      rw [← hpos y (List.mem_append_left _ hy) hid] at hbelow
      exact hbelow
    · exact hbelow
  sound x hx := by
    rw [pending, GreedyData.resize, ← List.map_append] at hx
    obtain ⟨y, hy, rfl⟩ := List.mem_map.mp hx
    split
    · exact hsize y hy ‹_›
    · exact h.sound y hy
  head := h.head

end GreedyData

/-! ### The runs considered -/

section Runs

variable [DecidableEq ι]

/-- The block layer does not move a queued request. -/
def KeepsPos (e : Elevator ι) : ElevatorAct ι → Prop
  | .resize rq pos _ => rq ∈ e.queued → pos = e.heap.blkRqPos rq
  | _ => True

/-- Requests that are added or queued have a sector at least and end below `2 ^ 63`. -/
def KeepsSize (e : Elevator ι) : ElevatorAct ι → Prop
  | .add rq => 1 ≤ e.heap.blkRqSectors rq ∧ e.heap.blkRqPos rq + e.heap.blkRqSectors rq < 2 ^ 63
  | .resize rq pos sectors => rq ∈ e.queued → 1 ≤ sectors ∧ pos + sectors < 2 ^ 63
  | _ => True

namespace Elevator

variable {s t e : Elevator ι} {lower upper : List ι} {a : ElevatorAct ι}

/-- A queued request that is resized shows with its old start. -/
theorem Conserves.pos_eq (h : s.Conserves lower upper) {rq : ι} {pos sectors : ℕ}
    (ha : KeepsPos s (.resize rq pos sectors)) :
    ∀ x ∈ (s.heap.queues lower upper).pending, x.id = rq → pos = x.sector := by
  rintro x hx rfl
  obtain ⟨hqueued, hrequest⟩ := h.queued_of_pending hx
  rw [ha hqueued, ← hrequest]
  rfl

theorem Conserves.ascends_after (h : s.Conserves lower upper)
    (hasc : (s.heap.queues lower upper).Ascends) (ha : KeepsPos s a) :
    (queuesAfter s.heap (s.heap.queues lower upper) a).Ascends := by
  cases a with
  | add rq => exact hasc.add _
  | merge rq next => exact hasc.merged _
  | dispatch => exact hasc.afterDispatch
  | resize rq pos sectors => exact hasc.resize (h.pos_eq ha)
  | relink links => exact hasc

theorem Conserves.ordered_after (h : s.Conserves lower upper)
    (hord : (s.heap.queues lower upper).Ordered) (ha : KeepsPos s a) (ha' : KeepsSize s a) :
    (queuesAfter s.heap (s.heap.queues lower upper) a).Ordered := by
  cases a with
  | add rq => exact hord.add ha'.1 ha'.2
  | merge rq next => exact hord.merged _
  | dispatch => exact hord.afterDispatch
  | resize rq pos sectors =>
    apply hord.resize (h.pos_eq ha)
    intro x hx hid
    exact ha' (hid ▸ (h.queued_of_pending hx).1)
  | relink links => exact hord

/-- What the operations on lists keep, and what holds at first, holds of the rings in every
run. -/
theorem queues_of_run {Inv : GreedyData ι → Prop} {P : Elevator ι → ElevatorAct ι → Prop}
    {h₀ heap : Heap ι} {as : List (ElevatorAct ι)} (hempty : Inv .greedyInitQueue)
    (hkeep : ∀ (s : Elevator ι) lower upper a, s.Conserves lower upper →
      Inv (s.heap.queues lower upper) → P s a →
        Inv (queuesAfter s.heap (s.heap.queues lower upper) a))
    (hinit : h₀.greedyInitQueue true true = .ok heap)
    (hrun : Along Step (fun e a _ => P e a) (initial heap) as s) :
    ∃ lower upper, s.Conserves lower upper ∧ Inv (s.heap.queues lower upper) := by
  apply hrun.invariant fun e : Elevator ι =>
    ∃ lower upper, e.Conserves lower upper ∧ Inv (e.heap.queues lower upper)
  · rintro s a t ⟨lower, upper, h, hinv⟩ hstep ha
    obtain ⟨lower', upper', ht, hqueues⟩ := h.step_queues hstep
    refine ⟨lower', upper', ht, ?_⟩
    rw [hqueues]
    exact hkeep s lower upper a h hinv ha
  · have hqueues : (initial heap).heap.queues [] [] = .greedyInitQueue :=
      (Heap.holds_init hinit).2
    refine ⟨[], [], conserves_initial hinit, ?_⟩
    rw [hqueues]
    exact hempty

/-- In every run in which no queued request is moved, both rings ascend. -/
theorem ascends_of_run {h₀ heap : Heap ι} {as : List (ElevatorAct ι)}
    (hinit : h₀.greedyInitQueue true true = .ok heap)
    (hrun : Along Step (fun e a _ => KeepsPos e a) (initial heap) as s) :
    ∃ lower upper, s.Conserves lower upper ∧ (s.heap.queues lower upper).Ascends := by
  apply queues_of_run GreedyData.ascends_init _ hinit hrun
  intro s lower upper a h hasc ha
  exact h.ascends_after hasc ha

/-- And when requests have sizes as they should, the lower ring is below the head. -/
theorem ordered_of_run {h₀ heap : Heap ι} {as : List (ElevatorAct ι)}
    (hinit : h₀.greedyInitQueue true true = .ok heap)
    (hrun : Along Step (fun e a _ => KeepsPos e a ∧ KeepsSize e a) (initial heap) as s) :
    ∃ lower upper, s.Conserves lower upper ∧ (s.heap.queues lower upper).Ordered := by
  apply queues_of_run GreedyData.ordered_init _ hinit hrun
  intro s lower upper a h hord ha
  exact h.ordered_after hord ha.1 ha.2

end Elevator

end Runs

/-! ### The lower ring and the head -/

/-- **The lower ring is below the head.** In every run, however the requests overlap, every
request in the lower ring starts below the disk head, so that its distance does not wrap
around. -/
theorem lower_below_head [DecidableEq ι] {h₀ heap : Heap ι} {as : List (ElevatorAct ι)}
    {s : Elevator ι} (hinit : h₀.greedyInitQueue true true = .ok heap)
    (hrun : Along Elevator.Step (fun e a _ => KeepsPos e a ∧ KeepsSize e a)
      (Elevator.initial heap) as s) :
    ∃ lower upper : List ι,
      s.heap.links.Ring .lowerQueue (lower.map .queuelist) ∧
      s.heap.links.Ring .upperQueue (upper.map .queuelist) ∧
      ∀ rq ∈ lower, s.heap.blkRqPos rq < s.heap.diskHead ∧
        sub64 s.heap.diskHead (s.heap.blkRqPos rq) = s.heap.diskHead - s.heap.blkRqPos rq := by
  obtain ⟨lower, upper, h, hord⟩ := Elevator.ordered_of_run hinit hrun
  refine ⟨lower, upper, h.holds.lowerRing, h.holds.upperRing, ?_⟩
  intro rq hrq
  have hbelow : s.heap.blkRqPos rq < s.heap.diskHead :=
    hord.below _ (List.mem_map_of_mem hrq)
  have hhead : s.heap.diskHead < 2 ^ 63 := hord.head
  exact ⟨hbelow, sub64_of_le hbelow.le (by omega)⟩

/-- Requests of fifty sectors, ten sectors apart, before `greedy_init_queue`. -/
def overlapping : Heap ℕ := ⟨⟨id, id⟩, fun rq => 100 + 10 * rq, fun _ => 50, 0⟩

/-- The first of two overlapping requests is served, which leaves the other in the upper
ring below the head; two more are added below the head, and one is merged into the other. -/
def passOver : List (ElevatorAct ℕ) :=
  [.add 0, .add 1, .dispatch, .add 2, .add 3, .merge 2 3, .resize 2 120 60]

theorem passOver_run :
    ∃ (heap : Heap ℕ) (s : Elevator ℕ), overlapping.greedyInitQueue true true = .ok heap ∧
      Along Elevator.Step (fun e a _ => KeepsPos e a ∧ KeepsSize e a) (Elevator.initial heap)
        passOver s ∧
      s.heap.links.next .upperQueue = .queuelist 1 ∧ s.heap.links.prev .lowerQueue = .queuelist 2 ∧
      s.heap.diskHead < sub64 (s.heap.blkRqPos 1) s.heap.diskHead := by
  have free {e : Elevator ℕ} {rq : ℕ} (h : rq ∉ e.queued) : e.Allowed (.add rq) := h
  have held {e : Elevator ℕ} {rq next : ℕ} (h : next ∈ e.queued) : e.Allowed (.merge rq next) := h
  have sized {e : Elevator ℕ} {rq : ℕ} (h : 1 ≤ e.heap.blkRqSectors rq ∧
      e.heap.blkRqPos rq + e.heap.blkRqSectors rq < 2 ^ 63) :
    KeepsPos e (.add rq) ∧ KeepsSize e (.add rq) := ⟨trivial, h⟩
  have resized {e : Elevator ℕ} {rq pos sectors : ℕ} (h : pos = e.heap.blkRqPos rq)
      (h' : 1 ≤ sectors ∧ pos + sectors < 2 ^ 63) :
    KeepsPos e (.resize rq pos sectors) ∧ KeepsSize e (.resize rq pos sectors) :=
    ⟨fun _ => h, fun _ => h'⟩
  exact ⟨_, _, rfl,
    .cons ⟨free (by decide), 4, _, rfl, rfl⟩ (sized (by decide)) <|
    .cons ⟨free (by decide), 4, _, rfl, rfl⟩ (sized (by decide)) <|
    .cons ⟨trivial, some 0, _, rfl, rfl⟩ ⟨trivial, trivial⟩ <|
    .cons ⟨free (by decide), 4, _, rfl, rfl⟩ (sized (by decide)) <|
    .cons ⟨free (by decide), 4, _, rfl, rfl⟩ (sized (by decide)) <|
    .cons ⟨held (by decide), rfl⟩ ⟨trivial, trivial⟩ <|
    .cons ⟨trivial, rfl⟩ (resized rfl (by decide)) <| .nil _, rfl, rfl, by decide⟩

/-- At its end the first upper request is behind the head, at a distance that has wrapped
around, and the lower ring is not empty. -/
theorem lower_below_head_passOver :
    ∃ (s : Elevator ℕ) (lower upper : List ℕ),
      s.heap.links.prev .lowerQueue = .queuelist 2 ∧
      s.heap.diskHead < sub64 (s.heap.blkRqPos 1) s.heap.diskHead ∧
      s.heap.links.Ring .lowerQueue (lower.map .queuelist) ∧
      s.heap.links.Ring .upperQueue (upper.map .queuelist) ∧
      ∀ rq ∈ lower, s.heap.blkRqPos rq < s.heap.diskHead ∧
        sub64 s.heap.diskHead (s.heap.blkRqPos rq) = s.heap.diskHead - s.heap.blkRqPos rq := by
  obtain ⟨heap, s, hinit, hrun, -, hlower, hwraps⟩ := passOver_run
  obtain ⟨lower, upper, h⟩ := lower_below_head hinit hrun
  exact ⟨s, lower, upper, hlower, hwraps, h⟩

/-! ### Neighbours -/

/-- The look-ups at a request of a queue: they find nothing exactly at its ends, and
otherwise a request of the queue, in the order of sectors, with none strictly between and
from which the other look-up leads back. -/
structure Neighbourly [DecidableEq ι] (h : Heap ι) (queue : List ι) (rq : ι) : Prop where
  former_none : h.greedyFormerRequest rq = none ↔ queue.head? = some rq
  latter_none : h.greedyLatterRequest rq = none ↔ queue.getLast? = some rq
  former : ∀ f, h.greedyFormerRequest rq = some f → f ∈ queue ∧ h.blkRqPos f ≤ h.blkRqPos rq ∧
    (∀ x ∈ queue, ¬(h.blkRqPos f < h.blkRqPos x ∧ h.blkRqPos x < h.blkRqPos rq)) ∧
      h.greedyLatterRequest f = some rq
  latter : ∀ f, h.greedyLatterRequest rq = some f → f ∈ queue ∧ h.blkRqPos rq ≤ h.blkRqPos f ∧
    (∀ x ∈ queue, ¬(h.blkRqPos rq < h.blkRqPos x ∧ h.blkRqPos x < h.blkRqPos f)) ∧
      h.greedyFormerRequest f = some rq

section Neighbours

variable [DecidableEq ι] {h : Heap ι} {target : Node ι} {queue front back : List ι} {x y rq : ι}

omit [DecidableEq ι] in
theorem ascending_map_request : Ascending (queue.map h.request) ↔
    queue.Pairwise fun x y => h.blkRqPos x ≤ h.blkRqPos y := by
  rw [Ascending, List.pairwise_map]
  rfl

omit [DecidableEq ι] in
/-- In an ascending queue nothing lies strictly between neighbours. -/
theorem not_between (hasc : Ascending ((front ++ x :: y :: back).map h.request)) :
    h.blkRqPos x ≤ h.blkRqPos y ∧ ∀ z ∈ front ++ x :: y :: back,
      ¬(h.blkRqPos x < h.blkRqPos z ∧ h.blkRqPos z < h.blkRqPos y) := by
  rw [ascending_map_request, List.pairwise_append, List.pairwise_cons,
    List.pairwise_cons] at hasc
  obtain ⟨-, ⟨hx, hy, -⟩, hfront⟩ := hasc
  have hxy : h.blkRqPos x ≤ h.blkRqPos y := hx y List.mem_cons_self
  refine ⟨hxy, ?_⟩
  rintro z hz ⟨hlower, hupper⟩
  simp only [List.mem_append, List.mem_cons] at hz
  rcases hz with hz | rfl | rfl | hz
  · have hle : h.blkRqPos z ≤ h.blkRqPos x := hfront z hz x List.mem_cons_self
    omega
  · omega
  · omega
  · have hle : h.blkRqPos y ≤ h.blkRqPos z := hy z hz
    omega

/-- In a ring that ascends, the look-ups find the neighbours. -/
theorem neighbourly_of_ring (htarget : target = .lowerQueue ∨ target = .upperQueue)
    (hring : h.links.Ring target (queue.map .queuelist)) (hasc : Ascending (queue.map h.request))
    (hrq : rq ∈ queue) : Neighbourly h queue rq := by
  have hnodup : queue.Nodup := .of_map _ (List.nodup_cons.mp hring.nodup).2
  obtain ⟨front, back, rfl⟩ := List.append_of_mem hrq
  have hformer := Heap.former_of_ring htarget hring
  have hlatter := Heap.latter_of_ring htarget hring
  have hdisjoint := List.disjoint_of_nodup_append hnodup
  constructor
  · rw [hformer, List.getLast?_eq_none_iff]
    cases front with
    | nil => simp
    | cons x front =>
      have hne : x ≠ rq := by
        rintro rfl
        exact hdisjoint List.mem_cons_self List.mem_cons_self
      simp [hne]
  · rw [hlatter, List.head?_eq_none_iff, List.getLast?_append_cons]
    rcases List.eq_nil_or_concat' back with rfl | ⟨back, x, rfl⟩
    · simp
    · have hne : x ≠ rq := by
        rintro rfl
        have hback := (List.nodup_append'.mp hnodup).2.1
        rw [List.nodup_cons] at hback
        exact hback.1 (by simp)
      rw [← List.cons_append, List.getLast?_concat]
      simp [hne]
  · intro f hf
    rw [hformer, List.getLast?_eq_some_iff] at hf
    obtain ⟨front, rfl⟩ := hf
    rw [List.append_assoc, List.singleton_append] at hring hasc ⊢
    obtain ⟨hle, hbetween⟩ := not_between hasc
    exact ⟨by simp, hle, hbetween, Heap.latter_of_ring htarget hring⟩
  · intro f hf
    rw [hlatter] at hf
    obtain ⟨back, rfl⟩ := List.head?_eq_some_iff.mp hf
    obtain ⟨hle, hbetween⟩ := not_between hasc
    have hcut : front ++ rq :: f :: back = front ++ [rq] ++ f :: back := by simp
    refine ⟨by simp, hle, hbetween, ?_⟩
    rw [hcut] at hring
    rw [Heap.former_of_ring htarget hring, List.getLast?_concat]

end Neighbours

/-- **Neighbours are adjacent.** In every run in which no queued request is moved, both
rings ascend, and the look-ups at every queued request find its neighbours in the order of
sectors. -/
theorem neighbours_adjacent [DecidableEq ι] {h₀ heap : Heap ι} {as : List (ElevatorAct ι)}
    {s : Elevator ι} (hinit : h₀.greedyInitQueue true true = .ok heap)
    (hrun : Along Elevator.Step (fun e a _ => KeepsPos e a) (Elevator.initial heap) as s) :
    ∃ lower upper : List ι,
      s.heap.links.Ring .lowerQueue (lower.map .queuelist) ∧
      s.heap.links.Ring .upperQueue (upper.map .queuelist) ∧
      lower.Pairwise (fun x y => s.heap.blkRqPos x ≤ s.heap.blkRqPos y) ∧
      upper.Pairwise (fun x y => s.heap.blkRqPos x ≤ s.heap.blkRqPos y) ∧
      (∀ rq, rq ∈ s.queued ↔ rq ∈ lower ∨ rq ∈ upper) ∧
      (∀ rq ∈ lower, Neighbourly s.heap lower rq) ∧ ∀ rq ∈ upper, Neighbourly s.heap upper rq := by
  obtain ⟨lower, upper, h, hasc⟩ := Elevator.ascends_of_run hinit hrun
  refine ⟨lower, upper, h.holds.lowerRing, h.holds.upperRing, ?_, ?_, ?_, ?_, ?_⟩
  · exact ascending_map_request.mp hasc.lower
  · exact ascending_map_request.mp hasc.upper
  · intro rq
    rw [h.mem_queued, List.mem_append]
  · intro rq hrq
    exact neighbourly_of_ring (.inl rfl) h.holds.lowerRing hasc.lower hrq
  · intro rq hrq
    exact neighbourly_of_ring (.inr rfl) h.holds.upperRing hasc.upper hrq

theorem neighbours_adjacent_passOver :
    ∃ (s : Elevator ℕ) (lower upper : List ℕ),
      s.heap.links.Ring .lowerQueue (lower.map .queuelist) ∧
      s.heap.links.Ring .upperQueue (upper.map .queuelist) ∧
      lower.Pairwise (fun x y => s.heap.blkRqPos x ≤ s.heap.blkRqPos y) ∧
      upper.Pairwise (fun x y => s.heap.blkRqPos x ≤ s.heap.blkRqPos y) ∧
      (∀ rq, rq ∈ s.queued ↔ rq ∈ lower ∨ rq ∈ upper) ∧
      (∀ rq ∈ lower, Neighbourly s.heap lower rq) ∧ ∀ rq ∈ upper, Neighbourly s.heap upper rq := by
  obtain ⟨heap, s, hinit, hrun, -⟩ := passOver_run
  have hpos : Along Elevator.Step (fun e a _ => KeepsPos e a) (Elevator.initial heap) passOver s :=
    hrun.mono (fun _ _ _ h => h.1)
  exact ⟨s, neighbours_adjacent hinit hpos⟩

end OsProjects.Scheduler
