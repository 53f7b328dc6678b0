import Mathlib.Algebra.BigOperators.Group.Multiset.Basic
import Mathlib.Algebra.Order.Group.Multiset
import OsProjects.Scheduler.Reference

/-!
# Every sector is transferred

What the file system asks for is sectors, and the block layer is free to regroup them:
it appends sectors to a request that is queued and joins two neighbours, of which the
scheduler then has to let one go. No sector may get lost by that or be transferred
twice. Here a run is followed with a record of the sectors submitted and of those
dispatched, each as often as it occurs, whether or not requests overlap.

## Main definitions

* `Request.span` — the sectors of a request
* `Disk`, `Disk.Step` — the scheduler with a record of the sectors
* `Disk.Conserves` — what was submitted is dispatched or pending

## Main results

* `spans_extendOver` — joining neighbours keeps their sectors
* `Disk.Conserves.step` — every step keeps the balance
* `sectors_conserved` — in every run, and once a dispatch finds nothing, all is dispatched
-/

namespace OsProjects.Scheduler

open Run

variable {ι : Type*}

/-! ### Sectors -/

/-- The sectors of a request. -/
def Request.span (rq : Request ι) : Multiset ℕ := List.range' rq.sector rq.sectors

/-- The sectors of the requests in a queue. -/
def spans (queue : List (Request ι)) : Multiset ℕ := (queue.map Request.span).sum

@[simp] theorem spans_nil : spans ([] : List (Request ι)) = 0 := rfl

@[simp] theorem spans_cons (rq : Request ι) (queue : List (Request ι)) :
    spans (rq :: queue) = rq.span + spans queue := by
  simp [spans]

@[simp] theorem spans_append (queue queue' : List (Request ι)) :
    spans (queue ++ queue') = spans queue + spans queue' := by
  simp [spans]

theorem spans_perm {queue queue' : List (Request ι)} (h : queue.Perm queue') :
    spans queue = spans queue' :=
  (h.map Request.span).sum_eq

/-- A request extended over the next one has the sectors of both. -/
theorem span_extend {rq next : Request ι} (h : next.sector = rq.stop) :
    (rq.extend next).span = rq.span + next.span := by
  have happend : List.range' rq.sector rq.sectors ++ List.range' rq.stop next.sectors =
      List.range' rq.sector (rq.sectors + next.sectors) := List.range'_append_1
  rw [Request.span, Request.span, Request.span, h, Multiset.coe_add]
  exact congrArg _ happend.symm

section Extend

variable [DecidableEq ι] {rq next : Request ι} {queue : List (Request ι)}

/-- A queue without the request is left alone. -/
theorem extendOver_of_notMem (h : rq ∉ queue) : extendOver rq next queue = queue := by
  have hsame : ∀ x ∈ queue, (if x = rq then rq.extend next else x) = id x := by
    intro x hx
    have hne : x ≠ rq := fun heq => h (heq ▸ hx)
    exact if_neg hne
  rw [extendOver, List.map_congr_left hsame, List.map_id]

/-- In its own queue the request takes on the sectors of the next one. -/
theorem spans_extendOver (hnodup : queue.Nodup) (hrq : rq ∈ queue) (h : next.sector = rq.stop) :
    spans (extendOver rq next queue) = spans queue + next.span := by
  obtain ⟨front, back, rfl⟩ := List.append_of_mem hrq
  rw [List.nodup_middle, List.nodup_cons, List.mem_append, not_or] at hnodup
  obtain ⟨⟨hfront, hback⟩, -⟩ := hnodup
  have hmap : extendOver rq next (front ++ rq :: back) =
      extendOver rq next front ++ rq.extend next :: extendOver rq next back := by
    simp [extendOver]
  rw [hmap, extendOver_of_notMem hfront, extendOver_of_notMem hback, spans_append, spans_cons,
    spans_append, spans_cons, span_extend h]
  ac_rfl

/-- The identities of the requests stay. -/
theorem map_id_extendOver (rq next : Request ι) (queue : List (Request ι)) :
    (extendOver rq next queue).map Request.id = queue.map Request.id := by
  unfold extendOver
  rw [List.map_map]
  apply List.map_congr_left
  intro x _
  simp only [Function.comp_apply]
  split
  · subst x
    rfl
  · rfl

end Extend

/-! ### The record -/

/-- The scheduler with a record of the sectors submitted to it and of those dispatched. -/
structure Disk (ι : Type*) where
  gd : GreedyData ι
  submitted : Multiset ℕ
  transferred : Multiset ℕ

/-- What may happen: an action of the block layer, or sectors appended to a queued
request. -/
inductive DiskAct (ι : Type*)
  | greedy (a : GreedyAct ι)
  | append (rq : Request ι) (sectors : ℕ)

namespace Disk

/-- After `greedy_init_queue`. -/
def initial : Disk ι := ⟨.greedyInitQueue, 0, 0⟩

variable [DecidableEq ι]

/-- The sectors behind a request, as a request of their own. -/
def tail (rq : Request ι) (sectors : ℕ) : Request ι := ⟨rq.id, rq.stop, sectors⟩

/-- The queues once sectors are appended to a request. -/
def appendTo (gd : GreedyData ι) (rq : Request ι) (sectors : ℕ) : GreedyData ι :=
  { gd with
    lowerQueue := extendOver rq (tail rq sectors) gd.lowerQueue
    upperQueue := extendOver rq (tail rq sectors) gd.upperQueue }

/-- Requests merged are contiguous, and sectors are appended to a request that is
queued. -/
def Allowed (d : Disk ι) : DiskAct ι → Prop
  | .greedy (.merge rq next) => d.gd.Allowed (.merge rq next) ∧ next.sector = rq.stop
  | .greedy a => d.gd.Allowed a
  | .append rq _ => rq ∈ d.gd.pending

instance (d : Disk ι) (a : DiskAct ι) : Decidable (d.Allowed a) :=
  match a with
  | .greedy (.add rq) => inferInstanceAs (Decidable (d.gd.Allowed (.add rq)))
  | .greedy (.merge _ _) => instDecidableAnd
  | .greedy .dispatch => instDecidableTrue
  | .append rq _ => decidable_of_iff (∃ x ∈ d.gd.pending, x = rq) exists_eq_right

/-- The state after an action. Sectors are submitted as requests or appended to one, and
transferred when their request is dispatched. -/
def act (d : Disk ι) : DiskAct ι → Disk ι
  | .greedy a => {
      gd := d.gd.act a
      submitted := d.submitted + match a with | .add rq => rq.span | _ => 0
      transferred := d.transferred + ((d.gd.served a).map Request.span).getD 0 }
  | .append rq sectors => { d with
      gd := appendTo d.gd rq sectors, submitted := d.submitted + (tail rq sectors).span }

def Step (s : Disk ι) (a : DiskAct ι) (t : Disk ι) : Prop := s.Allowed a ∧ t = s.act a

/-- What was submitted is dispatched or pending, and no two pending requests are the
same. -/
structure Conserves (d : Disk ι) : Prop where
  balance : d.submitted = d.transferred + spans d.gd.pending
  ids : (d.gd.pending.map Request.id).Nodup

omit [DecidableEq ι] in
theorem conserves_initial : (initial : Disk ι).Conserves := ⟨rfl, List.nodup_nil⟩

variable {s t d : Disk ι} {rq next : Request ι}

omit [DecidableEq ι] in
theorem Conserves.nodup (h : d.Conserves) : (d.gd.lowerQueue ++ d.gd.upperQueue).Nodup :=
  h.ids.of_map _

/-- The request joins one of the queues. -/
theorem Conserves.add (h : d.Conserves) (ha : d.gd.Allowed (.add rq)) :
    (d.act (.greedy (.add rq))).Conserves := by
  have hperm := d.gd.add_pending_perm rq
  have hpending : (d.gd.act (.add rq)).pending.Perm (rq :: d.gd.pending) := hperm
  refine ⟨?_, ?_⟩
  · simp only [act, spans_perm hpending, spans_cons, GreedyData.served, Option.map_none,
      Option.getD_none, add_zero, h.balance]
    ac_rfl
  · rw [act, (hpending.map Request.id).nodup_iff, List.map_cons, List.nodup_cons]
    refine ⟨?_, h.ids⟩
    rw [List.mem_map]
    rintro ⟨x, hx, heq⟩
    exact ha x hx heq

/-- What leaves the queues is transferred. -/
theorem Conserves.dispatch (h : d.Conserves) : (d.act (.greedy .dispatch)).Conserves := by
  rcases hd : d.gd.greedyDispatch with _ | ⟨rq, gd'⟩
  · have hact : d.act (.greedy .dispatch) = d := by
      simp [act, GreedyData.act, GreedyData.afterDispatch, GreedyData.served, hd]
    rwa [hact]
  · have hperm := GreedyData.dispatch_pending_perm hd
    have hact : d.act (.greedy .dispatch) = ⟨gd', d.submitted, d.transferred + rq.span⟩ := by
      simp [act, GreedyData.act, GreedyData.afterDispatch, GreedyData.served, hd]
    rw [hact]
    refine ⟨?_, ?_⟩
    · simp only [h.balance, spans_perm hperm, spans_cons]
      ac_rfl
    · have hids := h.ids
      rw [(hperm.map Request.id).nodup_iff, List.map_cons, List.nodup_cons] at hids
      exact hids.2

/-- Extending a pending request adds the sectors behind it. -/
theorem Conserves.spans_pending {lower upper : List (Request ι)} (h : (lower ++ upper).Nodup)
    (hrq : rq ∈ lower ++ upper) (hnext : next.sector = rq.stop) :
    spans (extendOver rq next lower ++ extendOver rq next upper) =
      spans (lower ++ upper) + next.span := by
  rcases List.mem_append.mp hrq with hlower | hupper
  · have hupper : rq ∉ upper := List.disjoint_of_nodup_append h hlower
    rw [extendOver_of_notMem hupper, spans_append, spans_append,
      spans_extendOver h.of_append_left hlower hnext]
    ac_rfl
  · have hlower : rq ∉ lower := fun hlower => List.disjoint_of_nodup_append h hlower hupper
    rw [extendOver_of_notMem hlower, spans_append, spans_append,
      spans_extendOver h.of_append_right hupper hnext]
    ac_rfl

/-- The request that leaves its queue is the one whose sectors the other takes on. -/
theorem Conserves.merge (h : d.Conserves) (ha : d.gd.Allowed (.merge rq next))
    (hnext : next.sector = rq.stop) : (d.act (.greedy (.merge rq next))).Conserves := by
  obtain ⟨hne, hqueue⟩ := ha
  have hmem : rq ∈ d.gd.pending ∧ next ∈ d.gd.pending := by
    simp only [GreedyData.pending, List.mem_append]
    tauto
  have herase : d.gd.lowerQueue.erase next ++ d.gd.upperQueue.erase next =
      d.gd.pending.erase next := erase_append_erase h.nodup next
  have hrq : rq ∈ d.gd.lowerQueue.erase next ++ d.gd.upperQueue.erase next := by
    rw [herase, List.mem_erase_of_ne hne]
    exact hmem.1
  have hnodup : (d.gd.lowerQueue.erase next ++ d.gd.upperQueue.erase next).Nodup := by
    rw [herase]
    exact h.nodup.erase next
  have hspans : spans d.gd.pending = next.span + spans (d.gd.pending.erase next) := by
    rw [spans_perm (List.perm_cons_erase hmem.2), spans_cons]
  have hmerged : spans (d.gd.merge rq next).pending =
      spans (d.gd.pending.erase next) + next.span := by
    rw [← herase]
    exact Conserves.spans_pending hnodup hrq hnext
  refine ⟨?_, ?_⟩
  · simp only [act, GreedyData.act, GreedyData.served, Option.map_none, Option.getD_none, add_zero,
      hmerged, h.balance, hspans]
    ac_rfl
  · simp only [act, GreedyData.act, GreedyData.merge, GreedyData.greedyMergedRequests,
      GreedyData.pending, List.map_append, map_id_extendOver]
    rw [← List.map_append, herase]
    exact h.ids.sublist (List.erase_sublist.map _)

theorem Conserves.append (h : d.Conserves) {sectors : ℕ} (hrq : rq ∈ d.gd.pending) :
    (d.act (.append rq sectors)).Conserves := by
  have hnext : (tail rq sectors).sector = rq.stop := rfl
  have hspans := Conserves.spans_pending h.nodup hrq hnext
  refine ⟨?_, ?_⟩
  · simp only [act, appendTo, GreedyData.pending, hspans, h.balance]
    ac_rfl
  · simp only [act, appendTo, GreedyData.pending, List.map_append, map_id_extendOver]
    rw [← List.map_append]
    exact h.ids

/-- **Every step keeps the balance.** -/
theorem Conserves.step {a : DiskAct ι} (h : s.Conserves) (hstep : s.Step a t) : t.Conserves := by
  obtain ⟨ha, rfl⟩ := hstep
  cases a with
  | greedy a =>
    cases a with
    | add rq => exact h.add ha
    | merge rq next => exact h.merge ha.1 ha.2
    | dispatch => exact h.dispatch
  | append rq sectors => exact h.append ha

end Disk

/-- **No sector is lost or transferred twice.** In every run in which the block layer adds
requests, overlapping or not, appends sectors to queued ones, merges neighbours and
dispatches, in any order: each sector has been submitted as often as it has been dispatched
and is pending together. When `greedy_dispatch` returns 0, everything submitted has been
dispatched. -/
theorem sectors_conserved [DecidableEq ι] (as : List (DiskAct ι)) (t : Disk ι)
    (h : Path Disk.Step Disk.initial as t) :
    t.submitted = t.transferred + spans t.gd.pending ∧
      (t.gd.greedyDispatch = none → t.transferred = t.submitted) := by
  have hconserves : t.Conserves :=
    h.invariant Disk.Conserves (fun _ _ _ hs hstep => hs.step hstep) Disk.conserves_initial
  refine ⟨hconserves.balance, fun hnone => ?_⟩
  rw [hconserves.balance, GreedyData.dispatch_eq_none_iff.mp hnone, spans_nil, add_zero]

/-- Two neighbours, the first grown up to the second and merged with it, and a request over
the same sectors. -/
theorem sectors_conserved_merged :
    ∃ t : Disk ℕ, t.transferred = {4, 5, 6, 7, 5} ∧ t.transferred = t.submitted := by
  let a : Request ℕ := ⟨0, 4, 1⟩
  let b : Request ℕ := ⟨1, 6, 2⟩
  let c : Request ℕ := ⟨2, 5, 1⟩
  have hrun : ∃ t : Disk ℕ, Path Disk.Step Disk.initial
      [.greedy (.add a), .greedy (.add b), .append a 1, .greedy (.merge ⟨0, 4, 2⟩ b),
        .greedy (.add c), .greedy .dispatch, .greedy .dispatch] t ∧
      t.gd.greedyDispatch = none ∧ t.transferred = {4, 5, 6, 7, 5} := by
    refine ⟨_, .cons ⟨?_, rfl⟩ <| .cons ⟨?_, rfl⟩ <| .cons ⟨?_, rfl⟩ <| .cons ⟨⟨?_, rfl⟩, rfl⟩ <|
      .cons ⟨?_, rfl⟩ <| .cons ⟨trivial, rfl⟩ <| .cons ⟨trivial, rfl⟩ <| .nil _, ?_, ?_⟩
    all_goals decide
  obtain ⟨t, ht, hnone, htransferred⟩ := hrun
  exact ⟨t, htransferred, (sectors_conserved _ t ht).2 hnone⟩

end OsProjects.Scheduler
