import Mathlib.Algebra.Order.Group.Multiset
import OsProjects.Lib.Drain
import OsProjects.Scheduler.Heap

/-!
# No request is lost

The scheduler runs under a block layer that adds, merges and takes requests in any
order, changes their extents as it likes and uses the links of requests that are not
queued for lists of its own. Every request that was added is dispatched, merged away or
in one of the two rings, and once.

## Main definitions

* `Elevator` — the scheduler with a record of the requests added, dispatched and merged
* `Elevator.Step` — what may happen
* `Elevator.Conserves` — the record and the rings agree
* `Heap.take` — `greedy_dispatch` as a machine that hands out requests

## Main results

* `Elevator.Conserves.exists_step`, `Elevator.Conserves.step` — every function called
  succeeds, and every step keeps the agreement
* `requests_conserved` — in every run
-/

namespace OsProjects.Scheduler

open ListHead Run

variable {ι : Type*}

/-! ### The scheduler and the block layer -/

/-- The scheduler with a record of what happened to the requests. -/
structure Elevator (ι : Type*) where
  heap : Heap ι
  added : Multiset ι
  dispatched : Multiset ι
  merged : Multiset ι

/-- What may happen: the three calls, a request that changes its extent, and list
operations of the block layer. -/
inductive ElevatorAct (ι : Type*)
  | add (rq : ι)
  | merge (rq next : ι)
  | dispatch
  | resize (rq : ι) (pos sectors : ℕ)
  | relink (links : Links (Node ι))

namespace Heap

/-- A request changes its extent. -/
def resize [DecidableEq ι] (h : Heap ι) (rq : ι) (pos sectors : ℕ) : Heap ι :=
  { h with
    blkRqPos := Function.update h.blkRqPos rq pos
    blkRqSectors := Function.update h.blkRqSectors rq sectors }

/-- `greedy_dispatch` as a machine that hands out requests. -/
def take [DecidableEq ι] (h : Heap ι) : Option (ι × Heap ι) :=
  h.greedyDispatch.bind fun r => r.1.map fun rq => (rq, r.2)

end Heap

namespace Elevator

/-- After `greedy_init_queue`. -/
def initial (heap : Heap ι) : Elevator ι := ⟨heap, 0, 0, 0⟩

variable [DecidableEq ι]

/-- By the record, the requests that are queued. -/
def queued (e : Elevator ι) : Multiset ι := e.added - (e.dispatched + e.merged)

/-- A request is added when it is not queued and merged away when it is; the links of
the two heads and of queued requests are the scheduler's. -/
def Allowed (e : Elevator ι) : ElevatorAct ι → Prop
  | .add rq => rq ∉ e.queued
  | .merge _ next => next ∈ e.queued
  | .relink links => ∀ node, (∀ rq, node = .queuelist rq → rq ∈ e.queued) →
    links.next node = e.heap.links.next node ∧ links.prev node = e.heap.links.prev node
  | _ => True

/-- The functions called return, and the record is kept. -/
def Does (e : Elevator ι) : ElevatorAct ι → Elevator ι → Prop
  | .add rq, t => ∃ fuel heap, e.heap.greedyAddRequest fuel rq = some heap ∧
    t = { e with heap := heap, added := rq ::ₘ e.added }
  | .merge _ next, t =>
    t = { e with heap := e.heap.greedyMergedRequests next, merged := next ::ₘ e.merged }
  | .dispatch, t => ∃ returned heap, e.heap.greedyDispatch = some (returned, heap) ∧
    t = { e with heap := heap, dispatched := returned.elim 0 ({·}) + e.dispatched }
  | .resize rq pos sectors, t => t = { e with heap := e.heap.resize rq pos sectors }
  | .relink links, t => t = { e with heap := { e.heap with links := links } }

def Step (s : Elevator ι) (a : ElevatorAct ι) (t : Elevator ι) : Prop := s.Allowed a ∧ s.Does a t

/-- The rings hold the requests that were added and neither dispatched nor merged. -/
structure Conserves (e : Elevator ι) (lower upper : List ι) : Prop where
  holds : e.heap.Holds lower upper
  balance : e.added = e.dispatched + e.merged + lower + upper

/-! ### What every step keeps -/

section Step

variable {s t t' e : Elevator ι} {lower upper : List ι} {a : ElevatorAct ι} {rq next : ι}

omit [DecidableEq ι] in
theorem Conserves.added_eq (h : e.Conserves lower upper) :
    e.added = e.dispatched + e.merged + ↑(lower ++ upper) := by
  rw [h.balance, ← Multiset.coe_add, add_assoc (e.dispatched + e.merged)]

omit [DecidableEq ι] in
theorem Conserves.of_added_eq (hholds : e.heap.Holds lower upper)
    (hadded : e.added = e.dispatched + e.merged + ↑(lower ++ upper)) :
    e.Conserves lower upper := by
  refine ⟨hholds, ?_⟩
  rw [hadded, ← Multiset.coe_add, add_assoc (e.dispatched + e.merged)]

/-- What is queued by the record is in the rings. -/
theorem Conserves.mem_queued (h : e.Conserves lower upper) :
    rq ∈ e.queued ↔ rq ∈ lower ++ upper := by
  rw [queued, h.added_eq, add_tsub_cancel_left, Multiset.mem_coe]

theorem conserves_initial {h₀ heap : Heap ι} (hinit : h₀.greedyInitQueue true true = .ok heap) :
    (initial heap).Conserves [] [] :=
  ⟨(Heap.holds_init hinit).1, rfl⟩

/-- What is done determines the step. -/
theorem Step.unique (h : s.Step a t) (h' : s.Step a t') : t = t' := by
  obtain ⟨-, h⟩ := h
  obtain ⟨-, h'⟩ := h'
  cases a with
  | add rq =>
    obtain ⟨fuel, heap, hadd, rfl⟩ := h
    obtain ⟨fuel', heap', hadd', rfl⟩ := h'
    rw [Heap.greedyAddRequest_unique hadd hadd']
  | merge rq next => rw [h, h']
  | dispatch =>
    obtain ⟨returned, heap, hdispatch, rfl⟩ := h
    obtain ⟨returned', heap', hdispatch', rfl⟩ := h'
    cases hdispatch.symm.trans hdispatch'
    rfl
  | resize rq pos sectors => rw [h, h']
  | relink links => rw [h, h']

/-- A request that is not queued is added as on lists. -/
theorem Conserves.add (h : e.Conserves lower upper) (hrq : rq ∉ e.queued) :
    ∃ t lower' upper', e.Step (.add rq) t ∧ t.Conserves lower' upper' ∧
      t.heap.queues lower' upper' =
        (e.heap.queues lower upper).greedyAddRequest (e.heap.request rq) := by
  have hrq' : rq ∉ lower ++ upper := fun hmem => hrq (h.mem_queued.mpr hmem)
  obtain ⟨fuel, heap, lower', upper', hadd, hholds, hqueues, hperm⟩ := h.holds.add hrq'
  refine ⟨_, lower', upper', ⟨hrq, fuel, heap, hadd, rfl⟩, .of_added_eq hholds ?_, hqueues⟩
  have hcoe : (↑(lower' ++ upper') : Multiset ι) = rq ::ₘ ↑(lower ++ upper) :=
    Multiset.coe_eq_coe.mpr hperm
  dsimp only
  rw [hcoe, Multiset.add_cons, ← h.added_eq]

/-- A queued request is merged away as on lists. -/
theorem Conserves.merge (h : e.Conserves lower upper) (hnext : next ∈ e.queued) :
    Conserves { e with heap := e.heap.greedyMergedRequests next, merged := next ::ₘ e.merged }
        (lower.erase next) (upper.erase next) ∧
      (e.heap.greedyMergedRequests next).queues (lower.erase next) (upper.erase next) =
        (e.heap.queues lower upper).greedyMergedRequests (e.heap.request next) := by
  have hnext' : next ∈ lower ++ upper := h.mem_queued.mp hnext
  obtain ⟨hholds, hqueues⟩ := h.holds.merged hnext'
  refine ⟨.of_added_eq hholds ?_, hqueues⟩
  have hcoe : (↑(lower ++ upper) : Multiset ι) =
      next ::ₘ ↑(lower.erase next ++ upper.erase next) := by
    rw [erase_append_erase h.holds.nodup]
    exact Multiset.coe_eq_coe.mpr (List.perm_cons_erase hnext')
  dsimp only
  rw [h.added_eq, hcoe, Multiset.add_cons, Multiset.add_cons, Multiset.cons_add]

/-- A dispatch does what it does on lists. -/
theorem Conserves.dispatch (h : e.Conserves lower upper) :
    ∃ t lower' upper', e.Step .dispatch t ∧ t.Conserves lower' upper' ∧
      t.heap.queues lower' upper' = (e.heap.queues lower upper).afterDispatch := by
  rcases h.holds.dispatch with ⟨hnil, hzero⟩ | ⟨rq, lower', upper', hone, hholds, hd, hperm⟩
  · have hnone : (e.heap.queues lower upper).greedyDispatch = none := by
      rw [GreedyData.dispatch_eq_none_iff, GreedyData.pending, Heap.queues, ← List.map_append, hnil]
      rfl
    refine ⟨_, lower, upper, ⟨trivial, none, e.heap, hzero, rfl⟩, .of_added_eq h.holds ?_, ?_⟩
    · simpa using h.added_eq
    · simp [GreedyData.afterDispatch, hnone]
  · refine ⟨_, lower', upper', ⟨trivial, some rq, _, hone, rfl⟩, .of_added_eq hholds ?_, ?_⟩
    · have hcoe : (↑(lower ++ upper) : Multiset ι) = rq ::ₘ ↑(lower' ++ upper') :=
        Multiset.coe_eq_coe.mpr hperm
      dsimp only
      rw [h.added_eq, hcoe, Option.elim_some, Multiset.singleton_add, Multiset.add_cons,
        Multiset.cons_add, Multiset.cons_add]
    · simp [GreedyData.afterDispatch, hd]

/-- The rings do not depend on the extents of the requests. -/
theorem Conserves.resize (h : e.Conserves lower upper) (rq : ι) (pos sectors : ℕ) :
    Conserves { e with heap := e.heap.resize rq pos sectors } lower upper :=
  ⟨⟨h.holds.lowerRing, h.holds.upperRing, h.holds.nodup⟩, h.balance⟩

/-- Nor on the links of requests that are not queued. -/
theorem Conserves.relink {links : Links (Node ι)} (h : e.Conserves lower upper)
    (ha : e.Allowed (.relink links)) :
    Conserves { e with heap := { e.heap with links := links } } lower upper := by
  have hqueued : ∀ rq, rq ∈ lower ++ upper → rq ∈ e.queued := fun rq => h.mem_queued.mpr
  refine ⟨⟨?_, ?_, h.holds.nodup⟩, h.balance⟩
  · refine h.holds.lowerRing.congr fun node hnode => ha node ?_
    rintro rq rfl
    exact hqueued rq (List.mem_append_left _ ((Heap.queuelist_mem nofun).mp hnode))
  · refine h.holds.upperRing.congr fun node hnode => ha node ?_
    rintro rq rfl
    exact hqueued rq (List.mem_append_right _ ((Heap.queuelist_mem nofun).mp hnode))

/-- **What is allowed can be done, and keeps the balance.** -/
theorem Conserves.exists_step (h : e.Conserves lower upper) (ha : e.Allowed a) :
    ∃ t lower' upper', e.Step a t ∧ t.Conserves lower' upper' := by
  cases a with
  | add rq =>
    obtain ⟨t, lower', upper', hstep, ht, -⟩ := h.add ha
    exact ⟨t, lower', upper', hstep, ht⟩
  | merge rq next => exact ⟨_, _, _, ⟨ha, rfl⟩, (h.merge ha).1⟩
  | dispatch =>
    obtain ⟨t, lower', upper', hstep, ht, -⟩ := h.dispatch
    exact ⟨t, lower', upper', hstep, ht⟩
  | resize rq pos sectors => exact ⟨_, _, _, ⟨ha, rfl⟩, h.resize rq pos sectors⟩
  | relink links => exact ⟨_, _, _, ⟨ha, rfl⟩, h.relink ha⟩

theorem Conserves.step (h : s.Conserves lower upper) (hstep : s.Step a t) :
    ∃ lower' upper', t.Conserves lower' upper' := by
  obtain ⟨t', lower', upper', hstep', ht⟩ := h.exists_step hstep.1
  obtain rfl := hstep.unique hstep'
  exact ⟨lower', upper', ht⟩

end Step

end Elevator

/-! ### Draining -/

section Drain

variable [DecidableEq ι] {h t : Heap ι} {lower upper : List ι} {rq : ι}

namespace Heap

/-- `greedy_dispatch` returns 0 exactly when nothing is queued. -/
theorem Holds.returns_zero_iff (hh : h.Holds lower upper) :
    h.greedyDispatch = some (none, h) ↔ lower ++ upper = [] := by
  rcases hh.dispatch with ⟨hnil, hzero⟩ | ⟨rq, lower', upper', hone, -, -, hperm⟩
  · exact iff_of_true hzero hnil
  · apply iff_of_false
    · rw [hone]
      simp
    · intro hnil
      rw [hnil] at hperm
      exact List.not_perm_nil_cons rq _ hperm

theorem Holds.take (hh : h.Holds lower upper) (htake : h.take = some (rq, t)) :
    ∃ lower' upper', t.Holds lower' upper' ∧ (lower ++ upper).Perm (rq :: (lower' ++ upper')) := by
  rcases hh.dispatch with ⟨-, hzero⟩ | ⟨rq', lower', upper', hone, hholds, -, hperm⟩
  · rw [Heap.take, hzero] at htake
    cases htake
  · rw [Heap.take, hone] at htake
    cases htake
    exact ⟨lower', upper', hholds, hperm⟩

/-- What a drain hands out was in the rings, and what it leaves stays there. -/
theorem Holds.of_drains {served : List ι} (hh : h.Holds lower upper)
    (hdrain : Drains Heap.take h served t) :
    ∃ lower' upper', t.Holds lower' upper' ∧
      (lower ++ upper).Perm (served ++ (lower' ++ upper')) := by
  induction hdrain generalizing lower upper with
  | done => exact ⟨lower, upper, hh, List.Perm.refl _⟩
  | more hnext _ ih =>
    obtain ⟨lower', upper', hholds, hperm⟩ := hh.take hnext
    obtain ⟨lower'', upper'', hholds', hperm'⟩ := ih hholds
    exact ⟨lower'', upper'', hholds', hperm.trans (hperm'.cons _)⟩

theorem Holds.take_eq_none_iff (hh : h.Holds lower upper) :
    h.take = none ↔ lower ++ upper = [] := by
  rw [← hh.returns_zero_iff]
  rcases hh.dispatch with ⟨-, hzero⟩ | ⟨rq, lower', upper', hone, -⟩
  · simp [Heap.take, hzero]
  · simp [Heap.take, hone]

/-- Called until it returns 0, `greedy_dispatch` hands out what was queued, and then
`greedy_exit_queue` passes its checks. -/
theorem Holds.drain (hh : h.Holds lower upper) :
    ∃ served t, Drains Heap.take h served t ∧ served.Perm (lower ++ upper) ∧
      t.greedyDispatch = some (none, t) ∧ t.greedyExitQueue = some () := by
  -- each dispatch leaves fewer requests in the rings
  have hshrink : ∀ n (h : Heap ι) rq t, (∃ lower upper, h.Holds lower upper ∧
      (lower ++ upper).length = n) → h.take = some (rq, t) →
        ∃ m < n, ∃ lower upper, t.Holds lower upper ∧ (lower ++ upper).length = m := by
    rintro n h rq t ⟨lower, upper, hh, rfl⟩ htake
    obtain ⟨lower', upper', hholds, hperm⟩ := hh.take htake
    have hlen := hperm.length_eq
    rw [List.length_cons] at hlen
    exact ⟨_, by omega, lower', upper', hholds, rfl⟩
  obtain ⟨served, t, hdrain⟩ := exists_drains hshrink ⟨lower, upper, hh, rfl⟩
  obtain ⟨lower', upper', hholds, hperm⟩ := hh.of_drains hdrain
  have hnil := hholds.take_eq_none_iff.mp hdrain.next_eq_none
  rw [hnil, List.append_nil] at hperm
  exact ⟨served, t, hdrain, hperm.symm, hholds.returns_zero_iff.mpr hnil,
    hholds.exit_iff.mpr hnil⟩

end Heap

end Drain

/-! ### Every run -/

/-- **No request is lost or duplicated.** In every run, with requests of any extent, the
requests added are those dispatched, those merged away and those in the two rings, which
are different from each other. No call reaches garbage or scans forever. `greedy_dispatch`
returns 0 exactly when both rings are empty, and called as often as requests are
queued it returns each of them, then 0, and then the checks of `greedy_exit_queue`
pass. -/
theorem requests_conserved [DecidableEq ι] (h₀ heap : Heap ι) (as : List (ElevatorAct ι))
    (s : Elevator ι) (hinit : h₀.greedyInitQueue true true = .ok heap)
    (hrun : Path Elevator.Step (Elevator.initial heap) as s) :
    ∃ lower upper : List ι,
      s.heap.links.Ring .lowerQueue (lower.map .queuelist) ∧
      s.heap.links.Ring .upperQueue (upper.map .queuelist) ∧
      s.added = s.dispatched + s.merged + lower + upper ∧ (lower ++ upper).Nodup ∧
      (∀ a, s.Allowed a → ∃ t, s.Step a t) ∧
      (s.heap.greedyDispatch = some (none, s.heap) ↔ lower ++ upper = []) ∧
      ∃ served t, Drains Heap.take s.heap served t ∧ served.Perm (lower ++ upper) ∧
        t.greedyDispatch = some (none, t) ∧ t.greedyExitQueue = some () := by
  have hreached : ∃ lower upper, s.Conserves lower upper :=
    hrun.invariant (fun e : Elevator ι => ∃ lower upper, e.Conserves lower upper)
      (fun _ _ _ ⟨_, _, h⟩ hstep => h.step hstep) ⟨[], [], Elevator.conserves_initial hinit⟩
  obtain ⟨lower, upper, h⟩ := hreached
  have hprogress : ∀ a, s.Allowed a → ∃ t, s.Step a t := by
    intro a ha
    obtain ⟨t, -, -, hstep, -⟩ := h.exists_step ha
    exact ⟨t, hstep⟩
  exact ⟨lower, upper, h.holds.lowerRing, h.holds.upperRing, h.balance, h.holds.nodup,
    hprogress, h.holds.returns_zero_iff, h.holds.drain⟩

/-- Requests of five sectors, ten sectors apart, before `greedy_init_queue`. -/
def blank : Heap ℕ := ⟨⟨id, id⟩, fun rq => 10 * rq, fun _ => 5, 0⟩

/-- A run with requests at the front and between others, a merge, a dispatch from each
queue, and a request left in each. -/
theorem blank_conserved :
    ∃ (s : Elevator ℕ) (lower upper : List ℕ),
      s.heap.links.Ring .lowerQueue (lower.map .queuelist) ∧
      s.heap.links.Ring .upperQueue (upper.map .queuelist) ∧
      s.added = s.dispatched + s.merged + lower + upper ∧ (lower ++ upper).Nodup ∧
      (∀ a, s.Allowed a → ∃ t, s.Step a t) ∧
      (s.heap.greedyDispatch = some (none, s.heap) ↔ lower ++ upper = []) ∧
      ∃ served t, Drains Heap.take s.heap served t ∧ served.Perm (lower ++ upper) ∧
        t.greedyDispatch = some (none, t) ∧ t.greedyExitQueue = some () := by
  have free {e : Elevator ℕ} {rq : ℕ} (h : rq ∉ e.queued) : e.Allowed (.add rq) := h
  have held {e : Elevator ℕ} {rq next : ℕ} (h : next ∈ e.queued) : e.Allowed (.merge rq next) := h
  refine ⟨_, requests_conserved blank _
    [.add 5, .dispatch, .add 3, .add 1, .add 2, .merge 2 3, .resize 2 20 15, .dispatch,
      .add 6] _ rfl <|
    .cons ⟨free (by decide), 4, _, rfl, rfl⟩ <| .cons ⟨trivial, some 5, _, rfl, rfl⟩ <|
    .cons ⟨free (by decide), 4, _, rfl, rfl⟩ <| .cons ⟨free (by decide), 4, _, rfl, rfl⟩ <|
    .cons ⟨free (by decide), 4, _, rfl, rfl⟩ <| .cons ⟨held (by decide), rfl⟩ <|
    .cons ⟨trivial, rfl⟩ <| .cons ⟨trivial, some 2, _, rfl, rfl⟩ <|
    .cons ⟨free (by decide), 4, _, rfl, rfl⟩ <| .nil _⟩

end OsProjects.Scheduler
