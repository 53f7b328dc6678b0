import OsProjects.Scheduler.Rings

/-!
# Additions commute

Between two dispatches the disk head stays where it is, and a request that is added goes
in front of the first of its queue that does not start below it. Two requests with
different starts therefore come to the same places whichever is added first, and so do any
number of them in any order. As the order of a ring determines its links, the memory is
the same as well.

## Main results

* `addSorted_comm` — two insertions into an ascending queue commute
* `Elevator.add_add_unique` — so do two additions in memory
* `additions_commute` — in every order, and whatever follows
-/

namespace OsProjects.Scheduler

open ListHead Run

variable {ι : Type*}

/-! ### On lists -/

section Insertion

variable {rq x y : Request ι} {queue front back : List (Request ι)}

/-- Where the requests of a queue that start below a new one come first, it goes behind
them. -/
theorem addSorted_append (hfront : ∀ z ∈ front, z.sector < rq.sector)
    (hback : ∀ z ∈ back, rq.sector ≤ z.sector) :
    addSorted rq (front ++ back) = front ++ rq :: back := by
  have hpassed : ∀ z ∈ back.reverse, decide (rq.sector ≤ z.sector) = true := by
    intro z hz
    simpa using hback z (List.mem_reverse.mp hz)
  have hstops : front.rdropWhile (fun pos => rq.sector ≤ pos.sector) = front := by
    apply List.rdropWhile_eq_self_iff.mpr
    intro hne
    simpa using hfront _ (List.getLast_mem hne)
  have hstops' : front.rtakeWhile (fun pos => rq.sector ≤ pos.sector) = [] := by
    apply List.rtakeWhile_eq_nil_iff.mpr
    intro hne
    simpa using hfront _ (List.getLast_mem hne)
  rw [List.rdropWhile] at hstops
  rw [List.rtakeWhile] at hstops'
  rw [addSorted, List.rdropWhile, List.rtakeWhile, List.reverse_append,
    List.dropWhile_append_of_pos hpassed, List.takeWhile_append_of_pos hpassed, hstops,
    List.reverse_append, hstops', List.reverse_reverse, List.nil_append]

/-- An ascending queue can be cut at every sector. -/
theorem Ascending.cut (h : Ascending queue) (sector : ℕ) :
    ∃ front back, queue = front ++ back ∧ (∀ z ∈ front, z.sector < sector) ∧
      ∀ z ∈ back, sector ≤ z.sector := by
  induction queue with
  | nil => exact ⟨[], [], rfl, by simp, by simp⟩
  | cons z queue ih =>
    by_cases hz : z.sector < sector
    · obtain ⟨front, back, rfl, hfront, hback⟩ := ih (List.pairwise_cons.mp h).2
      refine ⟨z :: front, back, rfl, ?_, hback⟩
      intro w hw
      rcases List.mem_cons.mp hw with rfl | hw
      · exact hz
      · exact hfront w hw
    · refine ⟨[], z :: queue, rfl, by simp, ?_⟩
      intro w hw
      exact (Nat.le_of_not_lt hz).trans (h.head_le hw)

/-- The lower of two requests may be inserted first or second. -/
theorem addSorted_comm_of_lt (h : Ascending queue) (hlt : x.sector < y.sector) :
    addSorted y (addSorted x queue) = addSorted x (addSorted y queue) := by
  -- below `x`, between the two, and from `y` on
  obtain ⟨front, rest, rfl, hfront, hrest⟩ := h.cut x.sector
  have hasc : Ascending rest := (List.pairwise_append.mp h).2.1
  obtain ⟨middle, back, rfl, hmiddle, hback⟩ := hasc.cut y.sector
  have hbelow : ∀ z ∈ front ++ middle, z.sector < y.sector := by
    intro z hz
    rcases List.mem_append.mp hz with hz | hz
    · exact (hfront z hz).trans hlt
    · exact hmiddle z hz
  have hbelow' : ∀ z ∈ front ++ x :: middle, z.sector < y.sector := by
    intro z hz
    rw [List.mem_append, List.mem_cons] at hz
    rcases hz with hz | rfl | hz
    · exact (hfront z hz).trans hlt
    · exact hlt
    · exact hmiddle z hz
  have habove : ∀ z ∈ middle ++ y :: back, x.sector ≤ z.sector := by
    intro z hz
    rw [List.mem_append, List.mem_cons] at hz
    rcases hz with hz | rfl | hz
    · exact hrest z (List.mem_append_left _ hz)
    · exact hlt.le
    · exact hrest z (List.mem_append_right _ hz)
  calc addSorted y (addSorted x (front ++ (middle ++ back)))
      = addSorted y (front ++ x :: (middle ++ back)) := by rw [addSorted_append hfront hrest]
    _ = addSorted y ((front ++ x :: middle) ++ back) := by simp
    _ = (front ++ x :: middle) ++ y :: back := addSorted_append hbelow' hback
    _ = front ++ x :: (middle ++ y :: back) := by simp
    _ = addSorted x (front ++ (middle ++ y :: back)) := (addSorted_append hfront habove).symm
    _ = addSorted x ((front ++ middle) ++ y :: back) := by simp
    _ = addSorted x (addSorted y ((front ++ middle) ++ back)) := by
      rw [addSorted_append hbelow hback]
    _ = addSorted x (addSorted y (front ++ (middle ++ back))) := by rw [List.append_assoc]

theorem addSorted_comm (h : Ascending queue) (hne : x.sector ≠ y.sector) :
    addSorted y (addSorted x queue) = addSorted x (addSorted y queue) := by
  rcases lt_or_gt_of_ne hne with hlt | hlt
  · exact addSorted_comm_of_lt h hlt
  · exact (addSorted_comm_of_lt h hlt).symm

/-- Additions leave the head where it is, so each goes to the queue it would go to alone. -/
theorem GreedyData.Ascends.add_comm {gd : GreedyData ι} (h : gd.Ascends)
    (hne : x.sector ≠ y.sector) :
    (gd.greedyAddRequest x).greedyAddRequest y = (gd.greedyAddRequest y).greedyAddRequest x := by
  by_cases hx : x.sector < gd.diskHead
  · by_cases hy : y.sector < gd.diskHead
    · simp only [greedyAddRequest, hx, hy, if_true, addSorted_comm h.lower hne]
    · simp only [greedyAddRequest, hx, hy, if_true, if_false]
  · by_cases hy : y.sector < gd.diskHead
    · simp only [greedyAddRequest, hx, hy, if_true, if_false]
    · simp only [greedyAddRequest, hx, hy, if_false, addSorted_comm h.upper hne]

end Insertion

/-! ### In memory -/

namespace Heap

variable {h h' t : Heap ι} {lower upper : List ι} {rq : ι} {fuel : ℕ}

/-- The two rings, the extents, the head and the links of requests that are not queued make
up the memory. -/
theorem Holds.ext (hh : h.Holds lower upper) (hh' : h'.Holds lower upper)
    (hpos : h.blkRqPos = h'.blkRqPos) (hsectors : h.blkRqSectors = h'.blkRqSectors)
    (hhead : h.diskHead = h'.diskHead)
    (hlinks : ∀ r, r ∉ lower ++ upper →
      h.links.next (.queuelist r) = h'.links.next (.queuelist r) ∧
        h.links.prev (.queuelist r) = h'.links.prev (.queuelist r)) : h = h' := by
  have hall : ∀ node, h.links.next node = h'.links.next node ∧
      h.links.prev node = h'.links.prev node := by
    intro node
    cases node with
    | lowerQueue => exact hh.lowerRing.links_eq hh'.lowerRing List.mem_cons_self
    | upperQueue => exact hh.upperRing.links_eq hh'.upperRing List.mem_cons_self
    | queuelist r =>
      by_cases hlower : r ∈ lower
      · exact hh.lowerRing.links_eq hh'.lowerRing
          (List.mem_cons_of_mem _ (List.mem_map_of_mem hlower))
      · by_cases hupper : r ∈ upper
        · exact hh.upperRing.links_eq hh'.upperRing
            (List.mem_cons_of_mem _ (List.mem_map_of_mem hupper))
        · exact hlinks r (by simp [hlower, hupper])
  obtain ⟨⟨next, prev⟩, pos, sectors, head⟩ := h
  obtain ⟨⟨next', prev'⟩, pos', sectors', head'⟩ := h'
  have hnext : next = next' := funext fun node => (hall node).1
  have hprev : prev = prev' := funext fun node => (hall node).2
  simp_all

variable [DecidableEq ι]

/-- An addition changes the links of queued requests and of the new one only. -/
theorem Holds.add_frame (hh : h.Holds lower upper) (hrq : rq ∉ lower ++ upper)
    (hadd : h.greedyAddRequest fuel rq = some t) :
    t.blkRqPos = h.blkRqPos ∧ t.blkRqSectors = h.blkRqSectors ∧ t.diskHead = h.diskHead ∧
      ∀ r, r ∉ lower ++ upper → r ≠ rq →
        t.links.next (.queuelist r) = h.links.next (.queuelist r) ∧
          t.links.prev (.queuelist r) = h.links.prev (.queuelist r) := by
  obtain ⟨pos, hpos, rfl⟩ := Option.map_eq_some_iff.mp hadd
  refine ⟨rfl, rfl, rfl, ?_⟩
  intro r hr hne
  have hnode : Node.queuelist r ≠ .queuelist rq := fun heq => hne (queuelist_injective heq)
  rw [List.mem_append, not_or] at hr hrq
  by_cases hbelow : h.blkRqPos rq < h.diskHead
  · rw [if_pos hbelow] at hpos
    obtain ⟨fuel', pos', -, hplace, hmem, -⟩ := exists_place hh.lowerRing
      (fun hmem => hrq.1 ((queuelist_mem nofun).mp hmem))
    obtain rfl := Links.reverseFind_unique hpos hplace
    exact hh.lowerRing.listAdd_of_not_mem hmem
      (fun hmem => hr.1 ((queuelist_mem nofun).mp hmem)) hnode
  · rw [if_neg hbelow] at hpos
    obtain ⟨fuel', pos', -, hplace, hmem, -⟩ := exists_place hh.upperRing
      (fun hmem => hrq.2 ((queuelist_mem nofun).mp hmem))
    obtain rfl := Links.reverseFind_unique hpos hplace
    exact hh.upperRing.listAdd_of_not_mem hmem
      (fun hmem => hr.2 ((queuelist_mem nofun).mp hmem)) hnode

end Heap

namespace Elevator

variable [DecidableEq ι]

/-- From `s` to `t` the requests `rqs` have been added, and nothing else has happened. -/
structure Adds (s t : Elevator ι) (rqs : Multiset ι) : Prop where
  pos : t.heap.blkRqPos = s.heap.blkRqPos
  sectors : t.heap.blkRqSectors = s.heap.blkRqSectors
  head : t.heap.diskHead = s.heap.diskHead
  added : t.added = rqs + s.added
  dispatched : t.dispatched = s.dispatched
  merged : t.merged = s.merged
  links : ∀ r, r ∉ t.queued →
    t.heap.links.next (.queuelist r) = s.heap.links.next (.queuelist r) ∧
      t.heap.links.prev (.queuelist r) = s.heap.links.prev (.queuelist r)

variable {s t t' u m : Elevator ι} {lower upper order order' : List ι} {x y rq : ι}
  {rqs rqs' : Multiset ι}

theorem Adds.trans (h : Adds s t rqs) (h' : Adds t u rqs') : Adds s u (rqs' + rqs) where
  pos := h'.pos.trans h.pos
  sectors := h'.sectors.trans h.sectors
  head := h'.head.trans h.head
  added := by rw [h'.added, h.added, add_assoc]
  dispatched := h'.dispatched.trans h.dispatched
  merged := h'.merged.trans h.merged
  links r hr := by
    have hle : t.queued ≤ u.queued := by
      rw [queued, queued, h'.added, h'.dispatched, h'.merged]
      exact tsub_le_tsub_right (Multiset.le_add_left _ _) _
    have hlater := h'.links r hr
    have hearlier := h.links r (fun hmem => hr (Multiset.mem_of_le hle hmem))
    exact ⟨hlater.1.trans hearlier.1, hlater.2.trans hearlier.2⟩

theorem Adds.request (h : Adds s t rqs) : t.heap.request = s.heap.request := by
  funext r
  simp only [Heap.request, h.pos, h.sectors]

/-- What is added is queued besides what was. -/
theorem Conserves.queued_add (h : s.Conserves lower upper) (hstep : s.Step (.add rq) t) :
    t.queued = rq ::ₘ s.queued := by
  obtain ⟨-, fuel, heap, -, rfl⟩ := hstep
  have hle : s.dispatched + s.merged ≤ s.added := by
    rw [h.added_eq]
    exact Multiset.le_add_right _ _
  exact Multiset.cons_sub_of_le rq hle

/-- An addition adds one request. -/
theorem Conserves.adds (h : s.Conserves lower upper) (hstep : s.Step (.add rq) t) :
    Adds s t {rq} := by
  have hqueued := h.queued_add hstep
  obtain ⟨hallowed, fuel, heap, hadd, rfl⟩ := hstep
  have hrq : rq ∉ lower ++ upper := fun hmem => hallowed (h.mem_queued.mpr hmem)
  obtain ⟨hpos, hsectors, hhead, hlinks⟩ := h.holds.add_frame hrq hadd
  refine ⟨hpos, hsectors, hhead, rfl, rfl, rfl, ?_⟩
  intro r hr
  rw [hqueued, Multiset.mem_cons, not_or] at hr
  exact hlinks r (fun hmem => hr.2 (h.mem_queued.mpr hmem)) hr.1

/-- From the same state, states in which the same has been added and the queues are the
same are the same. -/
theorem Adds.unique (h : Adds s t rqs) (h' : Adds s t' rqs) (ht : t.Conserves lower upper)
    (ht' : t'.Conserves lower upper) : t = t' := by
  have hheap : t.heap = t'.heap := by
    apply ht.holds.ext ht'.holds (h.pos.trans h'.pos.symm) (h.sectors.trans h'.sectors.symm)
      (h.head.trans h'.head.symm)
    intro r hr
    have hlinks := h.links r (fun hmem => hr (ht.mem_queued.mp hmem))
    have hlinks' := h'.links r (fun hmem => hr (ht'.mem_queued.mp hmem))
    exact ⟨hlinks.1.trans hlinks'.1.symm, hlinks.2.trans hlinks'.2.symm⟩
  have hadded := h.added.trans h'.added.symm
  have hdispatched := h.dispatched.trans h'.dispatched.symm
  have hmerged := h.merged.trans h'.merged.symm
  cases t
  cases t'
  simp_all

/-- Requests that can be added one after the other: none is queued, and they start at
different sectors. -/
structure Fresh (s : Elevator ι) (order : List ι) : Prop where
  new : ∀ rq ∈ order, rq ∉ s.queued
  distinct : order.Pairwise fun x y => s.heap.blkRqPos x ≠ s.heap.blkRqPos y

omit [DecidableEq ι] in
theorem pairwise_pos_perm {h : Heap ι} (hperm : order.Perm order')
    (hdistinct : order.Pairwise fun x y => h.blkRqPos x ≠ h.blkRqPos y) :
    order'.Pairwise fun x y => h.blkRqPos x ≠ h.blkRqPos y :=
  (hperm.pairwise_iff fun hne => Ne.symm hne).mp hdistinct

theorem Fresh.perm (h : s.Fresh order) (hperm : order.Perm order') : s.Fresh order' :=
  ⟨fun rq hrq => h.new rq (hperm.mem_iff.mpr hrq), pairwise_pos_perm hperm h.distinct⟩

/-- After the first of them is added the others still can be. -/
theorem Fresh.tail (h : s.Fresh (rq :: order)) (hs : s.Conserves lower upper)
    (hstep : s.Step (.add rq) t) : t.Fresh order := by
  obtain ⟨hrq, hdistinct⟩ := List.pairwise_cons.mp h.distinct
  constructor
  · intro r hr
    rw [hs.queued_add hstep, Multiset.mem_cons, not_or]
    refine ⟨?_, h.new r (List.mem_cons_of_mem _ hr)⟩
    rintro rfl
    exact hrq r hr rfl
  · rw [(hs.adds hstep).pos]
    exact hdistinct

/-- Whether both rings ascend, and hold what they should. -/
def Sorted (s : Elevator ι) : Prop :=
  ∃ lower upper, s.Conserves lower upper ∧ (s.heap.queues lower upper).Ascends

theorem Sorted.add (h : s.Sorted) (hstep : s.Step (.add rq) t) : t.Sorted := by
  obtain ⟨lower, upper, hs, hasc⟩ := h
  obtain ⟨lower', upper', ht, hqueues⟩ := hs.step_queues hstep
  refine ⟨lower', upper', ht, ?_⟩
  rw [hqueues]
  exact hs.ascends_after hasc trivial

/-- They can all be added. -/
theorem Sorted.exists_adds (h : s.Sorted) (hfresh : s.Fresh order) :
    ∃ t, Path Step s (order.map .add) t := by
  induction order generalizing s with
  | nil => exact ⟨s, Path.nil s⟩
  | cons rq order ih =>
    obtain ⟨lower, upper, hs, -⟩ := id h
    obtain ⟨m, -, -, hstep, -⟩ := hs.exists_step (a := .add rq) (hfresh.new rq List.mem_cons_self)
    obtain ⟨t, hrest⟩ := ih (h.add hstep) (hfresh.tail hs hstep)
    exact ⟨t, Path.cons hstep hrest⟩

/-- Two additions lead to the same state whichever comes first. -/
theorem Sorted.add_add_unique {m' : Elevator ι} (h : s.Sorted)
    (hne : s.heap.blkRqPos x ≠ s.heap.blkRqPos y) (hx : s.Step (.add x) m)
    (hxy : m.Step (.add y) t) (hy : s.Step (.add y) m') (hyx : m'.Step (.add x) t') : t = t' := by
  obtain ⟨lower, upper, hs, hasc⟩ := h
  obtain ⟨lower₁, upper₁, hm, hqueues₁⟩ := hs.step_queues hx
  obtain ⟨lower₂, upper₂, ht, hqueues₂⟩ := hm.step_queues hxy
  obtain ⟨lower₃, upper₃, hm', hqueues₃⟩ := hs.step_queues hy
  obtain ⟨lower₄, upper₄, ht', hqueues₄⟩ := hm'.step_queues hyx
  have hfirst := hs.adds hx
  have hfirst' := hs.adds hy
  have hboth := hfirst.trans (hm.adds hxy)
  have hboth' := hfirst'.trans (hm'.adds hyx)
  rw [add_comm] at hboth'
  have hqueues : t.heap.queues lower₂ upper₂ = t'.heap.queues lower₄ upper₄ := by
    rw [hqueues₂, hqueues₄, hqueues₁, hqueues₃]
    simp only [queuesAfter, hfirst.request, hfirst'.request]
    exact hasc.add_comm hne
  simp only [Heap.queues, hboth.request, hboth'.request, GreedyData.mk.injEq] at hqueues
  have hinj := List.map_injective_iff.mpr s.heap.request_injective
  obtain rfl : lower₂ = lower₄ := hinj hqueues.1
  obtain rfl : upper₂ = upper₄ := hinj hqueues.2.1
  exact hboth.unique hboth' ht ht'

/-- However they are ordered, additions lead to one state. -/
theorem Sorted.adds_unique (hperm : order.Perm order') (h : s.Sorted) (hfresh : s.Fresh order)
    (hrun : Path Step s (order.map .add) t) (hrun' : Path Step s (order'.map .add) t') :
    t = t' := by
  have hdet : ∀ (s : Elevator ι) a t t', s.Step a t → s.Step a t' → t = t' :=
    fun _ _ _ _ h h' => h.unique h'
  -- on the permutation: a swap of two neighbours is where additions commute
  induction hperm generalizing s t t' with
  | nil => exact hrun.unique hdet hrun'
  | cons rq _ ih =>
    cases hrun with
    | cons hstep _ hrest =>
      cases hrun' with
      | cons hstep' _ hrest' =>
        obtain rfl := hstep.unique hstep'
        obtain ⟨lower, upper, hs, -⟩ := id h
        exact ih (h.add hstep) (hfresh.tail hs hstep) hrest hrest'
  | swap x y order =>
    cases hrun with
    | cons hy _ hrest =>
      cases hrest with
      | cons hx _ hrest =>
        cases hrun' with
        | cons hx' _ hrest' =>
          cases hrest' with
          | cons hy' _ hrest' =>
            have hne := (List.pairwise_cons.mp hfresh.distinct).1 x List.mem_cons_self
            obtain rfl := h.add_add_unique hne hy hx hx' hy'
            exact Path.unique hdet hrest hrest'
  | trans hperm₁ _ ih₁ ih₂ =>
    obtain ⟨u, hbetween⟩ := h.exists_adds (hfresh.perm hperm₁)
    rw [ih₁ h hfresh hrun hbetween]
    exact ih₂ h (hfresh.perm hperm₁) hbetween hrun'

end Elevator

/-- **Additions commute.** In every state that is reached while no queued request is
moved, requests that are not queued and start at different sectors may be added in any
order: it always leads to the same state, and so to the same further runs. -/
theorem additions_commute [DecidableEq ι] {h₀ heap : Heap ι} {as : List (ElevatorAct ι)}
    {s : Elevator ι} (hinit : h₀.greedyInitQueue true true = .ok heap)
    (hrun : Along Elevator.Step (fun e a _ => KeepsPos e a) (Elevator.initial heap) as s)
    {rqs : List ι} (hnew : ∀ rq ∈ rqs, rq ∉ s.queued)
    (hdistinct : rqs.Pairwise fun x y => s.heap.blkRqPos x ≠ s.heap.blkRqPos y) :
    ∃ t, ∀ order : List ι, order.Perm rqs →
      (∀ u, Path Elevator.Step s (order.map .add) u ↔ u = t) ∧
        ∀ bs u, Path Elevator.Step s (order.map .add ++ bs) u ↔ Path Elevator.Step t bs u := by
  have hsorted : s.Sorted := Elevator.ascends_of_run hinit hrun
  have hfresh : s.Fresh rqs := ⟨hnew, hdistinct⟩
  obtain ⟨t, ht⟩ := hsorted.exists_adds hfresh
  refine ⟨t, ?_⟩
  intro order hperm
  have hone : ∀ u, Path Elevator.Step s (order.map .add) u ↔ u = t := by
    intro u
    constructor
    · intro hu
      exact hsorted.adds_unique hperm (hfresh.perm hperm.symm) hu ht
    · rintro rfl
      obtain ⟨v, hv⟩ := hsorted.exists_adds (hfresh.perm hperm.symm)
      rwa [← hsorted.adds_unique hperm (hfresh.perm hperm.symm) hv ht]
  refine ⟨hone, ?_⟩
  intro bs u
  constructor
  · intro hu
    obtain ⟨v, hv, hrest⟩ := hu.of_append
    rwa [(hone v).mp hv] at hrest
  · intro hu
    exact ((hone t).mpr rfl).append hu

/-- With the head at 150, four requests on either side of it. -/
theorem additions_commute_four :
    ∃ s t : Elevator ℕ, s.heap.diskHead = 150 ∧
      ∀ order : List ℕ, order.Perm [5, 2, 7, 3] →
        (∀ u, Path Elevator.Step s (order.map .add) u ↔ u = t) ∧
          ∀ bs u, Path Elevator.Step s (order.map .add ++ bs) u ↔ Path Elevator.Step t bs u := by
  have free {e : Elevator ℕ} {rq : ℕ} (h : rq ∉ e.queued) : e.Allowed (.add rq) := h
  obtain ⟨heap, s, hinit, hrun, hhead, hnew, hdistinct⟩ : ∃ (heap : Heap ℕ) (s : Elevator ℕ),
      overlapping.greedyInitQueue true true = .ok heap ∧
      Along Elevator.Step (fun e a _ => KeepsPos e a) (Elevator.initial heap)
        [.add 0, .dispatch] s ∧ s.heap.diskHead = 150 ∧ (∀ rq ∈ [5, 2, 7, 3], rq ∉ s.queued) ∧
          [5, 2, 7, 3].Pairwise fun x y => s.heap.blkRqPos x ≠ s.heap.blkRqPos y :=
    ⟨_, _, rfl, .cons ⟨free (by decide), 4, _, rfl, rfl⟩ trivial <|
      .cons ⟨trivial, some 0, _, rfl, rfl⟩ trivial <| .nil _, rfl, by decide, by decide⟩
  obtain ⟨t, ht⟩ := additions_commute hinit hrun hnew hdistinct
  exact ⟨s, t, hhead, ht⟩

end OsProjects.Scheduler
