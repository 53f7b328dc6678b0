import OsProjects.Lib.ListHead
import OsProjects.Scheduler.Greedy

/-!
# The scheduler in memory

The queues are rings of list nodes: the heads are fields of `struct greedy_data`, the
others are fields of the requests. This file embeds the elevator's functions on the
links, with every look at a request through `list_entry_rq`, which is garbage for a
node that is a head.

## Main definitions

* `Node`, `Heap` — the list nodes, what the scheduler reads and writes
* `Heap.greedyDispatch`, `greedyAddRequest`, `greedyMergedRequests`,
  `greedyFormerRequest`, `greedyLatterRequest`, `greedyInitQueue`, `greedyExitQueue`
* `Heap.Holds` — the requests in the two rings
* `Heap.queues` — the same as lists of requests

## Main results

* `Holds.add`, `Holds.merged`, `Holds.dispatch`, `Holds.neighbours` — no function reaches
  garbage, the scan ends, and what they do to the rings is what the operations on lists do
-/

namespace OsProjects.Scheduler

open ListHead

variable {ι : Type*}

/-! ### Memory -/

/-- The list nodes that the scheduler may come across. -/
inductive Node (ι : Type*)
  | lowerQueue
  | upperQueue
  | queuelist (rq : ι)
  deriving DecidableEq

/-- `list_entry_rq`: the request a node is part of. -/
def listEntryRq : Node ι → Option ι
  | .queuelist rq => some rq
  | _ => none

/-- The links of all nodes, the extents of all requests and the position of the head. -/
structure Heap (ι : Type*) where
  links : Links (Node ι)
  blkRqPos : ι → ℕ
  blkRqSectors : ι → ℕ
  diskHead : ℕ

/-- `-ENOMEM` -/
def enomem : ℤ := 12

/-- `BUG_ON` -/
def bugOn (condition : Bool) : Option Unit := if condition then none else some ()

namespace Heap

/-- What the scheduler reads of a request. -/
def request (h : Heap ι) (rq : ι) : Request ι := ⟨rq, h.blkRqPos rq, h.blkRqSectors rq⟩

/-- `rq_end_sector` -/
def rqEndSector (h : Heap ι) (rq : ι) : ℕ := add64 (h.blkRqPos rq) (h.blkRqSectors rq)

variable [DecidableEq ι]

/-- `greedy_merged_requests` -/
def greedyMergedRequests (h : Heap ι) (next : ι) : Heap ι :=
  { h with links := h.links.listDelInit (.queuelist next) }

/-- The comparison of `lower_distance` and `upper_distance` in `greedy_dispatch`. -/
def isLowerNearer (h : Heap ι) (nextLower nextUpper : Node ι) : Option Bool :=
  (listEntryRq nextLower).bind fun lower => (listEntryRq nextUpper).map fun upper =>
    sub64 h.diskHead (h.blkRqPos lower) < sub64 (h.blkRqPos upper) h.diskHead

/-- `greedy_dispatch`: the request passed to `elv_dispatch_add_tail` when it returns 1,
`none` in its place when it returns 0. -/
def greedyDispatch (h : Heap ι) : Option (Option ι × Heap ι) := do
  let nextLower := h.links.prev .lowerQueue
  let nextUpper := h.links.next .upperQueue
  let isLowerEmpty : Bool := nextLower = .lowerQueue
  let isUpperEmpty : Bool := nextUpper = .upperQueue
  if isLowerEmpty && isUpperEmpty then
    return (none, h)
  let target ←
    if isLowerEmpty then pure nextUpper
    else if isUpperEmpty then pure nextLower
    else (h.isLowerNearer nextLower nextUpper).map fun isLowerNearer =>
      if isLowerNearer then nextLower else nextUpper
  let rq ← listEntryRq target
  return (some rq,
    { h with diskHead := h.rqEndSector rq, links := h.links.listDelInit target })

/-- The condition at which the scan of `greedy_add_request` breaks. -/
def startsBelow (h : Heap ι) (rq : ι) (pos : Node ι) : Option Bool :=
  (listEntryRq pos).map fun pos => h.blkRqPos rq > h.blkRqPos pos

/-- `greedy_add_request`, with a bound on the passes of its scan. -/
def greedyAddRequest (fuel : ℕ) (h : Heap ι) (rq : ι) : Option (Heap ι) :=
  let target : Node ι := if h.blkRqPos rq < h.diskHead then .lowerQueue else .upperQueue
  (h.links.reverseFind target (h.startsBelow rq) fuel (h.links.prev target)).map fun pos =>
    { h with links := h.links.listAdd (.queuelist rq) pos }

/-- `greedy_former_request` -/
def greedyFormerRequest (h : Heap ι) (rq : ι) : Option ι :=
  let prev := h.links.prev (.queuelist rq)
  if prev = .lowerQueue ∨ prev = .upperQueue then none else listEntryRq prev

/-- `greedy_latter_request` -/
def greedyLatterRequest (h : Heap ι) (rq : ι) : Option ι :=
  let next := h.links.next (.queuelist rq)
  if next = .lowerQueue ∨ next = .upperQueue then none else listEntryRq next

/-- `greedy_init_queue`, whose two allocations may fail. -/
def greedyInitQueue (h : Heap ι) (elevatorAlloc kmallocNode : Bool) : Except ℤ (Heap ι) := do
  if !elevatorAlloc then
    throw (-enomem)
  if !kmallocNode then
    throw (-enomem)
  return { h with
    links := (h.links.initListHead .lowerQueue).initListHead .upperQueue
    diskHead := 0 }

/-- `greedy_exit_queue` -/
def greedyExitQueue (h : Heap ι) : Option Unit := do
  bugOn (!h.links.listEmpty .lowerQueue)
  bugOn (!h.links.listEmpty .upperQueue)

end Heap

/-! ### The two rings -/

namespace Heap

/-- The two rings hold the requests of `lower` and of `upper`, each request once. -/
structure Holds (h : Heap ι) (lower upper : List ι) : Prop where
  lowerRing : h.links.Ring .lowerQueue (lower.map .queuelist)
  upperRing : h.links.Ring .upperQueue (upper.map .queuelist)
  nodup : (lower ++ upper).Nodup

/-- The queues as lists of requests. -/
def queues (h : Heap ι) (lower upper : List ι) : GreedyData ι :=
  ⟨lower.map h.request, upper.map h.request, h.diskHead⟩

end Heap

@[simp] theorem listEntryRq_queuelist (rq : ι) : listEntryRq (.queuelist rq) = some rq := rfl

theorem queuelist_injective : Function.Injective fun rq : ι => Node.queuelist rq := by
  intro x y h
  cases h
  rfl

namespace Heap

@[simp] theorem request_id (h : Heap ι) (rq : ι) : (h.request rq).id = rq := rfl

@[simp] theorem request_sector (h : Heap ι) (rq : ι) : (h.request rq).sector = h.blkRqPos rq := rfl

@[simp] theorem request_endSector (h : Heap ι) (rq : ι) :
    (h.request rq).endSector = h.rqEndSector rq := rfl

theorem isLowerNearer_queuelist (h : Heap ι) (lower upper : ι) :
    h.isLowerNearer (.queuelist lower) (.queuelist upper) = some (decide
      (sub64 h.diskHead (h.blkRqPos lower) < sub64 (h.blkRqPos upper) h.diskHead)) := rfl

theorem request_injective (h : Heap ι) : Function.Injective h.request := by
  intro x y hxy
  exact congrArg Request.id hxy

section Ring

variable [DecidableEq ι] {h : Heap ι} {l : Links (Node ι)} {target : Node ι} {queue : List ι}
  {rq : ι}

/-- The scan finds the place where the insertion on lists puts the request. -/
theorem exists_place (hring : h.links.Ring target (queue.map .queuelist))
    (hrq : .queuelist rq ∉ target :: queue.map .queuelist) :
    ∃ fuel pos, ∃ queue' : List ι,
      h.links.reverseFind target (h.startsBelow rq) fuel (h.links.prev target) = some pos ∧
      pos ∈ target :: queue.map .queuelist ∧
      (h.links.listAdd (.queuelist rq) pos).Ring target (queue'.map .queuelist) ∧
      queue'.map h.request = addSorted (h.request rq) (queue.map h.request) := by
  obtain ⟨_, _, hqueue, hadd, hback, hfront⟩ :=
    addSorted_split (h.request rq) (queue.map h.request)
  obtain ⟨front, back, rfl, rfl, rfl⟩ := List.map_eq_append_iff.mp hqueue
  obtain ⟨init, pos, hpos⟩ := Links.exists_concat target (front.map Node.queuelist)
  rw [List.map_append] at hring hrq
  refine ⟨_, pos, front ++ rq :: back, hring.reverseFind hpos ?_ ?_, ?_, ?_, ?_⟩
  · intro hne
    rcases List.eq_nil_or_concat' front with rfl | ⟨front', x, rfl⟩
    · have hpos' : [] ++ [target] = init ++ [pos] := hpos
      exact absurd (List.singleton_inj.mp (List.append_inj' hpos' rfl).2).symm hne
    · rw [List.map_append, ← List.cons_append] at hpos
      obtain rfl := List.singleton_inj.mp (List.append_inj' hpos rfl).2
      have hlt := hfront (h.request x) (front'.map h.request) (by simp)
      simpa [startsBelow] using hlt
  · intro y hy
    obtain ⟨x, hx, rfl⟩ := List.mem_map.mp hy
    have hle := hback (h.request x) (List.mem_map_of_mem hx)
    simpa [startsBelow] using hle
  · rw [List.map_append]
    exact Links.mem_of_concat hpos
  · rw [List.map_append, List.map_cons]
    exact hring.listAdd hrq hpos
  · rw [hadd, List.map_append, List.map_cons]

/-- Removing a node removes its request. -/
theorem ring_erase (hring : l.Ring target (queue.map .queuelist)) (hrq : rq ∈ queue) :
    (l.listDelInit (.queuelist rq)).Ring target ((queue.erase rq).map .queuelist) := by
  obtain ⟨front, back, hfront, rfl, herase⟩ := List.exists_erase_eq hrq
  rw [herase, List.map_append]
  rw [List.map_append, List.map_cons] at hring
  exact hring.listDelInit

end Ring

/-! ### The operations -/

section Holds

variable [DecidableEq ι] {h : Heap ι} {lower upper : List ι} {rq : ι}

omit [DecidableEq ι] in
theorem queuelist_mem {queue : List ι} {target : Node ι} (htarget : ∀ x, target ≠ .queuelist x) :
    .queuelist rq ∈ target :: queue.map .queuelist ↔ rq ∈ queue := by
  rw [List.mem_cons, List.mem_map_of_injective queuelist_injective]
  exact or_iff_right (htarget rq).symm

omit [DecidableEq ι] in
/-- The rings have no node in common. -/
theorem Holds.disjoint (hh : h.Holds lower upper) :
    ∀ x ∈ Node.lowerQueue :: lower.map Node.queuelist,
      x ∉ Node.upperQueue :: upper.map Node.queuelist := by
  have hdisjoint := List.disjoint_of_nodup_append hh.nodup
  intro x hx hx'
  cases x with
  | lowerQueue => simp at hx'
  | upperQueue => simp at hx
  | queuelist rq =>
    rw [queuelist_mem nofun] at hx hx'
    exact hdisjoint hx hx'

/-- A fresh scheduler holds nothing. -/
theorem holds_init {t : Heap ι} (hinit : h.greedyInitQueue true true = .ok t) :
    t.Holds [] [] ∧ t.queues [] [] = .greedyInitQueue := by
  cases hinit
  refine ⟨⟨?_, ?_, List.nodup_nil⟩, rfl⟩
  · exact (Links.initListHead_ring h.links .lowerQueue).initListHead (by simp)
  · exact Links.initListHead_ring _ Node.upperQueue

/-- **Adding.** The scan ends, and the request is linked in where the insertion on lists
puts it. -/
theorem Holds.add (hh : h.Holds lower upper) (hrq : rq ∉ lower ++ upper) :
    ∃ fuel t lower' upper', h.greedyAddRequest fuel rq = some t ∧ t.Holds lower' upper' ∧
      t.queues lower' upper' = (h.queues lower upper).greedyAddRequest (h.request rq) ∧
      (lower' ++ upper').Perm (rq :: (lower ++ upper)) := by
  have hdisjoint := hh.disjoint
  have hlower : .queuelist rq ∉ Node.lowerQueue :: lower.map Node.queuelist := by
    rw [queuelist_mem nofun]
    exact fun hmem => hrq (List.mem_append_left _ hmem)
  have hupper : .queuelist rq ∉ Node.upperQueue :: upper.map Node.queuelist := by
    rw [queuelist_mem nofun]
    exact fun hmem => hrq (List.mem_append_right _ hmem)
  have hperm : ∀ t : Heap ι, t.request = h.request → ∀ lower' upper',
      t.queues lower' upper' = (h.queues lower upper).greedyAddRequest (h.request rq) →
      (lower' ++ upper').Perm (rq :: (lower ++ upper)) := by
    intro t hrequest lower' upper' hqueues
    have hpending := (h.queues lower upper).add_pending_perm (h.request rq)
    rw [← hqueues] at hpending
    simpa [GreedyData.pending, queues, hrequest, Function.comp_def] using
      hpending.map Request.id
  by_cases hbelow : h.blkRqPos rq < h.diskHead
  · obtain ⟨fuel, pos, lower', hplace, hmem, hring, hsorted⟩ :=
      exists_place hh.lowerRing hlower
    have hqueues : (h.queues lower upper).greedyAddRequest (h.request rq) =
        h.queues lower' upper := by
      simp only [GreedyData.greedyAddRequest, queues, request, hbelow, if_true] at hsorted ⊢
      rw [hsorted]
    have hp := hperm h rfl lower' upper hqueues.symm
    refine ⟨fuel, { h with links := h.links.listAdd (.queuelist rq) pos }, lower', upper,
      ?_, ⟨hring, ?_, ?_⟩, hqueues.symm, hp⟩
    · simp [greedyAddRequest, hbelow, hplace]
    · exact hh.upperRing.listAdd_frame hh.lowerRing (fun x hx hx' => hdisjoint x hx' hx) hupper hmem
    · exact hp.nodup_iff.mpr (List.nodup_cons.mpr ⟨hrq, hh.nodup⟩)
  · obtain ⟨fuel, pos, upper', hplace, hmem, hring, hsorted⟩ :=
      exists_place hh.upperRing hupper
    have hqueues : (h.queues lower upper).greedyAddRequest (h.request rq) =
        h.queues lower upper' := by
      simp only [GreedyData.greedyAddRequest, queues, request, hbelow, if_false] at hsorted ⊢
      rw [hsorted]
    have hp := hperm h rfl lower upper' hqueues.symm
    refine ⟨fuel, { h with links := h.links.listAdd (.queuelist rq) pos }, lower, upper',
      ?_, ⟨?_, hring, ?_⟩, hqueues.symm, hp⟩
    · simp [greedyAddRequest, hbelow, hplace]
    · exact hh.lowerRing.listAdd_frame hh.upperRing hdisjoint hlower hmem
    · exact hp.nodup_iff.mpr (List.nodup_cons.mpr ⟨hrq, hh.nodup⟩)

theorem greedyAddRequest_unique {fuel fuel' : ℕ} {t t' : Heap ι}
    (hadd : h.greedyAddRequest fuel rq = some t) (hadd' : h.greedyAddRequest fuel' rq = some t') :
    t = t' := by
  obtain ⟨pos, hpos, rfl⟩ := Option.map_eq_some_iff.mp hadd
  obtain ⟨pos', hpos', rfl⟩ := Option.map_eq_some_iff.mp hadd'
  rw [Links.reverseFind_unique hpos hpos']

/-- Unlinking a queued request takes it out of its queue. -/
theorem Holds.erase (hh : h.Holds lower upper) (hrq : rq ∈ lower ++ upper) (head : ℕ) :
    Holds { h with links := h.links.listDelInit (.queuelist rq), diskHead := head }
      (lower.erase rq) (upper.erase rq) := by
  have hnodup := hh.nodup
  have hdisjoint := List.disjoint_of_nodup_append hnodup
  refine ⟨?_, ?_, hnodup.sublist (List.erase_sublist.append List.erase_sublist)⟩
  · by_cases hlower : rq ∈ lower
    · exact ring_erase hh.lowerRing hlower
    · have hupper := (List.mem_append.mp hrq).resolve_left hlower
      rw [List.erase_of_not_mem hlower]
      exact hh.lowerRing.listDelInit_frame hh.upperRing hh.disjoint
        ((queuelist_mem nofun).mpr hupper)
  · by_cases hupper : rq ∈ upper
    · exact ring_erase hh.upperRing hupper
    · have hlower := (List.mem_append.mp hrq).resolve_right hupper
      rw [List.erase_of_not_mem hupper]
      exact hh.upperRing.listDelInit_frame hh.lowerRing
        (fun x hx hx' => hh.disjoint x hx' hx) ((queuelist_mem nofun).mpr hlower)

/-- **Merging.** -/
theorem Holds.merged (hh : h.Holds lower upper) (hrq : rq ∈ lower ++ upper) :
    (h.greedyMergedRequests rq).Holds (lower.erase rq) (upper.erase rq) ∧
      (h.greedyMergedRequests rq).queues (lower.erase rq) (upper.erase rq) =
        (h.queues lower upper).greedyMergedRequests (h.request rq) := by
  refine ⟨hh.erase hrq h.diskHead, ?_⟩
  have herase : ∀ queue : List ι,
      (queue.erase rq).map h.request = (queue.map h.request).erase (h.request rq) := fun queue =>
    List.map_erase h.request_injective queue
  simp only [GreedyData.greedyMergedRequests, queues, ← herase]
  rfl

section Ends

omit [DecidableEq ι]

variable {l : Links (Node ι)} {target : Node ι} {queue : List ι}

theorem prev_of_nil (hring : l.Ring target (([] : List ι).map .queuelist)) :
    l.prev target = target := by
  have htarget : target :: [] = [] ++ [target] := rfl
  exact hring.prev_head htarget

theorem next_of_nil (hring : l.Ring target (([] : List ι).map .queuelist)) :
    l.next target = target := by
  have htarget : [] ++ [target] = target :: [] := rfl
  exact hring.next_head htarget

theorem prev_of_concat (hring : l.Ring target ((queue ++ [rq]).map .queuelist)) :
    l.prev target = .queuelist rq := by
  rw [List.map_append] at hring
  exact hring.prev_head (List.cons_append).symm

theorem next_of_cons (hring : l.Ring target ((rq :: queue).map .queuelist)) :
    l.next target = .queuelist rq := hring.next_head List.cons_append

end Ends

/-- The state after `greedy_dispatch` has taken `rq`. -/
def afterTaking (h : Heap ι) (rq : ι) : Heap ι :=
  { h with diskHead := h.rqEndSector rq, links := h.links.listDelInit (.queuelist rq) }

@[simp] theorem afterTaking_request (h : Heap ι) (rq : ι) :
    (h.afterTaking rq).request = h.request := rfl

@[simp] theorem afterTaking_diskHead (h : Heap ι) (rq : ι) :
    (h.afterTaking rq).diskHead = h.rqEndSector rq := rfl

theorem Holds.takeLower (hh : h.Holds (lower ++ [rq]) upper) :
    (h.afterTaking rq).Holds lower upper := by
  have hnodup := hh.nodup
  have hrq : rq ∈ lower ++ [rq] ++ upper := by simp
  have htaken := hh.erase hrq (h.rqEndSector rq)
  have hlower : rq ∉ lower := by
    have hdisjoint := List.disjoint_of_nodup_append (List.nodup_append'.mp hnodup).1
    exact fun hmem => hdisjoint hmem (List.mem_singleton.mpr rfl)
  have hupper : rq ∉ upper := List.disjoint_of_nodup_append hnodup (by simp)
  rw [List.erase_append_right _ hlower, List.erase_cons_head, List.append_nil,
    List.erase_of_not_mem hupper] at htaken
  exact htaken

theorem Holds.takeUpper (hh : h.Holds lower (rq :: upper)) :
    (h.afterTaking rq).Holds lower upper := by
  have hrq : rq ∈ lower ++ rq :: upper := by simp
  have htaken := hh.erase hrq (h.rqEndSector rq)
  have hlower : rq ∉ lower := fun hmem =>
    List.disjoint_of_nodup_append hh.nodup hmem List.mem_cons_self
  rw [List.erase_of_not_mem hlower, List.erase_cons_head] at htaken
  exact htaken

/-- **Dispatching.** It returns 0 when the rings are empty. Otherwise it takes the request
that the dispatch on lists takes. -/
theorem Holds.dispatch (hh : h.Holds lower upper) :
    (lower ++ upper = [] ∧ h.greedyDispatch = some (none, h)) ∨
      ∃ rq lower' upper', h.greedyDispatch = some (some rq, h.afterTaking rq) ∧
        (h.afterTaking rq).Holds lower' upper' ∧
        (h.queues lower upper).greedyDispatch =
          some (h.request rq, (h.afterTaking rq).queues lower' upper') ∧
        (lower ++ upper).Perm (rq :: (lower' ++ upper')) := by
  rcases List.eq_nil_or_concat' lower with rfl | ⟨lower, l, rfl⟩
  · have hprev := prev_of_nil hh.lowerRing
    cases upper with
    | nil =>
      have hnext := next_of_nil hh.upperRing
      exact .inl ⟨rfl, by simp [greedyDispatch, hprev, hnext]⟩
    | cons u upper =>
      have hnext := next_of_cons hh.upperRing
      refine .inr ⟨u, [], upper, ?_, hh.takeUpper, ?_, List.Perm.refl _⟩
      · simp [greedyDispatch, hprev, hnext, afterTaking]
      · simp [GreedyData.greedyDispatch, queues]
  · have hprev := prev_of_concat hh.lowerRing
    have hlower : (lower ++ [l] ++ upper).Perm (l :: (lower ++ upper)) := by
      rw [List.append_assoc]
      exact List.perm_middle
    cases upper with
    | nil =>
      have hnext := next_of_nil hh.upperRing
      refine .inr ⟨l, lower, [], ?_, hh.takeLower, ?_, hlower⟩
      · simp [greedyDispatch, hprev, hnext, afterTaking]
      · simp [GreedyData.greedyDispatch, queues]
    | cons u upper =>
      have hnext := next_of_cons hh.upperRing
      by_cases hnear : sub64 h.diskHead (h.blkRqPos l) < sub64 (h.blkRqPos u) h.diskHead
      · refine .inr ⟨l, lower, u :: upper, ?_, hh.takeLower, ?_, hlower⟩
        · simp [greedyDispatch, hprev, hnext, isLowerNearer_queuelist, hnear, afterTaking]
        · simp [GreedyData.greedyDispatch, queues, hnear]
      · refine .inr ⟨u, lower ++ [l], upper, ?_, hh.takeUpper, ?_, List.perm_middle⟩
        · simp [greedyDispatch, hprev, hnext, isLowerNearer_queuelist, hnear, afterTaking]
        · simp [GreedyData.greedyDispatch, queues, hnear]

/-- The checks of `greedy_exit_queue` pass exactly when nothing is queued. -/
theorem Holds.exit_iff (hh : h.Holds lower upper) :
    h.greedyExitQueue = some () ↔ lower ++ upper = [] := by
  have hlower := hh.lowerRing.listEmpty_iff
  have hupper := hh.upperRing.listEmpty_iff
  rw [List.map_eq_nil_iff] at hlower hupper
  rw [List.append_eq_nil_iff, ← hlower, ← hupper]
  unfold greedyExitQueue bugOn
  cases h.links.listEmpty .lowerQueue <;> cases h.links.listEmpty .upperQueue <;> simp

end Holds

/-! ### Neighbours -/

section Neighbours

variable [DecidableEq ι] {h : Heap ι} {lower upper front back : List ι} {rq : ι}
  {target : Node ι}

/-- Behind a request stands the next one of its queue, or the head of the queue. -/
theorem latter_of_ring (htarget : target = .lowerQueue ∨ target = .upperQueue)
    (hring : h.links.Ring target ((front ++ rq :: back).map .queuelist)) :
    h.greedyLatterRequest rq = back.head? := by
  rw [List.map_append, List.map_cons] at hring
  unfold greedyLatterRequest
  cases back with
  | nil =>
    have hclosed : target :: (front.map Node.queuelist ++ [.queuelist rq]) ++ [target] =
        (target :: front.map Node.queuelist) ++ .queuelist rq :: target :: [] := by simp
    rw [(hring.neighbours hclosed).1]
    exact if_pos htarget
  | cons y back =>
    have hclosed : target :: (front.map Node.queuelist ++
        .queuelist rq :: .queuelist y :: back.map Node.queuelist) ++ [target] =
        (target :: front.map Node.queuelist) ++ .queuelist rq :: .queuelist y ::
          (back.map Node.queuelist ++ [target]) := by simp
    rw [(hring.neighbours hclosed).1]
    rfl

/-- Before it stands the last one of those before it, or the head of the queue. -/
theorem former_of_ring (htarget : target = .lowerQueue ∨ target = .upperQueue)
    (hring : h.links.Ring target ((front ++ rq :: back).map .queuelist)) :
    h.greedyFormerRequest rq = front.getLast? := by
  rw [List.map_append, List.map_cons] at hring
  unfold greedyFormerRequest
  rcases List.eq_nil_or_concat' front with rfl | ⟨front, x, rfl⟩
  · have hclosed : target :: ([] ++ .queuelist rq :: back.map Node.queuelist) ++ [target] =
        [] ++ target :: .queuelist rq :: (back.map Node.queuelist ++ [target]) := by simp
    rw [(hring.neighbours hclosed).2]
    exact if_pos htarget
  · have hclosed : target :: ((front ++ [x]).map Node.queuelist ++
        .queuelist rq :: back.map Node.queuelist) ++ [target] =
        (target :: front.map Node.queuelist) ++ .queuelist x :: .queuelist rq ::
          (back.map Node.queuelist ++ [target]) := by simp
    rw [(hring.neighbours hclosed).2, List.getLast?_concat]
    rfl

/-- **Neighbours.** Both look-ups find what they find on lists. -/
theorem Holds.neighbours (hh : h.Holds lower upper) (hrq : rq ∈ lower ++ upper) :
    (h.greedyLatterRequest rq).map h.request =
        (h.queues lower upper).greedyLatterRequest (h.request rq) ∧
      (h.greedyFormerRequest rq).map h.request =
        (h.queues lower upper).greedyFormerRequest (h.request rq) := by
  have hnodup := List.nodup_append'.mp hh.nodup
  have hmem : ∀ queue : List ι, h.request rq ∈ queue.map h.request ↔ rq ∈ queue := fun queue =>
    List.mem_map_of_injective h.request_injective
  have hbehind : ∀ front back : List ι, (front ++ rq :: back).Nodup →
      behind (h.request rq) ((front ++ rq :: back).map h.request) = back.head?.map h.request ∧
        behind (h.request rq) ((front ++ rq :: back).map h.request).reverse =
          front.getLast?.map h.request := by
    intro front back hqueue
    have hqueue' := hqueue.map h.request_injective
    constructor
    · rw [List.map_append, List.map_cons] at hqueue' ⊢
      rw [behind_eq hqueue', List.head?_map]
    · rw [← List.nodup_reverse] at hqueue'
      rw [List.map_append, List.map_cons, List.reverse_append, List.reverse_cons,
        List.append_assoc, List.singleton_append] at hqueue' ⊢
      rw [behind_eq hqueue', ← List.map_reverse, List.head?_map, List.head?_reverse]
  unfold GreedyData.greedyLatterRequest GreedyData.greedyFormerRequest
  simp only [queues, hmem]
  by_cases hlower : rq ∈ lower
  · obtain ⟨front, back, rfl⟩ := List.append_of_mem hlower
    rw [if_pos hlower, if_pos hlower, latter_of_ring (.inl rfl) hh.lowerRing,
      former_of_ring (.inl rfl) hh.lowerRing]
    exact ⟨(hbehind front back hnodup.1).1.symm, (hbehind front back hnodup.1).2.symm⟩
  · obtain ⟨front, back, rfl⟩ := List.append_of_mem ((List.mem_append.mp hrq).resolve_left hlower)
    rw [if_neg hlower, if_neg hlower, latter_of_ring (.inr rfl) hh.upperRing,
      former_of_ring (.inr rfl) hh.upperRing]
    exact ⟨(hbehind front back hnodup.2.1).1.symm, (hbehind front back hnodup.2.1).2.symm⟩

end Neighbours

end Heap

end OsProjects.Scheduler
