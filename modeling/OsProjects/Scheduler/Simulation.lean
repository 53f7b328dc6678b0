import OsProjects.Scheduler.Conservation

/-!
# From lists to memory

What is proved of the scheduler on lists holds of the scheduler in memory. Every action
on lists stands for calls and for the extents that the block layer gives to requests
before an addition and after a merge, and a run on lists is what the run of these calls
shows in the two rings.

## Main definitions

* `GreedyAct.calls` — what an action on lists stands for
* `Elevator.Shows` — the two rings show a state of the list model

## Main results

* `Elevator.Shows.step` — one action
* `shows_of_path` — every run, and the only one
-/

namespace OsProjects.Scheduler

open Run

variable {ι : Type*}

/-- What an action on lists stands for. -/
def GreedyAct.calls : GreedyAct ι → List (ElevatorAct ι)
  | .add rq => [.resize rq.id rq.sector rq.sectors, .add rq.id]
  | .merge rq next =>
    [.merge rq.id next.id, .resize rq.id rq.sector (rq.sectors + next.sectors)]
  | .dispatch => [.dispatch]

variable [DecidableEq ι]

/-! ### Changing the extent of a request -/

namespace Heap

variable {h : Heap ι} {lower upper : List ι} {rq : ι} {pos sectors : ℕ}

@[simp] theorem resize_request_self :
    (h.resize rq pos sectors).request rq = ⟨rq, pos, sectors⟩ := by
  simp [request, Heap.resize]

theorem resize_request_of_ne {x : ι} (hne : x ≠ rq) :
    (h.resize rq pos sectors).request x = h.request x := by
  simp [request, Heap.resize, hne]

/-- A request that is not queued does not show. -/
theorem queues_resize (hrq : rq ∉ lower ++ upper) :
    (h.resize rq pos sectors).queues lower upper = h.queues lower upper := by
  have hmap : ∀ queue : List ι, rq ∉ queue →
      queue.map (h.resize rq pos sectors).request = queue.map h.request := by
    intro queue hqueue
    refine List.map_congr_left fun x hx => resize_request_of_ne ?_
    exact ne_of_mem_of_not_mem hx hqueue
  rw [List.mem_append, not_or] at hrq
  simp only [queues, hmap lower hrq.1, hmap upper hrq.2]
  rfl

/-- A queued one shows as extended. -/
theorem map_resize_request (next : Request ι) (queue : List ι) :
    queue.map (h.resize rq (h.blkRqPos rq) (h.blkRqSectors rq + next.sectors)).request =
      extendOver (h.request rq) next (queue.map h.request) := by
  unfold extendOver
  rw [List.map_map]
  refine List.map_congr_left fun x _ => ?_
  by_cases hx : x = rq
  · subst hx
    rw [resize_request_self, Function.comp_apply, if_pos rfl]
    rfl
  · have hne : h.request x ≠ h.request rq := fun heq => hx (h.request_injective heq)
    rw [resize_request_of_ne hx, Function.comp_apply, if_neg hne]

theorem queues_extend (next : Request ι) :
    (h.resize rq (h.blkRqPos rq) (h.blkRqSectors rq + next.sectors)).queues lower upper =
      { h.queues lower upper with
        lowerQueue := extendOver (h.request rq) next (h.queues lower upper).lowerQueue
        upperQueue := extendOver (h.request rq) next (h.queues lower upper).upperQueue } := by
  simp only [queues, map_resize_request]
  rfl

end Heap

/-! ### Simulation -/

namespace Elevator

variable {e s t t' : Elevator ι} {gd gd' : GreedyData ι} {a : GreedyAct ι}

/-- The two rings show a state of the list model. -/
def Shows (gd : GreedyData ι) (e : Elevator ι) : Prop :=
  ∃ lower upper, e.Conserves lower upper ∧ e.heap.queues lower upper = gd

/-- **Simulation.** The calls an action stands for show the action. -/
theorem Shows.step (h : Shows gd e) (hstep : gd.Step a gd') :
    ∃ e', Path Step e a.calls e' ∧ Shows gd' e' := by
  obtain ⟨lower, upper, hcons, rfl⟩ := h
  obtain ⟨hallowed, rfl⟩ := hstep
  have hmem : ∀ queue : List ι, ∀ x ∈ queue.map e.heap.request,
      x.id ∈ queue ∧ e.heap.request x.id = x := by
    intro queue x hx
    obtain ⟨rq, hrq, rfl⟩ := List.mem_map.mp hx
    exact ⟨hrq, rfl⟩
  cases a with
  | add rq =>
    have hrq : rq.id ∉ lower ++ upper := by
      intro hqueued
      refine hallowed (e.heap.request rq.id) ?_ rfl
      rw [GreedyData.pending, Heap.queues, ← List.map_append]
      exact List.mem_map_of_mem hqueued
    have hresized := hcons.resize rq.id rq.sector rq.sectors
    obtain ⟨t, lower', upper', hadded, ht, hqueues⟩ :=
      hresized.add (fun hqueued => hrq (hresized.mem_queued.mp hqueued))
    refine ⟨t, .cons ⟨trivial, rfl⟩ (.cons hadded (.nil t)), lower', upper', ht, ?_⟩
    dsimp only at hqueues
    rw [hqueues, Heap.queues_resize hrq, Heap.resize_request_self]
    rfl
  | merge rq next =>
    have hboth : (rq.id ∈ lower ++ upper ∧ e.heap.request rq.id = rq) ∧
        next.id ∈ lower ++ upper ∧ e.heap.request next.id = next := by
      rcases hallowed.2 with ⟨hrq, hnext⟩ | ⟨hrq, hnext⟩
      · obtain ⟨hrq, heq⟩ := hmem lower rq hrq
        obtain ⟨hnext, heq'⟩ := hmem lower next hnext
        exact ⟨⟨List.mem_append_left _ hrq, heq⟩, List.mem_append_left _ hnext, heq'⟩
      · obtain ⟨hrq, heq⟩ := hmem upper rq hrq
        obtain ⟨hnext, heq'⟩ := hmem upper next hnext
        exact ⟨⟨List.mem_append_right _ hrq, heq⟩, List.mem_append_right _ hnext, heq'⟩
    obtain ⟨⟨-, hrq⟩, hnext, hnext'⟩ := hboth
    have hqueued := hcons.mem_queued.mpr hnext
    obtain ⟨hmerged, hqueues⟩ := hcons.merge hqueued
    refine ⟨_, .cons ⟨hqueued, rfl⟩ (.cons ⟨trivial, rfl⟩ (.nil _)), _, _,
      hmerged.resize rq.id rq.sector (rq.sectors + next.sectors), ?_⟩
    have hpos : rq.sector = (e.heap.greedyMergedRequests next.id).blkRqPos rq.id :=
      congrArg Request.sector hrq.symm
    have hsectors : rq.sectors = (e.heap.greedyMergedRequests next.id).blkRqSectors rq.id :=
      congrArg Request.sectors hrq.symm
    have hrequest : (e.heap.greedyMergedRequests next.id).request rq.id = rq := hrq
    dsimp only
    rw [hsectors, hpos, Heap.queues_extend, hrequest, hqueues, hnext']
    rfl
  | dispatch =>
    obtain ⟨t, lower', upper', hstep, ht, hqueues⟩ := hcons.dispatch
    exact ⟨t, .cons hstep (.nil t), lower', upper', ht, hqueues⟩

/-- A fresh scheduler shows the initial state. -/
theorem shows_initial {h₀ heap : Heap ι} (hinit : h₀.greedyInitQueue true true = .ok heap) :
    Shows .greedyInitQueue (initial heap) :=
  ⟨[], [], conserves_initial hinit, (Heap.holds_init hinit).2⟩

end Elevator

/-- **Every run on lists is a run in memory.** The calls that its actions stand for can be
made, and however they are made the two rings show the state it ends in. -/
theorem shows_of_path {h₀ heap : Heap ι} {gd : GreedyData ι} {as : List (GreedyAct ι)}
    (hinit : h₀.greedyInitQueue true true = .ok heap)
    (hrun : Path GreedyData.Step .greedyInitQueue as gd) :
    (∃ e, Path Elevator.Step (.initial heap) (as.flatMap GreedyAct.calls) e) ∧
      ∀ e, Path Elevator.Step (.initial heap) (as.flatMap GreedyAct.calls) e →
        Elevator.Shows gd e := by
  have hsim : ∀ gd (a : GreedyAct ι) gd' e, Elevator.Shows gd e → gd.Step a gd' →
      ∃ e', Path Elevator.Step e a.calls e' ∧ Elevator.Shows gd' e' :=
    fun _ _ _ _ hshows hstep => hshows.step hstep
  obtain ⟨e, hmemory, hshows⟩ := hrun.expand hsim (Elevator.shows_initial hinit)
  refine ⟨⟨e, hmemory⟩, ?_⟩
  intro e' hmemory'
  have hdet : ∀ (s : Elevator ι) a t t', s.Step a t → s.Step a t' → t = t' :=
    fun _ _ _ _ h h' => h.unique h'
  rwa [hmemory'.unique hdet hmemory]

end OsProjects.Scheduler
