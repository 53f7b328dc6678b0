import Mathlib.Algebra.Order.Ring.Nat
import OsProjects.Lib.Drain
import OsProjects.Scheduler.Reference

/-!
# The total seek of a drain

Shortest seek first can take the head back and forth over sectors that it has already
served. The distance of a dispatch is at most that of the request it declined on the
side it came from, and that one starts where its queue says, wherever the head has been
since. So a drain pays for the hops of both queues, for its first seek, and once for
changing over when one of the queues runs out.

## Main definitions

* `GreedyData.serve` — a dispatch and its seek distance
* `GreedyData.lowest`, `GreedyData.highest`, `GreedyData.span` — the sectors to cover
* `descents`, `ascents` — the hops along the lower and along the upper queue
* `GreedyData.charge` — what is left to pay

## Main results

* `GreedyData.Split.serve_pays` — a dispatch pays for its distance
* `drained_seek_within` — a drain seeks over at most four times the span
-/

namespace OsProjects.Scheduler

open Run

variable {ι : Type*}

/-! ### Draining the scheduler -/

namespace GreedyData

/-- `greedy_dispatch`, with the seek distance in place of the request. -/
def serve (gd : GreedyData ι) : Option (ℕ × GreedyData ι) :=
  gd.greedyDispatch.map fun r => (seek gd.diskHead r.1, r.2)

/-- The lowest sector among the head and the starts of the pending requests. -/
def lowest (gd : GreedyData ι) : ℕ :=
  gd.pending.foldr (fun x => min x.sector) gd.diskHead

/-- The highest sector among the head and the ends of the pending requests. -/
def highest (gd : GreedyData ι) : ℕ :=
  gd.pending.foldr (fun x => max x.stop) gd.diskHead

def span (gd : GreedyData ι) : ℕ := gd.highest - gd.lowest

end GreedyData

section Bounds

variable {queue : List (Request ι)} {head : ℕ}

theorem foldr_min_le : queue.foldr (fun x => min x.sector) head ≤ head ∧
    ∀ x ∈ queue, queue.foldr (fun x => min x.sector) head ≤ x.sector := by
  induction queue with
  | nil => exact ⟨le_rfl, nofun⟩
  | cons y queue ih =>
    rw [List.foldr_cons]
    refine ⟨(min_le_right _ _).trans ih.1, ?_⟩
    intro x hx
    rcases List.mem_cons.mp hx with rfl | hx
    · exact min_le_left _ _
    · exact (min_le_right _ _).trans (ih.2 x hx)

theorem le_foldr_max : head ≤ queue.foldr (fun x => max x.stop) head ∧
    ∀ x ∈ queue, x.stop ≤ queue.foldr (fun x => max x.stop) head := by
  induction queue with
  | nil => exact ⟨le_rfl, nofun⟩
  | cons y queue ih =>
    rw [List.foldr_cons]
    refine ⟨ih.1.trans (le_max_right _ _), ?_⟩
    intro x hx
    rcases List.mem_cons.mp hx with rfl | hx
    · exact le_max_left _ _
    · exact (ih.2 x hx).trans (le_max_right _ _)

end Bounds

/-! ### Hops -/

/-- The hops down a queue, each from the end of a request to the start of the one
before it. -/
def descents : List (Request ι) → ℕ
  | x :: y :: queue => (y.stop - x.sector) + descents (y :: queue)
  | _ => 0

/-- The hops up a queue, each from the end of a request to the start of the one
behind it. -/
def ascents : List (Request ι) → ℕ
  | x :: y :: queue => (y.sector - x.stop) + ascents (y :: queue)
  | _ => 0

section Hops

variable {queue : List (Request ι)} {x y : Request ι} {top : ℕ}

theorem descents_concat :
    descents (queue ++ [x, y]) = descents (queue ++ [x]) + (y.stop - x.sector) := by
  induction queue with
  | nil => simp [descents]
  | cons z queue ih =>
    cases queue with
    | nil => simp [descents]
    | cons w queue =>
      simp only [List.cons_append, descents] at ih ⊢
      omega

/-- Going down a queue of disjoint requests crosses each of its sectors twice at most. -/
theorem descents_le (hapart : (x :: queue).Pairwise fun x y => x.stop ≤ y.sector)
    (htop : ∀ z ∈ x :: queue, z.stop ≤ top) :
    descents (x :: queue) + x.sectors ≤ 2 * (top - x.sector) := by
  induction queue generalizing x with
  | nil =>
    have hx := htop x List.mem_cons_self
    unfold Request.stop at hx
    simp only [descents]
    omega
  | cons y queue ih =>
    rw [List.pairwise_cons] at hapart
    have hrest := ih hapart.2 fun z hz => htop z (List.mem_cons_of_mem x hz)
    have hxy := hapart.1 y List.mem_cons_self
    have hy := htop y (List.mem_cons_of_mem x List.mem_cons_self)
    unfold Request.stop at hxy hy
    simp only [descents, Request.stop] at hrest ⊢
    omega

/-- Going up it skips the requests themselves. -/
theorem ascents_le (hapart : (x :: queue).Pairwise fun x y => x.stop ≤ y.sector)
    (htop : ∀ z ∈ x :: queue, z.stop ≤ top) : ascents (x :: queue) ≤ top - x.sector := by
  induction queue generalizing x with
  | nil => exact Nat.zero_le _
  | cons y queue ih =>
    rw [List.pairwise_cons] at hapart
    have hrest := ih hapart.2 fun z hz => htop z (List.mem_cons_of_mem x hz)
    have hxy := hapart.1 y List.mem_cons_self
    have hy := htop y (List.mem_cons_of_mem x List.mem_cons_self)
    have hstop := y.sector_le_stop
    have hxstop := x.sector_le_stop
    rw [ascents]
    omega

end Hops

/-! ### The charge -/

namespace GreedyData

variable {gd gd' : GreedyData ι} {x : Request ι} {d room : ℕ}

/-- The distance of the next dispatch. -/
def nextSeek (gd : GreedyData ι) : ℕ := (gd.serve.map Prod.fst).getD 0

/-- What is left to pay: the next seek, the hops of both queues, and room for the one
change to the other queue that is left while neither is empty. -/
def charge (room : ℕ) (gd : GreedyData ι) : ℕ :=
  gd.nextSeek + descents gd.lowerQueue + ascents gd.upperQueue +
    if gd.lowerQueue = [] ∨ gd.upperQueue = [] then 0 else room

/-- The queues lie one after another. -/
theorem Split.ascending (h : gd.Split) :
    gd.pending.Pairwise fun x y => x.stop ≤ y.sector := by
  have hsorted : gd.pending.Pairwise fun x y => x.sector ≤ y.sector := by
    refine List.pairwise_append.mpr ⟨h.lower, h.upper, ?_⟩
    intro x hx y hy
    have hbelow := h.below x hx
    have hahead := h.ahead y hy
    omega
  apply (hsorted.and h.apart).imp_of_mem
  intro x y hx hy hxy
  exact h.stop_le hx hy (hxy.2.ne (h.sound x hx).1) hxy.1

theorem Split.serve (h : gd.Split) (hserve : gd.serve = some (d, gd')) : gd'.Split := by
  obtain ⟨⟨rq, gd''⟩, hd, heq⟩ := Option.map_eq_some_iff.mp hserve
  cases heq
  exact h.dispatch hd

/-- No pending request is nearer than the next to be served. -/
theorem Split.nextSeek_le (h : gd.Split) (hx : x ∈ gd.pending) :
    gd.nextSeek ≤ seek gd.diskHead x := by
  unfold nextSeek GreedyData.serve
  cases hd : gd.greedyDispatch with
  | none => exact Nat.zero_le _
  | some r =>
    by_cases hne : x = r.1
    · rw [hne]
      exact le_rfl
    · have hlt := h.urgency_lt hd hx hne
      unfold urgency at hlt
      rw [Prod.Lex.toLex_lt_toLex] at hlt
      simp only [Option.map_some, Option.getD_some]
      omega

/-- The pending requests lie within `room` sectors. -/
def Within (room : ℕ) (gd : GreedyData ι) : Prop :=
  ∀ x ∈ gd.pending, ∀ y ∈ gd.pending, x.stop ≤ y.sector + room

theorem Within.serve (h : gd.Within room) (hserve : gd.serve = some (d, gd')) :
    gd'.Within room := by
  obtain ⟨⟨rq, gd''⟩, hd, heq⟩ := Option.map_eq_some_iff.mp hserve
  cases heq
  have hperm := dispatch_pending_perm hd
  intro x hx y hy
  exact h x (hperm.mem_iff.mpr (List.mem_cons_of_mem rq hx)) y
    (hperm.mem_iff.mpr (List.mem_cons_of_mem rq hy))

theorem nextSeek_of_pending_nil (h : gd.pending = []) : gd.nextSeek = 0 := by
  simp [nextSeek, GreedyData.serve, dispatch_eq_none_iff.mpr h]

/-- After the last lower request is served the next seek is at most the hop to the one
below it; if there is none, what is left of the upper queue is within the room. -/
theorem charge_lower {lower : List (Request ι)} {rq : Request ι} (hroom : gd.Within room)
    (hlower : gd.lowerQueue = lower ++ [rq])
    (hgd' : gd' = { gd with lowerQueue := lower, diskHead := rq.stop }) (h' : gd'.Split) :
    gd'.charge room + gd.nextSeek ≤ gd.charge room := by
  subst hgd'
  have hrq : rq ∈ gd.pending := by simp [pending, hlower]
  unfold charge
  rcases List.eq_nil_or_concat' lower with rfl | ⟨lower, y, rfl⟩
  · -- the last of the lower queue was served: what is left is the hop to the upper one
    simp only [hlower, List.nil_append, descents, true_or, if_true]
    cases hup : gd.upperQueue with
    | nil =>
      rw [nextSeek_of_pending_nil (by simp [pending])]
      simp [ascents]
    | cons u upper =>
      have hu : u ∈ gd.pending := by simp [pending, hup]
      have hnext := h'.nextSeek_le (x := u) (by simp [pending, hup])
      have hwithin := hroom u hu rq hrq
      have hahead := h'.ahead u (by simp [hup])
      have hstop := rq.sector_le_stop
      have hustop := u.sector_le_stop
      dsimp only at hnext hahead
      rw [seek_of_ge hahead] at hnext
      rw [if_neg (by simp)]
      simp only [hup] at hnext
      omega
  · have hnext := h'.nextSeek_le (x := y) (by simp [pending])
    have hbelow := h'.below y (by simp)
    dsimp only at hnext hbelow
    rw [seek_of_le hbelow.le] at hnext
    rw [hlower, List.append_assoc, List.singleton_append, descents_concat]
    simp only [List.append_eq_nil_iff, List.cons_ne_nil, and_false, false_or]
    omega

/-- After the first upper request is served the next seek is at most the hop to the one
behind it; if there is none, what is left of the lower queue is within the room. -/
theorem charge_upper {upper : List (Request ι)} {rq : Request ι} (hroom : gd.Within room)
    (hupper : gd.upperQueue = rq :: upper)
    (hgd' : gd' = { gd with upperQueue := upper, diskHead := rq.stop }) (h' : gd'.Split) :
    gd'.charge room + gd.nextSeek ≤ gd.charge room := by
  subst hgd'
  have hrq : rq ∈ gd.pending := by simp [pending, hupper]
  unfold charge
  cases upper with
  | nil =>
    simp only [hupper, ascents, or_true, if_true]
    rcases List.eq_nil_or_concat' gd.lowerQueue with hlow | ⟨lower, l, hlow⟩
    · rw [nextSeek_of_pending_nil (by simp [pending, hlow])]
      simp [hlow, descents]
    · have hl : l ∈ gd.pending := by simp [pending, hlow]
      have hnext := h'.nextSeek_le (x := l) (by simp [pending, hlow])
      have hwithin := hroom rq hrq l hl
      have hbelow := h'.below l (by simp [hlow])
      dsimp only at hnext hbelow
      rw [seek_of_le hbelow.le] at hnext
      rw [if_neg (by simp [hlow])]
      omega
  | cons y upper =>
    have hnext := h'.nextSeek_le (x := y) (by simp [pending])
    have hahead := h'.ahead y (by simp)
    dsimp only at hnext hahead
    rw [seek_of_ge hahead] at hnext
    simp only [hupper, ascents, List.cons_ne_nil, or_false]
    omega

/-- **A dispatch pays for its distance.** -/
theorem Split.serve_pays (h : gd.Split) (hroom : gd.Within room)
    (hserve : gd.serve = some (d, gd')) : d + gd'.charge room ≤ gd.charge room := by
  have h' := h.serve hserve
  have hnext : gd.nextSeek = d := by simp [nextSeek, hserve]
  obtain ⟨⟨rq, gd''⟩, hd, heq⟩ := Option.map_eq_some_iff.mp hserve
  cases heq
  rw [add_comm, ← hnext]
  have hend : rq.endSector = rq.stop :=
    h.endSector ((dispatch_pending_perm hd).mem_iff.mpr List.mem_cons_self)
  rcases dispatch_cases hd with ⟨lower, hlower, hgd', -⟩ | ⟨upper, hupper, hgd', -⟩
  · rw [hend] at hgd'
    exact charge_lower hroom hlower hgd' h'
  · rw [hend] at hgd'
    exact charge_upper hroom hupper hgd' h'

/-! ### The bound -/

theorem lowest_le (hx : x ∈ gd.pending) : gd.lowest ≤ x.sector := foldr_min_le.2 x hx

theorem le_highest (hx : x ∈ gd.pending) : x.stop ≤ gd.highest := le_foldr_max.2 x hx

theorem within_span (gd : GreedyData ι) : gd.Within gd.span := by
  intro x hx y hy
  have hlow := lowest_le hy
  have hhigh := le_highest hx
  rw [span]
  omega

theorem seek_le_span (hx : x ∈ gd.pending) : seek gd.diskHead x ≤ gd.span := by
  have hlow : gd.lowest ≤ gd.diskHead := foldr_min_le.1
  have hhigh : gd.diskHead ≤ gd.highest := le_foldr_max.1
  have hx' := lowest_le hx
  have hx'' := x.sector_le_stop.trans (le_highest hx)
  rw [span]
  rcases Nat.le_total x.sector gd.diskHead with hbelow | hahead
  · rw [seek_of_le hbelow]
    exact tsub_le_tsub hhigh hx'
  · rw [seek_of_ge hahead]
    exact tsub_le_tsub hx'' hlow

theorem Split.nextSeek_le_span (h : gd.Split) : gd.nextSeek ≤ gd.span := by
  cases hpending : gd.pending with
  | nil =>
    rw [nextSeek_of_pending_nil hpending]
    exact Nat.zero_le _
  | cons x queue =>
    have hx : x ∈ gd.pending := by simp [hpending]
    exact (h.nextSeek_le hx).trans (seek_le_span hx)

/-- The hops down the lower queue stay below any bound of its ends. -/
theorem Split.descents_le (h : gd.Split) {top : ℕ} (htop : ∀ z ∈ gd.lowerQueue, z.stop ≤ top) :
    descents gd.lowerQueue ≤ 2 * (top - gd.lowest) := by
  have hasc := (List.pairwise_append.mp h.ascending).1
  have hlow : ∀ z ∈ gd.lowerQueue, gd.lowest ≤ z.sector := fun z hz =>
    lowest_le (List.mem_append_left _ hz)
  cases hlower : gd.lowerQueue with
  | nil => exact Nat.zero_le _
  | cons x lower =>
    rw [hlower] at hasc htop hlow
    have hx := hlow x List.mem_cons_self
    have hhops := Scheduler.descents_le hasc htop
    omega

/-- What is crossed twice below the upper queue is not crossed above it, so the charge
is within four spans. -/
theorem Split.charge_le (h : gd.Split) : gd.charge gd.span ≤ 4 * gd.span := by
  have hnext := h.nextSeek_le_span
  obtain ⟨-, hupper, hapart⟩ := List.pairwise_append.mp h.ascending
  unfold charge
  cases hup : gd.upperQueue with
  | nil =>
    have hdown := h.descents_le fun z hz => le_highest (List.mem_append_left _ hz)
    simp only [or_true, if_true, ascents]
    unfold span at *
    omega
  | cons u upper =>
    rw [hup] at hupper
    have hu : u ∈ gd.pending := by simp [pending, hup]
    have hlow := lowest_le hu
    have hhigh := u.sector_le_stop.trans (le_highest hu)
    have hdown := h.descents_le fun z hz => hapart z hz u (by simp [hup])
    have htop : ∀ z ∈ u :: upper, z.stop ≤ gd.highest := fun z hz =>
      le_highest (List.mem_append_right _ (hup ▸ hz))
    have hupward := ascents_le hupper htop
    have hroom : (if gd.lowerQueue = [] ∨ u :: upper = [] then 0 else gd.span) ≤ gd.span := by
      split
      · exact Nat.zero_le _
      · exact le_rfl
    unfold span at *
    omega

theorem exists_drains_serve (s : GreedyData ι) : ∃ distances t, Drains serve s distances t := by
  have hshrink : ∀ n (gd : GreedyData ι) d gd', gd.pending.length = n →
      gd.serve = some (d, gd') → ∃ m < n, gd'.pending.length = m := by
    intro n gd d gd' hn hserve
    obtain ⟨⟨rq, gd''⟩, hd, heq⟩ := Option.map_eq_some_iff.mp hserve
    cases heq
    have hlen := (dispatch_pending_perm hd).length_eq
    rw [List.length_cons] at hlen
    exact ⟨gd''.pending.length, by omega, rfl⟩
  exact exists_drains hshrink rfl

/-- The distances of a drain are within four spans. -/
theorem Split.drain_seek_le {s t : GreedyData ι} {distances : List ℕ} (h : s.Split)
    (hdrain : Drains GreedyData.serve s distances t) : distances.sum ≤ 4 * s.span := by
  have hpaid := hdrain.cost_add_le (fun gd => gd.Split ∧ gd.Within s.span) id (charge s.span)
    (fun _ _ _ hs hserve => ⟨hs.1.serve hserve, hs.2.serve hserve⟩)
    (fun _ _ _ hs hserve => hs.1.serve_pays hs.2 hserve) ⟨h, within_span s⟩
  have hbound := h.charge_le
  rw [List.map_id] at hpaid
  omega

end GreedyData

/-- **The seek of a drain is bounded.** From every state reached by arrivals that cover
sectors of their own, by dispatches and by merges of neighbours, dispatching until
nothing is left takes the head over at most four times the span of the head and the
pending requests. -/
theorem drained_seek_within [DecidableEq ι] (as : List (GreedyAct ι)) (s : GreedyData ι)
    (h : Along GreedyData.Step (fun s a _ => Disjointly s a) .greedyInitQueue as s) :
    ∃ distances t, Drains GreedyData.serve s distances t ∧ distances.sum ≤ 4 * s.span := by
  have hsplit := h.invariant GreedyData.Split (fun _ _ _ hs hstep hP => hs.step hstep hP)
    GreedyData.split_init
  obtain ⟨distances, t, hdrain⟩ := s.exists_drains_serve
  exact ⟨distances, t, hdrain, hsplit.drain_seek_le hdrain⟩

/-- The head at 101 between two requests below and one above. -/
def zigzag : GreedyData ℕ := ⟨[⟨3, 94, 1⟩, ⟨1, 99, 1⟩], [⟨2, 104, 1⟩], 101⟩

theorem zigzag_seek_within :
    ∃ distances t, Drains GreedyData.serve zigzag distances t ∧
      distances.sum ≤ 4 * zigzag.span :=
  drained_seek_within [.add ⟨0, 100, 1⟩, .dispatch, .add ⟨1, 99, 1⟩, .add ⟨2, 104, 1⟩,
      .add ⟨3, 94, 1⟩] zigzag <|
    .cons ⟨by decide, rfl⟩ (by decide) <| .cons ⟨trivial, rfl⟩ trivial <|
    .cons ⟨by decide, rfl⟩ (by decide) <| .cons ⟨by decide, rfl⟩ (by decide) <|
    .cons ⟨by decide, rfl⟩ (by decide) <| .nil _

example : Drains GreedyData.serve zigzag [2, 4, 11] ⟨[], [], 95⟩ :=
  .more rfl <| .more rfl <| .more rfl <| .done rfl

end OsProjects.Scheduler
