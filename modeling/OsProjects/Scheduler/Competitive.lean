import OsProjects.Scheduler.SeekBound

/-!
# A drain against any other order

Shortest seek first does not look ahead, so another order of the same requests may move
the head less. By how much depends on what is counted. The head passes over every sector
it transfers, and whatever the order it has to cover the span of the requests; so with
the transfers counted a drain moves the head at most five times as far as the best order
does. The seeks alone have no such bound: a long request next to the head leaves it far
from a short one on the other side, which could have been served first.

## Main definitions

* `travel` — how far the head moves to serve requests in a given order
* `totalSeek` — how far of that without transferring

## Main results

* `span_le_travel` — every order covers the span
* `drain_competitive` — a drain is within five times of every order
* `seek_not_competitive` — its seeks are within no given factor of every order's
-/

namespace OsProjects.Scheduler

open Run

variable {ι : Type*}

/-! ### What an order costs -/

/-- How far the head moves to serve these requests in this order. -/
def travel : ℕ → List (Request ι) → ℕ
  | _, [] => 0
  | head, rq :: order => seek head rq + rq.sectors + travel rq.stop order

/-- How far of that it moves without transferring. -/
def totalSeek : ℕ → List (Request ι) → ℕ
  | _, [] => 0
  | head, rq :: order => seek head rq + totalSeek rq.stop order

/-- The head begins at this sector, or a request of the order begins or ends there. -/
def Visits (head : ℕ) (order : List (Request ι)) (sector : ℕ) : Prop :=
  sector = head ∨ ∃ x ∈ order, sector = x.sector ∨ sector = x.stop

section Travel

variable {rq : Request ι} {order order' : List (Request ι)} {head sector sector' : ℕ}

theorem travel_eq (head : ℕ) (order : List (Request ι)) :
    travel head order = totalSeek head order + (order.map Request.sectors).sum := by
  induction order generalizing head with
  | nil => rfl
  | cons rq order ih =>
    rw [travel, totalSeek, ih, List.map_cons, List.sum_cons]
    omega

theorem Visits.cons (h : Visits head (rq :: order) sector) :
    sector = head ∨ sector = rq.sector ∨ Visits rq.stop order sector := by
  rcases h with rfl | ⟨x, hx, hsector⟩
  · exact .inl (Eq.refl _)
  · rcases List.mem_cons.mp hx with rfl | hx
    · rcases hsector with hsector | hsector
      · exact .inr (.inl hsector)
      · exact .inr (.inr (.inl hsector))
    · exact .inr (.inr (.inr ⟨x, hx, hsector⟩))

/-- What is visited does not depend on the order. -/
theorem Visits.perm (h : Visits head order sector) (hperm : order.Perm order') :
    Visits head order' sector :=
  h.imp_right fun ⟨x, hx, hsector⟩ => ⟨x, hperm.mem_iff.mp hx, hsector⟩

/-- The head does not get farther than it moves. -/
theorem Visits.le_travel (h : Visits head order sector) :
    sector ≤ head + travel head order ∧ head ≤ sector + travel head order := by
  induction order generalizing head with
  | nil =>
    rcases h with rfl | ⟨x, hx, -⟩
    · exact ⟨Nat.le_add_right _ _, Nat.le_add_right _ _⟩
    · cases hx
  | cons rq order ih =>
    rw [travel, seek]
    rcases h.cons with rfl | rfl | h
    · omega
    · omega
    · have hstop : rq.stop = rq.sector + rq.sectors := rfl
      have hrest := ih h
      omega

/-- Two sectors that the head visits are no farther apart than it moves. -/
theorem Visits.sub_le_travel (h : Visits head order sector) (h' : Visits head order sector') :
    sector ≤ sector' + travel head order := by
  induction order generalizing head with
  | nil =>
    rcases h with rfl | ⟨x, hx, -⟩
    · exact h'.le_travel.2
    · cases hx
  | cons rq order ih =>
    have hstop : rq.stop = rq.sector + rq.sectors := rfl
    rcases h.cons with rfl | rfl | htail
    · exact h'.le_travel.2
    · rcases h'.cons with rfl | rfl | htail'
      · exact h.le_travel.1
      · exact Nat.le_add_right _ _
      · have hrest := htail'.le_travel.2
        rw [travel]
        omega
    · rcases h'.cons with rfl | rfl | htail'
      · exact h.le_travel.1
      · have hrest := htail.le_travel.1
        rw [travel]
        omega
      · have hrest := ih htail htail'
        rw [travel]
        omega

end Travel

/-- A fold that chooses between values comes to the first of them or to one of a request. -/
theorem foldr_choice {choose : ℕ → ℕ → ℕ} (hchoose : ∀ a b, choose a b = a ∨ choose a b = b)
    (value : Request ι → ℕ) (queue : List (Request ι)) (head : ℕ) :
    queue.foldr (fun x => choose (value x)) head = head ∨
      ∃ x ∈ queue, queue.foldr (fun x => choose (value x)) head = value x := by
  induction queue with
  | nil => exact .inl rfl
  | cons y queue ih =>
    rw [List.foldr_cons]
    rcases hchoose (value y) (queue.foldr (fun x => choose (value x)) head) with heq | heq
    · exact .inr ⟨y, List.mem_cons_self, heq⟩
    · rw [heq]
      exact ih.imp_right fun ⟨x, hx, hvalue⟩ => ⟨x, List.mem_cons_of_mem y hx, hvalue⟩

/-! ### The drain -/

namespace GreedyData

variable {gd s t : GreedyData ι} {order served : List (Request ι)}

theorem visits_lowest (gd : GreedyData ι) : Visits gd.diskHead gd.pending gd.lowest :=
  (foldr_choice min_choice Request.sector gd.pending gd.diskHead).imp_right
    fun ⟨x, hx, hsector⟩ => ⟨x, hx, .inl hsector⟩

theorem visits_highest (gd : GreedyData ι) : Visits gd.diskHead gd.pending gd.highest :=
  (foldr_choice max_choice Request.stop gd.pending gd.diskHead).imp_right
    fun ⟨x, hx, hstop⟩ => ⟨x, hx, .inr hstop⟩

/-- **Every order covers the span.** -/
theorem span_le_travel (h : order.Perm gd.pending) : gd.span ≤ travel gd.diskHead order := by
  have hhigh := gd.visits_highest.perm h.symm
  have hlow := gd.visits_lowest.perm h.symm
  exact Nat.sub_le_iff_le_add'.mpr (hhigh.sub_le_travel hlow)

theorem exists_drains_dispatch (s : GreedyData ι) :
    ∃ served t, Drains greedyDispatch s served t := by
  have hshrink : ∀ n (gd : GreedyData ι) rq gd', gd.pending.length = n →
      gd.greedyDispatch = some (rq, gd') → ∃ m < n, gd'.pending.length = m := by
    intro n gd rq gd' hn hd
    have hlen := (dispatch_pending_perm hd).length_eq
    rw [List.length_cons] at hlen
    exact ⟨gd'.pending.length, by omega, rfl⟩
  exact exists_drains hshrink rfl

/-- A drain serves what was pending. -/
theorem drained_perm (h : Drains greedyDispatch s served t) : served.Perm s.pending := by
  induction h with
  | done hnone => rw [dispatch_eq_none_iff.mp hnone]
  | more hd _ ih => exact (ih.cons _).trans (dispatch_pending_perm hd).symm

/-- The head is left at the end of what was dispatched. -/
theorem Split.dispatch_diskHead {rq : Request ι} {gd' : GreedyData ι} (h : gd.Split)
    (hd : gd.greedyDispatch = some (rq, gd')) : gd'.diskHead = rq.stop := by
  rw [← h.endSector ((dispatch_pending_perm hd).mem_iff.mpr List.mem_cons_self)]
  rcases dispatch_cases hd with ⟨lower, -, rfl, -⟩ | ⟨upper, -, rfl, -⟩
  · rfl
  · rfl

/-- The distances of a drain are the seeks of its order. -/
theorem Split.drains_serve (h : s.Split) (hdrain : Drains greedyDispatch s served t) :
    ∃ distances, Drains GreedyData.serve s distances t ∧
      distances.sum = totalSeek s.diskHead served := by
  induction hdrain with
  | @done s hnone => exact ⟨[], .done (by rw [GreedyData.serve, hnone, Option.map_none]), rfl⟩
  | @more s m t rq served hd _ ih =>
    obtain ⟨distances, hserve, hsum⟩ := ih (h.dispatch hd)
    have hfirst : s.serve = some (seek s.diskHead rq, m) := by
      rw [GreedyData.serve, hd, Option.map_some]
    refine ⟨seek s.diskHead rq :: distances, .more hfirst hserve, ?_⟩
    rw [List.sum_cons, totalSeek, hsum, h.dispatch_diskHead hd]

end GreedyData

/-- **A drain is five-competitive.** From every state reached by arrivals that cover sectors
of their own, by dispatches and by merges of neighbours: dispatching until nothing is left
serves what was pending, and moves the head at most five times as far, seeking and
transferring, as serving the same requests in any other order. -/
theorem drain_competitive [DecidableEq ι] (as : List (GreedyAct ι)) (s : GreedyData ι)
    (h : Along GreedyData.Step (fun s a _ => Disjointly s a) .greedyInitQueue as s) :
    ∃ served t, Drains GreedyData.greedyDispatch s served t ∧ served.Perm s.pending ∧
      ∀ order, order.Perm s.pending →
        travel s.diskHead served ≤ 5 * travel s.diskHead order := by
  have hsplit := h.invariant GreedyData.Split (fun _ _ _ hs hstep hP => hs.step hstep hP)
    GreedyData.split_init
  obtain ⟨served, t, hdrain⟩ := s.exists_drains_dispatch
  have hserved := GreedyData.drained_perm hdrain
  refine ⟨served, t, hdrain, hserved, ?_⟩
  intro order horder
  obtain ⟨distances, hserve, hsum⟩ := hsplit.drains_serve hdrain
  have hseek := hsplit.drain_seek_le hserve
  have hspan := GreedyData.span_le_travel horder
  -- whatever the order, the same sectors are transferred
  have hsectors := ((hserved.trans horder.symm).map Request.sectors).sum_eq
  have htravel := travel_eq s.diskHead order
  rw [travel_eq, ← hsum, hsectors]
  omega

theorem drain_competitive_zigzag :
    ∃ served t, Drains GreedyData.greedyDispatch zigzag served t ∧
      served.Perm zigzag.pending ∧ ∀ order, order.Perm zigzag.pending →
        travel zigzag.diskHead served ≤ 5 * travel zigzag.diskHead order :=
  drain_competitive [.add ⟨0, 100, 1⟩, .dispatch, .add ⟨1, 99, 1⟩, .add ⟨2, 104, 1⟩,
      .add ⟨3, 94, 1⟩] zigzag <|
    .cons ⟨by decide, rfl⟩ (by decide) <| .cons ⟨trivial, rfl⟩ trivial <|
    .cons ⟨by decide, rfl⟩ (by decide) <| .cons ⟨by decide, rfl⟩ (by decide) <|
    .cons ⟨by decide, rfl⟩ (by decide) <| .nil _

/-! ### Seeks alone -/

/-- The head at 3 between a short request below and one of so many sectors above. -/
def lopsided (sectors : ℕ) : GreedyData ℕ := ⟨[⟨1, 1, 1⟩], [⟨2, 4, sectors⟩], 3⟩

section Lopsided

variable {sectors : ℕ}

theorem lopsided_reached (hpos : 1 ≤ sectors) (hfits : 4 + sectors < 2 ^ 64) :
    Along GreedyData.Step (fun s a _ => Disjointly s a) .greedyInitQueue
      [.add ⟨0, 2, 1⟩, .dispatch, .add ⟨1, 1, 1⟩, .add ⟨2, 4, sectors⟩] (lopsided sectors) := by
  have hpending : ∀ {P : Request ℕ → Prop}, P ⟨1, 1, 1⟩ →
      ∀ x ∈ (⟨[⟨1, 1, 1⟩], [], 3⟩ : GreedyData ℕ).pending, P x := by
    intro P hP x hx
    rw [List.mem_singleton.mp hx]
    exact hP
  have hallowed : (⟨[⟨1, 1, 1⟩], [], 3⟩ : GreedyData ℕ).Allowed (.add ⟨2, 4, sectors⟩) :=
    hpending (show (1 : ℕ) ≠ 2 by decide)
  have hdisjoint : Disjointly (⟨[⟨1, 1, 1⟩], [], 3⟩ : GreedyData ℕ) (.add ⟨2, 4, sectors⟩) :=
    ⟨hpos, hfits, hpending (.inr (show 2 ≤ 4 by decide))⟩
  exact .cons ⟨by decide, rfl⟩ (by decide) <| .cons ⟨trivial, rfl⟩ trivial <|
    .cons ⟨by decide, rfl⟩ (by decide) <| .cons ⟨hallowed, rfl⟩ hdisjoint <| .nil _

/-- It serves the long request first, and comes back for the short one from its end. -/
theorem lopsided_drains (hfits : 4 + sectors < 2 ^ 64) :
    Drains GreedyData.greedyDispatch (lopsided sectors) [⟨2, 4, sectors⟩, ⟨1, 1, 1⟩]
      ⟨[], [], 2⟩ := by
  have hend : (⟨2, 4, sectors⟩ : Request ℕ).endSector = 4 + sectors := add64_of_lt hfits
  have hupper : (lopsided sectors).greedyDispatch =
      some (⟨2, 4, sectors⟩, ⟨[⟨1, 1, 1⟩], [], 4 + sectors⟩) := by
    have hnearer : ¬sub64 3 1 < sub64 4 3 := by decide
    simp only [GreedyData.greedyDispatch, lopsided, List.getLast?_singleton, List.head?_cons,
      if_neg hnearer, hend, List.tail_cons]
  exact .more hupper <| .more rfl <| .done rfl

end Lopsided

/-- **The seeks of a drain have no such bound.** Whatever the factor, there is a run after which
a drain seeks more than that many times as far as another order of the same requests. -/
theorem seek_not_competitive (factor : ℕ) (h : factor < 2 ^ 61) :
    ∃ (as : List (GreedyAct ℕ)) (s t : GreedyData ℕ) (served order : List (Request ℕ)),
      Along GreedyData.Step (fun s a _ => Disjointly s a) .greedyInitQueue as s ∧
        Drains GreedyData.greedyDispatch s served t ∧ order.Perm s.pending ∧
          factor * totalSeek s.diskHead order < totalSeek s.diskHead served := by
  have hfits : 4 + (4 * factor + 1) < 2 ^ 64 := by omega
  refine ⟨_, _, _, _, [⟨1, 1, 1⟩, ⟨2, 4, 4 * factor + 1⟩],
    lopsided_reached (Nat.le_add_left _ _) hfits, lopsided_drains hfits, .refl _, ?_⟩
  have horder : totalSeek 3 [⟨1, 1, 1⟩, (⟨2, 4, 4 * factor + 1⟩ : Request ℕ)] = 4 := rfl
  have hserved : totalSeek 3 [(⟨2, 4, 4 * factor + 1⟩ : Request ℕ), ⟨1, 1, 1⟩] =
      4 * factor + 5 := by
    simp only [totalSeek, seek, Request.stop]
    omega
  rw [lopsided, horder, hserved]
  omega

theorem seek_not_competitive_thousand :
    ∃ (as : List (GreedyAct ℕ)) (s t : GreedyData ℕ) (served order : List (Request ℕ)),
      Along GreedyData.Step (fun s a _ => Disjointly s a) .greedyInitQueue as s ∧
        Drains GreedyData.greedyDispatch s served t ∧ order.Perm s.pending ∧
          1000 * totalSeek s.diskHead order < totalSeek s.diskHead served :=
  seek_not_competitive 1000 (by decide)

end OsProjects.Scheduler
