import OsProjects.Scheduler.Greedy

/-!
# Shortest seek first

A dispatch compares the last request of the lower queue with the first of the upper
queue, in unsigned arithmetic. Every lower request stays below the disk head, since the
head moves to the end of the request served. An upper request, however, can be left
below the head by one that is served and covers its start; its distance then wraps
around and it loses every comparison.

## Main definitions

* `GreedyData.Ordered` — both queues ascend and the lower one is below the head
* `seek` — the distance from the disk head to the start of a request
* `Nearest` — what is dispatched is nearest to the head
* `UpperAhead` — at a dispatch the upper queue does not begin below the head

## Main results

* `Ordered.step` — what every action keeps
* `serves_nearest` — along every run the nearest request is dispatched as long as the upper
  queue is ahead of the head at each dispatch; where it is not, an arrival at the head is
  passed over
-/

namespace OsProjects.Scheduler

open Run

variable {ι : Type*}

/-! ### The two queues -/

/-- Both queues are in order, the lower one is below the head, and no request or head
position is beyond the signed range. -/
structure GreedyData.Ordered (gd : GreedyData ι) : Prop where
  lower : Ascending gd.lowerQueue
  upper : Ascending gd.upperQueue
  below : ∀ x ∈ gd.lowerQueue, x.sector < gd.diskHead
  sound : ∀ x ∈ gd.pending, 1 ≤ x.sectors ∧ x.sector + x.sectors < 2 ^ 63
  head : gd.diskHead < 2 ^ 63

/-- Requests have a sector at least and end below `2 ^ 63`; merged requests are
contiguous. -/
def Sized (_ : GreedyData ι) : GreedyAct ι → Prop
  | .add rq => 1 ≤ rq.sectors ∧ rq.sector + rq.sectors < 2 ^ 63
  | .merge rq next => next.sector = rq.sector + rq.sectors
  | .dispatch => True

instance (gd : GreedyData ι) (a : GreedyAct ι) : Decidable (Sized gd a) :=
  match a with
  | .add _ => instDecidableAnd
  | .merge _ _ => instDecidableEqNat _ _
  | .dispatch => instDecidableTrue

namespace GreedyData

variable {s t gd gd' : GreedyData ι} {rq next : Request ι}

theorem ordered_init : (greedyInitQueue : GreedyData ι).Ordered where
  lower := List.Pairwise.nil
  upper := List.Pairwise.nil
  below := nofun
  sound := nofun
  head := Nat.two_pow_pos 63

theorem Ordered.endSector (h : gd.Ordered) (hrq : rq ∈ gd.pending) :
    rq.endSector = rq.sector + rq.sectors := by
  have hsound := (h.sound rq hrq).2
  exact add64_of_lt (by omega)

theorem Ordered.add (h : gd.Ordered) (hpos : 1 ≤ rq.sectors)
    (hend : rq.sector + rq.sectors < 2 ^ 63) : (gd.greedyAddRequest rq).Ordered := by
  have hsound : ∀ x, x = rq ∨ x ∈ gd.pending →
      1 ≤ x.sectors ∧ x.sector + x.sectors < 2 ^ 63 := by
    rintro x (rfl | hx)
    · exact ⟨hpos, hend⟩
    · exact h.sound x hx
  unfold greedyAddRequest
  split
  · refine ⟨h.lower.addSorted, h.upper, ?_, ?_, h.head⟩
    · intro x hx
      rcases mem_addSorted.mp hx with rfl | hx
      · assumption
      · exact h.below x hx
    · intro x hx
      apply hsound x
      simp only [pending, List.mem_append, mem_addSorted] at hx ⊢
      tauto
  · refine ⟨h.lower, h.upper.addSorted, h.below, ?_, h.head⟩
    intro x hx
    apply hsound x
    simp only [pending, List.mem_append, mem_addSorted] at hx ⊢
    tauto

theorem Ordered.merge [DecidableEq ι] (h : gd.Ordered)
    (hqueue : rq ∈ gd.lowerQueue ∧ next ∈ gd.lowerQueue ∨
      rq ∈ gd.upperQueue ∧ next ∈ gd.upperQueue)
    (hcontiguous : next.sector = rq.sector + rq.sectors) : (gd.merge rq next).Ordered := by
  have hmem : rq ∈ gd.pending ∧ next ∈ gd.pending := by
    simp only [pending, List.mem_append]
    tauto
  have hrq := h.sound rq hmem.1
  have hnext := h.sound next hmem.2
  refine ⟨h.lower.merge, h.upper.merge, ?_, ?_, h.head⟩
  · intro x hx
    rcases mem_extendOver hx with hx | ⟨hrq', rfl⟩
    · exact h.below x hx
    · exact h.below rq hrq'
  · intro x hx
    have hx' : x ∈ gd.pending ∨ x = rq.extend next := by
      rcases List.mem_append.mp hx with hx | hx
      · rcases mem_extendOver hx with hx | ⟨-, rfl⟩
        · exact .inl (List.mem_append_left _ hx)
        · exact .inr rfl
      · rcases mem_extendOver hx with hx | ⟨-, rfl⟩
        · exact .inl (List.mem_append_right _ hx)
        · exact .inr rfl
    rcases hx' with hx' | rfl
    · exact h.sound x hx'
    · simp only [Request.extend]
      omega

/-- When an upper request is taken and there are lower ones, it is not behind the
head: its distance would have wrapped around. -/
theorem Ordered.upper_ahead {l u : Request ι} (h : gd.Ordered) (hl : l ∈ gd.lowerQueue)
    (hle : sub64 u.sector gd.diskHead ≤ sub64 gd.diskHead l.sector) :
    gd.diskHead ≤ u.sector := by
  by_contra hlt
  have hbelow := h.below l hl
  have hhead := h.head
  rw [sub64_of_lt (by omega) (by omega), sub64_of_le hbelow.le (by omega)] at hle
  omega

/-- The head moves to the end of the request served, which is above all that stay in
the lower queue. -/
theorem Ordered.dispatch (h : gd.Ordered) (hd : gd.greedyDispatch = some (rq, gd')) :
    gd'.Ordered := by
  rcases dispatch_cases hd with ⟨lower, hlower, rfl, -⟩ | ⟨upper, hupper, rfl, hdist⟩
  · have hrq : rq ∈ gd.pending := by simp [pending, hlower]
    have hend := h.endSector hrq
    have hsound := h.sound rq hrq
    have hasc := h.lower
    rw [hlower, Ascending, List.pairwise_append] at hasc
    refine ⟨hasc.1, h.upper, ?_, ?_, ?_⟩
    · intro x hx
      have hle := hasc.2.2 x hx rq (List.mem_singleton.mpr rfl)
      simp only [hend]
      omega
    · intro x hx
      apply h.sound x
      simp only [pending, hlower, List.mem_append] at hx ⊢
      tauto
    · simp only [hend]
      exact hsound.2
  · have hrq : rq ∈ gd.pending := by simp [pending, hupper]
    have hend := h.endSector hrq
    have hsound := h.sound rq hrq
    have hasc := h.upper
    rw [hupper, Ascending, List.pairwise_cons] at hasc
    refine ⟨h.lower, hasc.2, ?_, ?_, ?_⟩
    · -- with lower requests the upper one is not behind the head, which so goes up
      intro x hx
      have hbelow := h.below x hx
      have hlast : gd.diskHead ≤ rq.sector := by
        rcases List.eq_nil_or_concat' gd.lowerQueue with hnil | ⟨lower, l, hl⟩
        · rw [hnil] at hx
          cases hx
        · exact h.upper_ahead (l := l) (by simp [hl]) (hdist l lower hl)
      simp only [hend]
      omega
    · intro x hx
      apply h.sound x
      simp only [pending, hupper, List.mem_append, List.mem_cons] at hx ⊢
      tauto
    · simp only [hend]
      exact hsound.2

/-- What every action keeps. -/
theorem Ordered.step [DecidableEq ι] {a : GreedyAct ι} (h : s.Ordered) (hstep : s.Step a t)
    (ha : Sized s a) : t.Ordered := by
  obtain ⟨hallowed, rfl⟩ := hstep
  cases a with
  | add rq => exact h.add ha.1 ha.2
  | merge rq next => exact h.merge hallowed.2 ha
  | dispatch =>
    cases hd : s.greedyDispatch with
    | none => simpa only [act, afterDispatch, hd] using h
    | some r => simpa only [act, afterDispatch, hd] using h.dispatch hd

end GreedyData

/-! ### The nearest request -/

/-- The distance from the disk head to the start of a request. -/
def seek (head : ℕ) (rq : Request ι) : ℕ := ((rq.sector : ℤ) - head).natAbs

section Seek

variable {head : ℕ} {rq : Request ι}

theorem seek_of_le (h : rq.sector ≤ head) : seek head rq = head - rq.sector := by
  unfold seek
  omega

theorem seek_of_ge (h : head ≤ rq.sector) : seek head rq = rq.sector - head := by
  unfold seek
  omega

end Seek

/-- If this step dispatches a request, no pending request is nearer to the head. -/
def Nearest (s : GreedyData ι) (a : GreedyAct ι) : Prop :=
  a = .dispatch → ∀ rq gd, s.greedyDispatch = some (rq, gd) →
    ∀ x ∈ s.pending, seek s.diskHead rq ≤ seek s.diskHead x

/-- At a dispatch the upper queue does not begin below the head. -/
def UpperAhead (s : GreedyData ι) (a : GreedyAct ι) : Prop :=
  a = .dispatch → ∀ u ∈ s.upperQueue.head?, s.diskHead ≤ u.sector

namespace GreedyData

variable {s t gd gd' : GreedyData ι} {rq : Request ι}

/-- The last lower request is the nearest of them. -/
theorem Ordered.seek_last_le {lower : List (Request ι)} (h : s.Ordered)
    (hlower : s.lowerQueue = lower ++ [rq]) :
    ∀ x ∈ s.lowerQueue, seek s.diskHead rq ≤ seek s.diskHead x := by
  intro x hx
  have hbelow := h.below rq (by simp [hlower])
  have hasc := h.lower
  rw [hlower] at hasc hx
  have hle := hasc.le_last hx
  rw [seek_of_le hbelow.le, seek_of_le (hle.trans hbelow.le)]
  exact Nat.sub_le_sub_left hle s.diskHead

/-- The upper queue begins with its least start. -/
theorem Ordered.head_le {u : Request ι} {upper : List (Request ι)} (h : s.Ordered)
    (hupper : s.upperQueue = u :: upper) : ∀ x ∈ s.upperQueue, u.sector ≤ x.sector := by
  intro x hx
  have hasc := h.upper
  rw [hupper] at hasc hx
  exact hasc.head_le hx

/-- Taking the last lower request is right when the upper queue is ahead: it has lost the
comparison rightly. -/
theorem Ordered.nearest_lower {lower : List (Request ι)} (h : s.Ordered)
    (hlower : s.lowerQueue = lower ++ [rq])
    (hahead : ∀ u ∈ s.upperQueue.head?, s.diskHead ≤ u.sector)
    (hdist : ∀ u upper, s.upperQueue = u :: upper →
      sub64 s.diskHead rq.sector < sub64 u.sector s.diskHead) :
    ∀ x ∈ s.pending, seek s.diskHead rq ≤ seek s.diskHead x := by
  intro x hx
  have hbelow := h.below rq (by simp [hlower])
  have hhead := h.head
  rcases List.mem_append.mp hx with hx | hx
  · exact h.seek_last_le hlower x hx
  · cases hup : s.upperQueue with
    | nil =>
      rw [hup] at hx
      cases hx
    | cons u upper =>
      have hu := hahead u (by simp [hup])
      have hux := h.head_le hup x hx
      have hsound := (h.sound u (by simp [pending, hup])).2
      have hlt := hdist u upper hup
      rw [sub64_of_le hbelow.le (by omega), sub64_of_le hu (by omega)] at hlt
      rw [seek_of_le hbelow.le, seek_of_ge (hu.trans hux)]
      omega

/-- Taking the first upper request is right when it is ahead of the head. -/
theorem Ordered.nearest_upper {upper : List (Request ι)} (h : s.Ordered)
    (hupper : s.upperQueue = rq :: upper) (hahead : s.diskHead ≤ rq.sector)
    (hdist : ∀ l lower, s.lowerQueue = lower ++ [l] →
      sub64 rq.sector s.diskHead ≤ sub64 s.diskHead l.sector) :
    ∀ x ∈ s.pending, seek s.diskHead rq ≤ seek s.diskHead x := by
  intro x hx
  have hhead := h.head
  have hsound := (h.sound rq (by simp [pending, hupper])).2
  rcases List.mem_append.mp hx with hx | hx
  · rcases List.eq_nil_or_concat' s.lowerQueue with hnil | ⟨lower, l, hlower⟩
    · rw [hnil] at hx
      cases hx
    · have hbelow := h.below l (by simp [hlower])
      have hle := hdist l lower hlower
      have hlx := h.seek_last_le hlower x hx
      rw [sub64_of_le hahead (by omega), sub64_of_le hbelow.le (by omega)] at hle
      have hrql : seek s.diskHead rq ≤ seek s.diskHead l := by
        rw [seek_of_ge hahead, seek_of_le hbelow.le]
        exact hle
      exact hrql.trans hlx
  · have hle := h.head_le hupper x hx
    rw [seek_of_ge hahead, seek_of_ge (hahead.trans hle)]
    exact Nat.sub_le_sub_right hle s.diskHead

/-- A dispatch takes a nearest request when the upper queue is ahead. -/
theorem Ordered.nearest {a : GreedyAct ι} (h : s.Ordered) (ha : UpperAhead s a) :
    Nearest s a := by
  intro hdispatch rq gd hd
  have hahead := ha hdispatch
  rcases dispatch_cases hd with ⟨lower, hlower, -, hdist⟩ | ⟨upper, hupper, -, hdist⟩
  · exact h.nearest_lower hlower hahead hdist
  · exact h.nearest_upper hupper (hahead rq (by simp [hupper])) hdist

/-- With the upper queue beginning below the head, both requests that a dispatch chooses
from start below it. -/
theorem Ordered.dispatch_below {u : Request ι} (h : s.Ordered) (hu : u ∈ s.upperQueue)
    (hlt : u.sector < s.diskHead) (hd : s.greedyDispatch = some (rq, gd)) :
    rq.sector < s.diskHead := by
  rcases dispatch_cases hd with ⟨lower, hlower, -, -⟩ | ⟨upper, hupper, -, -⟩
  · exact h.below rq (by simp [hlower])
  · exact (h.head_le hupper u hu).trans_lt hlt

/-- A request that arrives at the head is then passed over. -/
theorem Ordered.arrival_passed_over {u : Request ι} (h : s.Ordered) (hu : u ∈ s.upperQueue)
    (hlt : u.sector < s.diskHead) (hrq : rq.sector = s.diskHead) (hpos : 1 ≤ rq.sectors)
    (hend : rq.sector + rq.sectors < 2 ^ 63) :
    ¬Nearest (s.greedyAddRequest rq) .dispatch := by
  have hadd : s.greedyAddRequest rq = { s with upperQueue := addSorted rq s.upperQueue } := by
    simp [greedyAddRequest, hrq]
  have hordered := h.add hpos hend
  rw [hadd] at hordered ⊢
  intro hnearest
  cases hd : GreedyData.greedyDispatch { s with upperQueue := addSorted rq s.upperQueue } with
  | none =>
    have hnil := dispatch_eq_none_iff.mp hd
    have hmem : rq ∈ s.lowerQueue ++ addSorted rq s.upperQueue := by simp
    rw [show s.lowerQueue ++ addSorted rq s.upperQueue = [] from hnil] at hmem
    cases hmem
  | some r =>
    obtain ⟨served, gd⟩ := r
    have hbelow : served.sector < s.diskHead :=
      hordered.dispatch_below (mem_addSorted.mpr (.inr hu)) hlt hd
    have hle : seek s.diskHead served ≤ seek s.diskHead rq :=
      hnearest rfl served gd hd rq (by simp [pending])
    rw [seek_of_le hbelow.le, seek_of_le hrq.le, hrq] at hle
    omega

end GreedyData

/-! ### Every run -/

/-- **The nearest request is served while the upper queue is ahead.** Along every run from
the initial state, with requests of any start and length and with merges, every dispatch
takes a nearest request if at every dispatch the upper queue does not begin below the
head. Wherever a run leaves it beginning below the head, a new request that starts at the
head is not the one the next dispatch takes, though it is the nearest. -/
theorem serves_nearest [DecidableEq ι] (as : List (GreedyAct ι)) (t : GreedyData ι) :
    (Along GreedyData.Step (fun s a _ => Sized s a ∧ UpperAhead s a) .greedyInitQueue as t →
        Along GreedyData.Step (fun s a _ => Sized s a ∧ Nearest s a) .greedyInitQueue as t) ∧
      (Along GreedyData.Step (fun s a _ => Sized s a) .greedyInitQueue as t →
        ¬UpperAhead t .dispatch → ∀ rq : Request ι, (∀ x ∈ t.pending, x.id ≠ rq.id) →
          rq.sector = t.diskHead → 1 ≤ rq.sectors → rq.sector + rq.sectors < 2 ^ 63 →
            ∃ m, t.Step (.add rq) m ∧ ¬Nearest m .dispatch) := by
  constructor
  · intro h
    refine h.imp_of_invariant GreedyData.Ordered ?_ ?_ GreedyData.ordered_init
    · exact fun _ _ _ hs hstep hP => hs.step hstep hP.1
    · exact fun _ _ _ hs _ hP => ⟨hP.1, hs.nearest hP.2⟩
  · intro h hbehind rq hid hrq hpos hend
    have ht := h.invariant GreedyData.Ordered (fun _ _ _ hs hstep hP => hs.step hstep hP)
      GreedyData.ordered_init
    simp only [UpperAhead, true_implies, not_forall, not_le] at hbehind
    obtain ⟨u, hu, hlt⟩ := hbehind
    exact ⟨_, ⟨hid, rfl⟩, ht.arrival_passed_over (List.mem_of_mem_head? hu) hlt hrq hpos hend⟩

/-- Two disjoint requests and a dispatch; two overlapping ones, a dispatch, and a third
that arrives at the head. -/
theorem serves_nearest_two :
    (∃ t : GreedyData ℕ, Along GreedyData.Step (fun s a _ => Sized s a ∧ Nearest s a)
        .greedyInitQueue [.add ⟨0, 100, 10⟩, .add ⟨1, 200, 10⟩, .dispatch] t) ∧
      ∃ t m : GreedyData ℕ, Along GreedyData.Step (fun s a _ => Sized s a) .greedyInitQueue
          [.add ⟨0, 100, 50⟩, .add ⟨1, 110, 10⟩, .dispatch] t ∧
        t.Step (.add ⟨2, 150, 10⟩) m ∧ ¬Nearest m .dispatch := by
  constructor
  · refine ⟨_, (serves_nearest _ _).1 (.cons ⟨by decide, rfl⟩ ⟨by decide, nofun⟩ <|
      .cons ⟨by decide, rfl⟩ ⟨by decide, nofun⟩ <|
      .cons ⟨trivial, rfl⟩ ⟨trivial, fun _ => ?_⟩ <| .nil _)⟩
    rintro u hu
    cases hu
    decide
  · have hrun : ∃ t : GreedyData ℕ, Along GreedyData.Step (fun s a _ => Sized s a)
        .greedyInitQueue [.add ⟨0, 100, 50⟩, .add ⟨1, 110, 10⟩, .dispatch] t ∧
        t.upperQueue = [⟨1, 110, 10⟩] ∧ t.lowerQueue = [] ∧ t.diskHead = 150 :=
      ⟨_, .cons ⟨by decide, rfl⟩ (by decide) <| .cons ⟨by decide, rfl⟩ (by decide) <|
        .cons ⟨trivial, rfl⟩ trivial <| .nil _, rfl, rfl, rfl⟩
    obtain ⟨t, ht, hupper, hlower, hhead⟩ := hrun
    have hbehind : ¬UpperAhead t .dispatch := by
      intro hahead
      have hle := hahead rfl ⟨1, 110, 10⟩ (by simp [hupper])
      rw [hhead] at hle
      exact absurd hle (by decide)
    have hfresh : ∀ x ∈ t.pending, x.id ≠ 2 := by
      simp [GreedyData.pending, hupper, hlower]
    obtain ⟨m, hadd, hmiss⟩ := (serves_nearest _ t).2 ht hbehind ⟨2, 150, 10⟩ hfresh hhead.symm
      (by decide) (by decide)
    exact ⟨t, m, ht, hadd, hmiss⟩

/-- Serving the first request takes the head past the start of the second, which stays
in the upper queue and is served before the third though that is nearer. -/
theorem stale_upper_served_first :
    ∃ t : GreedyData ℕ, Along GreedyData.Step (fun s a _ => Sized s a) .greedyInitQueue
        [.add ⟨0, 100, 50⟩, .add ⟨1, 110, 10⟩, .add ⟨2, 160, 10⟩, .dispatch] t ∧
      ¬Nearest t .dispatch := by
  refine ⟨_, .cons ⟨by decide, rfl⟩ (by decide) <| .cons ⟨by decide, rfl⟩ (by decide) <|
    .cons ⟨by decide, rfl⟩ (by decide) <| .cons ⟨trivial, rfl⟩ trivial <| .nil _, fun h => ?_⟩
  have hnearest := h rfl ⟨1, 110, 10⟩ _ rfl ⟨2, 160, 10⟩ (by decide)
  exact absurd hnearest (by decide)

end OsProjects.Scheduler
