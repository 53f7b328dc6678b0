import OsProjects.Scheduler.Commute

/-!
# Requests for the same sector

A request that is added goes in front of those of its queue that start at the same sector.
The lower queue is served from its end, so that the first to arrive is the first to be
served there; the upper queue is served from its front, so that it is the last. A pair can
also be split between the queues, when the head has passed over the first and the second
is added below it; then the lower queue comes first, and with it the second.

## Main definitions

* `Arrivals` — the scheduler with its pending requests in the order of arrival
* `InOrder` — no request is served before an earlier one for the same sector
* `JoinsLower` — a request for a sector that another waits for joins it in the lower queue

## Main results

* `same_sector_in_order` — requests are served in order when they join in the lower queue,
  and in runs to the end only then
* `later_write_first` — two requests in the upper queue
-/

namespace OsProjects.Scheduler

open Run

variable {ι : Type*}

/-! ### The runs considered -/

/-- A request is added or one is dispatched. -/
inductive ArrivalAct (ι : Type*)
  | add (rq : Request ι)
  | dispatch

def ArrivalAct.greedy : ArrivalAct ι → GreedyAct ι
  | .add rq => .add rq
  | .dispatch => .dispatch

/-- The scheduler and, for the record, its pending requests in the order of arrival. -/
structure Arrivals (ι : Type*) where
  gd : GreedyData ι
  waiting : List (Request ι)

namespace Arrivals

def initial : Arrivals ι := ⟨.greedyInitQueue, []⟩

variable [DecidableEq ι]

/-- The requests that wait after an action. -/
def waitingAfter (s : Arrivals ι) : ArrivalAct ι → List (Request ι)
  | .add rq => s.waiting ++ [rq]
  -- the entry of the request that is dispatched, if there is one, is removed
  | .dispatch =>
    match s.gd.greedyDispatch with
    | some (rq, _) => s.waiting.erase rq
    | none => s.waiting

def Step (s : Arrivals ι) (a : ArrivalAct ι) (t : Arrivals ι) : Prop :=
  s.gd.Step a.greedy t.gd ∧ t.waiting = s.waitingAfter a

/-- The record is of a run of the scheduler. -/
theorem path_greedy {s t : Arrivals ι} {as : List (ArrivalAct ι)} (h : Path Step s as t) :
    Path GreedyData.Step s.gd (as.map ArrivalAct.greedy) t.gd := by
  induction h with
  | nil s => exact Path.nil s.gd
  | cons hstep _ _ ih => exact Path.cons hstep.1 ih

end Arrivals

/-- If this step dispatches a request, none that arrived before it waits for the same
sector. -/
def InOrder (s : Arrivals ι) (a : ArrivalAct ι) : Prop :=
  a = .dispatch → ∀ rq gd, s.gd.greedyDispatch = some (rq, gd) →
    ∀ x, [x, rq].Sublist s.waiting → x.sector ≠ rq.sector

/-- If this step adds a request while others wait for the same sector, they are in the
lower queue and it goes there. -/
def JoinsLower (s : Arrivals ι) : ArrivalAct ι → Prop
  | .add rq => ∀ x ∈ s.gd.pending, x.sector = rq.sector →
    x ∈ s.gd.lowerQueue ∧ rq.sector < s.gd.diskHead
  | .dispatch => True

/-- Requests have a sector at least and end below `2 ^ 63`. -/
def ArrivalAct.Sized : ArrivalAct ι → Prop
  | .add rq => 1 ≤ rq.sectors ∧ rq.sector + rq.sectors < 2 ^ 63
  | .dispatch => True

/-! ### Pairs in a list -/

section Pairs

variable {α : Type*} {x y z : α} {xs : List α}

/-- A pair in a list that has grown at its end was there before, or ends with what is
new. -/
theorem pair_concat (h : [x, y].Sublist (xs ++ [z])) : [x, y].Sublist xs ∨ x ∈ xs ∧ y = z := by
  rcases List.sublist_append_iff.mp h with ⟨front, back, hcut, hfront, hback⟩
  rcases List.sublist_singleton.mp hback with rfl | rfl
  · rw [List.append_nil] at hcut
    exact .inl (hcut ▸ hfront)
  · have hcut' : [x] ++ [y] = front ++ [z] := hcut
    rcases List.append_inj' hcut' rfl with ⟨rfl, hy⟩
    exact .inr ⟨List.singleton_sublist.mp hfront, List.singleton_inj.mp hy⟩

/-- Of two elements of a list without duplicates, the last is not the first. -/
theorem not_pair_concat (h : (xs ++ [x]).Nodup) : ¬[x, y].Sublist (xs ++ [x]) := by
  intro hpair
  have hx : x ∉ xs := by
    intro hmem
    exact List.disjoint_of_nodup_append h hmem List.mem_cons_self
  rcases pair_concat hpair with hpair' | ⟨hmem, -⟩
  · exact hx (hpair'.mem List.mem_cons_self)
  · exact hx hmem

/-- The first is not the last. -/
theorem not_pair_cons (h : (x :: xs).Nodup) : ¬[y, x].Sublist (x :: xs) := by
  intro hpair
  have hreverse : [x, y].Sublist (xs.reverse ++ [x]) := by
    simpa using hpair.reverse
  apply not_pair_concat _ hreverse
  simpa using List.nodup_reverse.mpr h

/-- Two elements keep their order when another is erased. -/
theorem pair_erase [DecidableEq α] (h : [x, y].Sublist xs) (hx : x ≠ z) (hy : y ≠ z) :
    [x, y].Sublist (xs.erase z) := by
  have herase : [x, y].erase z = [x, y] :=
    List.erase_of_not_mem (by simp [hx.symm, hy.symm])
  rw [← herase]
  exact h.erase z

end Pairs

section Insertion

variable {rq x : Request ι} {queue : List (Request ι)}

theorem sublist_addSorted : queue.Sublist (addSorted rq queue) := by
  obtain ⟨front, back, hqueue, hadd, -, -⟩ := addSorted_split rq queue
  rw [hadd, hqueue]
  exact (List.Sublist.refl front).append (List.sublist_cons_self rq back)

/-- A new request goes in front of those that start where it does. -/
theorem pair_addSorted (h : Ascending queue) (hx : x ∈ queue) (hle : rq.sector ≤ x.sector) :
    [rq, x].Sublist (addSorted rq queue) := by
  obtain ⟨front, back, rfl, hfront, hback⟩ := h.cut rq.sector
  rw [addSorted_append hfront hback]
  have hx : x ∈ back := by
    rcases List.mem_append.mp hx with hx | hx
    · exact absurd (hfront x hx) (Nat.not_lt.mpr hle)
    · exact hx
  have hpair : [rq, x].Sublist (rq :: back) := (List.singleton_sublist.mpr hx).cons_cons rq
  exact hpair.trans (List.sublist_append_right front (rq :: back))

end Insertion

/-! ### What is recorded -/

namespace Arrivals

variable {s t : Arrivals ι} {a : ArrivalAct ι} {rq x y : Request ι} {gd : GreedyData ι}

/-- The record holds what is pending, each request once. -/
structure Recorded (s : Arrivals ι) : Prop where
  perm : s.waiting.Perm s.gd.pending
  nodup : s.waiting.Nodup

theorem recorded_initial : (initial : Arrivals ι).Recorded := ⟨List.Perm.nil, List.nodup_nil⟩

theorem Recorded.not_upper (h : s.Recorded) (hrq : rq ∈ s.gd.lowerQueue) :
    rq ∉ s.gd.upperQueue := by
  have hnodup : s.gd.pending.Nodup := h.perm.nodup_iff.mp h.nodup
  exact List.disjoint_of_nodup_append hnodup hrq

variable [DecidableEq ι]

theorem Step.of_allowed (h : s.gd.Allowed a.greedy) :
    s.Step a ⟨s.gd.act a.greedy, s.waitingAfter a⟩ := ⟨⟨h, rfl⟩, rfl⟩

theorem Step.eq (hstep : s.Step a t) : t = ⟨s.gd.act a.greedy, s.waitingAfter a⟩ := by
  rw [← hstep.1.2, ← hstep.2]

/-- A step records a request that is added, or removes the one that is dispatched, if there
is one. -/
theorem step_cases (hstep : s.Step a t) :
    (∃ rq, a = .add rq ∧ rq ∉ s.gd.pending ∧ t = ⟨s.gd.greedyAddRequest rq, s.waiting ++ [rq]⟩) ∨
      (a = .dispatch ∧ s.gd.greedyDispatch = none ∧ t = s) ∨
        ∃ rq gd, a = .dispatch ∧ s.gd.greedyDispatch = some (rq, gd) ∧
          t = ⟨gd, s.waiting.erase rq⟩ := by
  have ht := hstep.eq
  cases a with
  | add rq =>
    refine .inl ⟨rq, rfl, ?_, ht⟩
    intro hmem
    exact hstep.1.1 rq hmem rfl
  | dispatch =>
    simp only [ArrivalAct.greedy, GreedyData.act, GreedyData.afterDispatch, waitingAfter] at ht
    cases hd : s.gd.greedyDispatch with
    | none =>
      rw [hd] at ht
      exact .inr (.inl ⟨rfl, rfl, ht⟩)
    | some r =>
      rw [hd] at ht
      exact .inr (.inr ⟨r.1, r.2, rfl, rfl, ht⟩)

theorem Recorded.step (h : s.Recorded) (hstep : s.Step a t) : t.Recorded := by
  rcases step_cases hstep with ⟨rq, -, hnew, rfl⟩ | ⟨-, -, rfl⟩ | ⟨rq, gd, -, hd, rfl⟩
  · constructor
    · apply List.Perm.trans _ (s.gd.add_pending_perm rq).symm
      exact (List.perm_append_singleton rq s.waiting).trans (h.perm.cons rq)
    · have hrq : rq ∉ s.waiting := fun hmem => hnew (h.perm.mem_iff.mp hmem)
      simpa [List.nodup_append] using ⟨h.nodup, fun x hx => ne_of_mem_of_not_mem hx hrq⟩
  · exact h
  · constructor
    · have hperm := (h.perm.trans (GreedyData.dispatch_pending_perm hd)).erase rq
      rwa [List.erase_cons_head] at hperm
    · exact h.nodup.erase rq

/-! ### Requests that join in the lower queue -/

/-- Both queues ascend, and requests that wait for one sector are in the lower queue, the
last to arrive in front. -/
structure Stacked (s : Arrivals ι) : Prop extends s.Recorded where
  ascends : s.gd.Ascends
  behind : ∀ x y, [x, y].Sublist s.waiting → x.sector = y.sector →
    [y, x].Sublist s.gd.lowerQueue

omit [DecidableEq ι] in
theorem stacked_initial : (initial : Arrivals ι).Stacked where
  toRecorded := recorded_initial
  ascends := GreedyData.ascends_init
  behind x y hpair := by
    simp [initial] at hpair

omit [DecidableEq ι] in
/-- The oldest of those in the lower queue is at its end, where it is taken from. -/
theorem Stacked.inOrder (h : s.Stacked) : InOrder s a := by
  rintro rfl rq gd hd x hpair hsector
  have hbehind := h.behind x rq hpair hsector
  rcases GreedyData.dispatch_cases hd with ⟨lower, hlower, -, -⟩ | ⟨upper, hupper, -, -⟩
  · have hnodup : s.gd.lowerQueue.Nodup :=
      (List.nodup_append.mp (h.perm.nodup_iff.mp h.nodup)).1
    rw [hlower] at hbehind hnodup
    exact not_pair_concat hnodup hbehind
  · apply h.not_upper (hbehind.mem List.mem_cons_self)
    rw [hupper]
    exact List.mem_cons_self

theorem Stacked.step (h : s.Stacked) (hstep : s.Step a t) (ha : JoinsLower s a) :
    t.Stacked := by
  have hrecorded := h.toRecorded.step hstep
  rcases step_cases hstep with ⟨rq, rfl, -, rfl⟩ | ⟨-, -, rfl⟩ | ⟨rq, gd, -, hd, rfl⟩
  · refine ⟨hrecorded, h.ascends.add rq, ?_⟩
    intro x y hpair hsector
    unfold GreedyData.greedyAddRequest
    rcases pair_concat hpair with hpair | ⟨hx, rfl⟩
    · have hbehind := h.behind x y hpair hsector
      split
      · exact hbehind.trans sublist_addSorted
      · exact hbehind
    · obtain ⟨hlower, hbelow⟩ := ha x (h.perm.mem_iff.mp hx) hsector
      rw [if_pos hbelow]
      exact pair_addSorted h.ascends.lower hlower hsector.ge
  · exact h
  · refine ⟨hrecorded, h.ascends.dispatch hd, ?_⟩
    intro x y hpair hsector
    have hbehind := h.behind x y (hpair.trans List.erase_sublist) hsector
    rcases GreedyData.dispatch_cases hd with ⟨lower, hlower, rfl, -⟩ | ⟨upper, -, rfl, -⟩
    · rw [hlower] at hbehind
      rcases pair_concat hbehind with hbehind | ⟨-, rfl⟩
      · exact hbehind
      · exact absurd (hpair.mem List.mem_cons_self) h.nodup.not_mem_erase
    · exact hbehind

/-! ### Requests that do not -/

/-- Of two that wait for one sector, the earlier is in the upper queue and the later is in
front of it, or in the lower queue. -/
def Reversed (s : Arrivals ι) : Prop :=
  ∃ x y, [x, y].Sublist s.waiting ∧ x.sector = y.sector ∧ x ∈ s.gd.upperQueue ∧
    ([y, x].Sublist s.gd.upperQueue ∨ y ∈ s.gd.lowerQueue)

/-- A request that does not join the others in the lower queue overtakes them. -/
theorem reversed_of_add (hs : s.Recorded) (hord : s.gd.Ordered) (hstep : s.Step a t)
    (ha : ¬JoinsLower s a) : t.Reversed := by
  rcases step_cases hstep with ⟨rq, rfl, -, rfl⟩ | ⟨rfl, -, -⟩ | ⟨rq, gd, rfl, -, -⟩
  · obtain ⟨x, hx, hsector, hapart⟩ : ∃ x ∈ s.gd.pending, x.sector = rq.sector ∧
        ¬(x ∈ s.gd.lowerQueue ∧ rq.sector < s.gd.diskHead) := by
      simpa only [JoinsLower, not_forall, exists_prop] using ha
    have hpair : [x, rq].Sublist (s.waiting ++ [rq]) :=
      (List.singleton_sublist.mpr (hs.perm.mem_iff.mpr hx)).append (List.Sublist.refl [rq])
    have hupper : x ∈ s.gd.upperQueue := by
      rcases List.mem_append.mp hx with hlower | hupper
      · have hbelow := hord.below x hlower
        rw [hsector] at hbelow
        exact absurd ⟨hlower, hbelow⟩ hapart
      · exact hupper
    refine ⟨x, rq, hpair, hsector, ?_⟩
    unfold GreedyData.greedyAddRequest
    split
    · exact ⟨hupper, .inr (mem_addSorted.mpr (.inl rfl))⟩
    · exact ⟨mem_addSorted.mpr (.inr hupper), .inl (pair_addSorted hord.upper hupper hsector.ge)⟩
  · exact absurd trivial ha
  · exact absurd trivial ha

/-- While requests are served in order, what is reversed stays: the later of the two may not
be served, and the earlier is not. -/
theorem Reversed.step (h : s.Reversed) (hs : s.Recorded) (hord : s.gd.Ordered)
    (hstep : s.Step a t) (ha : InOrder s a) : t.Reversed := by
  obtain ⟨x, y, hpair, hsector, hx, hy⟩ := h
  rcases step_cases hstep with ⟨rq, -, -, rfl⟩ | ⟨-, -, rfl⟩ | ⟨rq, gd, rfl, hd, rfl⟩
  · refine ⟨x, y, hpair.trans (List.sublist_append_left s.waiting [rq]), hsector, ?_⟩
    unfold GreedyData.greedyAddRequest
    split
    · exact ⟨hx, hy.imp_right fun hy => mem_addSorted.mpr (.inr hy)⟩
    · exact ⟨mem_addSorted.mpr (.inr hx), hy.imp_left fun hy => hy.trans sublist_addSorted⟩
  · exact ⟨x, y, hpair, hsector, hx, hy⟩
  · -- the later of the two may not be served before the earlier
    have hyrq : y ≠ rq := by
      rintro rfl
      exact ha rfl y gd hd x hpair hsector
    rcases GreedyData.dispatch_cases hd with ⟨lower, hlower, rfl, -⟩ |
      ⟨upper, hupper, rfl, hdist⟩
    · have hxrq : x ≠ rq := by
        rintro rfl
        apply hs.not_upper _ hx
        rw [hlower]
        exact List.mem_append_right lower List.mem_cons_self
      refine ⟨x, y, pair_erase hpair hxrq hyrq, hsector, hx, hy.imp_right ?_⟩
      intro hy
      rw [hlower] at hy
      simpa [hyrq] using hy
    · have hxrq : x ≠ rq := by
        rintro rfl
        rcases hy with hy | hy
        · have hnodup : s.gd.upperQueue.Nodup :=
            (List.nodup_append.mp (hs.perm.nodup_iff.mp hs.nodup)).2.1
          rw [hupper] at hnodup hy
          exact not_pair_cons hnodup hy
        · have hbelow := hord.below y hy
          rcases List.eq_nil_or_concat' s.gd.lowerQueue with hnil | ⟨lower, l, hlower⟩
          · exact absurd hnil (List.ne_nil_of_mem hy)
          · have hl : l ∈ s.gd.lowerQueue := by simp [hlower]
            have hahead := hord.upper_ahead hl (hdist l lower hlower)
            omega
      refine ⟨x, y, pair_erase hpair hxrq hyrq, hsector, ?_, hy.imp_left ?_⟩
      · rw [hupper] at hx
        simpa [hxrq] using hx
      · intro hy
        have hkept := pair_erase hy hyrq hxrq
        rwa [hupper, List.erase_cons_head] at hkept

/-- The scheduler is in order, and what it holds is recorded. -/
structure Sound (s : Arrivals ι) : Prop extends s.Recorded where
  ordered : s.gd.Ordered

omit [DecidableEq ι] in
theorem sound_initial : (initial : Arrivals ι).Sound := ⟨recorded_initial, GreedyData.ordered_init⟩

theorem Sound.step (h : s.Sound) (hstep : s.Step a t) (ha : a.Sized) : t.Sound := by
  refine ⟨h.toRecorded.step hstep, h.ordered.step hstep.1 ?_⟩
  cases a with
  | add rq => exact ha
  | dispatch => trivial

/-- A run in order to a state in which nothing waits has reversed no requests. -/
theorem Sound.joinsLower (h : s.Sound) {as : List (ArrivalAct ι)}
    (hrun : Along Step (fun s a _ => InOrder s a ∧ a.Sized) s as t) (hend : t.waiting = []) :
    Along Step (fun s a _ => JoinsLower s a) s as t := by
  -- on the run: a step that does not join leaves a reversed pair, which is never resolved
  induction hrun with
  | nil s => exact Along.nil s
  | cons hstep ha hrest ih =>
    have hm := h.step hstep ha.2
    refine Along.cons hstep ?_ (ih hm hend)
    by_contra hjoins
    have hreversed := reversed_of_add h.toRecorded h.ordered hstep hjoins
    obtain ⟨-, x, y, hpair, -⟩ := hrest.invariant (fun s => s.Sound ∧ s.Reversed)
      (fun s a t hs hstep ha =>
        ⟨hs.1.step hstep ha.2, hs.2.step hs.1.toRecorded hs.1.ordered hstep ha.1⟩)
      ⟨hm, hreversed⟩
    rw [hend] at hpair
    exact absurd (hpair.mem List.mem_cons_self) List.not_mem_nil

end Arrivals

/-- **Requests for the same sector.** In every run they are served in the order of arrival if
each that is added while others for its sector wait joins them in the lower queue. In a run
that serves all its requests they are served in that order only then. -/
theorem same_sector_in_order [DecidableEq ι] {as : List (ArrivalAct ι)} {t : Arrivals ι} :
    (Along Arrivals.Step (fun s a _ => JoinsLower s a) .initial as t →
      Along Arrivals.Step (fun s a _ => InOrder s a) .initial as t) ∧
    ((∀ a ∈ as, a.Sized) → t.waiting = [] →
      (Along Arrivals.Step (fun s a _ => InOrder s a) .initial as t ↔
        Along Arrivals.Step (fun s a _ => JoinsLower s a) .initial as t)) := by
  have hforward : Along Arrivals.Step (fun s a _ => JoinsLower s a) .initial as t →
      Along Arrivals.Step (fun s a _ => InOrder s a) .initial as t := by
    apply Along.imp_of_invariant Arrivals.Stacked _ _ Arrivals.stacked_initial
    · intro s a t hs hstep ha
      exact hs.step hstep ha
    · intro s a t hs _ _
      exact hs.inOrder
  refine ⟨hforward, ?_⟩
  intro hsized hend
  constructor
  · intro hrun
    exact Arrivals.sound_initial.joinsLower (hrun.and hsized) hend
  · exact hforward

/-- The head goes to 250; two writes to sector 100 and a request above come, and all are
served. -/
def lowerPair : List (ArrivalAct ℕ) :=
  [.add ⟨0, 200, 50⟩, .dispatch, .add ⟨1, 100, 8⟩, .add ⟨2, 100, 8⟩, .add ⟨3, 300, 8⟩, .dispatch,
    .dispatch, .dispatch]

theorem same_sector_in_order_lowerPair :
    ∃ t : Arrivals ℕ, t.waiting = [] ∧
      Along Arrivals.Step (fun s a _ => JoinsLower s a) .initial lowerPair t ∧
        Along Arrivals.Step (fun s a _ => InOrder s a) .initial lowerPair t := by
  obtain ⟨t, hend, hjoins⟩ : ∃ t : Arrivals ℕ, t.waiting = [] ∧
      Along Arrivals.Step (fun s a _ => JoinsLower s a) .initial lowerPair t :=
    ⟨_, rfl,
      .cons (.of_allowed (by decide)) (by unfold JoinsLower; decide) <|
      .cons (.of_allowed trivial) trivial <|
      .cons (.of_allowed (by decide)) (by unfold JoinsLower; decide) <|
      .cons (.of_allowed (by decide)) (by unfold JoinsLower; decide) <|
      .cons (.of_allowed (by decide)) (by unfold JoinsLower; decide) <|
      .cons (.of_allowed trivial) trivial <| .cons (.of_allowed trivial) trivial <|
      .cons (.of_allowed trivial) trivial <| .nil _⟩
  have hinOrder := same_sector_in_order.1 hjoins
  have hsized : ∀ a ∈ lowerPair, a.Sized := by simp [lowerPair, ArrivalAct.Sized]
  exact ⟨t, hend, (same_sector_in_order.2 hsized hend).mp hinOrder, hinOrder⟩

/-- Two writes to sector 100, of which one is served. -/
def upperPair : List (ArrivalAct ℕ) := [.add ⟨0, 100, 8⟩, .add ⟨1, 100, 8⟩, .dispatch]

/-- It is the later, and the earlier is left. -/
theorem later_write_first :
    ∃ t : Arrivals ℕ, (∀ a ∈ upperPair, a.Sized) ∧ Path Arrivals.Step .initial upperPair t ∧
      t.gd.pending = [⟨0, 100, 8⟩] ∧
        ¬Along Arrivals.Step (fun s a _ => InOrder s a) .initial upperPair t := by
  refine ⟨_, by simp [upperPair, ArrivalAct.Sized],
    Path.cons (.of_allowed (by decide)) <| Path.cons (.of_allowed (by decide)) <|
    Path.cons (.of_allowed trivial) <| Path.nil _, rfl, ?_⟩
  intro hrun
  cases hrun with
  | cons hstep _ hrest =>
    obtain rfl := Arrivals.Step.eq hstep
    cases hrest with
    | cons hstep _ hrest =>
      obtain rfl := Arrivals.Step.eq hstep
      cases hrest with
      | cons _ hinOrder _ => exact hinOrder rfl ⟨1, 100, 8⟩ _ rfl ⟨0, 100, 8⟩ (by decide) rfl

-- the head passes over the second of three, and the third comes below it
example : ([.add ⟨0, 100, 50⟩, .add ⟨1, 120, 8⟩, .dispatch, .add ⟨2, 120, 8⟩, .dispatch].foldl
    GreedyData.act (.greedyInitQueue : GreedyData ℕ)).pending = [⟨1, 120, 8⟩] := by
  decide

end OsProjects.Scheduler
