import Mathlib.Data.List.MinMax
import Mathlib.Data.List.Pairwise
import Mathlib.Data.Prod.Lex
import OsProjects.Scheduler.Nearest

/-!
# The reference scheduler

Without queues, shortest seek first keeps a bag of requests and serves the one nearest
to the head, the one ahead of it when two are equally near. When no request arrives
over sectors of a pending one, the requests of the two queues lie one after another on
the disk with the head between the queues, and the scheduler is this one.

## Main definitions

* `Reference` — the bag of pending requests and the head
* `Disjointly` — arrivals cover sectors of their own, merges join neighbours
* `GreedyData.Split` — the two queues lie on the two sides of the head
* `Matches` — both hold the same requests and heads

## Main results

* `GreedyData.Split.step` — what every action keeps
* `greedy_refines_reference` — both serve the same requests and move the head alike
-/

namespace OsProjects.Scheduler

open Run

variable {ι : Type*}

/-! ### The reference -/

/-- A bag of pending requests and the position of the head. -/
structure Reference (ι : Type*) where
  bag : List (Request ι)
  head : ℕ

/-- The sector behind a request, exactly. -/
def Request.stop (rq : Request ι) : ℕ := rq.sector + rq.sectors

theorem Request.sector_le_stop (rq : Request ι) : rq.sector ≤ rq.stop := Nat.le_add_right _ _

theorem Request.sector_lt_stop {rq : Request ι} (h : 1 ≤ rq.sectors) : rq.sector < rq.stop :=
  Nat.lt_add_of_pos_right h

/-- Requests are served by distance, and at equal distance the one ahead first. -/
def urgency (head : ℕ) (rq : Request ι) : ℕ ×ₗ ℕ :=
  toLex (seek head rq, if head ≤ rq.sector then 0 else 1)

namespace Reference

variable [DecidableEq ι]

def initial : Reference ι := ⟨[], 0⟩

/-- Serve the most urgent request. -/
def dispatch (r : Reference ι) : Option (Request ι × Reference ι) :=
  (r.bag.argmin (urgency r.head)).map fun rq => (rq, ⟨r.bag.erase rq, rq.stop⟩)

/-- The state after an action. -/
def act (r : Reference ι) : GreedyAct ι → Reference ι
  | .add rq => { r with bag := rq :: r.bag }
  | .merge rq next => { r with bag := extendOver rq next (r.bag.erase next) }
  | .dispatch => (r.dispatch.map Prod.snd).getD r

/-- The request an action serves. -/
def served (r : Reference ι) : GreedyAct ι → Option (Request ι)
  | .dispatch => r.dispatch.map Prod.fst
  | _ => none

/-- For each action the request served and the head afterwards. -/
def trace (r : Reference ι) : List (GreedyAct ι) → List (Option (Request ι) × ℕ)
  | [] => []
  | a :: as => (r.served a, (r.act a).head) :: trace (r.act a) as

end Reference

namespace GreedyData

variable [DecidableEq ι]

/-- The request an action serves. -/
def served (gd : GreedyData ι) : GreedyAct ι → Option (Request ι)
  | .dispatch => gd.greedyDispatch.map Prod.fst
  | _ => none

/-- For each action the request served and the head afterwards. -/
def trace (gd : GreedyData ι) : List (GreedyAct ι) → List (Option (Request ι) × ℕ)
  | [] => []
  | a :: as => (gd.served a, (gd.act a).diskHead) :: trace (gd.act a) as

end GreedyData

/-! ### Disjoint requests -/

/-- Two requests cover no common sector. -/
def Request.Apart (x y : Request ι) : Prop := x.stop ≤ y.sector ∨ y.stop ≤ x.sector

theorem Request.Apart.symm {x y : Request ι} (h : x.Apart y) : y.Apart x := Or.symm h

instance : Std.Symm (Request.Apart : Request ι → Request ι → Prop) :=
  ⟨fun _ _ => Request.Apart.symm⟩

theorem Request.Apart.ne {x y : Request ι} (h : x.Apart y) (hx : 1 ≤ x.sectors) : x ≠ y := by
  rintro rfl
  have hlt := sector_lt_stop hx
  rcases h with h | h
  · exact absurd h hlt.not_ge
  · exact absurd h hlt.not_ge

/-- Arriving requests have a sector at least, end without overflow and cover no sector
of a pending one; a request is merged with its contiguous latter neighbour. -/
def Disjointly [DecidableEq ι] (s : GreedyData ι) : GreedyAct ι → Prop
  | .add rq => 1 ≤ rq.sectors ∧ rq.stop < 2 ^ 64 ∧
    ∀ x ∈ s.pending, rq.stop ≤ x.sector ∨ x.stop ≤ rq.sector
  | .merge rq next => s.greedyLatterRequest rq = some next ∧ next.sector = rq.stop
  | .dispatch => True

instance [DecidableEq ι] (s : GreedyData ι) (a : GreedyAct ι) : Decidable (Disjointly s a) :=
  match a with
  | .add _ => instDecidableAnd
  | .merge _ _ => instDecidableAnd
  | .dispatch => instDecidableTrue

/-- Both queues ascend, with the head between them, and no sector is covered twice. -/
structure GreedyData.Split (gd : GreedyData ι) : Prop where
  lower : Ascending gd.lowerQueue
  upper : Ascending gd.upperQueue
  below : ∀ x ∈ gd.lowerQueue, x.sector < gd.diskHead
  ahead : ∀ x ∈ gd.upperQueue, gd.diskHead ≤ x.sector
  apart : gd.pending.Pairwise Request.Apart
  sound : ∀ x ∈ gd.pending, 1 ≤ x.sectors ∧ x.stop < 2 ^ 64
  head : gd.diskHead < 2 ^ 64

namespace GreedyData

variable {s t gd gd' : GreedyData ι} {rq next : Request ι}

theorem split_init : (greedyInitQueue : GreedyData ι).Split where
  lower := List.Pairwise.nil
  upper := List.Pairwise.nil
  below := nofun
  ahead := nofun
  apart := List.Pairwise.nil
  sound := nofun
  head := Nat.two_pow_pos 64

theorem Split.nodup (h : gd.Split) : gd.pending.Nodup :=
  h.apart.imp_of_mem fun hx _ hxy => hxy.ne (h.sound _ hx).1

theorem Split.endSector (h : gd.Split) (hrq : rq ∈ gd.pending) : rq.endSector = rq.stop :=
  add64_of_lt (h.sound rq hrq).2

theorem Split.add (h : gd.Split) (hpos : 1 ≤ rq.sectors) (hstop : rq.stop < 2 ^ 64)
    (hapart : ∀ x ∈ gd.pending, rq.Apart x) : (gd.greedyAddRequest rq).Split := by
  have hperm := gd.add_pending_perm rq
  have hpairwise : (gd.greedyAddRequest rq).pending.Pairwise Request.Apart := by
    rw [hperm.pairwise_iff Request.Apart.symm]
    exact List.pairwise_cons.mpr ⟨hapart, h.apart⟩
  have hsound : ∀ x ∈ (gd.greedyAddRequest rq).pending, 1 ≤ x.sectors ∧ x.stop < 2 ^ 64 := by
    intro x hx
    rcases List.mem_cons.mp (hperm.mem_iff.mp hx) with rfl | hx
    · exact ⟨hpos, hstop⟩
    · exact h.sound x hx
  revert hpairwise hsound
  unfold greedyAddRequest
  split
  · intro hpairwise hsound
    refine ⟨h.lower.addSorted, h.upper, ?_, h.ahead, hpairwise, hsound, h.head⟩
    intro x hx
    rcases mem_addSorted.mp hx with rfl | hx
    · assumption
    · exact h.below x hx
  · intro hpairwise hsound
    refine ⟨h.lower, h.upper.addSorted, h.below, ?_, hpairwise, hsound, h.head⟩
    intro x hx
    rcases mem_addSorted.mp hx with rfl | hx
    · exact Nat.le_of_not_lt ‹_›
    · exact h.ahead x hx

end GreedyData

/-! ### Merges of neighbours -/

section Merge

variable [DecidableEq ι] {rq next : Request ι} {gd : GreedyData ι}

/-- Only one of the queues holds `next`. -/
theorem GreedyData.merge_pending (hnodup : gd.pending.Nodup) :
    (gd.merge rq next).pending = extendOver rq next (gd.pending.erase next) := by
  have herase : gd.lowerQueue.erase next ++ gd.upperQueue.erase next = gd.pending.erase next :=
    erase_append_erase hnodup next
  rw [← herase]
  exact List.map_append.symm

omit [DecidableEq ι] in
/-- Extended over its contiguous neighbour, a request ends where that one did. -/
theorem Request.extend_stop (hcontiguous : next.sector = rq.stop) :
    (rq.extend next).stop = next.stop := by
  rw [stop, stop, hcontiguous, stop, extend, Nat.add_assoc]

omit [DecidableEq ι] in
/-- A request that meets neither of two neighbours does not meet the extended one. -/
theorem Request.Apart.extend {x : Request ι} (hrq : rq.Apart x) (hnext : next.Apart x)
    (hcontiguous : next.sector = rq.stop) (hx : 1 ≤ x.sectors) : (rq.extend next).Apart x := by
  rw [Request.Apart, Request.extend_stop hcontiguous]
  rcases hnext with hnext | hnext
  · exact .inl hnext
  · rcases hrq with hrq | hrq
    · -- such a request would end before it starts
      have hback : x.stop ≤ x.sector := hnext.trans (hcontiguous.trans_le hrq)
      exact absurd hback (Request.sector_lt_stop hx).not_ge
    · exact .inr hrq

namespace GreedyData

theorem Split.merge (h : gd.Split)
    (hqueue : rq ∈ gd.lowerQueue ∧ next ∈ gd.lowerQueue ∨
      rq ∈ gd.upperQueue ∧ next ∈ gd.upperQueue)
    (hcontiguous : next.sector = rq.stop) : (gd.merge rq next).Split := by
  have hmem : rq ∈ gd.pending ∧ next ∈ gd.pending := by
    simp only [pending, List.mem_append]
    tauto
  have hpending : (gd.merge rq next).pending = extendOver rq next (gd.pending.erase next) :=
    merge_pending h.nodup
  have hall : ∀ x ∈ gd.pending.erase next, ∀ y ∈ gd.pending, x.Apart y ∨ x = y := by
    intro x hx y hy
    by_cases heq : x = y
    · exact .inr heq
    · exact .inl (h.apart.forall (List.mem_of_mem_erase hx) hy heq)
  refine ⟨h.lower.merge, h.upper.merge, ?_, ?_, ?_, ?_, h.head⟩
  · intro x hx
    rcases mem_extendOver hx with hx | ⟨hrq', rfl⟩
    · exact h.below x hx
    · exact h.below rq hrq'
  · intro x hx
    rcases mem_extendOver hx with hx | ⟨hrq', rfl⟩
    · exact h.ahead x hx
    · exact h.ahead rq hrq'
  · rw [hpending, extendOver, List.pairwise_map]
    apply (h.apart.sublist List.erase_sublist).imp_of_mem
    intro x y hx hy hxy
    have hnext : ∀ z ∈ gd.pending.erase next, next.Apart z := by
      intro z hz
      have hne := (h.nodup.mem_erase_iff.mp hz).1
      exact ((hall z hz next hmem.2).resolve_right hne).symm
    have hpos : ∀ z ∈ gd.pending.erase next, 1 ≤ z.sectors := fun z hz =>
      (h.sound z (List.mem_of_mem_erase hz)).1
    split
    · subst x
      split
      · subst y
        exact absurd rfl (hxy.ne (hpos rq hx))
      · exact hxy.extend (hnext y hy) hcontiguous (hpos y hy)
    · split
      · subst y
        exact (hxy.symm.extend (hnext x hx) hcontiguous (hpos x hx)).symm
      · exact hxy
  · intro x hx
    rw [hpending] at hx
    rcases mem_extendOver hx with hx | ⟨-, rfl⟩
    · exact h.sound x hx
    · have hrq := h.sound rq hmem.1
      have hnext := h.sound next hmem.2
      rw [Request.extend_stop hcontiguous]
      exact ⟨hrq.1.trans (Nat.le_add_right _ _), hnext.2⟩

end GreedyData

end Merge

/-! ### Dispatch -/

namespace GreedyData

variable {s t gd gd' : GreedyData ι} {rq : Request ι}

/-- In a queue of disjoint requests the starts ascend strictly, and each request ends
before the next one starts. -/
theorem Split.stop_le {x y : Request ι} (h : gd.Split) (hx : x ∈ gd.pending)
    (hy : y ∈ gd.pending) (hne : x ≠ y) (hle : x.sector ≤ y.sector) : x.stop ≤ y.sector := by
  have hxy := h.apart.forall hx hy hne
  have hlt := Request.sector_lt_stop (h.sound y hy).1
  rcases hxy with hxy | hxy
  · exact hxy
  · exact absurd hle (hlt.trans_le hxy).not_ge

/-- The lower request that is served ends behind all others of its queue and before the
upper queue; the upper one lies between the old head and the rest of its queue. -/
theorem Split.dispatch (h : gd.Split) (hd : gd.greedyDispatch = some (rq, gd')) :
    gd'.Split := by
  have hnodup := h.nodup
  rcases dispatch_cases hd with ⟨lower, hlower, rfl, -⟩ | ⟨upper, hupper, rfl, -⟩
  · have hrq : rq ∈ gd.pending := by simp [pending, hlower]
    have hsublist : (lower ++ gd.upperQueue).Sublist gd.pending := by
      rw [pending, hlower]
      exact (List.sublist_append_left lower [rq]).append_right gd.upperQueue
    have hasc := h.lower
    rw [hlower, Ascending, List.pairwise_append] at hasc
    have hsound := h.sound rq hrq
    refine ⟨hasc.1, h.upper, ?_, ?_, h.apart.sublist hsublist,
      fun x hx => h.sound x (hsublist.subset hx), ?_⟩
    · intro x hx
      have hle := hasc.2.2 x hx rq (List.mem_singleton.mpr rfl)
      simp only [h.endSector hrq]
      exact hle.trans_lt (Request.sector_lt_stop hsound.1)
    · intro x hx
      have hbelow := h.below rq (by simp [hlower])
      have hahead := h.ahead x hx
      have hne : rq ≠ x := by
        rintro rfl
        omega
      simp only [h.endSector hrq]
      exact h.stop_le hrq (List.mem_append_right _ hx) hne (by omega)
    · simp only [h.endSector hrq]
      exact hsound.2
  · have hrq : rq ∈ gd.pending := by simp [pending, hupper]
    have hsublist : (gd.lowerQueue ++ upper).Sublist gd.pending := by
      rw [pending, hupper]
      exact (List.sublist_cons_self rq upper).append_left gd.lowerQueue
    have hasc := h.upper
    rw [hupper, Ascending, List.pairwise_cons] at hasc
    have hsound := h.sound rq hrq
    refine ⟨h.lower, hasc.2, ?_, ?_, h.apart.sublist hsublist,
      fun x hx => h.sound x (hsublist.subset hx), ?_⟩
    · intro x hx
      have hbelow := h.below x hx
      have hahead := h.ahead rq (by simp [hupper])
      simp only [h.endSector hrq]
      exact (hbelow.trans_le hahead).trans_le rq.sector_le_stop
    · intro x hx
      rw [pending, hupper] at hnodup
      have hne : rq ≠ x := by
        rintro rfl
        exact (List.nodup_cons.mp (List.nodup_append.mp hnodup).2.1).1 hx
      simp only [h.endSector hrq]
      exact h.stop_le hrq (by simp [pending, hupper, hx]) hne (hasc.1 x hx)
    · simp only [h.endSector hrq]
      exact hsound.2

/-- What every action keeps. -/
theorem Split.step [DecidableEq ι] {a : GreedyAct ι} (h : s.Split) (hstep : s.Step a t)
    (ha : Disjointly s a) : t.Split := by
  obtain ⟨hallowed, rfl⟩ := hstep
  cases a with
  | add rq => exact h.add ha.1 ha.2.1 ha.2.2
  | merge rq next => exact h.merge hallowed.2 ha.2
  | dispatch =>
    cases hd : s.greedyDispatch with
    | none => simpa only [act, afterDispatch, hd] using h
    | some r => simpa only [act, afterDispatch, hd] using h.dispatch hd

section Urgency

variable {x : Request ι}

/-- The last lower request is strictly nearer than the rest of its queue. -/
theorem Split.seek_lt_lower {lower : List (Request ι)} (h : gd.Split)
    (hlower : gd.lowerQueue = lower ++ [rq]) (hx : x ∈ gd.lowerQueue) (hne : x ≠ rq) :
    seek gd.diskHead rq < seek gd.diskHead x := by
  have hbelow := h.below rq (by simp [hlower])
  have hasc := h.lower
  have hx' := hx
  rw [hlower] at hasc hx'
  have hstop := h.stop_le (List.mem_append_left _ hx) (by simp [pending, hlower]) hne
    (hasc.le_last hx')
  have hpos := (h.sound x (List.mem_append_left _ hx)).1
  have hlt := (Request.sector_lt_stop hpos).trans_le hstop
  rw [seek_of_le hbelow.le, seek_of_le (hlt.trans hbelow).le]
  exact Nat.sub_lt_sub_left (hlt.trans hbelow) hlt

/-- The first upper request is strictly nearer than the rest of its queue. -/
theorem Split.seek_lt_upper {upper : List (Request ι)} (h : gd.Split)
    (hupper : gd.upperQueue = rq :: upper) (hx : x ∈ gd.upperQueue) (hne : x ≠ rq) :
    seek gd.diskHead rq < seek gd.diskHead x := by
  have hrq : rq ∈ gd.pending := by simp [pending, hupper]
  have hahead := h.ahead rq (by simp [hupper])
  have hasc := h.upper
  have hx' := hx
  rw [hupper] at hasc hx'
  have hstop := h.stop_le hrq (List.mem_append_right _ hx) hne.symm (hasc.head_le hx')
  have hpos := (h.sound rq hrq).1
  have hlt := (Request.sector_lt_stop hpos).trans_le hstop
  rw [seek_of_ge hahead, seek_of_ge (hahead.trans hlt.le)]
  exact Nat.sub_lt_sub_right hahead hlt

/-- The differences that a dispatch compares are the distances. -/
theorem Split.sub64_lower (h : gd.Split) (hx : x ∈ gd.lowerQueue) :
    sub64 gd.diskHead x.sector = seek gd.diskHead x := by
  have hbelow := h.below x hx
  rw [sub64_of_le hbelow.le h.head, seek_of_le hbelow.le]

theorem Split.sub64_upper (h : gd.Split) (hx : x ∈ gd.upperQueue) :
    sub64 x.sector gd.diskHead = seek gd.diskHead x := by
  have hahead := h.ahead x hx
  have hsound := (h.sound x (List.mem_append_right _ hx)).2
  rw [sub64_of_le hahead (x.sector_le_stop.trans_lt hsound), seek_of_ge hahead]

/-- The request served is strictly the most urgent: of two at one distance the lower
queue holds the one behind the head. -/
theorem Split.urgency_lt (h : gd.Split) (hd : gd.greedyDispatch = some (rq, gd'))
    (hx : x ∈ gd.pending) (hne : x ≠ rq) :
    urgency gd.diskHead rq < urgency gd.diskHead x := by
  unfold urgency
  rw [Prod.Lex.toLex_lt_toLex]
  rcases dispatch_cases hd with ⟨lower, hlower, -, hdist⟩ | ⟨upper, hupper, -, hdist⟩
  · have hrq : rq ∈ gd.lowerQueue := by simp [hlower]
    refine .inl ?_
    rcases List.mem_append.mp hx with hx | hx
    · exact h.seek_lt_lower hlower hx hne
    · cases hup : gd.upperQueue with
      | nil =>
        rw [hup] at hx
        cases hx
      | cons u upper =>
        have hu : u ∈ gd.upperQueue := by simp [hup]
        have hlt := hdist u upper hup
        rw [h.sub64_lower hrq, h.sub64_upper hu] at hlt
        by_cases heq : x = u
        · rw [heq]
          exact hlt
        · exact hlt.trans (h.seek_lt_upper hup hx heq)
  · have hrq : rq ∈ gd.upperQueue := by simp [hupper]
    have hahead := h.ahead rq hrq
    rcases List.mem_append.mp hx with hx | hx
    · rcases List.eq_nil_or_concat' gd.lowerQueue with hnil | ⟨lower, l, hlower⟩
      · rw [hnil] at hx
        cases hx
      · have hl : l ∈ gd.lowerQueue := by simp [hlower]
        have hbelow := h.below x hx
        have hle := hdist l lower hlower
        rw [h.sub64_lower hl, h.sub64_upper hrq] at hle
        have hlx : seek gd.diskHead l ≤ seek gd.diskHead x := by
          by_cases heq : x = l
          · rw [heq]
          · exact (h.seek_lt_lower hlower hx heq).le
        rw [if_pos hahead, if_neg hbelow.not_ge]
        dsimp only
        omega
    · exact .inl (h.seek_lt_upper hupper hx hne)

end Urgency

end GreedyData

/-! ### The refinement -/

/-- Both hold the same requests and heads. -/
structure Matches (gd : GreedyData ι) (r : Reference ι) : Prop where
  bag : gd.pending.Perm r.bag
  head : gd.diskHead = r.head

section Refinement

variable [DecidableEq ι] {gd gd' : GreedyData ι} {r : Reference ι} {rq : Request ι}

/-- The reference serves the same request. -/
theorem Matches.dispatch (h : Matches gd r) (hsplit : gd.Split)
    (hd : gd.greedyDispatch = some (rq, gd')) :
    ∃ r', r.dispatch = some (rq, r') ∧ Matches gd' r' := by
  have hperm := GreedyData.dispatch_pending_perm hd
  have hrq : rq ∈ gd.pending := hperm.mem_iff.mpr List.mem_cons_self
  have hlt : ∀ x ∈ r.bag, x ≠ rq → urgency r.head rq < urgency r.head x := by
    intro x hx hne
    rw [← h.head]
    exact hsplit.urgency_lt hd (h.bag.mem_iff.mpr hx) hne
  have hmin : r.bag.argmin (urgency r.head) = some rq := by
    refine List.argmin_eq_some_iff.mpr ⟨h.bag.mem_iff.mp hrq, ?_, ?_⟩
    · intro x hx
      by_cases hne : x = rq
      · rw [hne]
      · exact (hlt x hx hne).le
    · intro x hx hle
      by_cases hne : x = rq
      · rw [hne]
      · exact absurd hle (not_le_of_gt (hlt x hx hne))
  refine ⟨⟨r.bag.erase rq, rq.stop⟩, by simp [Reference.dispatch, hmin], ?_, ?_⟩
  · have herase := (h.bag.symm.trans hperm).erase rq
    rw [List.erase_cons_head] at herase
    exact herase.symm
  · rw [GreedyData.dispatch_diskHead hd, hsplit.endSector hrq]

theorem Matches.dispatch_none (h : Matches gd r) (hd : gd.greedyDispatch = none) :
    r.dispatch = none := by
  have hnil := GreedyData.dispatch_eq_none_iff.mp hd
  have hbag := h.bag
  rw [hnil, List.nil_perm] at hbag
  simp [Reference.dispatch, hbag]

/-- One action serves the same request and leaves both alike. -/
theorem Matches.act {a : GreedyAct ι} (h : Matches gd r) (hsplit : gd.Split) :
    gd.served a = r.served a ∧ Matches (gd.act a) (r.act a) := by
  cases a with
  | add rq =>
    refine ⟨rfl, (gd.add_pending_perm rq).trans (h.bag.cons rq), ?_⟩
    simp only [GreedyData.act, GreedyData.greedyAddRequest, Reference.act]
    split
    · exact h.head
    · exact h.head
  | merge rq next =>
    refine ⟨rfl, ?_, h.head⟩
    simp only [GreedyData.act, GreedyData.merge_pending hsplit.nodup]
    exact (h.bag.erase next).map _
  | dispatch =>
    simp only [GreedyData.served, GreedyData.act, GreedyData.afterDispatch, Reference.served,
      Reference.act]
    cases hd : gd.greedyDispatch with
    | none =>
      rw [h.dispatch_none hd]
      exact ⟨rfl, h⟩
    | some d =>
      obtain ⟨r', hr, hmatches⟩ := h.dispatch hsplit hd
      rw [hr]
      exact ⟨rfl, hmatches⟩

theorem trace_eq_of_matches {as : List (GreedyAct ι)} {s t : GreedyData ι} (h : Matches s r)
    (hsplit : s.Split) (hrun : Along GreedyData.Step (fun s a _ => Disjointly s a) s as t) :
    s.trace as = r.trace as := by
  induction hrun generalizing r with
  | nil => rfl
  | @cons s m t a as hstep hP _ ih =>
    obtain ⟨hserved, hmatches⟩ := h.act (a := a) hsplit
    have hm := hsplit.step hstep hP
    obtain ⟨-, rfl⟩ := hstep
    simp only [GreedyData.trace, Reference.trace, hserved, hmatches.head, ih hmatches hm]

end Refinement

/-- **The two queues refine the bag.** Along every run in which the arriving requests
cover sectors of their own and merges join neighbours, the requests dispatched and the
positions of the head are those of the reference. -/
theorem greedy_refines_reference [DecidableEq ι] (as : List (GreedyAct ι)) (t : GreedyData ι)
    (h : Along GreedyData.Step (fun s a _ => Disjointly s a) .greedyInitQueue as t) :
    GreedyData.greedyInitQueue.trace as = Reference.initial.trace as :=
  trace_eq_of_matches ⟨List.Perm.nil, rfl⟩ GreedyData.split_init h

/-- Two requests at one distance from the head, the upper of them merged from two. -/
def tieRun : List (GreedyAct ℕ) :=
  [.add ⟨0, 100, 50⟩, .dispatch, .add ⟨1, 100, 10⟩, .add ⟨3, 210, 5⟩, .add ⟨2, 200, 10⟩,
    .merge ⟨2, 200, 10⟩ ⟨3, 210, 5⟩, .dispatch, .dispatch, .dispatch]

theorem tieRun_refines :
    GreedyData.greedyInitQueue.trace tieRun = Reference.initial.trace tieRun :=
  greedy_refines_reference tieRun _ <| .cons ⟨by decide, rfl⟩ (by decide) <|
    .cons ⟨trivial, rfl⟩ trivial <| .cons ⟨by decide, rfl⟩ (by decide) <|
    .cons ⟨by decide, rfl⟩ (by decide) <| .cons ⟨by decide, rfl⟩ (by decide) <|
    .cons ⟨by decide, rfl⟩ (by decide) <| .cons ⟨trivial, rfl⟩ trivial <|
    .cons ⟨trivial, rfl⟩ trivial <| .cons ⟨trivial, rfl⟩ trivial <| .nil _

example : (GreedyData.greedyInitQueue.trace tieRun).map Prod.snd =
    [0, 150, 150, 150, 150, 150, 215, 110, 110] := by decide

end OsProjects.Scheduler
