import Mathlib.Data.Fintype.EquivFin
import OsProjects.Scheduler.Reference

/-!
# Starvation

The scheduler serves what is near to the head, so requests that keep arriving there are
served before those that are pending. Is there a bound on how often that can happen? There
is none, but in one situation: when the last lower request starts right below the head and
nothing can arrive in front of it, because the upper queue begins with a request that the
head has passed, or is empty with the head at the end of the disk.

## Main definitions

* `Spares` — requests arrive and are dispatched, but not certain ones
* `GreedyData.Cornered` — nothing that arrives can be served before this lower request
* `GreedyData.Passable` — a request for the sector below the head is served at once

## Main results

* `Passable.dispatch_add` — such a request leaves the scheduler as it was
* `starvation_iff` — there is no bound on the waiting of what is pending, unless a request
  is cornered
-/

namespace OsProjects.Scheduler

open Run

variable {ι : Type*}

def GreedyAct.isDispatch : GreedyAct ι → Bool
  | .dispatch => true
  | _ => false

/-- Requests of the right size arrive, and none of the victims is dispatched. -/
def Spares [DecidableEq ι] (victims : List (Request ι)) (s : GreedyData ι) :
    GreedyAct ι → GreedyData ι → Prop
  | .add rq, _ => Sized s (.add rq)
  | .merge _ _, _ => False
  | .dispatch, _ => ∀ rq ∈ victims, s.served .dispatch ≠ some rq

/-! ### Where a request is inserted -/

section Insertion

variable {rq : Request ι} {queue : List (Request ι)}

/-- Above the last request of a queue. -/
theorem addSorted_eq_concat (h : ∀ l ∈ queue.getLast?, l.sector < rq.sector) :
    addSorted rq queue = queue ++ [rq] := by
  obtain ⟨front, back, rfl, hadd, hback, -⟩ := addSorted_split rq queue
  rcases List.eq_nil_or_concat' back with rfl | ⟨back', l, rfl⟩
  · rw [hadd, List.append_nil]
  · have hlast : l.sector < rq.sector := h l (by simp)
    have hle := hback l (by simp)
    exact absurd hlast hle.not_gt

/-- Not above it. -/
theorem getLast?_addSorted {l : Request ι} (hl : queue.getLast? = some l)
    (h : rq.sector ≤ l.sector) : (addSorted rq queue).getLast? = some l := by
  obtain ⟨front, back, rfl, hadd, -, hfront⟩ := addSorted_split rq queue
  rcases List.eq_nil_or_concat' back with rfl | ⟨back', l', rfl⟩
  · rw [List.append_nil] at hl
    obtain ⟨front', rfl⟩ := List.getLast?_eq_some_iff.mp hl
    exact absurd (hfront l front' rfl) h.not_gt
  · rw [← List.append_assoc, List.getLast?_concat] at hl
    rw [hadd, ← List.cons_append, ← List.append_assoc, List.getLast?_concat, hl]

/-- At or below the first request of a queue. -/
theorem addSorted_eq_cons (hqueue : Ascending queue) (h : ∀ u ∈ queue.head?, rq.sector ≤ u.sector) :
    addSorted rq queue = rq :: queue := by
  obtain ⟨front, back, rfl, hadd, -, hfront⟩ := addSorted_split rq queue
  cases front with
  | nil => exact hadd
  | cons u front =>
    -- the front ends below the new request, though it begins at or above it
    have hu : rq.sector ≤ u.sector := h u rfl
    have hlast : ∃ l ∈ u :: front, l.sector < rq.sector := by
      rcases List.eq_nil_or_concat' front with rfl | ⟨front', l, rfl⟩
      · exact ⟨u, List.mem_cons_self, hfront u [] rfl⟩
      · exact ⟨l, by simp, hfront l (u :: front') rfl⟩
    obtain ⟨l, hl, hlt⟩ := hlast
    have hle := hqueue.head_le (List.mem_append_left back hl)
    exact absurd (hu.trans hle) hlt.not_ge

/-- Above it. -/
theorem head?_addSorted {u : Request ι} (hu : queue.head? = some u)
    (h : u.sector < rq.sector) : (addSorted rq queue).head? = some u := by
  obtain ⟨front, back, rfl, hadd, hback, -⟩ := addSorted_split rq queue
  cases front with
  | nil =>
    have hle := hback u (List.mem_of_mem_head? hu)
    exact absurd h hle.not_gt
  | cons u' front =>
    rw [hadd]
    simpa using hu

end Insertion

/-! ### A request that is served at once -/

namespace GreedyData

variable {s t gd : GreedyData ι} {rq l : Request ι}

/-- The lower queue ends below the sector right below the head, and the upper queue begins
below the head, if it begins at all. -/
structure Passable (s : GreedyData ι) : Prop where
  pos : 0 < s.diskHead
  lower : ∀ l ∈ s.lowerQueue.getLast?, l.sector + 1 < s.diskHead
  upper : ∀ u ∈ s.upperQueue.head?, u.sector < s.diskHead

/-- A request for the sector right below the head. -/
def justBelow (s : GreedyData ι) (id : ι) : Request ι := ⟨id, s.diskHead - 1, 1⟩

/-- It is served at once, and leaves the scheduler as it was. -/
theorem Passable.dispatch_add (h : s.Passable) (hs : s.Ordered) (id : ι) :
    (s.greedyAddRequest (s.justBelow id)).greedyDispatch = some (s.justBelow id, s) := by
  have hpos := h.pos
  have hhead := hs.head
  have hlower : addSorted (s.justBelow id) s.lowerQueue = s.lowerQueue ++ [s.justBelow id] := by
    apply addSorted_eq_concat
    intro l hl
    exact Nat.lt_sub_of_add_lt (h.lower l hl)
  have hend : (s.justBelow id).endSector = s.diskHead := by
    have hsum := Nat.sub_add_cancel hpos
    exact (add64_of_lt (by omega : s.diskHead - 1 + 1 < 2 ^ 64)).trans hsum
  have hadd : s.greedyAddRequest (s.justBelow id) =
      { s with lowerQueue := s.lowerQueue ++ [s.justBelow id] } := by
    rw [← hlower]
    exact if_pos (Nat.sub_one_lt hpos.ne')
  rw [hadd]
  cases hu : s.upperQueue.head? with
  | none => simp [greedyDispatch, hu, hend]
  | some u =>
    -- the upper queue begins behind the head, which takes the distance around
    have hstale := h.upper u hu
    have hdist : sub64 s.diskHead (s.justBelow id).sector < sub64 u.sector s.diskHead := by
      rw [justBelow, sub64_of_le (Nat.sub_le _ _) (by omega), sub64_of_lt hstale (by omega)]
      omega
    simp [greedyDispatch, hu, hend, hdist]

/-- A request at the head is served at once when the upper queue does not begin below it. -/
theorem Ordered.dispatch_add_head (hs : s.Ordered) (hrq : rq.sector = s.diskHead)
    (hend : rq.sector + rq.sectors < 2 ^ 63) (hupper : ∀ u ∈ s.upperQueue.head?,
      s.diskHead ≤ u.sector) :
    (s.greedyAddRequest rq).greedyDispatch =
      some (rq, { s with diskHead := s.diskHead + rq.sectors }) := by
  have hadd : s.greedyAddRequest rq = { s with upperQueue := rq :: s.upperQueue } := by
    rw [← addSorted_eq_cons hs.upper (by rwa [hrq])]
    exact if_neg (hrq ▸ lt_irrefl _)
  have hstop : rq.endSector = s.diskHead + rq.sectors := by
    rw [Request.endSector, add64_of_lt (by omega), hrq]
  have hhead := hs.head
  rw [hadd]
  cases hl : s.lowerQueue.getLast? with
  | none => simp [greedyDispatch, hl, hstop]
  | some l =>
    have hzero : sub64 rq.sector s.diskHead = 0 := by
      rw [hrq, sub64_of_le le_rfl (by omega), Nat.sub_self]
    simp [greedyDispatch, hl, hstop, hzero]

/-- Where there is room above the head, a request there takes the head past the whole upper
queue. -/
theorem Ordered.exists_passable (hs : s.Ordered) (hroom : s.diskHead + 1 < 2 ^ 63)
    (hupper : ∀ u ∈ s.upperQueue.head?, s.diskHead ≤ u.sector) :
    ∃ sectors, 1 ≤ sectors ∧ s.diskHead + sectors < 2 ^ 63 ∧
      Passable { s with diskHead := s.diskHead + sectors } := by
  have hbeyond : ∃ sectors, 1 ≤ sectors ∧ s.diskHead + sectors < 2 ^ 63 ∧
      ∀ u ∈ s.upperQueue, u.sector < s.diskHead + sectors := by
    rcases List.eq_nil_or_concat' s.upperQueue with hnil | ⟨upper, u, hu⟩
    · exact ⟨1, le_rfl, hroom, by simp [hnil]⟩
    · have hsound := hs.sound u (by simp [pending, hu])
      have hlast : ∀ x ∈ s.upperQueue, x.sector ≤ u.sector := by
        intro x hx
        have hasc := hs.upper
        rw [hu] at hasc hx
        exact hasc.le_last hx
      have hne : s.upperQueue ≠ [] := by simp [hu]
      have hle := (hupper _ (List.head?_eq_some_head hne)).trans (hlast _ (List.head_mem hne))
      refine ⟨u.sector + 1 - s.diskHead, by omega, by omega, fun x hx => ?_⟩
      have hx := hlast x hx
      omega
  obtain ⟨sectors, hsectors, hend, hpast⟩ := hbeyond
  refine ⟨sectors, hsectors, hend, Nat.add_pos_right _ hsectors, fun l hl => ?_, fun u hu => ?_⟩
  · have hbelow := hs.below l (List.mem_of_mem_getLast? hl)
    simp only
    omega
  · exact hpast u (List.mem_of_mem_head? hu)

/-! ### A request that is served next -/

/-- The last lower request starts right below the head, and the upper queue begins below the
head or is empty, with the head at the end of the disk. -/
structure Cornered (s : GreedyData ι) (l : Request ι) : Prop where
  last : s.lowerQueue.getLast? = some l
  near : l.sector + 1 = s.diskHead
  upper : ∀ u ∈ s.upperQueue.head?, u.sector < s.diskHead
  full : s.upperQueue = [] → s.diskHead + 1 = 2 ^ 63

theorem Cornered.mem_pending (h : s.Cornered l) : l ∈ s.pending :=
  List.mem_append_left _ (List.mem_of_mem_getLast? h.last)

/-- Nothing can arrive in front of it. -/
theorem Cornered.add (h : s.Cornered l) (hpos : 1 ≤ rq.sectors)
    (hend : rq.sector + rq.sectors < 2 ^ 63) : (s.greedyAddRequest rq).Cornered l := by
  have hnear := h.near
  unfold greedyAddRequest
  split
  · exact ⟨getLast?_addSorted h.last (by omega), hnear, h.upper, h.full⟩
  · rename_i hge
    cases hu : s.upperQueue.head? with
    | none =>
      have hfull := h.full (List.head?_eq_none_iff.mp hu)
      omega
    | some u =>
      have hstale := h.upper u hu
      have hhead := head?_addSorted hu (by omega : u.sector < rq.sector)
      refine ⟨h.last, hnear, fun x hx => ?_, fun hnil => ?_⟩
      · obtain rfl := Option.some_inj.mp (hhead.symm.trans hx)
        exact hstale
      · have hempty : addSorted rq s.upperQueue = [] := hnil
        rw [hempty] at hhead
        cases hhead

/-- It is served next. -/
theorem Cornered.served (h : s.Cornered l) (hs : s.Ordered) [DecidableEq ι] :
    s.served .dispatch = some l := by
  have hnear := h.near
  have hhead := hs.head
  cases hu : s.upperQueue.head? with
  | none => simp [GreedyData.served, greedyDispatch, h.last, hu]
  | some u =>
    have hstale := h.upper u hu
    have hdist : sub64 s.diskHead l.sector < sub64 u.sector s.diskHead := by
      rw [sub64_of_le (by omega) (by omega), sub64_of_lt hstale (by omega)]
      omega
    simp [GreedyData.served, greedyDispatch, h.last, hu, hdist]

/-- Unless a request is cornered, the next one served can be one that arrives, now and ever
after. -/
theorem Ordered.passable_or (hs : s.Ordered) (h : ∀ l, ¬s.Cornered l) :
    s.Passable ∨ s.diskHead + 1 < 2 ^ 63 ∧ ∀ u ∈ s.upperQueue.head?, s.diskHead ≤ u.sector := by
  have hhead := hs.head
  by_cases hahead : ∀ u ∈ s.upperQueue.head?, s.diskHead ≤ u.sector
  · by_cases hroom : s.diskHead + 1 < 2 ^ 63
    · exact .inr ⟨hroom, hahead⟩
    · have hnil : s.upperQueue = [] := by
        apply List.head?_eq_none_iff.mp
        apply Option.eq_none_iff_forall_not_mem.mpr
        intro u hu
        have hsound := hs.sound u (List.mem_append_right _ (List.mem_of_mem_head? hu))
        have hle := hahead u hu
        omega
      refine .inl ⟨by omega, fun l hl => ?_, by simp [hnil]⟩
      have hbelow := hs.below l (List.mem_of_mem_getLast? hl)
      have hnear : l.sector + 1 ≠ s.diskHead := fun hnear =>
        h l ⟨hl, hnear, by simp [hnil], fun _ => by omega⟩
      omega
  · push Not at hahead
    obtain ⟨u, hu, hstale⟩ := hahead
    have hupper : ∀ x ∈ s.upperQueue.head?, x.sector < s.diskHead := by
      intro x hx
      obtain rfl := Option.some_inj.mp (hu.symm.trans hx)
      exact hstale
    refine .inl ⟨by omega, fun l hl => ?_, hupper⟩
    have hbelow := hs.below l (List.mem_of_mem_getLast? hl)
    have hnear : l.sector + 1 ≠ s.diskHead := by
      refine fun hnear => h l ⟨hl, hnear, hupper, fun hnil => ?_⟩
      rw [hnil] at hu
      cases hu
    omega

end GreedyData

/-! ### Runs -/

section Runs

variable [DecidableEq ι] {s t : GreedyData ι} {victims : List (Request ι)} {rq : Request ι}

omit [DecidableEq ι] in
theorem countP_add_dispatch (rq : Request ι) (as : List (GreedyAct ι)) :
    ([GreedyAct.add rq, .dispatch] ++ as).countP GreedyAct.isDispatch =
      as.countP GreedyAct.isDispatch + 1 := by
  simp [List.countP_cons, GreedyAct.isDispatch]

/-- A request arrives and is served at once. -/
theorem along_add_dispatch (hfresh : ∀ x ∈ s.pending, x.id ≠ rq.id) (hpos : 1 ≤ rq.sectors)
    (hend : rq.sector + rq.sectors < 2 ^ 63) (hrq : rq ∉ victims)
    (hdispatch : (s.greedyAddRequest rq).greedyDispatch = some (rq, t)) :
    Along GreedyData.Step (Spares victims) s [.add rq, .dispatch] t := by
  refine Along.cons ⟨hfresh, rfl⟩ ⟨hpos, hend⟩ (Along.single ⟨trivial, ?_⟩ ?_)
  · simp only [GreedyData.act, GreedyData.afterDispatch, hdispatch]
  · intro victim hvictim heq
    simp only [GreedyData.served, GreedyData.act, hdispatch, Option.map_some] at heq
    exact hrq (Option.some_inj.mp heq ▸ hvictim)

/-- Where a request for the sector below the head is served at once, so is one after the
other. -/
theorem GreedyData.Passable.starves (h : s.Passable) (hs : s.Ordered) {id : ι}
    (hfresh : ∀ x ∈ s.pending, x.id ≠ id) (hvictims : ∀ x ∈ victims, x.id ≠ id) (n : ℕ) :
    ∃ as, Along GreedyData.Step (Spares victims) s as s ∧
      as.countP GreedyAct.isDispatch = n := by
  induction n with
  | zero => exact ⟨[], Along.nil s, rfl⟩
  | succ n ih =>
    obtain ⟨as, has, hcount⟩ := ih
    have hround :
        Along GreedyData.Step (Spares victims) s [.add (s.justBelow id), .dispatch] s := by
      have hpos := h.pos
      have hhead := hs.head
      refine along_add_dispatch hfresh le_rfl ?_ (fun hmem => hvictims _ hmem rfl)
        (h.dispatch_add hs id)
      simp only [GreedyData.justBelow]
      omega
    exact ⟨_, hround.append has, by rw [countP_add_dispatch, hcount]⟩

/-- As long as a victim is cornered nothing is dispatched. -/
theorem countP_eq_zero_of_cornered {l : Request ι} {as : List (GreedyAct ι)}
    (h : Along GreedyData.Step (Spares victims) s as t) (hs : s.Ordered) (hl : s.Cornered l)
    (hvictim : l ∈ victims) : as.countP GreedyAct.isDispatch = 0 := by
  induction h with
  | nil => rfl
  | @cons s m t a as hstep ha _ ih =>
    cases a with
    | add rq =>
      obtain ⟨-, rfl⟩ := hstep
      exact ih (hs.add ha.1 ha.2) (hl.add ha.1 ha.2)
    | merge rq next => exact ha.elim
    | dispatch => exact absurd (hl.served hs) (ha l hvictim)

end Runs

/-- **There is no bound on waiting, unless a request is cornered.** From every state reached
by adding, merging and dispatching requests below sector `2 ^ 63`: for every `n` requests can
arrive, and `n` be dispatched, such that none of those now pending is dispatched, if and only
if none of these is cornered. -/
theorem starvation_iff [DecidableEq ι] [Infinite ι] (as : List (GreedyAct ι)) (s : GreedyData ι)
    (h : Along GreedyData.Step (fun s a _ => Sized s a) .greedyInitQueue as s) :
    (∀ n, ∃ bs t, Along GreedyData.Step (Spares s.pending) s bs t ∧
      bs.countP GreedyAct.isDispatch = n) ↔ ∀ l, ¬s.Cornered l := by
  have hs : s.Ordered := h.invariant GreedyData.Ordered
    (fun _ _ _ hs hstep ha => hs.step hstep ha) GreedyData.ordered_init
  constructor
  · intro hstarves l hl
    obtain ⟨bs, t, hrun, hcount⟩ := hstarves 1
    rw [countP_eq_zero_of_cornered hrun hs hl hl.mem_pending] at hcount
    cases hcount
  · intro hfree n
    obtain ⟨id, hid⟩ := Infinite.exists_notMem_finset (s.pending.map Request.id).toFinset
    have hfresh : ∀ x ∈ s.pending, x.id ≠ id := by
      intro x hx heq
      exact hid (by simpa [heq] using List.mem_map_of_mem (f := Request.id) hx)
    rcases hs.passable_or hfree with hpass | ⟨hroom, hahead⟩
    · obtain ⟨bs, hrun, hcount⟩ := hpass.starves hs hfresh hfresh n
      exact ⟨bs, s, hrun, hcount⟩
    · cases n with
      | zero => exact ⟨[], s, Along.nil s, rfl⟩
      | succ n =>
        obtain ⟨sectors, hpos, hend, hpass⟩ := hs.exists_passable hroom hahead
        let first : Request ι := ⟨id, s.diskHead, sectors⟩
        have hfirst : first ∉ s.pending := fun hmem => hfresh first hmem rfl
        have hsector : first.sector = s.diskHead := rfl
        have hdispatch := hs.dispatch_add_head hsector hend hahead
        have hround := along_add_dispatch hfresh hpos hend hfirst hdispatch
        have hs' := (hs.add hpos hend).dispatch hdispatch
        obtain ⟨bs, hrun, hcount⟩ := hpass.starves hs' hfresh hfresh n
        exact ⟨_, _, hround.append hrun, by rw [countP_add_dispatch, hcount]⟩

/-- With a request on either side of the head, neither of which is served for a thousand
dispatches. -/
theorem starvation_iff_pair :
    ∃ bs t, Along GreedyData.Step (Spares [(⟨1, 2, 1⟩ : Request ℕ), ⟨2, 9, 1⟩])
      ⟨[⟨1, 2, 1⟩], [⟨2, 9, 1⟩], 6⟩ bs t ∧ bs.countP GreedyAct.isDispatch = 1000 := by
  have hrun : Along GreedyData.Step (fun s a _ => Sized s a) .greedyInitQueue
      [.add ⟨0, 5, 1⟩, .dispatch, .add ⟨1, 2, 1⟩, .add ⟨2, 9, 1⟩]
      (⟨[⟨1, 2, 1⟩], [⟨2, 9, 1⟩], 6⟩ : GreedyData ℕ) := by
    refine .cons ⟨?_, rfl⟩ ?_ <| .cons ⟨trivial, rfl⟩ trivial <| .cons ⟨?_, rfl⟩ ?_ <|
      .cons ⟨?_, rfl⟩ ?_ <| .nil _
    all_goals decide
  refine (starvation_iff _ _ hrun).mpr ?_ 1000
  rintro l ⟨hlast, hnear, -, -⟩
  obtain rfl := Option.some_inj.mp hlast
  cases hnear

end OsProjects.Scheduler
