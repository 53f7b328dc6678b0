import OsProjects.Driver.Preemption

/-!
# The loop of `fifo_flush` ends

`fifo_flush` publishes the head and then reads `FifoTail` until what it has read is the
head. While it does, completion interrupts may move the head: each completion but the
last of the queue appends the next buffer's two entries and publishes the head again. So
what the loop waits for moves away from it, though only as often as there are buffers in
the queue, since a client inside `fifo_flush` submits none.

An interrupt uses up a buffer of the queue and puts the head less than a lap from the
card's tail; a step of the card uses up one entry of that distance. When neither happens
between two rounds of the loop, the tail that was read was the head.

## Main definitions

* `PreemptSys.Round` — a round of the loop, and what happens before the next
* `PreemptSys.effort` — what the card and the queue have still to do

## Main results

* `PreemptSys.Flushing.round` — every round takes some of the effort
* `PreemptSys.Flushing.exists_round` — there is always a next round, until the loop ends
* `fifo_flush_exits` — the loop ends, with the cached tail at the head
-/

namespace OsProjects.Driver

open Run RingLog

namespace PreemptSys

/-! ### Rounds of the loop -/

/-- The process in `fifo_flush`, with the head published, about to test the condition of
its loop for the first time. -/
def flushing (k : Kyouko3) (card : Card) : PreemptSys := ⟨k.publish, card, .flushLoop⟩

/-- `tail_cache = K_READ_REGISTER(FifoTail)` -/
def readTail (s : PreemptSys) : PreemptSys :=
  { s with k := { s.k with fifo := { s.k.fifo with tailCache := s.card.tail } } }

/-- The test of the loop is about to end it. -/
def Exits (s : PreemptSys) : Prop := ∃ t, s.Step .run t ∧ t.pc = .idle

/-- What may happen between two rounds: the card executes an entry, or interrupts. -/
def Elsewhere : PreemptAct → Prop
  | .exec | .intr _ => True
  | _ => False

/-- A round of the loop, and what happens before the next. If the tail that it read was
behind `FifoHead`, the card executes an entry in that time. -/
def Round (s t : PreemptSys) : Prop :=
  ∃ m as, s.Step .run m ∧ m.pc = .flushLoop ∧ Along Step (fun _ a _ => Elsewhere a) m as t ∧
    (s.card.tail ≠ s.k.register fifoHead → .exec ∈ as)

/-- What the card and the queue have still to do: a lap for each buffer in the queue, and
the entries up to the published head. -/
def effort (s : PreemptSys) : ℕ :=
  s.k.queuedCount.toNat * (2 * fifoEntries) +
    2 * gap fifoEntries s.card.tail (s.k.register fifoHead)

/-- The effort, and one round more as long as the head has not been read. -/
def potential (s : PreemptSys) : ℕ :=
  s.effort + if s.k.fifo.tailCache = s.k.fifo.head then 0 else 1

/-- What holds throughout the loop. -/
structure Flushing (s : PreemptSys) : Prop where
  pc : s.pc = .flushLoop
  published : s.k.register fifoHead = s.k.fifo.head
  head_lt : s.k.fifo.head < fifoEntries
  tail_lt : s.card.tail < fifoEntries
  queued : 0 ≤ s.k.queuedCount

/-- It is at most a lap, twice over, for each buffer in the queue, and one for the ring. -/
theorem potential_le (s : PreemptSys) :
    s.potential ≤ (s.k.queuedCount.toNat + 1) * (2 * fifoEntries) := by
  have hgap := gap_lt (N := fifoEntries) (by decide) s.card.tail (s.k.register fifoHead)
  have hread : (if s.k.fifo.tailCache = s.k.fifo.head then 0 else 1) ≤ 1 := by
    split <;> decide
  rw [potential, effort, Nat.add_one_mul s.k.queuedCount.toNat]
  omega

variable {s t : PreemptSys}

theorem flushing_publish {k : Kyouko3} {c : Card} (hhead : k.fifo.head < fifoEntries)
    (htail : c.tail < fifoEntries) (hqueued : 0 ≤ k.queuedCount) : (flushing k c).Flushing where
  pc := rfl
  published := k.register_publish
  head_lt := hhead
  tail_lt := htail
  queued := hqueued

/-- A round either reads the card's tail or, when the cached tail is the head, ends the
loop. -/
theorem Flushing.run (hs : s.Flushing) (h : s.Step .run t) :
    s.k.fifo.tailCache ≠ s.k.fifo.head ∧
        t = s.readTail ∨ s.k.fifo.tailCache = s.k.fifo.head ∧ t = { s with pc := .idle } := by
  simp only [Step, step, PreemptSys.run, hs.pc, Kyouko3.fifoFlushLoop] at h
  by_cases hcache : s.k.fifo.tailCache = s.k.fifo.head
  · rw [if_neg (not_not.mpr hcache)] at h
    exact .inr ⟨hcache, (Option.some_inj.mp h).symm⟩
  · rw [if_pos hcache] at h
    refine .inl ⟨hcache, ?_⟩
    rw [← Option.some_inj.mp h, readTail, hs.pc]

/-! ### Between two rounds -/

/-- The card executes one of the entries up to the head. -/
theorem Flushing.exec (hs : s.Flushing) (h : s.Step .exec t) :
    t.Flushing ∧ t.effort + 2 ≤ s.effort := by
  simp only [Step, step, Option.map_eq_some_iff] at h
  obtain ⟨c, hc, rfl⟩ := h
  obtain ⟨hne, rfl⟩ := Card.exec_eq_some_iff.mp hc
  have hgap := gap_succ hs.tail_lt (hs.published ▸ hs.head_lt) hne
  refine ⟨⟨hs.pc, hs.published, hs.head_lt, mod_fifoEntries_lt _, hs.queued⟩, ?_⟩
  simp only [effort]
  omega

/-- An interrupt reports a completion, and then the queue is one shorter, or it changes
nothing that concerns the loop. -/
theorem Flushing.intr {iflags : ℕ} (hs : s.Flushing) (h : s.Step (.intr iflags) t) :
    t.Flushing ∧
      (t.effort + 2 ≤ s.effort ∨ t.k.fifo = s.k.fifo ∧ t.effort = s.effort) := by
  simp only [Step, step] at h
  split at h
  · rename_i hpos
    obtain rfl := Option.some_inj.mp h
    have hring := Kyouko3.dmaIntr_published iflags hs.head_lt hs.published
    by_cases hflag : iflags &&& 0x02 = 0
    · obtain ⟨hfifo, hreg⟩ := Kyouko3.dmaIntr_fifo_of_last (k := s.k) (.inl hflag)
      have hqueued : (s.k.dmaIntr iflags).2.queuedCount = s.k.queuedCount := by
        rw [Kyouko3.dmaIntr_spurious hflag]
        rfl
      refine ⟨⟨hs.pc, hring.1, hring.2, hs.tail_lt, ?_⟩, .inr ⟨hfifo, ?_⟩⟩
      · rw [hqueued]
        exact hs.queued
      · simp only [effort, hqueued, hreg]
    · have hqueued := Kyouko3.dmaIntr_queuedCount (k := s.k) hflag
      refine ⟨⟨hs.pc, hring.1, hring.2, hs.tail_lt, ?_⟩, .inl ?_⟩
      · rw [hqueued]
        omega
      · -- wherever the head is now, it is less than a lap from the tail
        have hgap := gap_lt (N := fifoEntries) (by decide) s.card.tail
          ((s.k.dmaIntr iflags).2.register fifoHead)
        have hpred : s.k.queuedCount.toNat = (s.k.queuedCount - 1).toNat + 1 := by omega
        simp only [effort, hqueued]
        rw [hpred, Nat.add_one_mul (s.k.queuedCount - 1).toNat]
        omega
  · cases h

/-- What happens between two rounds takes some of the effort, or is no step of the card and
leaves the ring as it was. -/
theorem Flushing.along {as : List PreemptAct} (hs : s.Flushing)
    (h : Along Step (fun _ a _ => Elsewhere a) s as t) :
    t.Flushing ∧ (t.effort + 2 ≤ s.effort ∨
      .exec ∉ as ∧ t.k.fifo = s.k.fifo ∧ t.effort = s.effort) := by
  induction h with
  | nil s => exact ⟨hs, .inr ⟨List.not_mem_nil, rfl, rfl⟩⟩
  | @cons s m t a as hstep helse _ ih =>
    have hfirst : m.Flushing ∧ (m.effort + 2 ≤ s.effort ∨
        .exec ≠ a ∧ m.k.fifo = s.k.fifo ∧ m.effort = s.effort) := by
      cases a with
      | exec =>
        obtain ⟨hm, hle⟩ := hs.exec hstep
        exact ⟨hm, .inl hle⟩
      | intr iflags =>
        obtain ⟨hm, hle | hsame⟩ := hs.intr hstep
        · exact ⟨hm, .inl hle⟩
        · exact ⟨hm, .inr ⟨nofun, hsame⟩⟩
      | _ => exact absurd helse id
    obtain ⟨hm, hm'⟩ := hfirst
    obtain ⟨ht, ht'⟩ := ih hm
    refine ⟨ht, ?_⟩
    rcases hm' with hm' | ⟨hne, hfifo, heffort⟩
    · refine .inl ?_
      rcases ht' with ht' | ⟨-, -, ht'⟩ <;> omega
    · rcases ht' with ht' | ⟨hnot, hfifo', heffort'⟩
      · exact .inl (by omega)
      · refine .inr ⟨?_, hfifo'.trans hfifo, heffort'.trans heffort⟩
        rw [List.mem_cons, not_or]
        exact ⟨hne, hnot⟩

/-! ### Every round -/

/-- **Every round takes some of the effort**, if only by reading the head. -/
theorem Flushing.round (hs : s.Flushing) (h : Round s t) :
    t.Flushing ∧ t.potential < s.potential := by
  obtain ⟨m, as, hrun, hpc, halong, hfair⟩ := h
  rcases hs.run hrun with ⟨hcache, rfl⟩ | ⟨-, rfl⟩
  · have hm : s.readTail.Flushing :=
      ⟨hs.pc, hs.published, hs.head_lt, hs.tail_lt, hs.queued⟩
    obtain ⟨ht, hless | ⟨hnot, hfifo, heffort⟩⟩ := hm.along halong
    · refine ⟨ht, ?_⟩
      have hsame : s.readTail.effort = s.effort := rfl
      rw [potential, potential, if_neg hcache]
      split <;> omega
    · refine ⟨ht, ?_⟩
      have hread : s.card.tail = s.k.register Driver.fifoHead := by
        by_contra hne
        exact hnot (hfair hne)
      have hcached : t.k.fifo.tailCache = t.k.fifo.head := by
        rw [hfifo]
        exact hread.trans hs.published
      rw [potential, potential, if_neg hcache, if_pos hcached, heffort]
      exact Nat.lt_succ_self _
  · cases hpc

theorem Flushing.exits_iff (hs : s.Flushing) :
    s.Exits ↔ s.k.fifo.tailCache = s.k.fifo.head := by
  constructor
  · rintro ⟨t, hrun, hpc⟩
    rcases hs.run hrun with ⟨-, rfl⟩ | ⟨hcache, -⟩
    · cases hs.pc.symm.trans hpc
    · exact hcache
  · intro hcache
    refine ⟨{ s with pc := .idle }, ?_, rfl⟩
    simp [Step, step, PreemptSys.run, hs.pc, Kyouko3.fifoFlushLoop, hcache]

/-- Until the loop ends there is a next round: the card can go on as long as it is behind
the head. -/
theorem Flushing.exists_round (hs : s.Flushing) (h : ¬s.Exits) : ∃ t, Round s t := by
  rw [hs.exits_iff] at h
  have hrun : s.Step .run s.readTail := by
    simp [Step, step, readTail, PreemptSys.run, hs.pc, Kyouko3.fifoFlushLoop, h]
  by_cases hbehind : s.card.tail = s.k.register Driver.fifoHead
  · exact ⟨_, _, [], hrun, hs.pc, .nil _, fun hne => absurd hbehind hne⟩
  · obtain ⟨c, hc⟩ : ∃ c, s.card.exec s.readTail.k = some c :=
      ⟨_, Card.exec_eq_some_iff.mpr ⟨hbehind, rfl⟩⟩
    have hstep : s.readTail.Step .exec { s.readTail with card := c } :=
      Option.map_eq_some_iff.mpr ⟨c, hc, rfl⟩
    exact ⟨_, _, [.exec], hrun, hs.pc, .single hstep trivial, fun _ => List.mem_cons_self⟩

end PreemptSys

open PreemptSys in
/-- **The flush ends.** From any state of the ring and with any number of buffers in the
queue, whatever the card executes and whenever it interrupts between two rounds, if only
it executes an entry after each read of the tail that finds it behind `FifoHead`, the loop
of `fifo_flush` comes to a test that ends it, and then the cached tail is the head. -/
theorem fifo_flush_exits (k : Kyouko3) (card : Card) (n : ℕ) (states : ℕ → PreemptSys)
    (hhead : k.fifo.head < fifoEntries) (htail : card.tail < fifoEntries)
    (hqueued : k.queuedCount = n) (hstart : states 0 = flushing k card)
    (hround : ∀ i, ¬(states i).Exits → Round (states i) (states (i + 1))) :
    ∃ m ≤ (n + 1) * (2 * fifoEntries), ∃ t, (states m).Step .run t ∧ t.pc = .idle ∧
      t.k.fifo.tailCache = t.k.fifo.head := by
  have hinv : (states 0).Flushing := by
    rw [hstart]
    exact flushing_publish hhead htail (by omega)
  obtain ⟨m, hle, hm, hexits⟩ := exists_of_decreasing Flushing Exits potential
    (fun i hi hnot => hi.round (hround i hnot)) hinv
  have hcache := hm.exits_iff.mp hexits
  obtain ⟨t, hrun, hpc⟩ := hexits
  refine ⟨m, hle.trans ?_, t, hrun, hpc, ?_⟩
  · have hn : (flushing k card).k.queuedCount.toNat = n := by
      show k.queuedCount.toNat = n
      omega
    have hpotential := (flushing k card).potential_le
    rwa [hn, ← hstart] at hpotential
  · rcases hm.run hrun with ⟨hne, -⟩ | ⟨-, rfl⟩
    · exact absurd hcache hne
    · exact hcache

/-- One entry in the ring and two buffers in the queue. -/
def twoQueued : Kyouko3 :=
  { Kyouko3.zero with fifo := { Kyouko3.zero.fifo with head := 1 }, queuedCount := 2 }

/-- The state that actions lead to from the start of the flush. -/
def afterActions (as : List PreemptAct) : PreemptSys :=
  (as.foldlM PreemptSys.step (.flushing twoQueued ⟨0, [], 0⟩)).getD
    (.flushing twoQueued ⟨0, [], 0⟩)

/-- The first buffer completes in the first round, the second in the second round. -/
def completing : ℕ → PreemptSys
  | 0 => afterActions []
  | 1 => afterActions [.run, .exec, .intr 2]
  | 2 => afterActions [.run, .exec, .intr 2, .run, .exec, .exec, .intr 2]
  | _ => afterActions [.run, .exec, .intr 2, .run, .exec, .exec, .intr 2, .run]

/-- The loop waits for three entries, two of them appended while it waits. -/
theorem fifo_flush_exits_completing :
    ∃ m ≤ (2 + 1) * (2 * fifoEntries), ∃ t, (completing m).Step .run t ∧ t.pc = .idle ∧
      t.k.fifo.tailCache = t.k.fifo.head := by
  refine fifo_flush_exits twoQueued ⟨0, [], 0⟩ 2 completing (by decide) (by decide) rfl rfl ?_
  intro i hnot
  match i with
  | 0 => exact ⟨_, [.exec, .intr 2], rfl, rfl, .cons rfl trivial <| .cons rfl trivial <| .nil _,
      fun _ => List.mem_cons_self⟩
  | 1 => exact ⟨_, [.exec, .exec, .intr 2], rfl, rfl, .cons rfl trivial <|
      .cons rfl trivial <| .cons rfl trivial <| .nil _, fun _ => List.mem_cons_self⟩
  | 2 => exact ⟨_, [], rfl, rfl, .nil _, fun hne => absurd rfl hne⟩
  | i + 3 => exact absurd ⟨_, rfl, rfl⟩ hnot

end OsProjects.Driver
