import OsProjects.Driver.Card
import OsProjects.Lib.Run

/-!
# The FIFO under interrupts

`FIFO_QUEUE` and `FIFO_FLUSH` run in process context with interrupts enabled, and
the interrupt handler writes the same ring: while buffers are queued, each
completion appends two entries and publishes the head. Here the two ioctls are
taken apart into the steps of their source, the handler runs between any two of
them, and the question is at which steps the ring survives it.

## Main definitions

* `PreemptSys`, `PreemptSys.step` — an ioctl in progress, the handler and the card
* `RingIntact` — every entry sits in its own slot and is executed in its turn
* `NoRetreat` — a step does not take back what the card has been handed
* `InterruptsQuietly` — the handler writes the ring only between two whole steps

## Main results

* `preempted_ring_intact` — along every run in which the handler writes the ring
  at such points only, the ring stays intact and the card is handed ever more
-/

namespace OsProjects.Driver

open Run RingLog

/-- Where the process is inside `FIFO_QUEUE` or `FIFO_FLUSH`. The first four are
the steps of `FIFO_WRITE`, the next two those of publishing the head. -/
inductive IoctlPc
  | idle
  | putCommand (entry : FifoEntry)
  | putValue (entry : FifoEntry)
  | advance (entry : FifoEntry)
  | wrap
  | readHead
  | writeHead (head : ℕ)
  | flushLoop

/-- The driver, the card, and the ioctl in progress. -/
structure PreemptSys where
  k : Kyouko3
  card : Card
  pc : IoctlPc

/-- What can happen: the process calls an ioctl or performs its next step, the card
executes an entry, the card interrupts. -/
inductive PreemptAct
  | queue (entry : FifoEntry)
  | flush
  | run
  | exec
  | intr (iflags : ℕ)

namespace PreemptSys

/-- The next step of the ioctl in progress. -/
def run (s : PreemptSys) : Option PreemptSys :=
  match s.pc with
  | .idle => none
  | .putCommand e => some { s with
      k := { s.k with fifo := s.k.fifo.putCommand e.command }, pc := .putValue e }
  | .putValue e => some { s with
      k := { s.k with fifo := s.k.fifo.putValue e.value }, pc := .advance e }
  | .advance e => some { s with k := { s.k with fifo := s.k.fifo.advance e }, pc := .wrap }
  | .wrap => some { s with k := { s.k with fifo := s.k.fifo.wrap }, pc := .idle }
  | .readHead => some { s with pc := .writeHead s.k.fifo.head }
  | .writeHead head => some { s with k := s.k.kWriteRegister fifoHead head, pc := .flushLoop }
  | .flushLoop =>
    match s.k.fifoFlushLoop s.card.tail with
    | some k => some { s with k := k }
    | none => some { s with pc := .idle }

/-- The effect of an action, if it is possible. The card interrupts only while
transfers are pending. -/
def step (s : PreemptSys) : PreemptAct → Option PreemptSys
  | .queue entry => match s.pc with
    | .idle => some { s with pc := .putCommand entry }
    | _ => none
  | .flush => match s.pc with
    | .idle => some { s with pc := .readHead }
    | _ => none
  | .run => s.run
  | .exec => (s.card.exec s.k).map fun c => { s with card := c }
  | .intr iflags =>
    if 0 < s.k.queuedCount then some { s with k := (s.k.dmaIntr iflags).2 } else none

def Step (s : PreemptSys) (a : PreemptAct) (t : PreemptSys) : Prop := s.step a = some t

/-- The number of entries the card has been told of: those it has executed and
those between its tail and `FifoHead`. -/
def handed (s : PreemptSys) : ℕ :=
  s.card.executed.length + gap fifoEntries s.card.tail (s.k.register fifoHead)

end PreemptSys

/-! ### What is asked of the ring -/

/-- The ring is intact: no store went past its end; the card has executed the
entries written, each once and in order; every other entry stands whole in its own
slot; and the card is told of no entry before it is written. -/
structure RingIntact (base : ℕ) (s : PreemptSys) : Prop where
  stores : ∀ i ∈ s.k.fifo.stores, i < fifoEntries
  executed : s.card.executed <+: s.k.fifo.log
  slots : ∀ i, s.card.executed.length ≤ i → (h : i < s.k.fifo.log.length) →
    s.k.fifo.slots ((base + i) % fifoEntries) = s.k.fifo.log[i]
  handed : s.handed ≤ s.k.fifo.log.length

/-- `FifoHead` does not move backwards relative to the card's tail. -/
def NoRetreat (s : PreemptSys) (_ : PreemptAct) (t : PreemptSys) : Prop := s.handed ≤ t.handed

/-- Fewer than `FIFO_ENTRIES - 4` entries are unexecuted. -/
def RoomToSpare (s : PreemptSys) : Prop :=
  s.k.fifo.log.length < s.card.executed.length + (fifoEntries - 4)

instance (s : PreemptSys) : Decidable (RoomToSpare s) := inferInstanceAs (Decidable (_ < _))

/-- The points at which the process has no half-written entry at the head, no head
beyond the end of the ring, and no head read but not yet published. -/
def PreemptSys.AtSafePoint (s : PreemptSys) : Prop :=
  match s.pc with
  | .putValue _ | .advance _ | .writeHead _ => False
  | .wrap => s.k.fifo.head < fifoEntries
  | _ => True

/-- If this step is a completion interrupt with another buffer waiting, it falls at a
safe point. -/
def InterruptsQuietly (s : PreemptSys) (a : PreemptAct) : Prop :=
  ∀ iflags, a = .intr iflags → ¬(iflags &&& 0x02 = 0 ∨ s.k.queuedCount = 1) → s.AtSafePoint

/-- A state between two ioctls in which the ring is a log the card has executed a
prefix of, with `FifoHead` anywhere in the rest, and no store has gone astray. The
DMA queue is in any state. -/
structure RingReady (base : ℕ) (s : PreemptSys) : Prop where
  idle : s.pc = .idle
  channel : ∃ upTo, Channel base s.k.fifo (s.k.register fifoHead) s.card upTo
  stores : ∀ i ∈ s.k.fifo.stores, i < fifoEntries

namespace PreemptSys

variable {base : ℕ} {s t : PreemptSys}

/-! ### The invariant -/

/-- The ring as the process will leave it: between `++head` and the wrap-around the
head may stand just past the end. -/
def ring (s : PreemptSys) : Fifo :=
  match s.pc with
  | .wrap => s.k.fifo.wrap
  | _ => s.k.fifo

/-- What the process has already done at its current step and relies on. -/
def Underway (s : PreemptSys) : Prop :=
  match s.pc with
  | .putValue e => (s.k.fifo.slots s.k.fifo.head).command = e.command
  | .advance e => s.k.fifo.slots s.k.fifo.head = e
  | .writeHead head => head = s.k.fifo.head
  | _ => True

structure Inv (base : ℕ) (s : PreemptSys) : Prop where
  channel : ∃ upTo, Channel base s.ring (s.k.register fifoHead) s.card upTo
  stores : ∀ i ∈ s.k.fifo.stores, i < fifoEntries
  underway : s.Underway

theorem ring_slots (s : PreemptSys) : s.ring.slots = s.k.fifo.slots := by
  unfold ring
  split
  · exact s.k.fifo.wrap_slots
  · rfl

theorem ring_log (s : PreemptSys) : s.ring.log = s.k.fifo.log := by
  unfold ring
  split
  · exact s.k.fifo.wrap_log
  · rfl

/-- At a safe point nothing stands between the ring and its log. -/
theorem AtSafePoint.ring_eq (h : s.AtSafePoint) : s.ring = s.k.fifo := by
  unfold AtSafePoint at h
  unfold ring
  cases hpc : s.pc with
  | wrap =>
    rw [hpc] at h
    exact Fifo.wrap_of_lt h
  | _ => rfl

theorem AtSafePoint.underway (h : s.AtSafePoint) : s.Underway := by
  unfold AtSafePoint at h
  unfold Underway
  cases hpc : s.pc <;> simp_all

/-- With the process where it was, a point stays safe as long as the head is inside
the ring. -/
theorem AtSafePoint.of_head_lt {k : Kyouko3} (h : s.AtSafePoint) (hlt : k.fifo.head < fifoEntries) :
    AtSafePoint { s with k := k } := by
  unfold AtSafePoint at h ⊢
  cases hpc : s.pc <;> simp_all

theorem Inv.of_ready (h : RingReady base s) : Inv base s where
  channel := by simpa [ring, h.idle] using h.channel
  stores := h.stores
  underway := by simp [Underway, h.idle]

/-! ### The process -/

/-- Every step of an ioctl keeps the invariant and takes nothing back from the card. -/
theorem Inv.run (hs : s.Inv base) (hroom : RoomToSpare s) (h : s.run = some t) :
    t.Inv base ∧ s.handed ≤ t.handed := by
  obtain ⟨upTo, hchan⟩ := hs.channel
  have hstores := hs.stores
  have hunder := hs.underway
  unfold RoomToSpare at hroom
  unfold PreemptSys.run at h
  cases hpc : s.pc with
  | idle => simp [hpc] at h
  | putCommand e =>
    simp only [hpc, Option.some.injEq, ring, Underway] at h hchan hunder
    subst h
    refine ⟨⟨⟨upTo, hchan.putCommand e.command⟩, ?_, by simp [Underway, Fifo.putCommand]⟩, le_rfl⟩
    simpa [Fifo.putCommand, or_imp, forall_and] using ⟨hstores, hchan.head_lt⟩
  | putValue e =>
    simp only [hpc, Option.some.injEq, ring, Underway] at h hchan hunder
    subst h
    refine ⟨⟨⟨upTo, hchan.putValue e.value⟩, ?_, ?_⟩, le_rfl⟩
    · simpa [Fifo.putValue, or_imp, forall_and] using ⟨hstores, hchan.head_lt⟩
    · simp [Underway, Fifo.putValue, hunder]
  | advance e =>
    simp only [hpc, Option.some.injEq, ring, Underway] at h hchan hunder
    subst h
    -- the head is compared only in the next step, so it is the wrapped ring that is a log
    have hnext : s.k.fifo.log.length + 1 < s.card.executed.length + fifoEntries := by
      simp only [fifoEntries] at hroom ⊢
      omega
    exact ⟨⟨⟨upTo, hchan.advance hunder hnext⟩, hstores, trivial⟩, le_rfl⟩
  | wrap =>
    simp only [hpc, Option.some.injEq, ring] at h hchan
    subst h
    refine ⟨⟨⟨upTo, hchan⟩, ?_, trivial⟩, le_rfl⟩
    simpa using hstores
  | readHead =>
    simp only [hpc, Option.some.injEq, ring] at h hchan
    subst h
    exact ⟨⟨⟨upTo, hchan⟩, hstores, rfl⟩, le_rfl⟩
  | writeHead head =>
    simp only [hpc, Option.some.injEq, ring, Underway] at h hchan hunder
    subst h hunder
    have hpub := hchan.publish
    refine ⟨⟨⟨s.k.fifo.log.length, by simpa [ring] using hpub⟩, hstores, trivial⟩, ?_⟩
    have hgap := hpub.gap_eq
    have hup := hchan.upTo_le
    simp only [handed, Kyouko3.register_kWriteRegister_self, hchan.gap_eq, hgap]
    omega
  | flushLoop =>
    simp only [hpc, ring, Kyouko3.fifoFlushLoop] at h hchan
    split at h
    · rename_i k hk
      split at hk
      · obtain rfl := Option.some_inj.mp hk
        obtain rfl := Option.some_inj.mp h
        refine ⟨⟨⟨upTo, ?_⟩, hstores, by simp [Underway]⟩, le_rfl⟩
        simp only [ring]
        exact hchan.tailCache s.card.tail
      · simp at hk
    · obtain rfl := Option.some_inj.mp h
      exact ⟨⟨⟨upTo, hchan⟩, hstores, trivial⟩, le_rfl⟩

/-! ### The card and the handler -/

/-- A step of the card moves its tail and nothing else. -/
theorem Inv.exec (hs : s.Inv base) (h : s.Step .exec t) : t.Inv base ∧ s.handed ≤ t.handed := by
  obtain ⟨upTo, hchan⟩ := hs.channel
  simp only [Step, step, Option.map_eq_some_iff] at h
  obtain ⟨c, hc, rfl⟩ := h
  obtain ⟨hchan', hlen, -⟩ := hchan.exec s.ring_slots hc
  have hle := hchan'.executed_le
  refine ⟨⟨⟨upTo, hchan'⟩, hs.stores, hs.underway⟩, ?_⟩
  simp only [handed, hchan.gap_eq, hchan'.gap_eq]
  omega

/-- The handler keeps the invariant if it leaves the ring alone or falls at a safe
point. -/
theorem Inv.intr {iflags : ℕ} (hs : s.Inv base) (hroom : RoomToSpare s)
    (hquiet : InterruptsQuietly s (.intr iflags)) (h : s.Step (.intr iflags) t) :
    t.Inv base ∧ s.handed ≤ t.handed := by
  simp only [Step, step] at h
  split at h
  · obtain rfl := Option.some_inj.mp h
    by_cases hlast : iflags &&& 0x02 = 0 ∨ s.k.queuedCount = 1
    · obtain ⟨hfifo, hreg⟩ := Kyouko3.dmaIntr_fifo_of_last hlast
      refine ⟨⟨?_, ?_, ?_⟩, ?_⟩
      · simpa only [ring, hfifo, hreg] using hs.channel
      · simpa only [hfifo] using hs.stores
      · simpa only [Underway, hfifo] using hs.underway
      · simp only [handed, hreg, le_refl]
    · -- the handler writes two entries, at a point where the head is the end of the log
      have hsafe := hquiet iflags rfl hlast
      obtain ⟨upTo, hchan⟩ := hs.channel
      rw [hsafe.ring_eq] at hchan
      have hnext : s.k.fifo.log.length + 2 < s.card.executed.length + fifoEntries := by
        simp only [RoomToSpare, fifoEntries] at hroom ⊢
        omega
      obtain ⟨upTo', hle, hchan'⟩ := hchan.dmaIntr iflags hnext
      have hsafe' := hsafe.of_head_lt hchan'.head_lt
      refine ⟨⟨⟨upTo', ?_⟩, ?_, hsafe'.underway⟩, ?_⟩
      · rw [hsafe'.ring_eq]
        exact hchan'
      · exact Kyouko3.dmaIntr_stores iflags hchan.head_lt hs.stores
      · simp only [handed, hchan.gap_eq, hchan'.gap_eq]
        omega
  · simp at h

/-- A call of an ioctl only moves the process. -/
theorem Inv.call (hs : s.Inv base) {pc : IoctlPc} (hidle : s.pc = .idle)
    (hpc : pc = .readHead ∨ ∃ e, pc = .putCommand e) :
    Inv base { s with pc := pc } ∧ s.handed ≤ handed { s with pc := pc } := by
  have hchan := hs.channel
  simp only [ring, hidle] at hchan
  rcases hpc with rfl | ⟨e, rfl⟩ <;> exact ⟨⟨hchan, hs.stores, trivial⟩, le_rfl⟩

/-- **What a step preserves.** With room to spare and the handler quiet, every step
keeps the invariant and takes nothing back from the card. -/
theorem Inv.step {a : PreemptAct} (hs : s.Inv base) (h : s.Step a t) (hroom : RoomToSpare s)
    (hquiet : InterruptsQuietly s a) : t.Inv base ∧ NoRetreat s a t := by
  cases a with
  | queue entry =>
    simp only [Step, PreemptSys.step] at h
    split at h
    · obtain rfl := Option.some_inj.mp h
      exact hs.call ‹_› (.inr ⟨entry, rfl⟩)
    · simp at h
  | flush =>
    simp only [Step, PreemptSys.step] at h
    split at h
    · obtain rfl := Option.some_inj.mp h
      exact hs.call ‹_› (.inl rfl)
    · simp at h
  | run => exact hs.run hroom h
  | exec => exact hs.exec h
  | intr iflags => exact hs.intr hroom hquiet h

/-- The invariant says that the ring is intact. -/
theorem Inv.ringIntact (hs : s.Inv base) : RingIntact base s := by
  obtain ⟨upTo, hchan⟩ := hs.channel
  have hlog := s.ring_log
  refine ⟨hs.stores, ?_, ?_, ?_⟩
  · rw [hchan.executed, hlog]
    exact List.take_prefix _ _
  · intro i hle hlt
    have hget := hchan.holds.getElem hle (hlog ▸ hlt)
    simpa only [s.ring_slots, hlog] using hget
  · have hle := hchan.executed_le
    have hup := hchan.upTo_le
    rw [hlog] at hup
    simp only [handed, hchan.gap_eq]
    omega

end PreemptSys

/-! ### Every run -/

/-- **The ring survives quiet interrupts.** Start between two ioctls, with the DMA
queue in any state, and let fewer than `FIFO_ENTRIES - 4` entries be unexecuted in
every state. If no interrupt that queues the next buffer falls inside a write of an
entry or between reading and publishing the head, then in every state of the run the
ring is intact, and `FifoHead` never moves backwards. -/
theorem preempted_ring_intact (base : ℕ) (s t : PreemptSys) (as : List PreemptAct)
    (hs : RingReady base s)
    (h : Along PreemptSys.Step (fun s a _ => RoomToSpare s ∧ InterruptsQuietly s a) s as t) :
    Along PreemptSys.Step (fun s a t => RingIntact base t ∧ NoRetreat s a t) s as t := by
  refine h.imp_of_invariant (PreemptSys.Inv base) ?_ ?_ (.of_ready hs)
  · exact fun _ _ _ hs hstep hP => (hs.step hstep hP.1 hP.2).1
  · intro _ _ _ hs hstep hP
    obtain ⟨hinv, hretreat⟩ := hs.step hstep hP.1 hP.2
    exact ⟨hinv.ringIntact, hretreat⟩

/-- A drained ring and two buffers in the DMA queue. -/
def busySys : PreemptSys where
  k := { Kyouko3.zero with queuedCount := 2 }
  card := ⟨0, [], 0⟩
  pc := .idle

theorem busySys_ready : RingReady 0 busySys where
  idle := rfl
  channel := ⟨0, Channel.drained busySys.k.fifo busySys.card (by decide) rfl rfl rfl⟩
  stores := by simp [busySys, Kyouko3.zero]

/-- A completion between two ioctls, with the next buffer queued by the handler. -/
theorem preempted_ring_intact_between :
    ∃ t, Along PreemptSys.Step (fun s a t => RingIntact 0 t ∧ NoRetreat s a t) busySys
      [.queue ⟨rasterClear, 3⟩, .run, .run, .run, .run, .intr 2, .flush, .run, .run, .exec] t := by
  refine ⟨_, preempted_ring_intact 0 busySys _ _ busySys_ready <|
    .cons rfl ⟨?_, nofun⟩ <| .cons rfl ⟨?_, nofun⟩ <| .cons rfl ⟨?_, nofun⟩ <|
    .cons rfl ⟨?_, nofun⟩ <| .cons rfl ⟨?_, nofun⟩ <| .cons rfl ⟨?_, fun _ _ _ => trivial⟩ <|
    .cons rfl ⟨?_, nofun⟩ <| .cons rfl ⟨?_, nofun⟩ <| .cons rfl ⟨?_, nofun⟩ <|
    .cons rfl ⟨?_, nofun⟩ <| .nil _⟩ <;> decide

/-- A completion between the two stores of an entry: the handler moves the head by
two, and the value of the entry goes to a slot that does not have its command. -/
theorem interrupted_write_tears_entry :
    ∃ t, Along PreemptSys.Step (fun s _ _ => RoomToSpare s) busySys
      [.queue ⟨rasterClear, 3⟩, .run, .intr 2, .run, .run] t ∧ RoomToSpare t ∧
      ¬ RingIntact 0 t := by
  refine ⟨_, .cons rfl (by decide) <| .cons rfl (by decide) <| .cons rfl (by decide) <|
    .cons rfl (by decide) <| .cons rfl (by decide) <| .nil _, by decide, fun h => ?_⟩
  have htorn := h.slots 2 (by decide) (by decide)
  revert htorn
  decide

end OsProjects.Driver
