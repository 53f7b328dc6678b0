import OsProjects.Driver.Card
import OsProjects.Lib.Run

/-!
# Delivery of FIFO commands

A client with the device open queues commands with `FIFO_QUEUE` and hands them
over with `FIFO_FLUSH`, which returns once the card reports that it has caught
up. Neither function looks at the card's position while queueing, and the flush
compares positions modulo the size of the ring, so what a flush delivers depends
on how many commands were queued since the one before it.

## Main definitions

* `FifoSys`, `FifoSys.step` — the client, the driver and the card
* `FlushDelivers` — when `FIFO_FLUSH` returns, everything queued is executed
* `BatchFits` — when `FIFO_FLUSH` returns, its batch was shorter than the ring

## Main results

* `flush_delivers_iff` — along every run, every flush delivers exactly when every
  batch is shorter than the ring
-/

namespace OsProjects.Driver

open Run RingLog

/-- The driver and the card while a client queues and flushes commands. `queued`
and `batch` are history: the commands queued since the device was opened, and how
many of them since the last flush returned. -/
structure FifoSys where
  k : Kyouko3
  card : Card
  flushing : Bool
  queued : List FifoEntry
  batch : ℕ

/-- What can happen: the client calls `FIFO_QUEUE` or `FIFO_FLUSH`, the flush
evaluates its loop once, the card executes an entry. -/
inductive FifoAct
  | queue (entry : FifoEntry)
  | flush
  | poll
  | exec

namespace FifoSys

/-- The effect of an action, if it is possible. -/
def step (s : FifoSys) : FifoAct → Option FifoSys
  | .queue entry =>
    if s.flushing then none
    else some { s with
      k := (s.k.fifoQueue (0, entry)).2, queued := s.queued ++ [entry], batch := s.batch + 1 }
  | .flush => if s.flushing then none else some { s with k := s.k.publish, flushing := true }
  | .poll =>
    if s.flushing then
      match s.k.fifoFlushLoop s.card.tail with
      | some k => some { s with k := k }
      | none => some { s with flushing := false, batch := 0 }
    else none
  | .exec => (s.card.exec s.k).map fun c => { s with card := c }

/-- The state right after `kyouko3_open`, with the card's FIFO at its start. -/
def opened (k : Kyouko3) (env : OpenEnv) : FifoSys where
  k := k.kyouko3Open env
  card := ⟨0, [], 0⟩
  flushing := false
  queued := []
  batch := 0

def Step (s : FifoSys) (a : FifoAct) (t : FifoSys) : Prop := s.step a = some t

/-- `FIFO_FLUSH` returns in this step. -/
def Returns (s t : FifoSys) : Prop := s.flushing = true ∧ t.flushing = false

end FifoSys

/-- If `FIFO_FLUSH` returns in this step, the card has executed exactly the
commands queued since the device was opened. -/
def FlushDelivers (s : FifoSys) (_ : FifoAct) (t : FifoSys) : Prop :=
  s.Returns t → t.card.executed = t.queued

/-- If `FIFO_FLUSH` returns in this step, fewer commands than the ring has
entries were queued since the flush before it. -/
def BatchFits (s : FifoSys) (_ : FifoAct) (t : FifoSys) : Prop :=
  s.Returns t → s.batch < fifoEntries

/-- What holds between the ioctls and inside a flush, for batches of any length:
where the three pointers stand, how far the card can have come, and, as long as
the batch is shorter than the ring, that the ring is the log of what was queued. -/
structure FifoSys.Inv (s : FifoSys) : Prop where
  log : s.k.fifo.log = s.queued
  batch_le : s.batch ≤ s.queued.length
  head : s.k.fifo.head = s.queued.length % fifoEntries
  upTo : s.k.register fifoHead =
    (if s.flushing then s.queued.length else s.queued.length - s.batch) % fifoEntries
  tail : s.card.tail = s.card.executed.length % fifoEntries
  start_le : s.queued.length - s.batch ≤ s.card.executed.length
  limit : s.card.executed.length ≤ s.queued.length - s.batch + s.batch % fifoEntries
  idle : s.flushing = false → s.card.executed.length = s.queued.length - s.batch
  cached : ∃ y, s.k.fifo.tailCache = y % fifoEntries ∧
    s.queued.length - s.batch ≤ y ∧ y ≤ s.card.executed.length
  small : s.batch < fifoEntries → Channel 0 s.k.fifo (s.k.register fifoHead) s.card
    (if s.flushing then s.queued.length else s.queued.length - s.batch)

namespace FifoSys

variable {s t : FifoSys}

theorem inv_opened (k : Kyouko3) (env : OpenEnv) (h : env.control (fifoHead >>> 2) = 0) :
    (opened k env).Inv where
  log := rfl
  batch_le := le_rfl
  head := rfl
  upTo := h
  tail := rfl
  start_le := le_rfl
  limit := le_rfl
  idle _ := rfl
  cached := ⟨0, rfl, le_rfl, le_rfl⟩
  small _ := ⟨rfl, h, rfl, rfl, le_rfl, le_rfl, Nat.lt_add_of_pos_right (by decide),
    Holds.of_length_le le_rfl⟩

/-! ### What each action does -/

theorem Step.queue {entry : FifoEntry} (h : s.Step (.queue entry) t) :
    s.flushing = false ∧ t = { s with
      k := s.k.fifoWrite entry.command entry.value
      queued := s.queued ++ [entry]
      batch := s.batch + 1 } := by
  simp only [Step, step, Kyouko3.fifoQueue] at h
  split at h
  · simp at h
  · exact ⟨by simpa using ‹¬s.flushing = true›, (Option.some_inj.mp h).symm⟩

theorem Step.flush (h : s.Step .flush t) :
    s.flushing = false ∧ t = { s with k := s.k.publish, flushing := true } := by
  simp only [Step, step] at h
  split at h
  · simp at h
  · exact ⟨by simpa using ‹¬s.flushing = true›, (Option.some_inj.mp h).symm⟩

/-- A round of the flush loop either reads the card's tail or, when the cached
tail equals the head, ends the flush. -/
theorem Step.poll (h : s.Step .poll t) :
    s.flushing = true ∧
      (t = { s with k := { s.k with fifo := { s.k.fifo with tailCache := s.card.tail } } } ∨
        s.k.fifo.tailCache = s.k.fifo.head ∧ t = { s with flushing := false, batch := 0 }) := by
  simp only [Step, step, Kyouko3.fifoFlushLoop] at h
  split at h
  · refine ⟨‹_›, ?_⟩
    by_cases hcache : s.k.fifo.tailCache = s.k.fifo.head
    · right
      simp only [hcache, ne_eq, not_true_eq_false, if_false] at h
      exact ⟨hcache, (Option.some_inj.mp h).symm⟩
    · left
      simp only [hcache, ne_eq, not_false_eq_true, if_true] at h
      exact (Option.some_inj.mp h).symm
  · simp at h

theorem Step.exec (h : s.Step .exec t) :
    s.card.tail ≠ s.k.register fifoHead ∧ ∃ c, s.card.exec s.k = some c ∧
      c.tail = (s.card.tail + 1) % fifoEntries ∧
      c.executed.length = s.card.executed.length + 1 ∧ t = { s with card := c } := by
  simp only [Step, step, Option.map_eq_some_iff] at h
  obtain ⟨c, hc, rfl⟩ := h
  obtain ⟨hne, rfl⟩ := Card.exec_eq_some_iff.mp hc
  exact ⟨hne, _, hc, rfl, List.length_append, rfl⟩

/-! ### The invariant -/

theorem Inv.queue {entry : FifoEntry} (hs : s.Inv) (h : s.Step (.queue entry) t) : t.Inv := by
  obtain ⟨hidle, rfl⟩ := h.queue
  have hlen : s.queued.length + 1 - (s.batch + 1) = s.queued.length - s.batch := by omega
  have hexec := hs.idle hidle
  have hhead : s.k.fifo.head < fifoEntries := hs.head ▸ mod_fifoEntries_lt _
  refine ⟨?_, ?_, ?_, ?_, hs.tail, ?_, ?_, ?_, ?_, ?_⟩
  · simp [hs.log]
  · simpa using hs.batch_le
  · rw [Kyouko3.fifoWrite_fifo, Fifo.write_head _ _ hhead, hs.head]
    simp
  · simpa [hidle, hlen] using hs.upTo
  · simpa [hlen] using hs.start_le
  · simp [hlen, hexec]
  · simpa [hlen] using hs.idle
  · simpa [hlen] using hs.cached
  · intro hsmall
    have hsmall' : s.batch + 1 < fifoEntries := hsmall
    have hchan := hs.small (by omega)
    simp only [hidle, Bool.false_eq_true, if_false, List.length_append, List.length_singleton,
      hlen] at hchan ⊢
    apply hchan.write _ _
    have := hs.batch_le
    rw [hs.log, hexec]
    omega

theorem Inv.flush (hs : s.Inv) (h : s.Step .flush t) : t.Inv := by
  obtain ⟨hidle, rfl⟩ := h.flush
  refine ⟨hs.log, hs.batch_le, hs.head, ?_, hs.tail, hs.start_le, hs.limit, by simp, hs.cached, ?_⟩
  · simpa using hs.head
  · intro hsmall
    simpa [hs.log] using (hs.small hsmall).publish

/-- Inside a flush the card stops short of a lap: it executes the batch modulo
the size of the ring. -/
theorem Inv.exec (hs : s.Inv) (h : s.Step .exec t) : t.Inv := by
  obtain ⟨hne, c, hc, htail, hexec, rfl⟩ := h.exec
  have hstart := hs.start_le
  have hlimit := hs.limit
  by_cases hf : s.flushing = true
  · have hlt : s.card.executed.length < s.queued.length - s.batch + s.batch % fifoEntries := by
      refine lt_of_le_of_ne hlimit fun heq => hne ?_
      rw [hs.tail, hs.upTo, heq, Nat.add_mod_mod, Nat.sub_add_cancel hs.batch_le, if_pos hf]
    refine ⟨hs.log, hs.batch_le, hs.head, hs.upTo, ?_, ?_, ?_, by simp [hf], ?_, ?_⟩
    · rw [htail, hexec, hs.tail, Nat.mod_add_mod]
    · simp only [hexec]; omega
    · simp only [hexec]; omega
    · obtain ⟨y, hy, hle, hle'⟩ := hs.cached
      exact ⟨y, hy, hle, by simp only [hexec]; omega⟩
    · exact fun hsmall => ((hs.small hsmall).exec rfl hc).1
  · refine absurd ?_ hne
    rw [hs.tail, hs.upTo, hs.idle (by simpa using hf), if_neg hf]

/-- When the cached tail equals the head, the card has executed the whole batch
if that is shorter than the ring, and is at least a lap behind otherwise. -/
theorem Inv.executed_of_cached (hs : s.Inv)
    (hcache : s.k.fifo.tailCache = s.k.fifo.head) :
    s.batch < fifoEntries ∧ s.card.executed = s.queued ∨
      fifoEntries ≤ s.batch ∧ s.card.executed.length < s.queued.length := by
  have hbatch := hs.batch_le
  have hlimit := hs.limit
  rcases Nat.lt_or_ge s.batch fifoEntries with hsmall | hlarge
  · left
    refine ⟨hsmall, ?_⟩
    obtain ⟨y, hy, hle, hle'⟩ := hs.cached
    rw [Nat.mod_eq_of_lt hsmall] at hlimit
    rw [hy, hs.head] at hcache
    have hslot : (0 + y) % fifoEntries = (0 + s.queued.length) % fifoEntries := by
      simpa using hcache
    -- less than a lap apart, slots determine positions
    have hyq : y = s.queued.length := slot_injOn (by omega) (by omega) hslot
    have hlen : s.card.executed.length = s.queued.length := by omega
    have hexec := (hs.small hsmall).executed
    rwa [hlen, hs.log, List.take_length] at hexec
  · right
    have hmod := mod_fifoEntries_lt s.batch
    exact ⟨hlarge, by omega⟩

theorem Inv.poll (hs : s.Inv) (h : s.Step .poll t) (hfits : BatchFits s .poll t) : t.Inv := by
  obtain ⟨hf, rfl | ⟨hcache, rfl⟩⟩ := h.poll
  · refine ⟨hs.log, hs.batch_le, hs.head, hs.upTo, hs.tail, hs.start_le, hs.limit, hs.idle, ?_, ?_⟩
    · exact ⟨s.card.executed.length, hs.tail, hs.start_le, le_rfl⟩
    · intro hsmall
      exact (hs.small hsmall).tailCache s.card.tail
  · have hsmall : s.batch < fifoEntries := hfits ⟨hf, rfl⟩
    have hexec : s.card.executed = s.queued := by
      rcases hs.executed_of_cached hcache with ⟨-, h⟩ | ⟨h, -⟩
      · exact h
      · omega
    have hchan := hs.small hsmall
    refine ⟨hs.log, Nat.zero_le _, hs.head, ?_, hs.tail, ?_, ?_, ?_, ?_, ?_⟩
    · simpa [hf] using hs.upTo
    · simp [hexec]
    · simp [hexec]
    · simp [hexec]
    · exact ⟨s.queued.length, hcache.trans hs.head, by simp, by simp [hexec]⟩
    · intro _
      simpa [hf] using hchan

theorem Inv.step {a : FifoAct} (hs : s.Inv) (h : s.Step a t) (hfits : BatchFits s a t) :
    t.Inv := by
  cases a with
  | queue entry => exact hs.queue h
  | flush => exact hs.flush h
  | poll => exact hs.poll h hfits
  | exec => exact hs.exec h

/-- At the return of a flush, having delivered everything and having had a batch
shorter than the ring are the same thing. -/
theorem Inv.batchFits_iff {a : FifoAct} (hs : s.Inv) (h : s.Step a t) :
    BatchFits s a t ↔ FlushDelivers s a t := by
  refine forall_congr' fun hret => ?_
  cases a with
  | queue entry =>
    obtain ⟨-, rfl⟩ := h.queue
    simp [Returns] at hret
  | flush =>
    obtain ⟨-, rfl⟩ := h.flush
    simp [Returns] at hret
  | exec =>
    obtain ⟨-, c, -, -, -, rfl⟩ := h.exec
    simp [Returns] at hret
  | poll =>
    obtain ⟨hf, rfl | ⟨hcache, rfl⟩⟩ := h.poll
    · simp [Returns, hf] at hret
    · rcases hs.executed_of_cached hcache with ⟨hsmall, hexec⟩ | ⟨hlarge, hexec⟩
      · exact iff_of_true hsmall hexec
      · refine iff_of_false (by omega) fun heq => ?_
        have hlen : s.card.executed.length = s.queued.length := congrArg List.length heq
        omega

/-! ### Runs -/

/-- Queueing between flushes is always possible and only grows the batch. -/
theorem path_queue (es : List FifoEntry) (hs : s.Inv) (hidle : s.flushing = false) :
    ∃ t, Path Step s (es.map .queue) t ∧ t.Inv ∧ t.flushing = false ∧ t.card = s.card ∧
      t.queued = s.queued ++ es ∧ t.batch = s.batch + es.length := by
  induction es generalizing s with
  | nil => exact ⟨s, Path.nil s, hs, hidle, rfl, by simp, rfl⟩
  | cons e es ih =>
    have hstep : s.Step (.queue e) { s with
        k := s.k.fifoWrite e.command e.value
        queued := s.queued ++ [e]
        batch := s.batch + 1 } := by
      simp [Step, step, hidle, Kyouko3.fifoQueue]
    obtain ⟨t, hpath, ht, hti, hcard, hqueued, hbatch⟩ := ih (hs.queue hstep) hidle
    refine ⟨t, hpath.cons hstep, ht, hti, hcard, ?_, ?_⟩
    · simp [hqueued]
    · simp [hbatch]
      omega

end FifoSys

/-! ### Every run -/

/-- **Flushes deliver exactly what fits.** Along any run from the opening of the
device, every `FIFO_FLUSH` returns with the card having executed exactly what was
queued, in order, if and only if every batch is shorter than the ring. -/
theorem flush_delivers_iff (k : Kyouko3) (env : OpenEnv)
    (hstart : env.control (fifoHead >>> 2) = 0) (as : List FifoAct) (t : FifoSys) :
    Along FifoSys.Step FlushDelivers (FifoSys.opened k env) as t ↔
      Along FifoSys.Step BatchFits (FifoSys.opened k env) as t :=
  (along_iff_of_invariant FifoSys.Inv (fun _ _ _ hs h hfits => hs.step h hfits)
    (fun _ _ _ hs h => hs.batchFits_iff h) (FifoSys.inv_opened k env hstart)).symm

/-- A run of one command and one flush has a batch that fits, and so delivers. -/
theorem flush_delivers_iff_single :
    ∃ t, Along FifoSys.Step BatchFits (FifoSys.opened .zero zeroOpenEnv)
        [.queue ⟨rasterClear, 3⟩, .flush, .exec, .poll, .poll] t ∧
      Along FifoSys.Step FlushDelivers (FifoSys.opened .zero zeroOpenEnv)
        [.queue ⟨rasterClear, 3⟩, .flush, .exec, .poll, .poll] t := by
  have hfits : ∃ t, Along FifoSys.Step BatchFits (FifoSys.opened .zero zeroOpenEnv)
      [.queue ⟨rasterClear, 3⟩, .flush, .exec, .poll, .poll] t := by
    refine ⟨_, .cons rfl ?_ <| .cons rfl ?_ <| .cons rfl ?_ <| .cons rfl ?_ <|
      .cons rfl ?_ <| .nil _⟩ <;> exact fun _ => by decide
  obtain ⟨t, ht⟩ := hfits
  exact ⟨t, ht, (flush_delivers_iff .zero zeroOpenEnv rfl _ t).mpr ht⟩

/-- A batch of exactly `FIFO_ENTRIES` commands brings the head back to where the
cached tail stands: `FIFO_FLUSH` returns at once and the card has executed
nothing. -/
theorem flush_loses_full_batch :
    ∃ s t, Path FifoSys.Step (FifoSys.opened .zero zeroOpenEnv)
        ((List.replicate fifoEntries ⟨bufferAAddress, 0⟩).map .queue ++ [.flush]) s ∧
      s.Step .poll t ∧ ¬ FlushDelivers s .poll t := by
  obtain ⟨t, hpath, ht, hidle, hcard, hqueued, hbatch⟩ :=
    FifoSys.path_queue (List.replicate fifoEntries ⟨bufferAAddress, 0⟩)
      (FifoSys.inv_opened .zero zeroOpenEnv rfl) rfl
  have hlen : t.queued.length = fifoEntries := by simp [hqueued, FifoSys.opened]
  have hexec : t.card.executed = [] := by rw [hcard]; rfl
  -- after a whole lap the head is where it was when the tail was cached
  have hcache : t.k.fifo.tailCache = t.k.fifo.head := by
    obtain ⟨y, hy, -, hle⟩ := ht.cached
    have hy0 : y = 0 := by simpa [hexec] using hle
    rw [hy, ht.head, hlen, hy0]
    rfl
  have hflush : t.Step .flush { t with k := t.k.publish, flushing := true } := by
    simp [FifoSys.Step, FifoSys.step, hidle]
  refine ⟨_, { t with k := t.k.publish, flushing := false, batch := 0 },
    Along.append hpath (Along.single hflush trivial), ?_, ?_⟩
  · simp [FifoSys.Step, FifoSys.step, Kyouko3.fifoFlushLoop, hcache]
  · intro hdeliver
    have hnil : t.queued = [] := (hdeliver ⟨rfl, rfl⟩).symm.trans hexec
    simp [hnil, fifoEntries] at hlen

end OsProjects.Driver
