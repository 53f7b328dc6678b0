import OsProjects.Driver.Session

/-!
# The DMA queue is a queue

`fill`, `drain` and `queued_count` together with the entries of the FIFO ring stand
for a list of submissions and the number of them that the card has completed. The
submission at position `i` uses the buffer `i` places round the ring of buffers; the
first outstanding one is with the card, the others wait with their byte counts stored,
and the ring of commands holds the commands of exactly the submissions issued so far.
This file states that correspondence and what the two ends of the queue do to it.

## Main definitions

* `commands` — the commands of a list of submissions
* `bufferAt` — the buffer of the submission at a given position
* `Queue`, `Rest` — the correspondence while the client issues a buffer, and otherwise

## Main results

* `Rest.start_issue`, `Rest.start_queued` — a submission enters the queue
* `Rest.completion` — a completion leaves it
* `Queue.issued_eq` — the transfers issued are the first submissions accepted
* `Queue.outstanding_iff` — the next buffer is in use only when all are
-/

namespace OsProjects.Driver

open RingLog

/-! ### Commands of submissions -/

/-- The two FIFO entries that issue a submission. -/
def Submission.commands (x : Submission) : List FifoEntry :=
  [⟨bufferAAddress, u32 x.address⟩, ⟨bufferAConfig, unsigned x.count⟩]

/-- The transfer that a submission asks for. -/
def Submission.transfer (x : Submission) : ℕ × ℕ := (u32 x.address, unsigned x.count)

def commands (xs : List Submission) : List FifoEntry := xs.flatMap Submission.commands

@[simp] theorem commands_nil : commands [] = [] := rfl

@[simp] theorem commands_cons (x : Submission) (xs : List Submission) :
    commands (x :: xs) = ⟨bufferAAddress, u32 x.address⟩ ::
      ⟨bufferAConfig, unsigned x.count⟩ :: commands xs := rfl

@[simp] theorem commands_append (xs ys : List Submission) :
    commands (xs ++ ys) = commands xs ++ commands ys := by
  simp [commands]

@[simp] theorem length_commands (xs : List Submission) :
    (commands xs).length = 2 * xs.length := by
  induction xs with
  | nil => rfl
  | cons x xs ih =>
    simp only [commands_cons, List.length_cons, ih]
    ring

/-- The even positions hold the addresses. -/
theorem commands_getElem?_address (xs : List Submission) (i : ℕ) :
    (commands xs)[2 * i]? = xs[i]?.map fun x => ⟨bufferAAddress, u32 x.address⟩ := by
  induction xs generalizing i with
  | nil => simp
  | cons x xs ih =>
    cases i with
    | zero => simp
    | succ i => simpa [Nat.mul_add] using ih i

/-- The odd positions hold the byte counts. -/
theorem commands_getElem?_config (xs : List Submission) (i : ℕ) :
    (commands xs)[2 * i + 1]? = xs[i]?.map fun x => ⟨bufferAConfig, unsigned x.count⟩ := by
  induction xs generalizing i with
  | nil => simp
  | cons x xs ih =>
    cases i with
    | zero => simp
    | succ i => simpa [Nat.mul_add] using ih i

/-- The commands of one more submission, in two steps. -/
theorem commands_take_address {xs : List Submission} {i : ℕ} (h : i < xs.length) :
    (commands xs).take (2 * i + 1) =
      (commands xs).take (2 * i) ++ [⟨bufferAAddress, u32 xs[i].address⟩] := by
  rw [List.take_add_one, commands_getElem?_address, List.getElem?_eq_getElem h]
  rfl

theorem commands_take_config {xs : List Submission} {i : ℕ} (h : i < xs.length) :
    (commands xs).take (2 * (i + 1)) =
      (commands xs).take (2 * i + 1) ++ [⟨bufferAConfig, unsigned xs[i].count⟩] := by
  rw [Nat.mul_add_one, List.take_add_one (i := 2 * i + 1), commands_getElem?_config,
    List.getElem?_eq_getElem h]
  rfl

/-- The card starts a transfer for each whole pair of commands: out of the first `n`
commands it reads the first `n / 2` transfers. -/
theorem transfersFrom_take_commands (xs : List Submission) (address n : ℕ) :
    transfersFrom address ((commands xs).take n) = (xs.take (n / 2)).map Submission.transfer := by
  induction xs generalizing address n with
  | nil => simp [transfersFrom]
  | cons x xs ih =>
    match n with
    | 0 => rfl
    | 1 => simp [transfersFrom]
    | n + 2 =>
      have hconfig : bufferAConfig ≠ bufferAAddress := by decide
      have hhalf : (n + 2) / 2 = n / 2 + 1 := by omega
      simp [transfersFrom, hconfig, hhalf, ih, Submission.transfer]

theorem transfers_take_commands (xs : List Submission) (n : ℕ) :
    transfers ((commands xs).take n) = (xs.take (n / 2)).map Submission.transfer :=
  transfersFrom_take_commands xs 0 n

/-! ### Buffers in turn -/

/-- The buffer of the submission at position `i`, when position zero has buffer `d`. -/
def bufferAt (d i : ℕ) : Fin dmaNumBuffs := ⟨(d + i) % dmaNumBuffs, Nat.mod_lt _ (by decide)⟩

@[simp] theorem nextBuffer_bufferAt (d i : ℕ) : nextBuffer (bufferAt d i) = bufferAt d (i + 1) :=
  Fin.ext (slot_succ i)

/-- Positions less than eight apart have different buffers. -/
theorem bufferAt_inj {d i j : ℕ} (hij : i ≤ j) (hlt : j < i + dmaNumBuffs)
    (h : bufferAt d i = bufferAt d j) : i = j :=
  slot_injOn hij hlt (congrArg Fin.val h)

/-- The ring of buffers has eight places. -/
theorem bufferAt_add (d i : ℕ) : bufferAt d (i + dmaNumBuffs) = bufferAt d i :=
  Fin.ext (by simp only [bufferAt, ← Nat.add_assoc, Nat.add_mod_right])

/-- Some position has buffer zero. -/
theorem exists_bufferAt_eq_zero (n : ℕ) : ∃ d, bufferAt d n = 0 := by
  refine ⟨n * 7, Fin.ext ?_⟩
  have h : n * 7 + n = dmaNumBuffs * n := by
    simp only [dmaNumBuffs]
    ring
  show (n * 7 + n) % dmaNumBuffs = 0
  rw [h, Nat.mul_mod_right]

/-! ### The correspondence -/

/-- The driver's queue and the ring of commands stand for the submissions `xs`. The
log of the ring starts at slot `base` and the buffers of the submissions at `d`; of
the commands of `xs`, the first `written` are in the ring and the first `handed` have
been handed to the card. -/
structure Queue (base d : ℕ) (k : Kyouko3) (c : Card) (xs : List Submission)
    (handed written : ℕ) : Prop where
  channel : Channel base k.fifo (k.register fifoHead) c handed
  log : k.fifo.log = (commands xs).take written
  completed_le : c.completed ≤ xs.length
  live : xs.length ≤ c.completed + dmaNumBuffs
  done : 2 * c.completed ≤ c.executed.length
  queuedCount : k.queuedCount = xs.length - c.completed
  drain : k.drain = bufferAt d c.completed
  buffer : ∀ i (h : i < xs.length), c.completed ≤ i →
    xs[i].buffer = bufferAt d i ∧ xs[i].address = (k.dmaBuffers (bufferAt d i)).pBase
  stored : ∀ i (h : i < xs.length), c.completed < i →
    (k.dmaBuffers (bufferAt d i)).storedCount = xs[i].count

/-- The number of commands in the ring when nobody is writing it: those of the
completed submissions and of the one with the card. -/
def settled (c : Card) (xs : List Submission) : ℕ := 2 * min xs.length (c.completed + 1)

/-- The queue when nobody is writing the ring. -/
structure Rest (base d : ℕ) (k : Kyouko3) (c : Card) (xs : List Submission) : Prop
    extends Queue base d k c xs (settled c xs) (settled c xs) where
  fill : k.fill = bufferAt d xs.length

/-- Two driver states that differ in nothing the queue is made of. -/
structure SameQueue (k k' : Kyouko3) : Prop where
  fifo : k'.fifo = k.fifo
  fifoHead : k'.register fifoHead = k.register fifoHead
  fill : k'.fill = k.fill
  drain : k'.drain = k.drain
  queuedCount : k'.queuedCount = k.queuedCount
  dmaBuffers : k'.dmaBuffers = k.dmaBuffers

namespace Queue

variable {base d handed written : ℕ} {k k' : Kyouko3} {c c' : Card} {xs : List Submission}

theorem congr (h : Queue base d k c xs handed written) (hk : SameQueue k k') :
    Queue base d k' c xs handed written where
  channel := by
    rw [hk.fifo, hk.fifoHead]
    exact h.channel
  log := hk.fifo ▸ h.log
  completed_le := h.completed_le
  live := h.live
  done := h.done
  queuedCount := hk.queuedCount.trans h.queuedCount
  drain := hk.drain.trans h.drain
  buffer := by
    rw [hk.dmaBuffers]
    exact h.buffer
  stored := by
    rw [hk.dmaBuffers]
    exact h.stored

/-- The transfers issued to the card are those of the first submissions. -/
theorem issued_eq (h : Queue base d k c xs handed written) (hle : handed ≤ written) :
    issued k c = (xs.take (handed / 2)).map Submission.transfer := by
  rw [issued, h.channel.published_eq, h.log, List.take_take, Nat.min_eq_left hle]
  exact transfers_take_commands _ _

/-- The transfers the card has started are those of whole pairs of executed
commands. -/
theorem transfers_executed (h : Queue base d k c xs handed written) :
    transfers c.executed = (xs.take (c.executed.length / 2)).map Submission.transfer := by
  have hle := h.channel.executed_le
  have hup := h.channel.upTo_le
  rw [h.log, List.length_take] at hup
  have hmin : min c.executed.length written = c.executed.length := by omega
  have hexec : c.executed = (commands xs).take c.executed.length := by
    conv_lhs => rw [h.channel.executed, h.log, List.take_take, hmin]
  conv_lhs => rw [hexec]
  exact transfers_take_commands _ _

/-- The commands of a transfer that the card has started and not completed have been
handed to it. -/
theorem of_started (h : Queue base d k c xs handed written)
    (hlt : c.completed < (transfers c.executed).length) :
    c.completed < xs.length ∧ 2 * (c.completed + 1) ≤ c.executed.length ∧
      2 * (c.completed + 1) ≤ handed := by
  have hle := h.channel.executed_le
  rw [h.transfers_executed, List.length_map, List.length_take] at hlt
  refine ⟨?_, ?_, ?_⟩ <;> omega

/-- Between zero and eight submissions are outstanding. -/
theorem queuedCount_mem (h : Queue base d k c xs handed written) :
    0 ≤ k.queuedCount ∧ k.queuedCount ≤ (dmaNumBuffs : ℤ) := by
  have hle := h.completed_le
  have hlive := h.live
  rw [h.queuedCount]
  omega

/-- A buffer in turn is in use exactly when all eight are. -/
theorem outstanding_iff (h : Queue base d k c xs handed written) :
    (∃ x ∈ xs.drop c.completed, x.buffer = bufferAt d xs.length) ↔
      k.queuedCount = (dmaNumBuffs : ℤ) := by
  have hle := h.completed_le
  have hlive := h.live
  constructor
  · rintro ⟨x, hx, hbuf⟩
    obtain ⟨j, hj, rfl⟩ := List.getElem_of_mem hx
    simp only [List.getElem_drop, List.length_drop] at hj hbuf
    rw [(h.buffer _ (by omega) (Nat.le_add_right _ _)).1] at hbuf
    have hfull : ¬ xs.length < c.completed + j + dmaNumBuffs := fun hlt =>
      absurd (bufferAt_inj (by omega) hlt hbuf) (by omega)
    rw [h.queuedCount]
    omega
  · intro hq
    rw [h.queuedCount] at hq
    have height : 0 < dmaNumBuffs := by decide
    have hlt : c.completed < xs.length := by omega
    have hn : xs.length = c.completed + dmaNumBuffs := by omega
    refine ⟨xs[c.completed], ?_, ?_⟩
    · rw [List.mem_iff_getElem]
      exact ⟨0, by simpa using hlt, by simp⟩
    · rw [(h.buffer _ hlt le_rfl).1, hn, bufferAt_add]

/-- A step of the card. -/
theorem exec (h : Queue base d k c xs handed written) (hc : c.exec k = some c') :
    Queue base d k c' xs handed written ∧ c'.completed = c.completed := by
  obtain ⟨hchan, hlen, hcompleted⟩ := h.channel.exec rfl hc
  have hdone := h.done
  refine ⟨⟨hchan, h.log, ?_, ?_, ?_, ?_, ?_, ?_, ?_⟩, hcompleted⟩
  · rw [hcompleted]
    exact h.completed_le
  · rw [hcompleted]
    exact h.live
  · rw [hcompleted, hlen]
    omega
  · rw [hcompleted]
    exact h.queuedCount
  · rw [hcompleted]
    exact h.drain
  · rw [hcompleted]
    exact h.buffer
  · rw [hcompleted]
    exact h.stored

/-- Writing the next command of the queue. -/
theorem fifoWrite (h : Queue base d k c xs handed written) {reg value : ℕ}
    (hnext : (commands xs).take (written + 1) = (commands xs).take written ++ [⟨reg, value⟩])
    (hroom : written < 2 * c.completed + fifoEntries - 1) :
    Queue base d (k.fifoWrite reg value) c xs handed (written + 1) where
  channel := by
    have hdone := h.done
    apply h.channel.write reg value
    rw [h.log, List.length_take]
    omega
  log := by rw [Kyouko3.fifoWrite_fifo, Fifo.write_log, h.log, hnext]
  completed_le := h.completed_le
  live := h.live
  done := h.done
  queuedCount := h.queuedCount
  drain := h.drain
  buffer := h.buffer
  stored := h.stored

/-- Publishing the head hands over every command written. -/
theorem publish (h : Queue base d k c xs handed written) (hw : written ≤ 2 * xs.length) :
    Queue base d k.publish c xs written written where
  channel := by
    have hpub := h.channel.publish
    have hlen : k.fifo.log.length = written := by
      rw [h.log, List.length_take, length_commands]
      omega
    rw [Kyouko3.register_publish]
    rwa [hlen] at hpub
  log := h.log
  completed_le := h.completed_le
  live := h.live
  done := h.done
  queuedCount := h.queuedCount
  drain := h.drain
  buffer := h.buffer
  stored := h.stored

/-- A submission to a queue with room is stored in the next buffer, whoever may be
writing the ring. -/
theorem start_queued {x : Submission} (h : Queue base d k c xs handed written)
    (hfill : k.fill = bufferAt d xs.length) (hwritten : written ≤ 2 * xs.length)
    (hroom : xs.length < c.completed + dmaNumBuffs) (hbuffer : x.buffer = k.fill)
    (haddress : x.address = (k.dmaBuffers k.fill).pBase) :
    Queue base d { k with
      queuedCount := k.queuedCount + 1
      dmaBuffers := Function.update k.dmaBuffers k.fill
        { k.dmaBuffers k.fill with storedCount := x.count }
      fill := nextBuffer k.fill } c (xs ++ [x]) handed written := by
  -- the buffer written is not that of an outstanding submission
  have hother : ∀ i < xs.length, c.completed ≤ i → bufferAt d i ≠ k.fill := by
    intro i hi hle heq
    rw [hfill] at heq
    exact absurd (bufferAt_inj hi.le (by omega) heq) hi.ne
  refine ⟨h.channel, ?_, ?_, ?_, h.done, ?_, h.drain, ?_, ?_⟩
  · rw [commands_append, List.take_append_of_le_length]
    · exact h.log
    · rw [length_commands]
      exact hwritten
  · simpa using h.completed_le.trans (Nat.le_succ _)
  · rw [List.length_append, List.length_singleton]
    exact hroom
  · simp only [h.queuedCount, List.length_append, List.length_singleton]
    push_cast
    ring
  · intro i hi hle
    rcases Nat.lt_succ_iff_lt_or_eq.mp (by simpa using hi) with hi' | rfl
    · simp only [List.getElem_append_left hi', Function.update_of_ne (hother i hi' hle)]
      exact h.buffer i hi' hle
    · simp [hbuffer, haddress, hfill]
  · intro i hi hlt'
    rcases Nat.lt_succ_iff_lt_or_eq.mp (by simpa using hi) with hi' | rfl
    · simp only [List.getElem_append_left hi', Function.update_of_ne (hother i hi' hlt'.le)]
      exact h.stored i hi' hlt'
    · simp [hfill]

end Queue

namespace Rest

variable {base d : ℕ} {k k' : Kyouko3} {c c' : Card} {xs : List Submission} {x : Submission}

theorem congr (h : Rest base d k c xs) (hk : SameQueue k k') : Rest base d k' c xs where
  toQueue := h.toQueue.congr hk
  fill := hk.fill.trans h.fill

theorem exec (h : Rest base d k c xs) (hc : c.exec k = some c') : Rest base d k c' xs := by
  obtain ⟨hqueue, hcompleted⟩ := h.toQueue.exec hc
  have hsettled : settled c xs = settled c' xs := by rw [settled, settled, hcompleted]
  rw [hsettled] at hqueue
  exact ⟨hqueue, h.fill⟩

/-- While a buffer is free there is room for one more submission. -/
theorem has_room (h : Rest base d k c xs) (hfree : k.queuedCount ≠ (dmaNumBuffs : ℤ)) :
    xs.length < c.completed + dmaNumBuffs := by
  have hlive := h.live
  have hcount := h.queuedCount
  omega

/-- Then `fill` is at `drain` only if no submission is outstanding. -/
theorem length_eq (h : Rest base d k c xs) (hfree : k.queuedCount ≠ (dmaNumBuffs : ℤ))
    (hfd : k.fill = k.drain) : xs.length = c.completed := by
  rw [h.fill, h.drain] at hfd
  exact (bufferAt_inj h.completed_le (h.has_room hfree) hfd.symm).symm

/-- If it is not, one is. -/
theorem lt_length (h : Rest base d k c xs) (hfd : k.fill ≠ k.drain) :
    c.completed < xs.length := by
  apply lt_of_le_of_ne h.completed_le
  intro heq
  apply hfd
  rw [h.fill, h.drain, heq]

/-- A submission to an empty queue is accepted; the client will issue it. -/
theorem start_issue (h : Rest base d k c xs) (hn : xs.length = c.completed)
    (hbuffer : x.buffer = k.fill) (haddress : x.address = (k.dmaBuffers k.fill).pBase) :
    Queue base d { k with queuedCount := k.queuedCount + 1 } c (xs ++ [x])
      (2 * c.completed) (2 * c.completed) := by
  have hsettled : settled c xs = 2 * c.completed := by rw [settled, hn]; omega
  constructor
  · exact hsettled ▸ h.channel
  · rw [commands_append, List.take_append_of_le_length (by rw [length_commands]; omega)]
    exact hsettled ▸ h.log
  · simp [hn]
  · simp [hn]
  · exact h.done
  · simp only [h.queuedCount, List.length_append, List.length_singleton]
    push_cast
    ring
  · exact h.drain
  · intro i hi hle
    have hi' : i = xs.length := by
      simp only [List.length_append, List.length_singleton] at hi
      omega
    subst hi'
    simp [hbuffer, haddress, h.fill]
  · intro i hi hlt
    simp only [List.length_append, List.length_singleton] at hi
    omega

/-- A submission to a queue with room is stored in the next buffer; the handler will
issue it. -/
theorem start_queued (h : Rest base d k c xs) (hlt : c.completed < xs.length)
    (hroom : xs.length < c.completed + dmaNumBuffs) (hbuffer : x.buffer = k.fill)
    (haddress : x.address = (k.dmaBuffers k.fill).pBase) :
    Rest base d { k with
      queuedCount := k.queuedCount + 1
      dmaBuffers := Function.update k.dmaBuffers k.fill
        { k.dmaBuffers k.fill with storedCount := x.count }
      fill := nextBuffer k.fill } c (xs ++ [x]) := by
  have hsettled : settled c (xs ++ [x]) = settled c xs := by
    simp only [settled, List.length_append, List.length_singleton]
    omega
  have hqueue := h.toQueue.start_queued h.fill (by rw [settled]; omega) hroom hbuffer haddress
  refine ⟨?_, by simp [h.fill]⟩
  rw [hsettled]
  exact hqueue

/-- A completion takes the front off the queue and issues the next submission, if
there is one. -/
theorem completion {iflags : ℕ} (h : Rest base d k c xs) (hflag : ¬iflags &&& 0x02 = 0)
    (hstarted : c.completed < (transfers c.executed).length) :
    Rest base d (k.dmaIntr iflags).2 { c with completed := c.completed + 1 } xs := by
  obtain ⟨hlt, hdone, -⟩ := h.of_started hstarted
  have hq := h.queuedCount
  have hlive := h.live
  have hold : settled c xs = 2 * (c.completed + 1) := by rw [settled, Nat.min_eq_right hlt]
  have hring : Channel base (k.dmaIntr iflags).2.fifo
        ((k.dmaIntr iflags).2.register fifoHead) c (2 * min xs.length (c.completed + 2)) ∧
      (k.dmaIntr iflags).2.fifo.log =
        (commands xs).take (2 * min xs.length (c.completed + 2)) := by
    by_cases hlast : xs.length = c.completed + 1
    · obtain ⟨hfifo, hreg⟩ := Kyouko3.dmaIntr_fifo_of_last
        (show iflags &&& 0x02 = 0 ∨ k.queuedCount = 1 from .inr (by omega))
      have hnew : 2 * min xs.length (c.completed + 2) = settled c xs := by rw [hold]; omega
      rw [hfifo, hreg, hnew]
      exact ⟨h.channel, h.log⟩
    · have hnext : c.completed + 1 < xs.length := by omega
      have hmore : ¬(iflags &&& 0x02 = 0 ∨ k.queuedCount = 1) := by
        rintro (h0 | h1)
        · exact hflag h0
        · omega
      have hlen : k.fifo.log.length = 2 * (c.completed + 1) := by
        rw [h.log, List.length_take, length_commands, hold]
        omega
      have hlog : (k.dmaIntr iflags).2.fifo.log =
          (commands xs).take (2 * min xs.length (c.completed + 2)) := by
        have hnew : min xs.length (c.completed + 2) = c.completed + 1 + 1 := by omega
        rw [(Kyouko3.dmaIntr_fifo_of_more hmore).1, Fifo.write_log, Fifo.write_log, hnew,
          commands_take_config hnext, commands_take_address hnext, h.log, hold, h.drain,
          nextBuffer_bufferAt, (h.buffer _ hnext (Nat.le_succ _)).2,
          h.stored _ hnext (Nat.lt_succ_self _)]
      refine ⟨?_, hlog⟩
      have hchan := h.channel.dmaIntr_of_more hmore (by simp only [fifoEntries]; omega)
      rw [hlog, List.length_take, length_commands] at hchan
      rwa [Nat.min_eq_left (by omega)] at hchan
  refine ⟨⟨?_, hring.2, hlt, ?_, hdone, ?_, ?_, ?_, ?_⟩, ?_⟩
  · have hchan := hring.1
    exact ⟨hchan.head, hchan.fifoHead, hchan.tail, hchan.executed, hchan.executed_le,
      hchan.upTo_le, hchan.room, hchan.holds⟩
  · exact hlive.trans (by simp only; omega)
  · rw [Kyouko3.dmaIntr_queuedCount hflag, hq]
    push_cast
    ring
  · rw [Kyouko3.dmaIntr_drain hflag, h.drain, nextBuffer_bufferAt]
  · intro i hi hle
    rw [Kyouko3.dmaIntr_dmaBuffers]
    exact h.buffer i hi (Nat.le_of_succ_le hle)
  · intro i hi hlt'
    rw [Kyouko3.dmaIntr_dmaBuffers]
    exact h.stored i hi (Nat.lt_of_succ_lt hlt')
  · rw [Kyouko3.dmaIntr_fill, h.fill]

/-- With nothing outstanding the ring of buffers can start over anywhere. -/
theorem rebase {d' : ℕ} (h : Rest base d k c xs) (hn : xs.length = c.completed)
    (hfifo : k'.fifo = k.fifo) (hhead : k'.register fifoHead = k.register fifoHead)
    (hdrain : k'.drain = bufferAt d' c.completed) (hfill : k'.fill = k'.drain)
    (hq : k'.queuedCount = 0) : Rest base d' k' c xs where
  channel := by
    rw [hfifo, hhead]
    exact h.channel
  log := hfifo ▸ h.log
  completed_le := h.completed_le
  live := h.live
  done := h.done
  queuedCount := by simp [hq, hn]
  drain := hdrain
  buffer i hi hle := by omega
  stored i hi hlt := by omega
  fill := by rw [hfill, hdrain, hn]

end Rest

end OsProjects.Driver
