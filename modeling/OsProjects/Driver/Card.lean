import OsProjects.Driver.Kyouko3
import OsProjects.Lib.RingLog

/-!
# The card's side of the FIFO

The card executes the entries of the ring in order from its own tail up to the
last value written to `FifoHead`, wrapping at `FIFO_ENTRIES`. A `BufferAConfig`
entry starts a DMA transfer of that many bytes from the address last given by a
`BufferAAddress` entry; the card raises one interrupt when a transfer is done.

The link between the two sides is `Channel`: the card has executed a prefix of
the pairs written, and what it has not executed is intact in its slots. It holds
as long as fewer than a lap of entries is unexecuted, whatever offset the ring
started from.

## Main definitions

* `Card`, `Card.exec` — the card's tail and history, and its step
* `transfers` — the DMA transfers a list of commands asks for
* `published`, `issued` — the entries, and the transfers, handed to the card
* `Channel` — the ring as a log executed in order

## Main results

* `Channel.write`, `Channel.publish`, `Channel.exec` — the operations of the
  two sides keep the correspondence
* `Channel.published_eq` — the card has been handed a prefix of the log
-/

namespace OsProjects.Driver

open RingLog

/-! ### The card -/

/-- What the card knows: the slot it executes next, and as history the entries it
has executed and the number of transfers it has completed. -/
structure Card where
  tail : ℕ
  executed : List FifoEntry
  completed : ℕ

/-- The card executes the entry at its tail, unless it has caught up with
`FifoHead`. -/
def Card.exec (c : Card) (k : Kyouko3) : Option Card :=
  if c.tail = k.register fifoHead then none
  else some { c with
    tail := (c.tail + 1) % fifoEntries
    executed := c.executed ++ [k.fifo.slots c.tail] }

/-- The card executes the entry at its tail, as long as it is behind `FifoHead`. -/
theorem Card.exec_eq_some_iff {c c' : Card} {k : Kyouko3} :
    c.exec k = some c' ↔ c.tail ≠ k.register Driver.fifoHead ∧
      c' = { c with
        tail := (c.tail + 1) % fifoEntries
        executed := c.executed ++ [k.fifo.slots c.tail] } := by
  unfold Card.exec
  split
  · rename_i heq
    exact iff_of_false (Option.some_ne_none _).symm fun h => h.1 heq
  · rename_i hne
    rw [Option.some_inj]
    exact ⟨fun h => ⟨hne, h.symm⟩, fun h => h.2.symm⟩

/-- The transfers, as address and byte count, that a list of commands starts when
the address register holds `address`. -/
def transfersFrom (address : ℕ) : List FifoEntry → List (ℕ × ℕ)
  | [] => []
  | e :: es =>
    if e.command = bufferAAddress then transfersFrom e.value es
    else if e.command = bufferAConfig then (address, e.value) :: transfersFrom address es
    else transfersFrom address es

/-- The transfers a list of commands starts. -/
def transfers (es : List FifoEntry) : List (ℕ × ℕ) := transfersFrom 0 es

/-- The entries between the card's tail and `FifoHead`. -/
def unexecuted (k : Kyouko3) (c : Card) : List FifoEntry :=
  window fifoEntries k.fifo.slots c.tail (gap fifoEntries c.tail (k.register fifoHead))

/-- All entries handed to the card: those it has executed, then those up to
`FifoHead`. -/
def published (k : Kyouko3) (c : Card) : List FifoEntry := c.executed ++ unexecuted k c

/-- The transfers issued to the card. -/
def issued (k : Kyouko3) (c : Card) : List (ℕ × ℕ) := transfers (published k c)

/-! ### The ring as a log -/

namespace Fifo

variable (f : Fifo) (reg value : ℕ)

@[simp] theorem wrap_log : f.wrap.log = f.log := by
  unfold wrap
  split <;> rfl

@[simp] theorem wrap_slots : f.wrap.slots = f.slots := by
  unfold wrap
  split <;> rfl

@[simp] theorem wrap_stores : f.wrap.stores = f.stores := by
  unfold wrap
  split <;> rfl

@[simp] theorem wrap_tailCache : f.wrap.tailCache = f.tailCache := by
  unfold wrap
  split <;> rfl

@[simp] theorem advance_log (e : FifoEntry) : (f.advance e).log = f.log ++ [e] := rfl

@[simp] theorem advance_slots (e : FifoEntry) : (f.advance e).slots = f.slots := rfl

/-- Inside the ring, moving the head is moving it modulo the size of the ring. -/
theorem wrap_advance_head {f : Fifo} {e : FifoEntry} (h : f.head < fifoEntries) :
    (f.advance e).wrap.head = (f.head + 1) % fifoEntries := by
  unfold wrap
  split <;> simp only [advance, fifoEntries] at * <;> omega

theorem wrap_of_lt {f : Fifo} (h : f.head < fifoEntries) : f.wrap = f :=
  if_neg (by omega)

@[simp] theorem write_log : (f.write reg value).log = f.log ++ [⟨reg, value⟩] := by
  simp [write, putValue, putCommand]

@[simp] theorem write_stores : (f.write reg value).stores = f.stores ++ [f.head, f.head] := by
  simp [write, advance, putValue, putCommand]

@[simp] theorem write_tailCache : (f.write reg value).tailCache = f.tailCache := by
  simp [write, advance, putValue, putCommand]

/-- The two stores together put the pair in the slot at the head. -/
@[simp] theorem write_slots :
    (f.write reg value).slots = Function.update f.slots f.head ⟨reg, value⟩ := by
  simp [write, advance, putValue, putCommand]

theorem write_head {f : Fifo} (h : f.head < fifoEntries) :
    (f.write reg value).head = (f.head + 1) % fifoEntries :=
  @wrap_advance_head ((f.putCommand reg).putValue value) ⟨reg, value⟩ h

theorem write_head_lt {f : Fifo} (h : f.head < fifoEntries) :
    (f.write reg value).head < fifoEntries := by
  rw [write_head _ _ h]
  exact mod_fifoEntries_lt _

end Fifo

/-- The handler leaves the head in the ring, and published if it was. -/
theorem Kyouko3.dmaIntr_published {k : Kyouko3} (iflags : ℕ) (hlt : k.fifo.head < fifoEntries)
    (hpublished : k.register fifoHead = k.fifo.head) :
    (k.dmaIntr iflags).2.register fifoHead = (k.dmaIntr iflags).2.fifo.head ∧
      (k.dmaIntr iflags).2.fifo.head < fifoEntries := by
  by_cases hlast : iflags &&& 0x02 = 0 ∨ k.queuedCount = 1
  · obtain ⟨hfifo, hreg⟩ := dmaIntr_fifo_of_last hlast
    rw [hreg, hfifo]
    exact ⟨hpublished, hlt⟩
  · obtain ⟨hfifo, hreg⟩ := dmaIntr_fifo_of_more hlast
    refine ⟨hreg, ?_⟩
    rw [hfifo]
    exact Fifo.write_head_lt _ _ (Fifo.write_head_lt _ _ hlt)

/-- The handler's stores fall inside the ring when its head does. -/
theorem Kyouko3.dmaIntr_stores {k : Kyouko3} (iflags : ℕ) (hlt : k.fifo.head < fifoEntries)
    (hstores : ∀ i ∈ k.fifo.stores, i < fifoEntries) :
    ∀ i ∈ (k.dmaIntr iflags).2.fifo.stores, i < fifoEntries := by
  by_cases hlast : iflags &&& 0x02 = 0 ∨ k.queuedCount = 1
  · rw [(dmaIntr_fifo_of_last hlast).1]
    exact hstores
  · have hnext := mod_fifoEntries_lt (k.fifo.head + 1)
    rw [(dmaIntr_fifo_of_more hlast).1]
    intro i hi
    simp only [Fifo.write_stores, Fifo.write_head _ _ hlt, List.mem_append, List.mem_cons,
      List.not_mem_nil, or_false, or_self] at hi
    rcases hi with (hi | rfl) | rfl
    · exact hstores i hi
    · exact hlt
    · exact hnext

/-- The ring is a log: `head`, the register `FifoHead` and the card's tail are the
slots of the number of entries written, of `upTo` and of the number of entries
executed; the card has executed the log in order; and fewer than a lap of entries
is unexecuted, all intact in their slots. -/
structure Channel (base : ℕ) (f : Fifo) (hd : ℕ) (c : Card) (upTo : ℕ) : Prop where
  head : f.head = (base + f.log.length) % fifoEntries
  fifoHead : hd = (base + upTo) % fifoEntries
  tail : c.tail = (base + c.executed.length) % fifoEntries
  executed : c.executed = f.log.take c.executed.length
  executed_le : c.executed.length ≤ upTo
  upTo_le : upTo ≤ f.log.length
  room : f.log.length < c.executed.length + fifoEntries
  holds : Holds fifoEntries f.slots base f.log c.executed.length

namespace Channel

variable {base hd upTo : ℕ} {f : Fifo} {k : Kyouko3} {c c' : Card}

/-- A ring whose three pointers agree is a log of which nothing is left. -/
theorem drained (f : Fifo) (c : Card) (hlt : f.head < fifoEntries) (htail : c.tail = f.head)
    (hlog : f.log = []) (hexec : c.executed = []) : Channel f.head f f.head c 0 where
  head := by simp [hlog, Nat.mod_eq_of_lt hlt]
  fifoHead := by simp [Nat.mod_eq_of_lt hlt]
  tail := by simp [htail, hexec, Nat.mod_eq_of_lt hlt]
  executed := by simp [hexec]
  executed_le := by simp [hexec]
  upTo_le := Nat.zero_le _
  room := by simp [hlog, hexec, fifoEntries]
  holds := Holds.of_length_le (by simp [hlog])

theorem head_lt (h : Channel base f hd c upTo) : f.head < fifoEntries := by
  rw [h.head]
  exact mod_fifoEntries_lt _

/-- Stores into the slot at the head disturb nothing. -/
theorem store (h : Channel base f hd c upTo) (e : FifoEntry) (stores : List ℕ) :
    Channel base { f with slots := Function.update f.slots f.head e, stores := stores }
      hd c upTo where
  head := h.head
  fifoHead := h.fifoHead
  tail := h.tail
  executed := h.executed
  executed_le := h.executed_le
  upTo_le := h.upTo_le
  room := h.room
  holds := by
    rw [h.head]
    exact h.holds.store_head e h.room

theorem putCommand (h : Channel base f hd c upTo) (reg : ℕ) :
    Channel base (f.putCommand reg) hd c upTo :=
  h.store _ _

theorem putValue (h : Channel base f hd c upTo) (value : ℕ) :
    Channel base (f.putValue value) hd c upTo :=
  h.store _ _

/-- Moving the head, wrap-around included, over the slot that holds `e` extends
the log by `e`, given room for one more entry. -/
theorem advance (h : Channel base f hd c upTo) {e : FifoEntry} (he : f.slots f.head = e)
    (hroom : f.log.length + 1 < c.executed.length + fifoEntries) :
    Channel base (f.advance e).wrap hd c upTo where
  head := by
    rw [Fifo.wrap_advance_head h.head_lt, h.head, slot_succ]
    simp
  fifoHead := h.fifoHead
  tail := h.tail
  executed := by
    rw [Fifo.wrap_log, Fifo.advance_log,
      List.take_append_of_le_length (h.executed_le.trans h.upTo_le)]
    exact h.executed
  executed_le := h.executed_le
  upTo_le := by
    rw [Fifo.wrap_log, Fifo.advance_log, List.length_append]
    exact h.upTo_le.trans (Nat.le_add_right _ _)
  room := by simpa using hroom
  holds := by
    rw [Fifo.wrap_log, Fifo.wrap_slots, Fifo.advance_log, Fifo.advance_slots, ← he, h.head]
    exact h.holds.append h.room

/-- `FIFO_WRITE` extends the log, given room for one more entry. -/
theorem write (h : Channel base f hd c upTo) (reg value : ℕ)
    (hroom : f.log.length + 1 < c.executed.length + fifoEntries) :
    Channel base (f.write reg value) hd c upTo :=
  ((h.putCommand reg).putValue value).advance (by simp [Fifo.putCommand, Fifo.putValue]) hroom

/-- The cached tail is no part of the correspondence. -/
theorem tailCache (h : Channel base f hd c upTo) (tail : ℕ) :
    Channel base { f with tailCache := tail } hd c upTo :=
  ⟨h.head, h.fifoHead, h.tail, h.executed, h.executed_le, h.upTo_le, h.room, h.holds⟩

/-- Writing `head` to `FifoHead` hands the whole log to the card. -/
theorem publish (h : Channel base f hd c upTo) : Channel base f f.head c f.log.length where
  head := h.head
  fifoHead := h.head
  tail := h.tail
  executed := h.executed
  executed_le := h.executed_le.trans h.upTo_le
  upTo_le := le_rfl
  room := h.room
  holds := h.holds

/-- The card has caught up exactly when everything published is executed. -/
theorem tail_eq_iff (h : Channel base f hd c upTo) :
    c.tail = hd ↔ c.executed.length = upTo := by
  have hle := h.executed_le
  have hup := h.upTo_le
  have hroom := h.room
  rw [h.tail, h.fifoHead]
  exact ⟨fun heq => slot_injOn hle (by omega) heq, fun heq => by rw [heq]⟩

/-- A step of the card executes the next entry of the log; where the driver's head
stands is no concern of the card. -/
theorem exec (h : Channel base f (k.register Driver.fifoHead) c upTo)
    (hslots : f.slots = k.fifo.slots) (hc : c.exec k = some c') :
    Channel base f (k.register Driver.fifoHead) c' upTo ∧
      c'.executed.length = c.executed.length + 1 ∧ c'.completed = c.completed := by
  obtain ⟨hne, rfl⟩ := Card.exec_eq_some_iff.mp hc
  have hlt : c.executed.length < upTo :=
    lt_of_le_of_ne h.executed_le fun heq => hne (h.tail_eq_iff.mpr heq)
  have hlog : c.executed.length < f.log.length := hlt.trans_le h.upTo_le
  -- what stands in the slot at the tail is the next entry of the log
  have hslot : k.fifo.slots c.tail = f.log[c.executed.length] := by
    rw [h.tail, ← hslots]
    exact h.holds.getElem le_rfl hlog
  refine ⟨⟨h.head, h.fifoHead, ?_, ?_, ?_, h.upTo_le, ?_, ?_⟩, by simp, rfl⟩
  · simp only [List.length_append, List.length_singleton]
    rw [h.tail, slot_succ]
  · simp only [List.length_append, List.length_singleton, hslot]
    rw [List.take_add_one, ← h.executed, List.getElem?_eq_getElem hlog]
    rfl
  · simpa using Nat.succ_le_of_lt hlt
  · have hroom := h.room
    simp only [List.length_append, List.length_singleton]
    omega
  · exact h.holds.mono (by simp)

/-- The number of slots from the card's tail to `FifoHead` is the number of
published entries still to be executed. -/
theorem gap_eq (h : Channel base f hd c upTo) :
    gap fifoEntries c.tail hd = upTo - c.executed.length := by
  have hup := h.upTo_le
  have hroom := h.room
  rw [h.tail, h.fifoHead, gap_add_mod h.executed_le (by omega)]

/-- The card has been handed the first `upTo` entries of the log. -/
theorem published_eq (h : Channel base k.fifo (k.register Driver.fifoHead) c upTo) :
    published k c = k.fifo.log.take upTo := by
  have hle := h.executed_le
  have hup := h.upTo_le
  have hwin : unexecuted k c = (k.fifo.log.drop c.executed.length).take
      (upTo - c.executed.length) := by
    rw [unexecuted, h.gap_eq, h.tail]
    exact h.holds.window_eq le_rfl (by omega)
  calc published k c = c.executed ++ unexecuted k c := rfl
    _ = k.fifo.log.take c.executed.length ++
        (k.fifo.log.drop c.executed.length).take (upTo - c.executed.length) := by
      rw [hwin, ← h.executed]
    _ = k.fifo.log.take (c.executed.length + (upTo - c.executed.length)) := List.take_add.symm
    _ = k.fifo.log.take upTo := by rw [Nat.add_sub_cancel' hle]

/-- With another buffer waiting, the handler extends the log by two entries and hands
all of it to the card, given room for them. -/
theorem dmaIntr_of_more (h : Channel base k.fifo hd c upTo) {iflags : ℕ}
    (hmore : ¬(iflags &&& 0x02 = 0 ∨ k.queuedCount = 1))
    (hroom : k.fifo.log.length + 2 < c.executed.length + fifoEntries) :
    Channel base (k.dmaIntr iflags).2.fifo ((k.dmaIntr iflags).2.register Driver.fifoHead) c
      (k.dmaIntr iflags).2.fifo.log.length := by
  obtain ⟨hfifo, hreg⟩ := Kyouko3.dmaIntr_fifo_of_more hmore
  have hone := h.write bufferAAddress (u32 (k.dmaBuffers (nextBuffer k.drain)).pBase) (by omega)
  have htwo := hone.write bufferAConfig
    (unsigned (k.dmaBuffers (nextBuffer k.drain)).storedCount)
    (by rw [Fifo.write_log, List.length_append, List.length_singleton]; omega)
  rw [← hfifo] at htwo
  rw [hreg]
  exact htwo.publish

/-- The handler keeps the ring a log and never takes back what the card has been
handed. -/
theorem dmaIntr (h : Channel base k.fifo (k.register Driver.fifoHead) c upTo) (iflags : ℕ)
    (hroom : k.fifo.log.length + 2 < c.executed.length + fifoEntries) :
    ∃ upTo', upTo ≤ upTo' ∧ Channel base (k.dmaIntr iflags).2.fifo
      ((k.dmaIntr iflags).2.register Driver.fifoHead) c upTo' := by
  by_cases hlast : iflags &&& 0x02 = 0 ∨ k.queuedCount = 1
  · obtain ⟨hfifo, hreg⟩ := Kyouko3.dmaIntr_fifo_of_last hlast
    exact ⟨upTo, le_rfl, by rwa [hfifo, hreg]⟩
  · refine ⟨_, ?_, h.dmaIntr_of_more hlast hroom⟩
    rw [(Kyouko3.dmaIntr_fifo_of_more hlast).1, Fifo.write_log, Fifo.write_log]
    simpa using h.upTo_le.trans (Nat.le_add_right _ 2)

end Channel

end OsProjects.Driver
