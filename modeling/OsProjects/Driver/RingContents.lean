import Mathlib.Data.List.Induction
import OsProjects.Driver.Card

/-!
# The contents of the ring

What stands in the ring after any number of calls of `FIFO_WRITE`, with nobody else
writing it. The ring is written from slot zero on and round again at
`FIFO_ENTRIES`, so each lap overwrites the one before it, and what is left is the
last lap: from any slot forward to the head stand the latest pairs written.

## Main definitions

* `Kyouko3.fifoWrites` — one `FIFO_WRITE` after another

## Main results

* `ring_contents` — the head, the slots written to and what stands in each slot
-/

namespace OsProjects.Driver

open RingLog

namespace Kyouko3

/-- One `FIFO_WRITE` after another. -/
def fifoWrites (k : Kyouko3) (es : List FifoEntry) : Kyouko3 :=
  es.foldl (fun k e => k.fifoWrite e.command e.value) k

@[simp] theorem fifoWrites_nil (k : Kyouko3) : k.fifoWrites [] = k := rfl

@[simp] theorem fifoWrites_concat (k : Kyouko3) (es : List FifoEntry) (e : FifoEntry) :
    k.fifoWrites (es ++ [e]) = (k.fifoWrites es).fifoWrite e.command e.value := by
  simp [fifoWrites]

end Kyouko3

/-- The ring is filled by the pairs written, all of them stored inside the ring. -/
structure Fifo.Filled (slots₀ : ℕ → FifoEntry) (f : Fifo) (es : List FifoEntry) : Prop where
  ring : RingLog.Filled fifoEntries slots₀ f.slots f.head es
  stores : ∀ i ∈ f.stores, i < fifoEntries

namespace Fifo.Filled

variable {slots₀ : ℕ → FifoEntry} {f : Fifo} {es : List FifoEntry}

theorem head_lt (h : f.Filled slots₀ es) : f.head < fifoEntries := by
  rw [h.ring.head]
  exact mod_fifoEntries_lt _

/-- What one `FIFO_WRITE` preserves. -/
theorem write (h : f.Filled slots₀ es) (e : FifoEntry) :
    (f.write e.command e.value).Filled slots₀ (es ++ [e]) where
  ring := by
    rw [Fifo.write_slots, Fifo.write_head _ _ h.head_lt]
    exact h.ring.write e
  stores i hi := by
    rw [Fifo.write_stores, List.mem_append] at hi
    rcases hi with hi | hi
    · exact h.stores i hi
    · obtain rfl : i = f.head := by simpa using hi
      exact h.head_lt

end Fifo.Filled

namespace Kyouko3

/-- The ring that `kyouko3_open` sets up is empty, whatever its memory contains. -/
theorem filled_open (k : Kyouko3) (env : OpenEnv) :
    (k.kyouko3Open env).fifo.Filled env.slots [] where
  ring := RingLog.Filled.nil
  stores _ hi := absurd hi List.not_mem_nil

/-- What any number of calls preserve. -/
theorem filled_fifoWrites {k : Kyouko3} {slots₀ : ℕ → FifoEntry} (h : k.fifo.Filled slots₀ [])
    (es : List FifoEntry) : (k.fifoWrites es).fifo.Filled slots₀ es := by
  induction es using List.reverseRecOn with
  | nil => exact h
  | append_singleton es e ih =>
    rw [fifoWrites_concat]
    exact ih.write e

end Kyouko3

/-- **The contents of the ring.** After `kyouko3_open` and any calls of `FIFO_WRITE`
the head is the number of calls modulo `FIFO_ENTRIES`; every store went to a slot of
the ring; each slot holds the last pair whose position has its index modulo
`FIFO_ENTRIES`, or what it held at first if there is none; and from any slot forward
to the head stand the last pairs written, in order, as long as that many have been. -/
theorem ring_contents (k : Kyouko3) (env : OpenEnv) (es : List FifoEntry) :
    let f := ((k.kyouko3Open env).fifoWrites es).fifo
    f.head = es.length % fifoEntries ∧
      (∀ i ∈ f.stores, i < fifoEntries) ∧
      (∀ i < fifoEntries,
        (∀ j (hj : j < es.length), j % fifoEntries = i →
          (∀ j', j < j' → j' < es.length → j' % fifoEntries ≠ i) → f.slots i = es[j]) ∧
        ((∀ j < es.length, j % fifoEntries ≠ i) → f.slots i = env.slots i)) ∧
      ∀ t < fifoEntries, gap fifoEntries t f.head ≤ es.length →
        window fifoEntries f.slots t (gap fifoEntries t f.head) =
          es.drop (es.length - gap fifoEntries t f.head) := by
  intro f
  have h : f.Filled env.slots es := Kyouko3.filled_fifoWrites (k.filled_open env) es
  refine ⟨h.ring.head, h.stores, ?_, ?_⟩
  · intro i _
    refine ⟨?_, h.ring.untouched i⟩
    rintro j hj rfl hlast
    exact h.ring.latest j hj hlast
  · intro t ht hle
    exact h.ring.window_eq ht hle

end OsProjects.Driver
