import OsProjects.Driver.RingContents

/-!
# The ring of the lab drivers

The drivers of lab3, lab4 and 5lab came before the Kyouko3 driver and have a ring of
FIFO commands of the same size, in the same 8192 bytes. Their `FIFO_WRITE` puts the
head back to zero when it is greater than `FIFO_ENTRIES`, where the Kyouko3 driver
does so when it is not less. So theirs is a ring of one slot more than was allocated:
the head stops at `FIFO_ENTRIES` once a lap, where the card's tail never is, and the
next pair is stored behind the memory of the ring.

The three drivers have the same text where the ring is concerned. Each function is
given once, and each lab has it under its own name.

## Main definitions

* `Kyouko3`, `Lab3`, `Lab4`, `Lab5`, `Lab` — the lab drivers
* `RingsAgree` — the ring of a lab after each call is that of the Kyouko3 driver

## Main results

* `Lab.filled_fifoWrites` — the ring of a lab is one of `FIFO_ENTRIES + 1` slots
* `Lab.fifoEntries_mem_stores_iff` — when a pair is stored behind the ring
* `rings_agree_iff` — the rings agree for less than one lap
-/

namespace OsProjects.Labs

open Driver (FifoEntry OpenEnv fifoEntries fifoStart fifoEnd fifoHead u32 zeroOpenEnv)
open RingLog

/-! ### Data -/

/-- `struct fifo`. `slots` is the memory `k_base` points at and what lies behind it; only
the first `FIFO_ENTRIES` slots are allocated. -/
structure Fifo where
  pBase : ℕ
  kBase : ℕ
  slots : ℕ → FifoEntry
  head : ℕ
  tail : ℕ
  /-- history: the slot index of each store through `k_base` -/
  stores : List ℕ

/-- `struct kyouko3`, as far as the ring goes. -/
structure Kyouko3 where
  kvControlBase : ℕ
  kvRamCardBase : ℕ
  /-- the device's register words behind `kv_control_base` -/
  control : ℕ → ℕ
  fifo : Fifo
  bGraphicsOn : Bool
  bDmaMapped : Bool

/-- The structure as the module is loaded: a global of C, all zero. -/
def Kyouko3.zero : Kyouko3 where
  kvControlBase := 0
  kvRamCardBase := 0
  control _ := 0
  fifo := ⟨0, 0, fun _ => ⟨0, 0⟩, 0, 0, []⟩
  bGraphicsOn := false
  bDmaMapped := false

/-! ### Functions -/

namespace Fifo

/-- `k_base[head].command = reg` -/
def putCommand (f : Fifo) (reg : ℕ) : Fifo :=
  { f with
    slots := Function.update f.slots f.head { f.slots f.head with command := reg }
    stores := f.stores ++ [f.head] }

/-- `k_base[head].value = value` -/
def putValue (f : Fifo) (value : ℕ) : Fifo :=
  { f with
    slots := Function.update f.slots f.head { f.slots f.head with value := value }
    stores := f.stores ++ [f.head] }

/-- `head += 1` and `if(head > FIFO_ENTRIES) head = 0` -/
def advance (f : Fifo) : Fifo :=
  let f := { f with head := f.head + 1 }
  if f.head > fifoEntries then { f with head := 0 } else f

end Fifo

namespace Kyouko3

/-- `K_WRITE_REG` -/
def kWriteReg (k : Kyouko3) (reg value : ℕ) : Kyouko3 :=
  { k with control := Function.update k.control (reg >>> 2) value }

/-- `FIFO_WRITE` -/
def fifoWrite (k : Kyouko3) (reg value : ℕ) : Kyouko3 :=
  { k with fifo := ((k.fifo.putCommand reg).putValue value).advance }

/-- `kyouko3fops_open` -/
def kyouko3fopsOpen (k : Kyouko3) (env : OpenEnv) : Kyouko3 :=
  let k := { k with kvControlBase := env.kControlBase, control := env.control }
  let k := { k with kvRamCardBase := env.kRamCardBase }
  let k := { k with fifo := ⟨env.pBase, env.kBase, env.slots, k.fifo.head, k.fifo.tail, []⟩ }
  let k := k.kWriteReg fifoStart (u32 env.pBase)
  let k := k.kWriteReg fifoEnd (u32 (env.pBase + 8192))
  { k with
    fifo := { k.fifo with head := 0, tail := 0 }
    bGraphicsOn := false
    bDmaMapped := false }

/-- One evaluation of the loop of `fifo_flush`, with `tail` the contents of the
register `FIFOTAIL`: `none` when the loop is over. -/
def fifoFlushLoop (k : Kyouko3) (tail : ℕ) : Option Kyouko3 :=
  if k.fifo.tail ≠ k.fifo.head then some { k with fifo := { k.fifo with tail := tail } } else none

end Kyouko3

/-! ### The labs -/

namespace Lab3

def fifoWrite (k : Kyouko3) (reg value : ℕ) : Kyouko3 := k.fifoWrite reg value

def kyouko3fopsOpen (k : Kyouko3) (env : OpenEnv) : Kyouko3 := k.kyouko3fopsOpen env

def fifoFlushLoop (k : Kyouko3) (tail : ℕ) : Option Kyouko3 := k.fifoFlushLoop tail

end Lab3

namespace Lab4

def fifoWrite (k : Kyouko3) (reg value : ℕ) : Kyouko3 := k.fifoWrite reg value

def kyouko3fopsOpen (k : Kyouko3) (env : OpenEnv) : Kyouko3 := k.kyouko3fopsOpen env

def fifoFlushLoop (k : Kyouko3) (tail : ℕ) : Option Kyouko3 := k.fifoFlushLoop tail

end Lab4

namespace Lab5

def fifoWrite (k : Kyouko3) (reg value : ℕ) : Kyouko3 := k.fifoWrite reg value

def kyouko3fopsOpen (k : Kyouko3) (env : OpenEnv) : Kyouko3 := k.kyouko3fopsOpen env

def fifoFlushLoop (k : Kyouko3) (tail : ℕ) : Option Kyouko3 := k.fifoFlushLoop tail

end Lab5

/-- The labs whose drivers have a ring. -/
inductive Lab
  | lab3
  | lab4
  | lab5
  deriving DecidableEq, Repr

namespace Lab

def fifoWrite : Lab → Kyouko3 → ℕ → ℕ → Kyouko3
  | .lab3 => Lab3.fifoWrite
  | .lab4 => Lab4.fifoWrite
  | .lab5 => Lab5.fifoWrite

def kyouko3fopsOpen : Lab → Kyouko3 → OpenEnv → Kyouko3
  | .lab3 => Lab3.kyouko3fopsOpen
  | .lab4 => Lab4.kyouko3fopsOpen
  | .lab5 => Lab5.kyouko3fopsOpen

def fifoFlushLoop : Lab → Kyouko3 → ℕ → Option Kyouko3
  | .lab3 => Lab3.fifoFlushLoop
  | .lab4 => Lab4.fifoFlushLoop
  | .lab5 => Lab5.fifoFlushLoop

/-- One `FIFO_WRITE` after another. -/
def fifoWrites (lab : Lab) (k : Kyouko3) (es : List FifoEntry) : Kyouko3 :=
  es.foldl (fun k e => lab.fifoWrite k e.command e.value) k

/-- The card's tail, which is a slot of the ring, can come to where the loop of
`fifo_flush` ends. -/
def FlushCanEnd (lab : Lab) (k : Kyouko3) : Prop :=
  ∃ tail < fifoEntries, ∀ next,
    lab.fifoFlushLoop { k with fifo := { k.fifo with tail := tail } } next = none

end Lab

/-- Every pair is stored inside the ring; after each call the head and the slots of the
ring are those of the Kyouko3 driver after the same calls; and the head is a slot of the
ring, so that `fifo_flush` can end. -/
structure RingsAgree (lab : Lab) (l : Kyouko3) (k : Driver.Kyouko3) (es : List FifoEntry) :
    Prop where
  stores : ∀ i ∈ (lab.fifoWrites l es).fifo.stores, i < fifoEntries
  head : ∀ calls, calls <+: es → (lab.fifoWrites l calls).fifo.head = (k.fifoWrites calls).fifo.head
  slots : ∀ calls, calls <+: es → ∀ i < fifoEntries,
    (lab.fifoWrites l calls).fifo.slots i = (k.fifoWrites calls).fifo.slots i
  head_lt : ∀ calls, calls <+: es → (lab.fifoWrites l calls).fifo.head < fifoEntries
  flush : ∀ calls, calls <+: es → lab.FlushCanEnd (lab.fifoWrites l calls)

/-! ### A ring of one slot more -/

/-- The pairs written fill a ring of `FIFO_ENTRIES + 1` slots; each was stored in two
halves in the slot of its position. -/
structure Fifo.Filled (slots₀ : ℕ → FifoEntry) (f : Fifo) (es : List FifoEntry) : Prop where
  ring : RingLog.Filled (fifoEntries + 1) slots₀ f.slots f.head es
  stores : f.stores = (List.range es.length).flatMap fun j =>
    [j % (fifoEntries + 1), j % (fifoEntries + 1)]

namespace Fifo

variable {slots₀ : ℕ → FifoEntry} {f : Fifo} {es : List FifoEntry}

@[simp] theorem advance_slots (f : Fifo) : f.advance.slots = f.slots := by
  unfold advance
  dsimp only
  split <;> rfl

@[simp] theorem advance_stores (f : Fifo) : f.advance.stores = f.stores := by
  unfold advance
  dsimp only
  split <;> rfl

/-- Up to `FIFO_ENTRIES`, moving the head is moving it modulo one more. -/
theorem advance_head {f : Fifo} (h : f.head < fifoEntries + 1) :
    f.advance.head = (f.head + 1) % (fifoEntries + 1) := by
  unfold advance
  rcases Nat.lt_or_ge f.head fifoEntries with hlt | hge
  · have hstay : ¬f.head + 1 > fifoEntries := by omega
    rw [if_neg hstay, Nat.mod_eq_of_lt (by omega)]
  · have hwrap : f.head + 1 = fifoEntries + 1 := by omega
    have hgt : f.head + 1 > fifoEntries := by omega
    rw [if_pos hgt, hwrap, Nat.mod_self]

/-- What one `FIFO_WRITE` preserves. -/
theorem Filled.write (h : f.Filled slots₀ es) (e : FifoEntry) :
    ((f.putCommand e.command).putValue e.value).advance.Filled slots₀ (es ++ [e]) where
  ring := by
    have hhead : f.head < fifoEntries + 1 := by
      rw [h.ring.head]
      exact Nat.mod_lt _ (Nat.succ_pos _)
    have hwrite := h.ring.write e
    rw [advance_slots, advance_head (by exact hhead)]
    simpa [putValue, putCommand] using hwrite
  stores := by
    rw [advance_stores, List.length_append, List.length_singleton, List.range_succ,
      List.flatMap_append, ← h.stores]
    simp [putValue, putCommand, h.ring.head]

/-- The slots stored to are those of the positions written. -/
theorem Filled.mem_stores_iff {i : ℕ} (h : f.Filled slots₀ es) :
    i ∈ f.stores ↔ ∃ j < es.length, i = j % (fifoEntries + 1) := by
  simp [h.stores]

end Fifo

namespace Lab

variable {lab : Lab} {k : Kyouko3} {env : OpenEnv} {es : List FifoEntry}

theorem fifoWrite_eq (lab : Lab) : lab.fifoWrite = Kyouko3.fifoWrite := by
  cases lab <;> rfl

theorem filled_open (lab : Lab) (k : Kyouko3) (env : OpenEnv) :
    (lab.kyouko3fopsOpen k env).fifo.Filled env.slots [] := by
  cases lab <;> exact ⟨RingLog.Filled.nil, rfl⟩

/-- What any number of calls preserve. -/
theorem filled_fifoWrites (lab : Lab) {slots₀ : ℕ → FifoEntry} (h : k.fifo.Filled slots₀ [])
    (es : List FifoEntry) : (lab.fifoWrites k es).fifo.Filled slots₀ es := by
  induction es using List.reverseRecOn with
  | nil => exact h
  | append_singleton es e ih =>
    have hconcat : lab.fifoWrites k (es ++ [e]) =
        (lab.fifoWrites k es).fifoWrite e.command e.value := by
      simp [fifoWrites, fifoWrite_eq]
    rw [hconcat]
    exact ih.write e

/-- A pair is stored behind the ring exactly when more than a lap of pairs is written. -/
theorem fifoEntries_mem_stores_iff (lab : Lab) (k : Kyouko3) (env : OpenEnv)
    (es : List FifoEntry) :
    fifoEntries ∈ (lab.fifoWrites (lab.kyouko3fopsOpen k env) es).fifo.stores ↔
      fifoEntries < es.length := by
  have h := lab.filled_fifoWrites (lab.filled_open k env) es
  rw [h.mem_stores_iff]
  constructor
  · rintro ⟨j, hj, hmod⟩
    have hle := Nat.mod_le j (fifoEntries + 1)
    omega
  · intro hlt
    exact ⟨fifoEntries, hlt, (Nat.mod_eq_of_lt (Nat.lt_succ_self _)).symm⟩

/-- The loop of `fifo_flush` can end exactly when the head is a slot of the ring. -/
theorem flushCanEnd_iff (lab : Lab) (k : Kyouko3) :
    lab.FlushCanEnd k ↔ k.fifo.head < fifoEntries := by
  have hloop : lab.fifoFlushLoop = Kyouko3.fifoFlushLoop := by
    cases lab <;> rfl
  simp only [FlushCanEnd, hloop, Kyouko3.fifoFlushLoop]
  constructor
  · rintro ⟨tail, htail, hend⟩
    have heq : tail = k.fifo.head := by simpa using hend 0
    exact heq ▸ htail
  · intro hlt
    exact ⟨k.fifo.head, hlt, fun next => by simp⟩

end Lab

/-! ### Agreement -/

/-- **The rings agree for less than one lap.** Opened with the same memory and fed the
same calls, a lab's driver stores inside the ring, and keeps the head and the contents
that the Kyouko3 driver keeps, exactly as long as fewer than `FIFO_ENTRIES` pairs are
written. -/
theorem rings_agree_iff (lab : Lab) (l : Kyouko3) (k : Driver.Kyouko3) (env : OpenEnv)
    (es : List FifoEntry) :
    RingsAgree lab (lab.kyouko3fopsOpen l env) (k.kyouko3Open env) es ↔
      es.length < fifoEntries := by
  have hlab := fun calls => lab.filled_fifoWrites (lab.filled_open l env) calls
  have hdriver := fun calls => Driver.Kyouko3.filled_fifoWrites (k.filled_open env) calls
  constructor
  · intro h
    by_contra hlap
    -- after a whole lap the head stands behind the last slot
    have hhead := h.head_lt (es.take fifoEntries) (List.take_prefix _ _)
    rw [(hlab _).ring.head, List.length_take, Nat.min_eq_left (by omega),
      Nat.mod_eq_of_lt (Nat.lt_succ_self _)] at hhead
    exact absurd hhead (lt_irrefl _)
  · intro hlt
    have hshort : ∀ calls, calls <+: es → calls.length < fifoEntries :=
      fun calls hcalls => hcalls.length_le.trans_lt hlt
    have hhead : ∀ calls, calls <+: es →
        (lab.fifoWrites (lab.kyouko3fopsOpen l env) calls).fifo.head = calls.length := by
      intro calls hcalls
      rw [(hlab calls).ring.head]
      exact Nat.mod_eq_of_lt (Nat.lt_succ_of_lt (hshort calls hcalls))
    refine ⟨?_, ?_, ?_, ?_, ?_⟩
    · intro i hi
      obtain ⟨j, hj, rfl⟩ := (hlab es).mem_stores_iff.mp hi
      exact (Nat.mod_le j _).trans_lt (hj.trans hlt)
    · intro calls hcalls
      rw [hhead calls hcalls, (hdriver calls).ring.head]
      exact (Nat.mod_eq_of_lt (hshort calls hcalls)).symm
    · intro calls hcalls i _
      have hlen := hshort calls hcalls
      rw [(hlab calls).ring.slots_eq (by omega), (hdriver calls).ring.slots_eq (by omega)]
    · intro calls hcalls
      rw [hhead calls hcalls]
      exact hshort calls hcalls
    · intro calls hcalls
      rw [Lab.flushCanEnd_iff, hhead calls hcalls]
      exact hshort calls hcalls

/-- One pair more than the ring has slots: the last is stored behind it. -/
theorem overrun_behind_ring :
    fifoEntries ∈ (Lab.lab5.fifoWrites (Lab.lab5.kyouko3fopsOpen .zero zeroOpenEnv)
        (List.replicate (fifoEntries + 1) ⟨0, 0⟩)).fifo.stores ∧
      ¬RingsAgree .lab5 (Lab.lab5.kyouko3fopsOpen .zero zeroOpenEnv)
        (Driver.Kyouko3.zero.kyouko3Open zeroOpenEnv)
        (List.replicate (fifoEntries + 1) ⟨0, 0⟩) := by
  have hmem : fifoEntries ∈ (Lab.lab5.fifoWrites (Lab.lab5.kyouko3fopsOpen .zero zeroOpenEnv)
      (List.replicate (fifoEntries + 1) ⟨0, 0⟩)).fifo.stores := by
    rw [Lab.fifoEntries_mem_stores_iff, List.length_replicate]
    exact Nat.lt_succ_self _
  exact ⟨hmem, fun h => absurd (h.stores fifoEntries hmem) (lt_irrefl _)⟩

end OsProjects.Labs
