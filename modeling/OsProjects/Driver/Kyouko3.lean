import Mathlib.Algebra.Order.Group.Nat
import Mathlib.Data.List.FinRange
import Mathlib.Logic.Function.Basic
import Mathlib.Tactic.Simps.Basic

/-!
# The Kyouko3 driver

The driver of the Kyouko3 graphics card keeps all its state in one structure:
the ring of FIFO commands shared with the card, the eight DMA buffers and the
indices of the DMA queue. This file embeds that structure and the functions that
work on it, each under its name in the source.

Pointers into memory the card shares with the driver are modelled by the memory
they point at: the slots behind `fifo.k_base` and the register words behind
`k_control_base`. What the kernel or the user supplies (allocation results, byte
counts, interrupt flags) is an argument. A function that can sleep or that can be
interrupted halfway is split at those points; the order in which the pieces run
is the business of the transition systems built on top.

Three fields record history and are read by no function: the pairs and slot
indices `FIFO_WRITE` has stored since the device was opened, and the kernel
resources the driver holds.
-/

namespace OsProjects.Driver

/-! ### Constants -/

def fifoStart : ℕ := 0x1020

def fifoEnd : ℕ := 0x1024

def fifoHead : ℕ := 0x4010

def configAcceleration : ℕ := 0x1010

def configModeSet : ℕ := 0x1008

def configInterrupt : ℕ := 0x100C

def interruptStatus : ℕ := 0x4008

def bufferAAddress : ℕ := 0x2000

def bufferAConfig : ℕ := 0x2008

def rasterClear : ℕ := 0x3008

/-- `FIFO_ENTRIES` -/
def fifoEntries : ℕ := 1024

theorem mod_fifoEntries_lt (n : ℕ) : n % fifoEntries < fifoEntries := Nat.mod_lt n (by decide)

/-- `DMA_NUM_BUFFS` -/
abbrev dmaNumBuffs : ℕ := 8

/-- `DMA_BUFF_SIZE`, an `unsigned int` -/
def dmaBuffSize : ℕ := 126976

/-! ### Conversions and indices -/

/-- Conversion of a wider unsigned value to `u32`. -/
def u32 (x : ℕ) : ℕ := x % 2 ^ 32

/-- Conversion of an `int` to `unsigned int`. -/
def unsigned (count : Int32) : ℕ := count.toUInt32.toNat

/-- `(i + 1) % DMA_NUM_BUFFS` -/
def nextBuffer (i : Fin dmaNumBuffs) : Fin dmaNumBuffs :=
  ⟨(i + 1) % dmaNumBuffs, Nat.mod_lt _ (by decide)⟩

/-! ### Data -/

/-- `struct fifo_entry`: one command for the card. -/
structure FifoEntry where
  command : ℕ
  value : ℕ
  deriving DecidableEq, Repr

/-- `struct fifo`: the ring of commands. `slots` is the memory `k_base` points
at; only the first `FIFO_ENTRIES` slots are allocated. -/
structure Fifo where
  pBase : ℕ
  kBase : ℕ
  slots : ℕ → FifoEntry
  head : ℕ
  tailCache : ℕ
  /-- history: the pairs written since the device was opened, oldest first -/
  log : List FifoEntry
  /-- history: the slot index of each store through `k_base` -/
  stores : List ℕ

/-- `struct dma_buffer` -/
structure DmaBuffer where
  pBase : ℕ
  kBase : ℕ
  uBase : ℕ
  storedCount : Int32

/-- What the driver can hold of the kernel's. -/
inductive Resource
  | coherent (size kBase pBase : ℕ)
  | ioremap (address : ℕ)
  | msi
  | irq
  deriving DecidableEq, Repr

/-- `struct kyouko3`, the driver's only state, together with the two wait queues,
each represented by the number of wake-ups it has been given. -/
structure Kyouko3 where
  kControlBase : ℕ
  kRamCardBase : ℕ
  /-- the device's register words behind `k_control_base` -/
  control : ℕ → ℕ
  fifo : Fifo
  graphicsOn : Bool
  dmaMapped : Bool
  dmaBuffers : Fin dmaNumBuffs → DmaBuffer
  fill : Fin dmaNumBuffs
  drain : Fin dmaNumBuffs
  queuedCount : ℤ
  dmaNotFull : ℕ
  dmaEmpty : ℕ
  /-- history: the kernel resources acquired and not released -/
  held : List Resource

/-- The structure as the module is loaded: a global of C, all zero. -/
def Kyouko3.zero : Kyouko3 where
  kControlBase := 0
  kRamCardBase := 0
  control _ := 0
  fifo := ⟨0, 0, fun _ => ⟨0, 0⟩, 0, 0, [], []⟩
  graphicsOn := false
  dmaMapped := false
  dmaBuffers _ := ⟨0, 0, 0, 0⟩
  fill := 0
  drain := 0
  queuedCount := 0
  dmaNotFull := 0
  dmaEmpty := 0
  held := []

/-- The index of the buffer that `bind_dma` leaves to be filled. -/
def firstBuffer : Fin dmaNumBuffs := 0

/-- `irqreturn_t` -/
inductive IrqReturn
  | none
  | handled
  deriving DecidableEq, Repr

/-! ### Answers of the kernel -/

/-- The answers of the kernel during `kyouko3_open`: where the two regions are
mapped and what the registers contain, and the memory of the ring. -/
structure OpenEnv where
  kControlBase : ℕ
  control : ℕ → ℕ
  kRamCardBase : ℕ
  kBase : ℕ
  pBase : ℕ
  slots : ℕ → FifoEntry

/-- A kernel that answers every request of `kyouko3_open` with zeroes. -/
def zeroOpenEnv : OpenEnv := ⟨0, fun _ => 0, 0, 0, 0, fun _ => ⟨0, 0⟩⟩

/-- The answers of the kernel during `bind_dma`: the status of `pci_enable_msi`
and `request_irq`, and for each buffer the result of `pci_alloc_consistent`
(kernel and bus address, `none` when it fails) and of `vm_mmap`. -/
structure BindEnv where
  enableMsi : ℤ
  requestIrq : ℤ
  alloc : Fin dmaNumBuffs → Option (ℕ × ℕ)
  vmMmap : Fin dmaNumBuffs → ℕ

/-- A kernel that grants every request of `bind_dma`, with buffers 128 KiB apart. -/
def grantingBindEnv : BindEnv :=
  ⟨0, 0, fun i => some ((i + 1) * 0x20000, i * 0x20000), fun i => (i + 1) * 0x1000⟩

/-- How `start_dma` goes on after the locked section. -/
inductive StartPath
  | issue
  | queued (suspend : Bool)
  deriving DecidableEq, Repr

/-! ### FIFO writes

`FIFO_WRITE` is four steps on the ring; an interrupt can fall between them. -/

namespace Fifo

/-- `k_base[head].command = reg` -/
def putCommand (f : Fifo) (reg : ℕ) : Fifo :=
  { f with
    slots := Function.update f.slots f.head { f.slots f.head with command := reg }
    stores := f.stores ++ [f.head] }

/-- `k_base[head].value = value` -/
def putValue (f : Fifo) (value : ℕ) : Fifo :=
  { f with
    slots := Function.update f.slots f.head { f.slots f.head with value := value }
    stores := f.stores ++ [f.head] }

/-- `++head`, which makes `entry` the latest pair of the ring -/
def advance (f : Fifo) (entry : FifoEntry) : Fifo :=
  { f with head := f.head + 1, log := f.log ++ [entry] }

/-- `if(head >= FIFO_ENTRIES) head = 0` -/
def wrap (f : Fifo) : Fifo :=
  if f.head ≥ fifoEntries then { f with head := 0 } else f

/-- `FIFO_WRITE` on the ring. -/
def write (f : Fifo) (reg value : ℕ) : Fifo :=
  (((f.putCommand reg).putValue value).advance ⟨reg, value⟩).wrap

end Fifo

namespace Kyouko3

/-! ### Helper methods -/

/-- The contents of the device register `reg`. -/
def register (k : Kyouko3) (reg : ℕ) : ℕ := k.control (reg >>> 2)

/-- `K_WRITE_REGISTER` -/
@[simps]
def kWriteRegister (k : Kyouko3) (reg value : ℕ) : Kyouko3 :=
  { k with control := Function.update k.control (reg >>> 2) value }

/-- `FIFO_WRITE` -/
@[simps]
def fifoWrite (k : Kyouko3) (reg value : ℕ) : Kyouko3 :=
  { k with fifo := k.fifo.write reg value }

/-- `K_WRITE_REGISTER(FifoHead, kyouko3.fifo.head)`: let the card run up to the
head of the ring. -/
def publish (k : Kyouko3) : Kyouko3 := k.kWriteRegister fifoHead k.fifo.head

@[simps]
def acquire (k : Kyouko3) (r : Resource) : Kyouko3 := { k with held := r :: k.held }

@[simps]
def free (k : Kyouko3) (r : Resource) : Kyouko3 := { k with held := k.held.erase r }

/-! ### The interrupt handler -/

/-- `dma_intr`; `iflags` is what the card returns for `InterruptStatus`. -/
def dmaIntr (k : Kyouko3) (iflags : ℕ) : IrqReturn × Kyouko3 :=
  let k := k.kWriteRegister interruptStatus (iflags &&& 0xf)
  if iflags &&& 0x02 = 0 then (.none, k)
  else
    let k := { k with queuedCount := k.queuedCount - 1, drain := nextBuffer k.drain }
    -- the queue was full before this completion
    let k := if k.queuedCount + 1 = (dmaNumBuffs : ℤ)
      then { k with dmaNotFull := k.dmaNotFull + 1 } else k
    -- the next buffer in the queue goes to the card, or there is none
    if k.queuedCount ≠ 0 then
      let k := k.fifoWrite bufferAAddress (u32 (k.dmaBuffers k.drain).pBase)
      let k := k.fifoWrite bufferAConfig (unsigned (k.dmaBuffers k.drain).storedCount)
      (.handled, k.publish)
    else (.handled, { k with dmaEmpty := k.dmaEmpty + 1 })

/-! ### DMA commands -/

/-- One round of the allocate-and-map loop of `bind_dma`. A failing allocation
returns NULL and leaves the bus address as it was. -/
def bindBuffer (env : BindEnv) (k : Kyouko3) (i : Fin dmaNumBuffs) : Kyouko3 :=
  let buffer := k.dmaBuffers i
  match env.alloc i with
  | some (kBase, pBase) =>
    { k with
      dmaBuffers := Function.update k.dmaBuffers i
        { buffer with kBase := kBase, pBase := pBase, uBase := env.vmMmap i }
      held := .coherent dmaBuffSize kBase pBase :: k.held }
  | none =>
    { k with
      dmaBuffers := Function.update k.dmaBuffers i
        { buffer with kBase := 0, uBase := env.vmMmap i } }

/-- `bind_dma` -/
def bindDma (k : Kyouko3) (env : BindEnv) : ℕ × Kyouko3 :=
  if k.dmaMapped then (0, k)
  else if env.enableMsi ≠ 0 then (0, k)
  else
    let k := k.acquire .msi
    -- `request_irq` failed: `pci_disable_msi`
    if env.requestIrq ≠ 0 then (0, k.free .msi)
    else
      let k := k.acquire .irq
      let k := (List.finRange dmaNumBuffs).foldl (bindBuffer env) k
      let k := { k with dmaMapped := true, fill := 0, drain := 0, queuedCount := 0 }
      let k := k.kWriteRegister configInterrupt 0x02
      ((k.dmaBuffers k.fill).uBase, k)

/-- `pci_free_consistent` on DMA buffer `i` -/
def freeBuffer (k : Kyouko3) (i : Fin dmaNumBuffs) : Kyouko3 :=
  k.free (.coherent dmaBuffSize (k.dmaBuffers i).kBase (k.dmaBuffers i).pBase)

/-- `late_unbind_dma` after its wait: free the buffers, silence the card and let
go of the interrupt. -/
def lateUnbindDma (k : Kyouko3) : Kyouko3 :=
  let k := (List.finRange dmaNumBuffs).foldl freeBuffer k
  let k := k.kWriteRegister configInterrupt 0x0
  let k := (k.free .irq).free .msi
  { k with dmaMapped := false }

/-- The two checks of `start_dma` on the byte count. The second compares an `int`
with an `unsigned int`, so a negative count is too large. -/
def startDmaRefuses (count : Int32) : Bool :=
  count = 0 || unsigned count > dmaBuffSize

/-- `start_dma` between `spin_lock_irqsave` and `spin_unlock_irqrestore`. -/
def startDmaLocked (k : Kyouko3) (count : Int32) : StartPath × Kyouko3 :=
  let k := { k with queuedCount := k.queuedCount + 1 }
  -- nothing is queued, so this buffer is issued at once, after the section
  if k.fill = k.drain then (.issue, k)
  else
    let k := { k with
      dmaBuffers := Function.update k.dmaBuffers k.fill
        { k.dmaBuffers k.fill with storedCount := count }
      fill := nextBuffer k.fill }
    (.queued (k.fill = k.drain), k)

/-! ### FIFO commands -/

/-- `fifo_queue`; `copied` is the result of `copy_from_user`: the number of bytes
not copied and the entry as it then stands. -/
def fifoQueue (k : Kyouko3) (copied : ℕ × FifoEntry) : ℕ × Kyouko3 :=
  (copied.1, k.fifoWrite copied.2.command copied.2.value)

/-- One evaluation of the loop of `fifo_flush`, with `tail` the contents of
`FifoTail`: `none` when the loop is over. -/
def fifoFlushLoop (k : Kyouko3) (tail : ℕ) : Option Kyouko3 :=
  if k.fifo.tailCache ≠ k.fifo.head
  then some { k with fifo := { k.fifo with tailCache := tail } } else none

/-! ### Graphics commands -/

/-- `graphics_off` up to the loop of its `fifo_flush` -/
def graphicsOffStart (k : Kyouko3) : Kyouko3 := (k.fifoWrite rasterClear 0x03).publish

/-- `graphics_off` after its `fifo_flush` -/
def graphicsOffEnd (k : Kyouko3) : Kyouko3 :=
  let k := k.kWriteRegister configAcceleration 0x80000000
  let k := k.kWriteRegister configModeSet 0
  { k with graphicsOn := false }

/-! ### File operations -/

/-- `kyouko3_open` -/
def kyouko3Open (k : Kyouko3) (env : OpenEnv) : Kyouko3 :=
  let k := { k with kControlBase := env.kControlBase, control := env.control }
  let k := k.acquire (.ioremap env.kControlBase)
  let k := { k with kRamCardBase := env.kRamCardBase }
  let k := k.acquire (.ioremap env.kRamCardBase)
  let k := { k with fifo := ⟨env.pBase, env.kBase, env.slots, k.fifo.head,
    k.fifo.tailCache, [], []⟩ }
  let k := k.acquire (.coherent 8192 env.kBase env.pBase)
  let k := k.kWriteRegister fifoStart (u32 env.pBase)
  let k := k.kWriteRegister fifoEnd (u32 (env.pBase + 8192))
  { k with
    fifo := { k.fifo with head := 0, tailCache := 0 }
    graphicsOn := false
    dmaMapped := false }

/-- `kyouko3_release` after DMA is unbound and graphics are off -/
def kyouko3Release (k : Kyouko3) : Kyouko3 :=
  let k := k.free (.coherent 8192 k.fifo.kBase k.fifo.pBase)
  let k := k.free (.ioremap k.kControlBase)
  k.free (.ioremap k.kRamCardBase)

/-! ### Registers -/

section Register

variable (k : Kyouko3) {reg reg' value : ℕ}

@[simp] theorem register_kWriteRegister_self :
    (k.kWriteRegister reg value).register reg = value := by
  simp [register]

theorem register_kWriteRegister_of_ne (h : reg' >>> 2 ≠ reg >>> 2) :
    (k.kWriteRegister reg value).register reg' = k.register reg' := by
  simp [register, h]

@[simp] theorem register_fifoWrite (r v : ℕ) :
    (k.fifoWrite r v).register reg = k.register reg := rfl

@[simp] theorem publish_fifo : k.publish.fifo = k.fifo := rfl

@[simp] theorem register_publish : k.publish.register fifoHead = k.fifo.head := by
  simp [publish]

end Register

/-! ### What the handler does

Nothing but the status register when the card reports no completion; otherwise
one step of the queue, and either the next buffer goes to the card or, when none
is left, the sleepers on an empty queue are woken. -/

section Handler

variable (k : Kyouko3) (iflags : ℕ)

@[simp] theorem dmaIntr_dmaMapped : (k.dmaIntr iflags).2.dmaMapped = k.dmaMapped := by
  simp only [dmaIntr]
  split_ifs <;> rfl

@[simp] theorem dmaIntr_graphicsOn : (k.dmaIntr iflags).2.graphicsOn = k.graphicsOn := by
  simp only [dmaIntr]
  split_ifs <;> rfl

@[simp] theorem dmaIntr_dmaBuffers : (k.dmaIntr iflags).2.dmaBuffers = k.dmaBuffers := by
  simp only [dmaIntr]
  split_ifs <;> rfl

@[simp] theorem dmaIntr_fill : (k.dmaIntr iflags).2.fill = k.fill := by
  simp only [dmaIntr]
  split_ifs <;> rfl

@[simp] theorem dmaIntr_held : (k.dmaIntr iflags).2.held = k.held := by
  simp only [dmaIntr]
  split_ifs <;> rfl

variable {k iflags}

theorem dmaIntr_spurious (h : iflags &&& 0x02 = 0) :
    (k.dmaIntr iflags).2 = k.kWriteRegister interruptStatus (iflags &&& 0xf) := by
  simp [dmaIntr, h]

theorem dmaIntr_queuedCount (h : iflags &&& 0x02 ≠ 0) :
    (k.dmaIntr iflags).2.queuedCount = k.queuedCount - 1 := by
  simp only [dmaIntr, h, if_false]
  split_ifs <;> rfl

theorem dmaIntr_drain (h : iflags &&& 0x02 ≠ 0) :
    (k.dmaIntr iflags).2.drain = nextBuffer k.drain := by
  simp only [dmaIntr, h, if_false]
  split_ifs <;> rfl

/-- Unless another buffer is waiting, the handler leaves the ring and `FifoHead`
alone. -/
theorem dmaIntr_fifo_of_last (h : iflags &&& 0x02 = 0 ∨ k.queuedCount = 1) :
    (k.dmaIntr iflags).2.fifo = k.fifo ∧
      (k.dmaIntr iflags).2.register fifoHead = k.register fifoHead := by
  have hstatus : (k.kWriteRegister interruptStatus (iflags &&& 0xf)).register fifoHead =
      k.register fifoHead := k.register_kWriteRegister_of_ne (by decide)
  by_cases hflag : iflags &&& 0x02 = 0
  · rw [dmaIntr_spurious hflag]
    exact ⟨rfl, hstatus⟩
  · have hq := h.resolve_left hflag
    have hlast : (1 : ℤ) - 1 = 0 := rfl
    simp only [dmaIntr, hflag, if_false, kWriteRegister_queuedCount, hq, hlast, ne_eq]
    exact ⟨rfl, hstatus⟩

/-- Otherwise it appends the next buffer's address and byte count and hands them to
the card. -/
theorem dmaIntr_fifo_of_more (h : ¬(iflags &&& 0x02 = 0 ∨ k.queuedCount = 1)) :
    (k.dmaIntr iflags).2.fifo =
        (k.fifo.write bufferAAddress (u32 (k.dmaBuffers (nextBuffer k.drain)).pBase)).write
          bufferAConfig (unsigned (k.dmaBuffers (nextBuffer k.drain)).storedCount) ∧
      (k.dmaIntr iflags).2.register fifoHead = (k.dmaIntr iflags).2.fifo.head := by
  rw [not_or] at h
  have hne : k.queuedCount - 1 ≠ 0 := fun h0 => h.2 (by omega)
  simp only [dmaIntr, h.1, if_false]
  split_ifs <;> simp_all

end Handler

/-! ### `start_dma` -/

/-- The byte counts that `start_dma` accepts. -/
theorem startDmaRefuses_eq_false_iff {count : Int32} :
    startDmaRefuses count = false ↔ 1 ≤ count ∧ count ≤ 126976 := by
  have hcond := count.toBitVec.toInt_eq_toNat_cond
  have hlt := count.toBitVec.isLt
  have hint : count.toInt = count.toBitVec.toInt := rfl
  have hnat : unsigned count = count.toBitVec.toNat := rfl
  have hzero : count = 0 ↔ count.toInt = 0 := by
    rw [← Int32.toInt_inj]
    rfl
  have hone : (1 : Int32).toInt = 1 := rfl
  have hmax : (126976 : Int32).toInt = 126976 := rfl
  rw [Int32.le_iff_toInt_le, Int32.le_iff_toInt_le, hone, hmax]
  simp only [startDmaRefuses, Bool.or_eq_false_iff, decide_eq_false_iff_not, hzero, hnat,
    dmaBuffSize]
  -- a negative count reads as more than `2 ^ 31` bytes
  rw [hint, hcond]
  split <;> omega

/-- A call of `start_dma` is refused, or it finds `fill` at `drain` or not. -/
theorem startDma_cases (k : Kyouko3) (count : Int32) :
    startDmaRefuses count = true ∨ (startDmaRefuses count = false ∧ k.fill = k.drain) ∨
      (startDmaRefuses count = false ∧ k.fill ≠ k.drain) := by
  by_cases hcount : startDmaRefuses count = true
  · exact .inl hcount
  · rw [Bool.not_eq_true] at hcount
    by_cases hfd : k.fill = k.drain
    · exact .inr (.inl ⟨hcount, hfd⟩)
    · exact .inr (.inr ⟨hcount, hfd⟩)

/-- Storing a byte count does not move a buffer. -/
theorem update_storedCount (b : Fin dmaNumBuffs → DmaBuffer) (i j : Fin dmaNumBuffs)
    (count : Int32) :
    (Function.update b i { b i with storedCount := count } j).pBase = (b j).pBase ∧
      (Function.update b i { b i with storedCount := count } j).kBase = (b j).kBase ∧
        (Function.update b i { b i with storedCount := count } j).uBase = (b j).uBase := by
  by_cases h : j = i
  · rw [h, Function.update_self]
    exact ⟨rfl, rfl, rfl⟩
  · rw [Function.update_of_ne h]
    exact ⟨rfl, rfl, rfl⟩

theorem startDmaLocked_issue {k : Kyouko3} (h : k.fill = k.drain) (count : Int32) :
    k.startDmaLocked count = (.issue, { k with queuedCount := k.queuedCount + 1 }) := by
  unfold startDmaLocked
  rw [if_pos h]

theorem startDmaLocked_queued {k : Kyouko3} (h : k.fill ≠ k.drain) (count : Int32) :
    k.startDmaLocked count = (.queued (nextBuffer k.fill = k.drain), { k with
      queuedCount := k.queuedCount + 1
      dmaBuffers := Function.update k.dmaBuffers k.fill
        { k.dmaBuffers k.fill with storedCount := count }
      fill := nextBuffer k.fill }) := by
  unfold startDmaLocked
  rw [if_neg h]

/-! ### Binding and unbinding -/

section Bind

variable (k : Kyouko3) (env : BindEnv)

/-- The loop of `bind_dma` changes nothing but the buffers. -/
theorem foldl_bindBuffer (is : List (Fin dmaNumBuffs)) :
    ∃ buffers held,
      is.foldl (bindBuffer env) k = { k with dmaBuffers := buffers, held := held } := by
  induction is generalizing k with
  | nil => exact ⟨k.dmaBuffers, k.held, rfl⟩
  | cons i is ih =>
    obtain ⟨buffers, held, h⟩ := ih (bindBuffer env k i)
    refine ⟨buffers, held, ?_⟩
    rw [List.foldl_cons, h]
    unfold bindBuffer
    split <;> rfl

/-- Buffer `i` has the addresses the kernel answered with, and its memory is held. -/
structure BoundTo (i : Fin dmaNumBuffs) (kBase pBase : ℕ) : Prop where
  kBase_eq : (k.dmaBuffers i).kBase = kBase
  pBase_eq : (k.dmaBuffers i).pBase = pBase
  uBase_eq : (k.dmaBuffers i).uBase = env.vmMmap i
  held : .coherent dmaBuffSize kBase pBase ∈ k.held

/-- One round of the loop binds its buffer and leaves those already bound as they
are. -/
theorem bindBuffer_boundTo {i j : Fin dmaNumBuffs} {kBase pBase : ℕ}
    (halloc : env.alloc j = some (kBase, pBase)) (h : i = j ∨ BoundTo k env j kBase pBase) :
    BoundTo (bindBuffer env k i) env j kBase pBase := by
  by_cases hij : i = j
  · subst hij
    constructor <;> simp [bindBuffer, halloc]
  · obtain ⟨hk, hp, hu, hheld⟩ := h.resolve_left hij
    have hji : j ≠ i := fun h => hij h.symm
    unfold bindBuffer
    split
    · exact ⟨by simpa [hji] using hk, by simpa [hji] using hp, by simpa [hji] using hu,
        List.mem_cons_of_mem _ hheld⟩
    · exact ⟨by simpa [hji] using hk, by simpa [hji] using hp, by simpa [hji] using hu, hheld⟩

/-- The loop binds every buffer whose allocation succeeds. -/
theorem foldl_bindBuffer_boundTo {j : Fin dmaNumBuffs} {kBase pBase : ℕ}
    (halloc : env.alloc j = some (kBase, pBase)) (is : List (Fin dmaNumBuffs))
    (h : j ∈ is ∨ BoundTo k env j kBase pBase) :
    BoundTo (is.foldl (bindBuffer env) k) env j kBase pBase := by
  induction is generalizing k with
  | nil => exact h.resolve_left List.not_mem_nil
  | cons i is ih =>
    apply ih (bindBuffer env k i)
    rcases h with h | h
    · rcases List.mem_cons.mp h with rfl | h
      · exact .inr (bindBuffer_boundTo k env halloc (.inl rfl))
      · exact .inl h
    · exact .inr (bindBuffer_boundTo k env halloc (.inr h))

/-- A buffer that the kernel refuses is left with a null `k_base`. -/
theorem foldl_bindBuffer_refused {j : Fin dmaNumBuffs} (halloc : env.alloc j = none)
    (is : List (Fin dmaNumBuffs)) (h : j ∈ is ∨ (k.dmaBuffers j).kBase = 0) :
    ((is.foldl (bindBuffer env) k).dmaBuffers j).kBase = 0 := by
  induction is generalizing k with
  | nil => exact h.resolve_left List.not_mem_nil
  | cons i is ih =>
    apply ih (bindBuffer env k i)
    by_cases hij : i = j
    · subst hij
      simp [bindBuffer, halloc]
    · have hji : j ≠ i := fun h => hij h.symm
      rcases h with h | h
      · exact .inl ((List.mem_cons.mp h).resolve_left hji)
      · right
        unfold bindBuffer
        split <;> simpa [hji] using h

/-- The loop of `late_unbind_dma` changes nothing but what is held. -/
theorem foldl_freeBuffer (is : List (Fin dmaNumBuffs)) :
    ∃ held, is.foldl freeBuffer k = { k with held := held } := by
  induction is generalizing k with
  | nil => exact ⟨k.held, rfl⟩
  | cons i is ih =>
    obtain ⟨held, h⟩ := ih (freeBuffer k i)
    exact ⟨held, by rw [List.foldl_cons, h]; rfl⟩

/-- `late_unbind_dma` silences the card and marks DMA unbound. -/
theorem lateUnbindDma_eq :
    ∃ held, k.lateUnbindDma =
      { k.kWriteRegister configInterrupt 0x0 with held := held, dmaMapped := false } := by
  obtain ⟨held, h⟩ := foldl_freeBuffer k (List.finRange dmaNumBuffs)
  exact ⟨(held.erase .irq).erase .msi, by simp only [lateUnbindDma, h]; rfl⟩

variable {k env}

/-- A refused `bind_dma` reports failure and leaves the driver as it was. -/
theorem bindDma_refused
    (h : k.dmaMapped = true ∨ env.enableMsi ≠ 0 ∨ env.requestIrq ≠ 0) :
    k.bindDma env = (0, k) := by
  unfold bindDma
  by_cases hmapped : k.dmaMapped = true
  · rw [if_pos hmapped]
  · by_cases hmsi : env.enableMsi ≠ 0
    · rw [if_neg hmapped, if_pos hmsi]
    · have hirq := (h.resolve_left hmapped).resolve_left hmsi
      rw [if_neg hmapped, if_neg hmsi, if_pos hirq]
      simp [acquire, free]

/-- Any other `bind_dma` requests the interrupt, runs its loop and starts the queue
over, empty. -/
theorem bindDma_accepted (hmapped : k.dmaMapped = false) (hmsi : env.enableMsi = 0)
    (hirq : env.requestIrq = 0) :
    (k.bindDma env).2 =
      { (List.finRange dmaNumBuffs).foldl (bindBuffer env) ((k.acquire .msi).acquire .irq) with
        dmaMapped := true, fill := 0, drain := 0, queuedCount := 0 }.kWriteRegister
          configInterrupt 0x02 := by
  simp [bindDma, hmapped, hmsi, hirq]

/-- There is nothing between: it is refused, or it passes its three checks. -/
theorem bindDma_cases (k : Kyouko3) (env : BindEnv) :
    k.bindDma env = (0, k) ∨
      k.dmaMapped = false ∧ env.enableMsi = 0 ∧ env.requestIrq = 0 := by
  by_cases hrefused : k.dmaMapped = true ∨ env.enableMsi ≠ 0 ∨ env.requestIrq ≠ 0
  · exact .inl (bindDma_refused hrefused)
  · simp only [not_or, Bool.not_eq_true, not_not] at hrefused
    exact .inr hrefused

/-- What it returns is the user address of the first buffer. -/
theorem bindDma_accepted_fst (hmapped : k.dmaMapped = false) (hmsi : env.enableMsi = 0)
    (hirq : env.requestIrq = 0) :
    (k.bindDma env).1 = ((k.bindDma env).2.dmaBuffers 0).uBase := by
  simp [bindDma, hmapped, hmsi, hirq]

end Bind

end Kyouko3

end OsProjects.Driver
