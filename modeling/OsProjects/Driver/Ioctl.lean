import OsProjects.Driver.Kyouko3

/-!
# Whole calls

`kyouko3_ioctl` and the functions behind it, each from its entry to its return. What the
kernel and the user answer on the way is an argument; so are the flags of the interrupts
that the card raises while a call sleeps, since these are what ends the sleep.

## Main definitions

* `Kyouko3.fifoFlush`, `graphicsOn`, `graphicsOff` — the functions that wait for the card
* `Kyouko3.startDma`, `onTimeUnbindDma` — the DMA commands with their waits
* `IoctlCall`, `Kyouko3.kyouko3Ioctl` — a call with what it copies, and its effect
* `Kyouko3.HelperFails`, `Refuses`, `Atomic` — what is asked of a call that fails

## Main results

* `Kyouko3.fifoFlush_of_loop` — what the loop of `fifo_flush` leaves when it ends
* `ioctl_atomic_iff` — the calls of which a failure leaves no trace
-/

namespace OsProjects.Driver

/-! ### Registers of the frame and the encoder -/

def frameColumns : ℕ := 0x8000

def frameRows : ℕ := 0x8004

def frameRowPitch : ℕ := 0x8008

def framePixelFormat : ℕ := 0x800C

def frameStartAddress : ℕ := 0x8010

def encoderWidth : ℕ := 0x9000

def encoderHeight : ℕ := 0x9004

def encoderOffsetX : ℕ := 0x9008

def encoderOffsetY : ℕ := 0x900C

def encoderFrame : ℕ := 0x9010

def drawClearColor4fBlue : ℕ := 0x5100

def drawClearColor4fGreen : ℕ := 0x5104

def drawClearColor4fRed : ℕ := 0x5108

def drawClearColor4fAlpha : ℕ := 0x510C

def rasterFlush : ℕ := 0x3FFC

/-- The bits of `CLEAR_RED`, `CLEAR_GREEN` and `CLEAR_BLUE`, all `0.3f`. -/
def clearBits : ℕ := 0x3E99999A

/-- `GRAPHICS_OFF` -/
def graphicsOffMode : ℕ := 0

/-- The values from which `IS_ERR_VALUE` on are error codes: what `vm_mmap` returns when
it fails. -/
def isErrValue (x : ℕ) : Bool := 2 ^ 64 - 4095 ≤ x

/-! ### Flushing and graphics -/

/-- `fifo_flush`: the head is published, and when the loop ends the cached tail has come
up to it. -/
def Kyouko3.fifoFlush (k : Kyouko3) : Kyouko3 :=
  let k := k.publish
  { k with fifo := { k.fifo with tailCache := k.fifo.head } }

/-- The register writes of `graphics_on`. -/
def graphicsOnRegisters : List (ℕ × ℕ) :=
  [(frameColumns, 1024), (frameRows, 768), (frameRowPitch, 1024 * 4), (framePixelFormat, 0xf888),
    (frameStartAddress, 0), (configAcceleration, 0x40000000), (encoderWidth, 1024),
    (encoderHeight, 768), (encoderOffsetX, 0), (encoderOffsetY, 0), (encoderFrame, 0),
    (configModeSet, 0)]

/-- The FIFO writes of `graphics_on`. -/
def graphicsOnCommands : List (ℕ × ℕ) :=
  [(drawClearColor4fRed, clearBits), (drawClearColor4fGreen, clearBits),
    (drawClearColor4fBlue, clearBits), (drawClearColor4fAlpha, 0), (rasterClear, 0x03),
    (rasterFlush, 0x0)]

/-- `graphics_on` -/
def graphicsOn (k : Kyouko3) : Kyouko3 :=
  let k := graphicsOnRegisters.foldl (fun k w => k.kWriteRegister w.1 w.2) k
  let k := graphicsOnCommands.foldl (fun k w => k.fifoWrite w.1 w.2) k
  { k.fifoFlush with graphicsOn := true }

/-- `graphics_off` -/
def graphicsOff (k : Kyouko3) : Kyouko3 := (k.fifoWrite rasterClear 0x03).fifoFlush.graphicsOffEnd

namespace Kyouko3

/-! ### DMA commands -/

/-- The interrupts that arrive while a call sleeps, one after the other. -/
def duringWait (k : Kyouko3) (interrupts : List ℕ) : Kyouko3 :=
  interrupts.foldl (fun k iflags => (k.dmaIntr iflags).2) k

/-- The tail of `start_dma` that issues the buffer to the card. -/
def issueBuffer (k : Kyouko3) (count : Int32) : Kyouko3 :=
  let k := { k with fill := nextBuffer k.fill }
  let k := k.fifoWrite bufferAAddress (u32 (k.dmaBuffers k.drain).pBase)
  let k := k.fifoWrite bufferAConfig (unsigned count)
  k.publish

/-- `start_dma`: the user address of the next buffer, or 0 for a count out of range. -/
def startDma (k : Kyouko3) (count : Int32) (interrupts : List ℕ) : ℕ × Kyouko3 :=
  if startDmaRefuses count then (0, k)
  else
    let k := match k.startDmaLocked count with
      | (.issue, k) => k.issueBuffer count
      | (.queued suspend, k) => if suspend then k.duringWait interrupts else k
    ((k.dmaBuffers k.fill).uBase, k)

/-- `on_time_unbind_dma`. The user's mappings are not part of the driver's state. -/
def onTimeUnbindDma (k : Kyouko3) (interrupts : List ℕ) : ℕ × Kyouko3 :=
  if ¬k.dmaMapped then (1, k)
  else
    let k := if k.queuedCount ≠ 0 then k.duringWait interrupts else k
    (0, k.lateUnbindDma)

end Kyouko3

/-! ### `kyouko3_ioctl` -/

/-- A call of `kyouko3_ioctl`: the command, and what the kernel and the user answer
during it. `copied` is the result of `copy_from_user`, the number of bytes not copied
and the value as it then stands; `copyToUser` is the number of bytes not copied. -/
inductive IoctlCall
  | fifoQueue (copied : ℕ × FifoEntry)
  | fifoFlush
  | vmode (arg : ℕ)
  | bindDma (env : BindEnv) (copyToUser : ℕ)
  | unbindDma (interrupts : List ℕ)
  | startDma (copied : ℕ × Int32) (interrupts : List ℕ) (copyToUser : ℕ)
  | unknown

namespace Kyouko3

/-- `kyouko3_ioctl`: the value returned and the state left behind. -/
def kyouko3Ioctl (k : Kyouko3) : IoctlCall → ℕ × Kyouko3
  | .fifoQueue copied => k.fifoQueue copied
  | .fifoFlush => (0, k.fifoFlush)
  | .vmode arg => (0, if u32 arg = graphicsOffMode then graphicsOff k else Driver.graphicsOn k)
  | .bindDma env copyToUser =>
    let (nextDmaBuffer, k) := k.bindDma env
    (if nextDmaBuffer = 0 then 1 else copyToUser, k)
  | .unbindDma interrupts => k.onTimeUnbindDma interrupts
  | .startDma copied interrupts copyToUser =>
    let (nextDmaBuffer, k) := k.startDma copied.2 interrupts
    (if nextDmaBuffer = 0 then 1 else copied.1 + copyToUser, k)
  | .unknown => (0, k)

/-! ### Failures -/

/-- The request itself is refused. -/
def Refuses (k : Kyouko3) : IoctlCall → Prop
  | .bindDma _ _ => k.dmaMapped = true
  | .unbindDma _ => k.dmaMapped = false
  | .startDma copied _ _ => startDmaRefuses copied.2 = true
  | _ => False

/-- One of the kernel's functions that the call uses fails. -/
def HelperFails (k : Kyouko3) : IoctlCall → Prop
  | .fifoQueue copied => copied.1 ≠ 0
  | .bindDma env copyToUser => k.dmaMapped = false ∧
    (env.enableMsi ≠ 0 ∨ env.requestIrq ≠ 0 ∨
      (∃ i, env.alloc i = none ∨ isErrValue (env.vmMmap i) = true) ∨
        (k.bindDma env).1 ≠ 0 ∧ copyToUser ≠ 0)
  | .startDma copied interrupts copyToUser =>
    copied.1 ≠ 0 ∨ (k.startDma copied.2 interrupts).1 ≠ 0 ∧ copyToUser ≠ 0
  | _ => False

/-- The call is all or nothing: it reports every failure, and what it reports has left
no trace. -/
structure Atomic (k : Kyouko3) (call : IoctlCall) : Prop where
  reported : k.HelperFails call ∨ k.Refuses call → (k.kyouko3Ioctl call).1 ≠ 0
  unchanged : (k.kyouko3Ioctl call).1 ≠ 0 → (k.kyouko3Ioctl call).2 = k

/-- Nothing fails that is not checked, and nothing is checked too late: the entry for the
FIFO is copied; `bind_dma` is turned down at one of its three checks, or gets all it asks
for and can hand it over; `start_dma` turns down the byte count, or the count was copied
and the address of a mapped buffer is handed over. -/
def Clean (k : Kyouko3) : IoctlCall → Prop
  | .fifoQueue copied => copied.1 = 0
  | .bindDma env copyToUser =>
    (k.dmaMapped = true ∨ env.enableMsi ≠ 0 ∨ env.requestIrq ≠ 0) ∨
      (∀ i, env.alloc i ≠ none ∧ isErrValue (env.vmMmap i) = false) ∧
        env.vmMmap firstBuffer ≠ 0 ∧ copyToUser = 0
  | .startDma copied _ copyToUser => startDmaRefuses copied.2 = true ∨
    copied.1 = 0 ∧ copyToUser = 0 ∧ (k.dmaBuffers (nextBuffer k.fill)).uBase ≠ 0
  | _ => True

/-! ### What a call leaves behind -/

section Effects

variable {k k' : Kyouko3} {env : BindEnv} {count : Int32}

/-- What the loop of `fifo_flush` leaves when it is over, however often it has read the
tail. -/
theorem fifoFlush_of_loop {tails : List ℕ}
    (hloop : tails.foldlM fifoFlushLoop k.publish = some k') {tail : ℕ}
    (hend : k'.fifoFlushLoop tail = none) : k' = k.fifoFlush := by
  have hkeep : ∀ (tails : List ℕ) (k : Kyouko3), tails.foldlM fifoFlushLoop k = some k' →
      ∃ cached, k' = { k with fifo := { k.fifo with tailCache := cached } } := by
    intro tails
    induction tails with
    | nil =>
      intro k h
      cases h
      exact ⟨k'.fifo.tailCache, rfl⟩
    | cons tail tails ih =>
      intro k h
      rw [List.foldlM_cons] at h
      obtain ⟨next, hnext, hrest⟩ := Option.bind_eq_some_iff.mp h
      obtain ⟨cached, rfl⟩ := ih next hrest
      unfold fifoFlushLoop at hnext
      split at hnext
      · cases hnext
        exact ⟨cached, rfl⟩
      · cases hnext
  obtain ⟨cached, rfl⟩ := hkeep tails k.publish hloop
  have htail : cached = k.publish.fifo.head := by
    unfold fifoFlushLoop at hend
    split at hend
    · cases hend
    · rename_i heq
      exact not_not.mp heq
  subst htail
  rfl

theorem duringWait_fill (k : Kyouko3) (interrupts : List ℕ) :
    (k.duringWait interrupts).fill = k.fill := by
  unfold duringWait
  induction interrupts generalizing k with
  | nil => rfl
  | cons iflags interrupts ih => rw [List.foldl_cons, ih, dmaIntr_fill]

theorem duringWait_dmaBuffers (k : Kyouko3) (interrupts : List ℕ) :
    (k.duringWait interrupts).dmaBuffers = k.dmaBuffers := by
  unfold duringWait
  induction interrupts generalizing k with
  | nil => rfl
  | cons iflags interrupts ih => rw [List.foldl_cons, ih, dmaIntr_dmaBuffers]

theorem startDma_refused (h : startDmaRefuses count = true) (interrupts : List ℕ) :
    k.startDma count interrupts = (0, k) := by
  unfold startDma
  rw [if_pos h]

/-- An accepted `start_dma` moves on to the next buffer and returns its address. -/
theorem startDma_accepted (h : startDmaRefuses count = false) (interrupts : List ℕ) :
    (k.startDma count interrupts).2.fill = nextBuffer k.fill ∧
      (k.startDma count interrupts).1 = (k.dmaBuffers (nextBuffer k.fill)).uBase := by
  have hcount : ¬startDmaRefuses count = true := by simp [h]
  unfold startDma
  rw [if_neg hcount]
  by_cases hfd : k.fill = k.drain
  · rw [startDmaLocked_issue hfd]
    exact ⟨rfl, rfl⟩
  · have hsame := update_storedCount k.dmaBuffers k.fill (nextBuffer k.fill) count
    rw [startDmaLocked_queued hfd]
    by_cases hfull : nextBuffer k.fill = k.drain
    · simp only [hfull, decide_true, if_true, duringWait_fill, duringWait_dmaBuffers, true_and]
      rw [← hfull]
      exact hsame.2.2
    · simp only [hfull, decide_false, Bool.false_eq_true, if_false, true_and]
      exact hsame.2.2

/-- The next buffer is another one. -/
theorem nextBuffer_ne (i : Fin dmaNumBuffs) : nextBuffer i ≠ i := by
  revert i
  decide

/-- Failed or not, `vm_mmap` sets the user address of every buffer. -/
theorem foldl_bindBuffer_uBase (env : BindEnv) {j : Fin dmaNumBuffs}
    (is : List (Fin dmaNumBuffs)) (k : Kyouko3)
    (h : j ∈ is ∨ (k.dmaBuffers j).uBase = env.vmMmap j) :
    ((is.foldl (bindBuffer env) k).dmaBuffers j).uBase = env.vmMmap j := by
  induction is generalizing k with
  | nil => exact h.resolve_left List.not_mem_nil
  | cons i is ih =>
    apply ih
    by_cases hij : j = i
    · subst hij
      right
      unfold bindBuffer
      split <;> simp
    · refine (h.imp (fun hmem => (List.mem_cons.mp hmem).resolve_left hij) fun hk => ?_)
      unfold bindBuffer
      split <;> simpa [hij] using hk

/-- A `bind_dma` that is not turned down binds, and returns what `vm_mmap` returned for
the first buffer. -/
theorem bindDma_binds (hmapped : k.dmaMapped = false) (hmsi : env.enableMsi = 0)
    (hirq : env.requestIrq = 0) :
    (k.bindDma env).2.dmaMapped = true ∧ (k.bindDma env).1 = env.vmMmap firstBuffer := by
  constructor
  · rw [bindDma_accepted hmapped hmsi hirq]
    rfl
  · rw [bindDma_accepted_fst hmapped hmsi hirq, bindDma_accepted hmapped hmsi hirq]
    exact foldl_bindBuffer_uBase env _ _ (.inl (List.mem_finRange firstBuffer))

/-- Writing to the FIFO moves its head. -/
theorem head_write_ne (f : Fifo) (reg value : ℕ) : (f.write reg value).head ≠ f.head := by
  unfold Fifo.write Fifo.wrap
  have hhead : (((f.putCommand reg).putValue value).advance ⟨reg, value⟩).head = f.head + 1 := rfl
  split
  · rename_i hge
    rw [hhead] at hge
    simp only [fifoEntries] at hge ⊢
    omega
  · omega

end Effects

/-! ### The four commands -/

section Commands

variable {k : Kyouko3} {env : BindEnv} {interrupts : List ℕ} {copyToUser : ℕ}

theorem kyouko3Ioctl_bindDma (k : Kyouko3) (env : BindEnv) (copyToUser : ℕ) :
    k.kyouko3Ioctl (.bindDma env copyToUser) =
      (if (k.bindDma env).1 = 0 then 1 else copyToUser, (k.bindDma env).2) := rfl

theorem kyouko3Ioctl_startDma (k : Kyouko3) (copied : ℕ × Int32) (interrupts : List ℕ)
    (copyToUser : ℕ) :
    k.kyouko3Ioctl (.startDma copied interrupts copyToUser) =
      (if (k.startDma copied.2 interrupts).1 = 0 then 1 else copied.1 + copyToUser,
        (k.startDma copied.2 interrupts).2) := rfl

/-- A call that returns 0 is atomic if nothing failed, and no other way. -/
theorem atomic_iff_of_zero {call : IoctlCall} (h : (k.kyouko3Ioctl call).1 = 0) :
    k.Atomic call ↔ ¬(k.HelperFails call ∨ k.Refuses call) := by
  constructor
  · intro hatomic hfails
    exact hatomic.reported hfails h
  · intro hok
    exact ⟨fun hfails => absurd hfails hok, fun hret => absurd h hret⟩

/-- A call that reports a failure is atomic if it has left no trace, and no other way. -/
theorem atomic_iff_of_ne_zero {call : IoctlCall} (h : (k.kyouko3Ioctl call).1 ≠ 0) :
    k.Atomic call ↔ (k.kyouko3Ioctl call).2 = k :=
  ⟨fun hatomic => hatomic.unchanged h, fun hsame => ⟨fun _ => h, fun _ => hsame⟩⟩

/-- The entry is in the FIFO whether it was copied or not. -/
theorem atomic_fifoQueue_iff {copied : ℕ × FifoEntry} :
    k.Atomic (.fifoQueue copied) ↔ k.Clean (.fifoQueue copied) := by
  have hret : (k.kyouko3Ioctl (.fifoQueue copied)).1 = copied.1 := rfl
  by_cases hcopied : copied.1 = 0
  · have hok : ¬(k.HelperFails (.fifoQueue copied) ∨ k.Refuses (.fifoQueue copied)) := by
      simp [HelperFails, Refuses, hcopied]
    exact iff_of_true ((atomic_iff_of_zero (hret.trans hcopied)).mpr hok) hcopied
  · refine iff_of_false ?_ hcopied
    rw [atomic_iff_of_ne_zero (hret ▸ hcopied)]
    intro hsame
    have hhead : (k.fifo.write copied.2.command copied.2.value).head = k.fifo.head :=
      congrArg (fun k => k.fifo.head) hsame
    exact head_write_ne k.fifo _ _ hhead

theorem atomic_bindDma_iff :
    k.Atomic (.bindDma env copyToUser) ↔ k.Clean (.bindDma env copyToUser) := by
  by_cases hrefused : k.dmaMapped = true ∨ env.enableMsi ≠ 0 ∨ env.requestIrq ≠ 0
  · have hcall : k.kyouko3Ioctl (.bindDma env copyToUser) = (1, k) := by
      rw [kyouko3Ioctl_bindDma, bindDma_refused hrefused]
      rfl
    refine iff_of_true ((atomic_iff_of_ne_zero ?_).mpr ?_) (.inl hrefused)
    · simp [hcall]
    · simp [hcall]
  · have hclean : k.Clean (.bindDma env copyToUser) ↔
        (∀ i, env.alloc i ≠ none ∧ isErrValue (env.vmMmap i) = false) ∧
          env.vmMmap firstBuffer ≠ 0 ∧ copyToUser = 0 := or_iff_right hrefused
    simp only [not_or, Bool.not_eq_true, not_not] at hrefused
    obtain ⟨hmapped, hmsi, hirq⟩ := hrefused
    obtain ⟨hbinds, hreturn⟩ := bindDma_binds hmapped hmsi hirq
    -- past the checks the driver changes in any case, so no failure may be reported
    have hchanged : (k.kyouko3Ioctl (.bindDma env copyToUser)).2 ≠ k := by
      intro hsame
      have hdma : (k.bindDma env).2.dmaMapped = k.dmaMapped := congrArg Kyouko3.dmaMapped hsame
      rw [hbinds, hmapped] at hdma
      cases hdma
    rw [hclean]
    by_cases hret : (k.kyouko3Ioctl (.bindDma env copyToUser)).1 = 0
    · have hzero : env.vmMmap firstBuffer ≠ 0 ∧ copyToUser = 0 := by
        rw [kyouko3Ioctl_bindDma] at hret
        split at hret
        · cases hret
        · rename_i hne
          exact ⟨hreturn ▸ hne, hret⟩
      rw [atomic_iff_of_zero hret]
      simp [HelperFails, Refuses, hmapped, hmsi, hirq, hzero]
    · rw [atomic_iff_of_ne_zero hret]
      apply iff_of_false hchanged
      rintro ⟨-, hne, rfl⟩
      apply hret
      rw [kyouko3Ioctl_bindDma, hreturn, if_neg hne]

/-- Unbinding has nothing that fails after its check. -/
theorem atomic_unbindDma : k.Atomic (.unbindDma interrupts) := by
  cases hmapped : k.dmaMapped with
  | true =>
    have hcall : (k.kyouko3Ioctl (.unbindDma interrupts)).1 = 0 := by
      simp [kyouko3Ioctl, onTimeUnbindDma, hmapped]
    rw [atomic_iff_of_zero hcall]
    simp [HelperFails, Refuses, hmapped]
  | false =>
    have hcall : k.kyouko3Ioctl (.unbindDma interrupts) = (1, k) := by
      simp [kyouko3Ioctl, onTimeUnbindDma, hmapped]
    rw [atomic_iff_of_ne_zero (by simp [hcall]), hcall]

theorem atomic_startDma_iff {copied : ℕ × Int32} :
    k.Atomic (.startDma copied interrupts copyToUser) ↔
      k.Clean (.startDma copied interrupts copyToUser) := by
  cases hrefused : startDmaRefuses copied.2 with
  | true =>
    have hcall : k.kyouko3Ioctl (.startDma copied interrupts copyToUser) = (1, k) := by
      rw [kyouko3Ioctl_startDma, startDma_refused hrefused]
      rfl
    refine iff_of_true ((atomic_iff_of_ne_zero ?_).mpr ?_) (.inl hrefused)
    · simp [hcall]
    · simp [hcall]
  | false =>
    have hclean : k.Clean (.startDma copied interrupts copyToUser) ↔
        copied.1 = 0 ∧ copyToUser = 0 ∧ (k.dmaBuffers (nextBuffer k.fill)).uBase ≠ 0 := by
      simp [Clean, hrefused]
    obtain ⟨hfill, hreturn⟩ := startDma_accepted (k := k) hrefused interrupts
    have hchanged : (k.kyouko3Ioctl (.startDma copied interrupts copyToUser)).2 ≠ k := by
      intro hsame
      have hk : (k.startDma copied.2 interrupts).2.fill = k.fill := congrArg Kyouko3.fill hsame
      rw [hfill] at hk
      exact nextBuffer_ne k.fill hk
    rw [hclean]
    by_cases hret : (k.kyouko3Ioctl (.startDma copied interrupts copyToUser)).1 = 0
    · have hzero : copied.1 = 0 ∧ copyToUser = 0 ∧
          (k.dmaBuffers (nextBuffer k.fill)).uBase ≠ 0 := by
        rw [kyouko3Ioctl_startDma] at hret
        split at hret
        · cases hret
        · rename_i hne
          obtain ⟨hcopied, hcopy⟩ := Nat.add_eq_zero_iff.mp hret
          exact ⟨hcopied, hcopy, hreturn ▸ hne⟩
      rw [atomic_iff_of_zero hret]
      simp [HelperFails, Refuses, hrefused, hzero]
    · rw [atomic_iff_of_ne_zero hret]
      apply iff_of_false hchanged
      rintro ⟨hcopied, hcopy, hne⟩
      apply hret
      rw [kyouko3Ioctl_startDma, hreturn, if_neg hne]
      simp [hcopied, hcopy]

end Commands

end Kyouko3

/-- **A failure leaves no trace exactly in the clean calls.** For every state of the
driver, every command and every answer of the kernel and the user. -/
theorem ioctl_atomic_iff (k : Kyouko3) (call : IoctlCall) : k.Atomic call ↔ k.Clean call := by
  cases call with
  | fifoQueue copied => exact Kyouko3.atomic_fifoQueue_iff
  | bindDma env copyToUser => exact Kyouko3.atomic_bindDma_iff
  | unbindDma interrupts => exact iff_of_true Kyouko3.atomic_unbindDma trivial
  | startDma copied interrupts copyToUser => exact Kyouko3.atomic_startDma_iff
  | _ =>
    refine iff_of_true ((Kyouko3.atomic_iff_of_zero rfl).mpr ?_) trivial
    simp [Kyouko3.HelperFails, Kyouko3.Refuses]

/-- The entry cannot be copied: the call says so, and the FIFO has an entry more. -/
theorem uncopied_entry_queued : ¬Kyouko3.zero.Atomic (.fifoQueue (8, ⟨0, 0⟩)) := by
  intro hatomic
  have hsame := hatomic.unchanged (by decide)
  have hhead := congrArg (fun k => k.fifo.head) hsame
  revert hhead
  decide

end OsProjects.Driver
