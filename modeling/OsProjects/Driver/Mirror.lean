import OsProjects.Driver.Handles
import OsProjects.Driver.Graphics

/-!
# The card's registers and the driver's flags

The driver remembers in two flags what it has configured: `dma_mapped`, that the card's
interrupts are enabled, and `graphics_on`, that acceleration is. Nothing but the two flags
tells `kyouko3_release` what there is to switch off. `kyouko3_open` clears them, though it
does not touch the registers; so they are right as long as nobody opens the device while it
is in use.

Here the whole interface is called in any order: files are opened and released, every
command of `kyouko3_ioctl` is issued with whatever arguments and answers of the kernel, and
interrupts arrive at any time.

## Main definitions

* `DeviceSys`, `DeviceSys.Step` — the driver and the number of open files
* `Kyouko3.Mirrors` — the flags are what the registers say

## Main results

* `mirrors_iff` — the flags are right in exactly the runs that open the device only when it
  is quiet
* `closed_quiet` — and then the card is quiet whenever all files are closed
-/

namespace OsProjects.Driver

open Run

/-! ### The system -/

/-- `kyouko3_release`, with the interrupts that arrive during the wait of
`late_unbind_dma`. -/
def Kyouko3.releaseFile (k : Kyouko3) (interrupts : List ℕ) : Kyouko3 :=
  let k := if k.dmaMapped && k.queuedCount ≠ 0 then k.duringWait interrupts else k
  k.wholeRelease

/-- The driver and the number of open files. -/
structure DeviceSys where
  k : Kyouko3
  files : ℕ

/-- The entry points of the driver, with the answers they get. -/
inductive DeviceAct
  | openFile (env : OpenEnv)
  | ioctl (call : IoctlCall)
  | release (interrupts : List ℕ)
  | interrupt (iflags : ℕ)

namespace DeviceSys

/-- The card keeps what has been written to its configuration registers. -/
def Keeps (k : Kyouko3) (env : OpenEnv) : Prop :=
  env.control (configInterrupt >>> 2) = k.register configInterrupt ∧
    env.control (configAcceleration >>> 2) = k.register configAcceleration

/-- Calls are made on open files, interrupts come at any time. -/
def Step (s : DeviceSys) (a : DeviceAct) (t : DeviceSys) : Prop :=
  match a with
  | .openFile env => Keeps s.k env ∧ t = ⟨s.k.kyouko3Open env, s.files + 1⟩
  | .ioctl call => 0 < s.files ∧ t = { s with k := (s.k.kyouko3Ioctl call).2 }
  | .release interrupts => 0 < s.files ∧ t = ⟨s.k.releaseFile interrupts, s.files - 1⟩
  | .interrupt iflags => t = { s with k := (s.k.dmaIntr iflags).2 }

/-- The device is opened only while DMA is unbound and graphics are off. -/
def OpensQuiet (s : DeviceSys) : DeviceAct → Prop
  | .openFile _ => s.k.dmaMapped = false ∧ s.k.graphicsOn = false
  | _ => True

end DeviceSys

/-- Interrupts are enabled when DMA is bound and disabled when not, and acceleration is
enabled when graphics are on and only then. -/
structure Kyouko3.Mirrors (k : Kyouko3) : Prop where
  interrupt : k.register configInterrupt = if k.dmaMapped then 0x02 else 0
  acceleration : k.register configAcceleration = 0x40000000 ↔ k.graphicsOn = true

/-! ### What leaves the configuration alone -/

/-- Two states with the same flags and configuration registers. -/
structure SameConfig (k k' : Kyouko3) : Prop where
  dmaMapped : k'.dmaMapped = k.dmaMapped
  graphicsOn : k'.graphicsOn = k.graphicsOn
  interrupt : k'.register configInterrupt = k.register configInterrupt
  acceleration : k'.register configAcceleration = k.register configAcceleration

namespace SameConfig

variable {k k' k'' : Kyouko3}

theorem refl (k : Kyouko3) : SameConfig k k := ⟨rfl, rfl, rfl, rfl⟩

theorem trans (h : SameConfig k k') (h' : SameConfig k' k'') : SameConfig k k'' where
  dmaMapped := h'.dmaMapped.trans h.dmaMapped
  graphicsOn := h'.graphicsOn.trans h.graphicsOn
  interrupt := h'.interrupt.trans h.interrupt
  acceleration := h'.acceleration.trans h.acceleration

theorem mirrors (h : SameConfig k k') (hk : k.Mirrors) : k'.Mirrors where
  interrupt := by rw [h.interrupt, h.dmaMapped, hk.interrupt]
  acceleration := by rw [h.acceleration, h.graphicsOn, hk.acceleration]

/-- What each of a list of things leaves alone, all do. -/
theorem foldl {α : Type*} {f : Kyouko3 → α → Kyouko3} (hf : ∀ k a, SameConfig k (f k a))
    (k : Kyouko3) (as : List α) : SameConfig k (as.foldl f k) := by
  induction as generalizing k with
  | nil => exact refl k
  | cons a as ih => exact (hf k a).trans (ih (f k a))

end SameConfig

namespace Kyouko3

variable (k : Kyouko3)

/-- The interrupt handler writes the status register and the head of the FIFO. -/
theorem register_dmaIntr (iflags : ℕ) {reg : ℕ} (hstatus : reg >>> 2 ≠ interruptStatus >>> 2)
    (hhead : reg >>> 2 ≠ fifoHead >>> 2) :
    (k.dmaIntr iflags).2.register reg = k.register reg := by
  simp only [dmaIntr]
  split_ifs <;> simp [register, publish, hstatus, hhead]

theorem sameConfig_dmaIntr (iflags : ℕ) : SameConfig k (k.dmaIntr iflags).2 where
  dmaMapped := k.dmaIntr_dmaMapped iflags
  graphicsOn := k.dmaIntr_graphicsOn iflags
  interrupt := k.register_dmaIntr iflags (by decide) (by decide)
  acceleration := k.register_dmaIntr iflags (by decide) (by decide)

theorem sameConfig_fifoWrite (reg value : ℕ) : SameConfig k (k.fifoWrite reg value) :=
  ⟨rfl, rfl, rfl, rfl⟩

theorem sameConfig_bindBuffer (env : BindEnv) (i : Fin dmaNumBuffs) :
    SameConfig k (bindBuffer env k i) := by
  unfold bindBuffer
  cases env.alloc i with
  | none => exact ⟨rfl, rfl, rfl, rfl⟩
  | some address => exact ⟨rfl, rfl, rfl, rfl⟩

end Kyouko3

namespace SameConfig

variable {k k' : Kyouko3}

/-- Any other register can be written. -/
theorem kWriteRegister {reg : ℕ} (value : ℕ) (h : SameConfig k k')
    (hinterrupt : configInterrupt >>> 2 ≠ reg >>> 2)
    (hacceleration : configAcceleration >>> 2 ≠ reg >>> 2) :
    SameConfig k (k'.kWriteRegister reg value) where
  dmaMapped := h.dmaMapped
  graphicsOn := h.graphicsOn
  interrupt := (k'.register_kWriteRegister_of_ne hinterrupt).trans h.interrupt
  acceleration := (k'.register_kWriteRegister_of_ne hacceleration).trans h.acceleration

theorem publish (h : SameConfig k k') : SameConfig k k'.publish :=
  h.kWriteRegister _ (by decide) (by decide)

theorem fifoFlush (h : SameConfig k k') : SameConfig k k'.fifoFlush :=
  h.publish.trans ⟨rfl, rfl, rfl, rfl⟩

theorem duringWait (h : SameConfig k k') (interrupts : List ℕ) :
    SameConfig k (k'.duringWait interrupts) :=
  h.trans (.foldl Kyouko3.sameConfig_dmaIntr k' interrupts)

theorem issueBuffer (h : SameConfig k k') (count : Int32) :
    SameConfig k (k'.issueBuffer count) := by
  apply publish
  exact h.trans ⟨rfl, rfl, rfl, rfl⟩

theorem startDma (k : Kyouko3) (count : Int32) (interrupts : List ℕ) :
    SameConfig k (k.startDma count interrupts).2 := by
  rcases k.startDma_cases count with hcount | ⟨hcount, hfd⟩ | ⟨hcount, hfd⟩
  · rw [Kyouko3.startDma_refused hcount]
    exact refl k
  · simp only [Kyouko3.startDma, hcount, Kyouko3.startDmaLocked_issue hfd, Bool.false_eq_true,
      if_false]
    apply issueBuffer
    exact ⟨rfl, rfl, rfl, rfl⟩
  · simp only [Kyouko3.startDma, hcount, Kyouko3.startDmaLocked_queued hfd, Bool.false_eq_true,
      if_false]
    split_ifs
    · apply duringWait
      exact ⟨rfl, rfl, rfl, rfl⟩
    · exact ⟨rfl, rfl, rfl, rfl⟩

end SameConfig

/-! ### What changes the configuration -/

namespace Kyouko3

variable {k : Kyouko3}

/-- `late_unbind_dma` disables interrupts. -/
theorem lateUnbindDma_config (k : Kyouko3) :
    k.lateUnbindDma.dmaMapped = false ∧ k.lateUnbindDma.graphicsOn = k.graphicsOn ∧
      k.lateUnbindDma.register configInterrupt = 0 ∧
        k.lateUnbindDma.register configAcceleration = k.register configAcceleration := by
  obtain ⟨held, heq⟩ := k.lateUnbindDma_eq
  have hself : (k.kWriteRegister configInterrupt 0).register configInterrupt = 0 :=
    k.register_kWriteRegister_self
  have hother : (k.kWriteRegister configInterrupt 0).register configAcceleration =
      k.register configAcceleration := k.register_kWriteRegister_of_ne (by decide)
  rw [heq]
  exact ⟨rfl, rfl, hself, hother⟩

/-- `graphics_off` disables acceleration. -/
theorem graphicsOff_config (k : Kyouko3) :
    (graphicsOff k).dmaMapped = k.dmaMapped ∧ (graphicsOff k).graphicsOn = false ∧
      (graphicsOff k).register configInterrupt = k.register configInterrupt ∧
        (graphicsOff k).register configAcceleration = 0x80000000 := by
  have hflush : SameConfig k (k.fifoWrite rasterClear 0x03).fifoFlush :=
    SameConfig.fifoFlush ⟨rfl, rfl, rfl, rfl⟩
  refine ⟨rfl, rfl, ?_, ?_⟩
  · exact (((k.fifoWrite rasterClear 0x03).fifoFlush.foldl_kWriteRegister
      [(configAcceleration, 0x80000000), (configModeSet, 0)] (by decide)).1).trans hflush.interrupt
  · simp [graphicsOff, graphicsOffEnd, register, configAcceleration, configModeSet]

theorem graphicsOnRegisters_config (k : Kyouko3) :
    (graphicsOnRegisters.foldl (fun k w => k.kWriteRegister w.1 w.2) k).dmaMapped = k.dmaMapped ∧
      (graphicsOnRegisters.foldl (fun k w => k.kWriteRegister w.1 w.2) k).register
        configInterrupt = k.register configInterrupt ∧
      (graphicsOnRegisters.foldl (fun k w => k.kWriteRegister w.1 w.2) k).register
        configAcceleration = 0x40000000 := by
  refine ⟨by simp [graphicsOnRegisters], ?_, ?_⟩
  · exact (k.foldl_kWriteRegister graphicsOnRegisters (by decide)).1
  · simp [graphicsOnRegisters, register, configAcceleration, configModeSet, encoderWidth,
      encoderHeight, encoderOffsetX, encoderOffsetY, encoderFrame]

/-- `graphics_on` enables it. -/
theorem graphicsOn_config (k : Kyouko3) :
    (Driver.graphicsOn k).dmaMapped = k.dmaMapped ∧ (Driver.graphicsOn k).graphicsOn = true ∧
      (Driver.graphicsOn k).register configInterrupt = k.register configInterrupt ∧
        (Driver.graphicsOn k).register configAcceleration = 0x40000000 := by
  obtain ⟨hmapped, hinterrupt, hacceleration⟩ := k.graphicsOnRegisters_config
  unfold Driver.graphicsOn
  generalize graphicsOnRegisters.foldl (fun k w => k.kWriteRegister w.1 w.2) k = k' at *
  have hcommands : SameConfig k' (graphicsOnCommands.foldl (fun k w => k.fifoWrite w.1 w.2) k') :=
    SameConfig.foldl (fun k (w : ℕ × ℕ) => k.sameConfig_fifoWrite w.1 w.2) k' graphicsOnCommands
  have hflush := hcommands.fifoFlush
  exact ⟨hflush.dmaMapped.trans hmapped, rfl, hflush.interrupt.trans hinterrupt,
    hflush.acceleration.trans hacceleration⟩

/-- An accepted `bind_dma` enables interrupts, a refused one leaves everything as it was. -/
theorem bindDma_config (k : Kyouko3) (env : BindEnv) :
    SameConfig k (k.bindDma env).2 ∨
      (k.bindDma env).2.dmaMapped = true ∧ (k.bindDma env).2.graphicsOn = k.graphicsOn ∧
        (k.bindDma env).2.register configInterrupt = 0x02 ∧
          (k.bindDma env).2.register configAcceleration = k.register configAcceleration := by
  rcases k.bindDma_cases env with hrefused | ⟨hmapped, hmsi, hirq⟩
  · rw [hrefused]
    exact .inl (.refl k)
  · have hirqs : SameConfig k ((k.acquire .msi).acquire .irq) := ⟨rfl, rfl, rfl, rfl⟩
    have hbuffers := hirqs.trans (SameConfig.foldl (fun k i => k.sameConfig_bindBuffer env i)
      ((k.acquire .msi).acquire .irq) (List.finRange dmaNumBuffs))
    rw [bindDma_accepted hmapped hmsi hirq]
    refine .inr ⟨rfl, hbuffers.graphicsOn, register_kWriteRegister_self _, ?_⟩
    exact (register_kWriteRegister_of_ne _ (by decide)).trans hbuffers.acceleration

/-- `kyouko3_open` clears the flags and leaves the registers. -/
theorem kyouko3Open_config (k : Kyouko3) (env : OpenEnv) :
    (k.kyouko3Open env).dmaMapped = false ∧ (k.kyouko3Open env).graphicsOn = false ∧
      (k.kyouko3Open env).register configInterrupt = env.control (configInterrupt >>> 2) ∧
        (k.kyouko3Open env).register configAcceleration =
          env.control (configAcceleration >>> 2) := by
  refine ⟨rfl, rfl, ?_, ?_⟩
  · rfl
  · rfl

/-! ### What is mirrored -/

theorem Mirrors.lateUnbindDma (hk : k.Mirrors) : k.lateUnbindDma.Mirrors := by
  obtain ⟨hmapped, hon, hinterrupt, hacceleration⟩ := k.lateUnbindDma_config
  refine ⟨by rw [hinterrupt, hmapped, if_neg (by decide)], ?_⟩
  rw [hacceleration, hon, hk.acceleration]

theorem Mirrors.graphicsOff (hk : k.Mirrors) : (Driver.graphicsOff k).Mirrors := by
  obtain ⟨hmapped, hon, hinterrupt, hacceleration⟩ := k.graphicsOff_config
  refine ⟨by rw [hinterrupt, hmapped, hk.interrupt], ?_⟩
  rw [hacceleration, hon]
  exact iff_of_false (by decide) Bool.false_ne_true

theorem Mirrors.graphicsOn (hk : k.Mirrors) : (Driver.graphicsOn k).Mirrors := by
  obtain ⟨hmapped, hon, hinterrupt, hacceleration⟩ := k.graphicsOn_config
  refine ⟨by rw [hinterrupt, hmapped, hk.interrupt], ?_⟩
  exact iff_of_true hacceleration hon

theorem Mirrors.bindDma (hk : k.Mirrors) (env : BindEnv) : (k.bindDma env).2.Mirrors := by
  rcases k.bindDma_config env with hsame | ⟨hmapped, hon, hinterrupt, hacceleration⟩
  · exact hsame.mirrors hk
  · refine ⟨by rw [hinterrupt, hmapped, if_pos rfl], ?_⟩
    rw [hacceleration, hon, hk.acceleration]

theorem Mirrors.onTimeUnbindDma (hk : k.Mirrors) (interrupts : List ℕ) :
    (k.onTimeUnbindDma interrupts).2.Mirrors := by
  have hwait := ((SameConfig.refl k).duringWait interrupts).mirrors hk
  unfold Kyouko3.onTimeUnbindDma
  by_cases hmapped : k.dmaMapped = true
  · simp only [hmapped, not_true_eq_false, if_false]
    split_ifs
    · exact hwait.lateUnbindDma
    · exact hk.lateUnbindDma
  · simp only [hmapped, not_false_eq_true, if_true, Bool.false_eq_true]
    exact hk

/-- Every command. -/
theorem Mirrors.ioctl (hk : k.Mirrors) (call : IoctlCall) : (k.kyouko3Ioctl call).2.Mirrors := by
  cases call with
  | fifoQueue copied =>
    have hsame : SameConfig k (k.fifoWrite copied.2.command copied.2.value) :=
      ⟨rfl, rfl, rfl, rfl⟩
    exact hsame.mirrors hk
  | fifoFlush => exact (SameConfig.refl k).fifoFlush.mirrors hk
  | vmode arg =>
    simp only [kyouko3Ioctl]
    split_ifs
    · exact hk.graphicsOff
    · exact hk.graphicsOn
  | bindDma env copyToUser => exact hk.bindDma env
  | unbindDma interrupts => exact hk.onTimeUnbindDma interrupts
  | startDma copied interrupts copyToUser => exact (SameConfig.startDma k _ _).mirrors hk
  | unknown => exact hk

/-- `kyouko3_release` once DMA is unbound. -/
theorem Mirrors.releaseUnbound (hk : k.Mirrors) (hmapped : k.dmaMapped = false) :
    (if k.graphicsOn then Driver.graphicsOff k else k).kyouko3Release.Mirrors ∧
      (if k.graphicsOn then Driver.graphicsOff k else k).kyouko3Release.dmaMapped = false ∧
        (if k.graphicsOn then Driver.graphicsOff k else k).kyouko3Release.graphicsOn = false := by
  have hsame : ∀ u : Kyouko3, SameConfig u u.kyouko3Release := fun _ => ⟨rfl, rfl, rfl, rfl⟩
  by_cases hon : k.graphicsOn = true
  · obtain ⟨hoffMapped, hoff, -, -⟩ := k.graphicsOff_config
    rw [if_pos hon]
    exact ⟨(hsame _).mirrors hk.graphicsOff, hoffMapped.trans hmapped, hoff⟩
  · rw [if_neg hon]
    exact ⟨(hsame k).mirrors hk, hmapped, Bool.eq_false_of_not_eq_true hon⟩

theorem Mirrors.wholeRelease (hk : k.Mirrors) :
    k.wholeRelease.Mirrors ∧ k.wholeRelease.dmaMapped = false ∧
      k.wholeRelease.graphicsOn = false := by
  unfold Kyouko3.wholeRelease
  by_cases hmapped : k.dmaMapped = true
  · rw [if_pos hmapped]
    exact hk.lateUnbindDma.releaseUnbound k.lateUnbindDma_config.1
  · rw [if_neg hmapped]
    exact hk.releaseUnbound (Bool.eq_false_of_not_eq_true hmapped)

/-- A release switches off what the flags say is on. -/
theorem Mirrors.releaseFile (hk : k.Mirrors) (interrupts : List ℕ) :
    (k.releaseFile interrupts).Mirrors ∧ (k.releaseFile interrupts).dmaMapped = false ∧
      (k.releaseFile interrupts).graphicsOn = false := by
  have hwait := ((SameConfig.refl k).duringWait interrupts).mirrors hk
  unfold Kyouko3.releaseFile
  by_cases hwaits : (k.dmaMapped && k.queuedCount ≠ 0) = true
  · rw [if_pos hwaits]
    exact hwait.wholeRelease
  · rw [if_neg hwaits]
    exact hk.wholeRelease

/-- A device that is opened while it is quiet is still what the flags say, and only then. -/
theorem Mirrors.open_iff {env : OpenEnv} (hk : k.Mirrors) (henv : DeviceSys.Keeps k env) :
    (k.kyouko3Open env).Mirrors ↔ k.dmaMapped = false ∧ k.graphicsOn = false := by
  obtain ⟨hmapped, hon, hinterrupt, hacceleration⟩ := k.kyouko3Open_config env
  have hregisters : (k.kyouko3Open env).Mirrors ↔
      k.register configInterrupt = 0 ∧ k.register configAcceleration ≠ 0x40000000 := by
    constructor
    · intro h
      have hi := h.interrupt
      have ha := h.acceleration
      rw [hmapped, hinterrupt, henv.1] at hi
      rw [hon, hacceleration, henv.2] at ha
      exact ⟨hi, fun heq => Bool.false_ne_true (ha.mp heq)⟩
    · intro h
      refine ⟨?_, ?_⟩
      · rw [hmapped, hinterrupt, henv.1]
        exact h.1
      · rw [hon, hacceleration, henv.2]
        exact iff_of_false h.2 Bool.false_ne_true
  rw [hregisters, hk.interrupt, ne_eq, hk.acceleration]
  simp

end Kyouko3

namespace DeviceSys

variable {s t : DeviceSys} {a : DeviceAct}

/-- One call keeps the flags right, unless it opens a device in use. -/
theorem Step.flags_iff (h : s.Step a t) (hs : s.k.Mirrors) :
    t.k.Mirrors ↔ s.OpensQuiet a := by
  cases a with
  | openFile env =>
    obtain ⟨henv, rfl⟩ := h
    exact hs.open_iff henv
  | ioctl call =>
    obtain ⟨-, rfl⟩ := h
    exact iff_of_true (hs.ioctl call) trivial
  | release interrupts =>
    obtain ⟨-, rfl⟩ := h
    exact iff_of_true (hs.releaseFile interrupts).1 trivial
  | interrupt iflags =>
    obtain rfl := h
    exact iff_of_true ((s.k.sameConfig_dmaIntr iflags).mirrors hs) trivial

/-- The flags are right, and clear when all files are closed. -/
structure Tracks (s : DeviceSys) : Prop where
  mirrors : s.k.Mirrors
  closed : s.files = 0 → s.k.dmaMapped = false ∧ s.k.graphicsOn = false

theorem Tracks.step (hs : s.Tracks) (h : s.Step a t) (ha : s.OpensQuiet a) : t.Tracks := by
  refine ⟨(h.flags_iff hs.mirrors).mpr ha, fun hfiles => ?_⟩
  cases a with
  | openFile env =>
    obtain ⟨-, rfl⟩ := h
    cases hfiles
  | ioctl call =>
    obtain ⟨hopen, rfl⟩ := h
    exact absurd hfiles hopen.ne'
  | release interrupts =>
    obtain ⟨-, rfl⟩ := h
    exact (hs.mirrors.releaseFile interrupts).2
  | interrupt iflags =>
    obtain rfl := h
    have hsame := s.k.sameConfig_dmaIntr iflags
    obtain ⟨hmapped, hon⟩ := hs.closed hfiles
    exact ⟨hsame.dmaMapped.trans hmapped, hsame.graphicsOn.trans hon⟩

end DeviceSys

/-- **The flags are right as long as nobody opens a device in use.** Along every run of opens,
commands with any arguments and answers, releases and interrupts: `dma_mapped` and
`graphics_on` are what the card's registers say after every call, if and only if the device
is opened only while DMA is unbound and graphics are off. -/
theorem mirrors_iff (k : Kyouko3) (hk : k.Mirrors) (files : ℕ) (as : List DeviceAct)
    (t : DeviceSys) :
    Along DeviceSys.Step (fun _ _ t => t.k.Mirrors) ⟨k, files⟩ as t ↔
      Along DeviceSys.Step (fun s a _ => s.OpensQuiet a) ⟨k, files⟩ as t :=
  along_iff_of_invariant (fun s : DeviceSys => s.k.Mirrors) (fun _ _ _ _ _ h => h)
    (fun _ _ _ hs h => h.flags_iff hs) hk

/-- The module as it is loaded, with a card that has been reset. -/
theorem zero_mirrors : Kyouko3.zero.Mirrors :=
  ⟨rfl, iff_of_false (by decide) Bool.false_ne_true⟩

/-- What the second of two opens finds when the first client has bound DMA. -/
def boundOpenEnv : OpenEnv :=
  { zeroOpenEnv with control := fun r => if r = configInterrupt >>> 2 then 0x02 else 0 }

/-- DMA is bound when the device is opened a second time. -/
theorem mirrors_iff_reopened :
    ¬∃ t, Along DeviceSys.Step (fun _ _ t => t.k.Mirrors) ⟨.zero, 0⟩
      [.openFile zeroOpenEnv, .ioctl (.bindDma grantingBindEnv 0), .openFile boundOpenEnv] t := by
  rintro ⟨t, ht⟩
  have hquiet := (mirrors_iff .zero zero_mirrors 0 _ t).mp ht
  cases hquiet with
  | cons h _ hrest =>
    obtain ⟨-, rfl⟩ := h
    cases hrest with
    | cons h _ hrest =>
      obtain ⟨-, rfl⟩ := h
      cases hrest with
      | cons _ hopens _ => exact Bool.noConfusion hopens.1

/-- **A closed device is quiet.** In those runs, whenever all files are closed interrupts and
acceleration are disabled, whoever closed last and whatever had been left bound or on. -/
theorem closed_quiet (k : Kyouko3) (hk : k.Mirrors) (hmapped : k.dmaMapped = false)
    (hon : k.graphicsOn = false) (as : List DeviceAct) (t : DeviceSys)
    (h : Along DeviceSys.Step (fun s a _ => s.OpensQuiet a) ⟨k, 0⟩ as t) (hclosed : t.files = 0) :
    t.k.register configInterrupt = 0 ∧ t.k.register configAcceleration ≠ 0x40000000 := by
  have ht := h.invariant DeviceSys.Tracks (fun _ _ _ hs hstep ha => hs.step hstep ha)
    ⟨hk, fun _ => ⟨hmapped, hon⟩⟩
  obtain ⟨hunmapped, hoff⟩ := ht.closed hclosed
  refine ⟨by rw [ht.mirrors.interrupt, hunmapped, if_neg (by decide)], ?_⟩
  rw [ne_eq, ht.mirrors.acceleration, hoff]
  exact Bool.false_ne_true

/-- The client closes with DMA bound and graphics on. -/
theorem closed_quiet_one :
    ∃ t : DeviceSys, t.files = 0 ∧ t.k.register configInterrupt = 0 ∧
      t.k.register configAcceleration ≠ 0x40000000 := by
  have hrun : Along DeviceSys.Step (fun s a _ => s.OpensQuiet a) ⟨.zero, 0⟩
      [.openFile zeroOpenEnv, .ioctl (.bindDma grantingBindEnv 0), .ioctl (.vmode 1),
        .release []] _ :=
    .cons ⟨⟨rfl, rfl⟩, rfl⟩ ⟨rfl, rfl⟩ <| .cons ⟨Nat.one_pos, rfl⟩ trivial <|
      .cons ⟨Nat.one_pos, rfl⟩ trivial <| .cons ⟨Nat.one_pos, rfl⟩ trivial <| .nil _
  exact ⟨_, rfl, closed_quiet .zero zero_mirrors rfl rfl _ _ hrun rfl⟩

end OsProjects.Driver
