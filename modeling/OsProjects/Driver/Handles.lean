import OsProjects.Driver.Ioctl
import OsProjects.Lib.Ledger
import OsProjects.Lib.Run

/-!
# Handles and what they hold

The device can be opened any number of times, but the driver has one structure for all
handles: opening it again overwrites the addresses that the release of the first handle
would give back. This file accounts for what the calls on the handles acquire, use and
release.

## Main definitions

* `openEvents`, `Kyouko3.graphicsEvents`, `bindEvents`, `lateUnbindEvents`,
  `releaseEvents` — what the driver's functions do to the kernel's resources
* `HandleSys`, `HandleSys.Step` — the driver under any number of handles
* `Balanced` — everything released or used is held, and nothing is held in the end
* `Alone` — the device is opened only while it is closed

## Main results

* `HandleSys.Step.held` — the events are what the driver does to its resources
* `resources_balanced` — the calls balance while handles do not overlap, and every
  sequence that closes its handles and balances is of that kind
-/

namespace OsProjects.Driver

open Ledger Run

/-! ### What the driver's functions do to resources -/

/-- `kyouko3_open` -/
def openEvents (env : OpenEnv) : List (Event Resource) :=
  [.acquire (.ioremap env.kControlBase), .use (.ioremap env.kControlBase),
    -- the size of the card's memory is read in between, through the control region
    .acquire (.ioremap env.kRamCardBase), .acquire (.coherent 8192 env.kBase env.pBase),
    .use (.ioremap env.kControlBase)]

namespace Kyouko3

/-- The mapping of the control registers, as the driver remembers it. -/
def controlRegion (k : Kyouko3) : Resource := .ioremap k.kControlBase

/-- The mapping of the card's memory. -/
def ramRegion (k : Kyouko3) : Resource := .ioremap k.kRamCardBase

/-- The memory of the FIFO. -/
def fifoMemory (k : Kyouko3) : Resource := .coherent 8192 k.fifo.kBase k.fifo.pBase

/-- The memory of DMA buffer `i`. -/
def bufferMemory (k : Kyouko3) (i : Fin dmaNumBuffs) : Resource :=
  .coherent dmaBuffSize (k.dmaBuffers i).kBase (k.dmaBuffers i).pBase

/-- `graphics_on` and `graphics_off` -/
def graphicsEvents (k : Kyouko3) : List (Event Resource) :=
  [.use k.controlRegion, .use k.fifoMemory]

/-- `bind_dma` -/
def bindEvents (k : Kyouko3) (env : BindEnv) : List (Event Resource) :=
  if k.dmaMapped then []
  else if env.enableMsi ≠ 0 then []
  -- `request_irq` has failed: MSI is disabled again
  else if env.requestIrq ≠ 0 then [.acquire .msi, .release .msi]
  else [.acquire .msi, .acquire .irq] ++
    (List.finRange dmaNumBuffs).filterMap (fun i => (env.alloc i).map fun address =>
      .acquire (.coherent dmaBuffSize address.1 address.2)) ++ [.use k.controlRegion]

/-- `late_unbind_dma` -/
def lateUnbindEvents (k : Kyouko3) : List (Event Resource) :=
  ((List.finRange dmaNumBuffs).map k.bufferMemory).map .release ++
    [.use k.controlRegion, .release .irq, .release .msi]

/-- `on_time_unbind_dma` -/
def onTimeUnbindEvents (k : Kyouko3) : List (Event Resource) :=
  if k.dmaMapped then k.lateUnbindEvents else []

/-- `kyouko3_release` -/
def releaseEvents (k : Kyouko3) : List (Event Resource) :=
  k.onTimeUnbindEvents ++ (if k.graphicsOn then k.graphicsEvents else []) ++
    [.release k.fifoMemory, .release k.controlRegion, .release k.ramRegion]

/-- `kyouko3_release` from its first test. -/
def wholeRelease (k : Kyouko3) : Kyouko3 :=
  let k := if k.dmaMapped then k.lateUnbindDma else k
  let k := if k.graphicsOn then graphicsOff k else k
  k.kyouko3Release

/-- The wait of `late_unbind_dma` is over, or there is none. -/
def Drained (k : Kyouko3) : Prop := k.dmaMapped = true → k.queuedCount = 0

end Kyouko3

/-! ### The system -/

variable {η : Type*}

/-- The driver and the handles that are open. -/
structure HandleSys (η : Type*) where
  k : Kyouko3
  handles : List η

/-- The calls on a handle, with the answers of the kernel. -/
inductive HandleAct (η : Type*)
  | openFile (h : η) (env : OpenEnv)
  | release (h : η)
  | vmode (h : η) (arg : ℕ)
  | bind (h : η) (env : BindEnv) (copyToUser : ℕ)
  | unbind (h : η)

namespace HandleSys

/-- After `kyouko3_init`. -/
def loaded : HandleSys η := ⟨.zero, []⟩

/-- What a call does to the kernel's resources. -/
def events (s : HandleSys η) : HandleAct η → List (Event Resource)
  | .openFile _ env => openEvents env
  | .release _ => s.k.releaseEvents
  | .vmode _ _ => s.k.graphicsEvents
  | .bind _ env _ => s.k.bindEvents env
  | .unbind _ => s.k.onTimeUnbindEvents

variable [DecidableEq η]

/-- A handle is opened once and released after; calls are made on open handles. -/
def Step (s : HandleSys η) (a : HandleAct η) (t : HandleSys η) : Prop :=
  match a with
  | .openFile h env => h ∉ s.handles ∧ t = ⟨s.k.kyouko3Open env, h :: s.handles⟩
  | .release h => h ∈ s.handles ∧ s.k.Drained ∧ t = ⟨s.k.wholeRelease, s.handles.erase h⟩
  | .vmode h arg => h ∈ s.handles ∧ t = { s with k := (s.k.kyouko3Ioctl (.vmode arg)).2 }
  | .bind h env copyToUser =>
    h ∈ s.handles ∧ t = { s with k := (s.k.kyouko3Ioctl (.bindDma env copyToUser)).2 }
  | .unbind h =>
    h ∈ s.handles ∧ s.k.Drained ∧ t = { s with k := (s.k.kyouko3Ioctl (.unbindDma [])).2 }

end HandleSys

/-- The kernel grants what it is asked for, and hands out no memory for the FIFO that it
has not got back. -/
def Grants (s : HandleSys η) : HandleAct η → Prop
  | .openFile _ env => .coherent 8192 env.kBase env.pBase ∉ s.k.held
  | .bind _ env _ => env.enableMsi = 0 ∧ env.requestIrq = 0 ∧ ∀ i, (env.alloc i).isSome
  | _ => True

instance (s : HandleSys η) (a : HandleAct η) : Decidable (Grants s a) :=
  match a with
  | .openFile _ _ => instDecidableNot
  | .bind _ _ _ => instDecidableAnd
  | .release _ | .vmode _ _ | .unbind _ => instDecidableTrue

/-- Each resource the call releases or uses is held at that moment, and when the last
handle is closed nothing is held. -/
def Balanced (s : HandleSys η) (a : HandleAct η) (t : HandleSys η) : Prop :=
  Ledger.run s.k.held (s.events a) = some t.k.held ∧ (t.handles = [] → t.k.held = [])

/-- The device is opened only while no handle is open. -/
def Alone (s : HandleSys η) : HandleAct η → Prop
  | .openFile _ _ => s.handles = []
  | _ => True

/-! ### The events are what the driver does -/

namespace Kyouko3

/-- Two driver states that hold the same resources at the same addresses. -/
structure SameResources (k k' : Kyouko3) : Prop where
  controlRegion : k'.controlRegion = k.controlRegion
  ramRegion : k'.ramRegion = k.ramRegion
  fifoMemory : k'.fifoMemory = k.fifoMemory
  held : k'.held = k.held
  dmaBuffers : k'.dmaBuffers = k.dmaBuffers
  dmaMapped : k'.dmaMapped = k.dmaMapped
  queuedCount : k'.queuedCount = k.queuedCount

variable {k k' k'' : Kyouko3}

theorem SameResources.trans (h : SameResources k k') (h' : SameResources k' k'') :
    SameResources k k'' where
  controlRegion := h'.controlRegion.trans h.controlRegion
  ramRegion := h'.ramRegion.trans h.ramRegion
  fifoMemory := h'.fifoMemory.trans h.fifoMemory
  held := h'.held.trans h.held
  dmaBuffers := h'.dmaBuffers.trans h.dmaBuffers
  dmaMapped := h'.dmaMapped.trans h.dmaMapped
  queuedCount := h'.queuedCount.trans h.queuedCount

theorem SameResources.foldl {α : Type*} {f : Kyouko3 → α → Kyouko3}
    (hf : ∀ k x, SameResources k (f k x)) (xs : List α) (k : Kyouko3) :
    SameResources k (xs.foldl f k) := by
  induction xs generalizing k with
  | nil => exact ⟨rfl, rfl, rfl, rfl, rfl, rfl, rfl⟩
  | cons x xs ih => exact (hf k x).trans (ih (f k x))

theorem SameResources.bufferMemory (h : SameResources k k') : k'.bufferMemory = k.bufferMemory := by
  funext i
  rw [Kyouko3.bufferMemory, h.dmaBuffers]
  rfl

variable (k)

theorem sameResources_kWriteRegister (reg value : ℕ) :
    SameResources k (k.kWriteRegister reg value) := ⟨rfl, rfl, rfl, rfl, rfl, rfl, rfl⟩

theorem sameResources_fifoWrite (reg value : ℕ) : SameResources k (k.fifoWrite reg value) := by
  have hwrap : ∀ f : Fifo, f.wrap.kBase = f.kBase ∧ f.wrap.pBase = f.pBase := by
    intro f
    unfold Fifo.wrap
    split <;> exact ⟨rfl, rfl⟩
  refine ⟨rfl, rfl, ?_, rfl, rfl, rfl, rfl⟩
  unfold fifoMemory fifoWrite Fifo.write
  rw [(hwrap _).1, (hwrap _).2]
  rfl

theorem sameResources_fifoFlush : SameResources k k.fifoFlush :=
  ⟨rfl, rfl, rfl, rfl, rfl, rfl, rfl⟩

theorem sameResources_setGraphicsOn (on : Bool) : SameResources k { k with graphicsOn := on } :=
  ⟨rfl, rfl, rfl, rfl, rfl, rfl, rfl⟩

theorem sameResources_graphicsOn : SameResources k (Driver.graphicsOn k) := by
  have hregisters := SameResources.foldl (fun k (w : ℕ × ℕ) =>
    sameResources_kWriteRegister k w.1 w.2) graphicsOnRegisters k
  have hcommands := hregisters.trans (SameResources.foldl (fun k (w : ℕ × ℕ) =>
    sameResources_fifoWrite k w.1 w.2) graphicsOnCommands _)
  have hflush := hcommands.trans (sameResources_fifoFlush _)
  exact hflush.trans (sameResources_setGraphicsOn _ true)

theorem sameResources_graphicsOff : SameResources k (graphicsOff k) := by
  have hflush := (sameResources_fifoWrite k rasterClear 0x03).trans (sameResources_fifoFlush _)
  have hacceleration := hflush.trans (sameResources_kWriteRegister _ configAcceleration 0x80000000)
  have hmode := hacceleration.trans (sameResources_kWriteRegister _ configModeSet 0)
  exact hmode.trans (sameResources_setGraphicsOn _ false)

theorem sameResources_vmode (arg : ℕ) : SameResources k (k.kyouko3Ioctl (.vmode arg)).2 := by
  simp only [kyouko3Ioctl]
  split
  · exact k.sameResources_graphicsOff
  · exact k.sameResources_graphicsOn

/-- The loop of `bind_dma` acquires the memory of the buffers it gets. -/
theorem held_foldl_bindBuffer (env : BindEnv) (is : List (Fin dmaNumBuffs)) :
    (is.foldl (bindBuffer env) k).held = after k.held (is.filterMap fun i =>
      (env.alloc i).map fun address => .acquire (.coherent dmaBuffSize address.1 address.2)) := by
  induction is generalizing k with
  | nil => rfl
  | cons i is ih =>
    rw [List.foldl_cons, ih, List.filterMap_cons, bindBuffer]
    cases env.alloc i with
    | none => rfl
    | some address => rfl

theorem held_bindDma (env : BindEnv) :
    (k.bindDma env).2.held = after k.held (k.bindEvents env) := by
  by_cases hrefused : k.dmaMapped = true ∨ env.enableMsi ≠ 0 ∨ env.requestIrq ≠ 0
  · rw [bindDma_refused hrefused, bindEvents]
    split
    · rfl
    · split
      · rfl
      · split
        · simp
        · simp_all
  · simp only [not_or, Bool.not_eq_true, not_not] at hrefused
    obtain ⟨hmapped, hmsi, hirq⟩ := hrefused
    have hloop := held_foldl_bindBuffer ((k.acquire .msi).acquire .irq) env
      (List.finRange dmaNumBuffs)
    rw [bindDma_accepted hmapped hmsi hirq]
    simp only [bindEvents, hmapped, hmsi, hirq, Bool.false_eq_true, if_false, ne_eq,
      not_true_eq_false, after_append, after_use_cons, after_nil, kWriteRegister_held]
    exact hloop

/-- Freeing the buffers releases them one by one. -/
theorem held_foldl_freeBuffer (is : List (Fin dmaNumBuffs)) :
    (is.foldl freeBuffer k).held = after k.held ((is.map k.bufferMemory).map .release) := by
  induction is generalizing k with
  | nil => rfl
  | cons i is ih => exact ih (k.freeBuffer i)

theorem held_lateUnbindDma : k.lateUnbindDma.held = after k.held k.lateUnbindEvents := by
  have hloop := held_foldl_freeBuffer k (List.finRange dmaNumBuffs)
  rw [lateUnbindEvents, after_append, ← hloop]
  rfl

theorem held_onTimeUnbindDma :
    (k.onTimeUnbindDma []).2.held = after k.held k.onTimeUnbindEvents := by
  unfold onTimeUnbindDma onTimeUnbindEvents duringWait
  cases k.dmaMapped with
  | true => simpa using k.held_lateUnbindDma
  | false => simp

/-- After `late_unbind_dma` the addresses are as they were. -/
theorem lateUnbindDma_memory :
    k.lateUnbindDma.controlRegion = k.controlRegion ∧ k.lateUnbindDma.ramRegion = k.ramRegion ∧
      k.lateUnbindDma.fifoMemory = k.fifoMemory ∧
        k.lateUnbindDma.graphicsOn = k.graphicsOn := by
  obtain ⟨held, h⟩ := k.lateUnbindDma_eq
  rw [h]
  exact ⟨rfl, rfl, rfl, rfl⟩

theorem held_kyouko3Release : k.kyouko3Release.held = after k.held
    [.release k.fifoMemory, .release k.controlRegion, .release k.ramRegion] := rfl

theorem fifoMemory_kyouko3Release : k.kyouko3Release.fifoMemory = k.fifoMemory := rfl

theorem held_wholeRelease : k.wholeRelease.held = after k.held k.releaseEvents := by
  have hend : ∀ k : Kyouko3, (if k.graphicsOn then graphicsOff k else k).kyouko3Release.held =
      after k.held ((if k.graphicsOn then k.graphicsEvents else []) ++
        [.release k.fifoMemory, .release k.controlRegion, .release k.ramRegion]) := by
    intro k
    cases k.graphicsOn with
    | true =>
      have hsame := sameResources_graphicsOff k
      simp only [if_true, held_kyouko3Release, hsame.fifoMemory, hsame.controlRegion,
        hsame.ramRegion, hsame.held]
      rfl
    | false => rfl
  rw [releaseEvents, List.append_assoc, after_append, wholeRelease, onTimeUnbindEvents]
  cases hmapped : k.dmaMapped with
  | true =>
    obtain ⟨hcontrol, hram, hfifo, hgraphics⟩ := k.lateUnbindDma_memory
    simp only [if_true]
    rw [hend, held_lateUnbindDma, hcontrol, hram, hfifo, hgraphics, graphicsEvents, hcontrol, hfifo]
    rfl
  | false => exact hend k

theorem fifoMemory_wholeRelease : k.wholeRelease.fifoMemory = k.fifoMemory := by
  have hgraphics : ∀ k : Kyouko3,
      (if k.graphicsOn then graphicsOff k else k).fifoMemory = k.fifoMemory := by
    intro k
    split
    · exact k.sameResources_graphicsOff.fifoMemory
    · rfl
  have hunbind : (if k.dmaMapped then k.lateUnbindDma else k).fifoMemory = k.fifoMemory := by
    split
    · exact k.lateUnbindDma_memory.2.2.1
    · rfl
  rw [wholeRelease, fifoMemory_kyouko3Release, hgraphics, hunbind]

end Kyouko3

/-- Every call does to the holdings of the driver what its events say. -/
theorem HandleSys.Step.held [DecidableEq η] {s t : HandleSys η} {a : HandleAct η}
    (h : s.Step a t) : t.k.held = after s.k.held (s.events a) := by
  cases a with
  | openFile handle env =>
    obtain ⟨-, rfl⟩ := h
    rfl
  | release handle =>
    obtain ⟨-, -, rfl⟩ := h
    exact s.k.held_wholeRelease
  | vmode handle arg =>
    obtain ⟨-, rfl⟩ := h
    exact (s.k.sameResources_vmode arg).held
  | bind handle env copyToUser =>
    obtain ⟨-, rfl⟩ := h
    exact s.k.held_bindDma env
  | unbind handle =>
    obtain ⟨-, -, rfl⟩ := h
    exact s.k.held_onTimeUnbindDma

/-! ### Handles one after the other -/

namespace Kyouko3

/-- What `bind_dma` acquires. -/
def dmaResources (k : Kyouko3) : List Resource :=
  if k.dmaMapped then (List.finRange dmaNumBuffs).map k.bufferMemory ++ [.irq, .msi] else []

/-- What `kyouko3_open` acquires. -/
def deviceResources (k : Kyouko3) : List Resource := [k.fifoMemory, k.controlRegion, k.ramRegion]

variable {k : Kyouko3} {held : List Resource}

/-- With everything held, `late_unbind_dma` releases what `bind_dma` acquired. -/
theorem run_onTimeUnbindEvents (h : held.Perm (k.dmaResources ++ k.deviceResources)) :
    ∃ held', Ledger.run held k.onTimeUnbindEvents = some held' ∧
      held'.Perm k.deviceResources := by
  unfold dmaResources at h
  unfold onTimeUnbindEvents
  cases hmapped : k.dmaMapped with
  | true =>
    simp only [hmapped, if_true, List.append_assoc] at h ⊢
    obtain ⟨held₁, hbuffers, h₁⟩ := exists_run_release h
    have hcontrol : ∀ r ∈ [k.controlRegion], r ∈ held₁ := by
      intro r hr
      rw [h₁.mem_iff, List.mem_singleton.mp hr]
      simp [deviceResources]
    obtain ⟨held₂, hirq, h₂⟩ := exists_run_release h₁
    exact ⟨held₂, run_trans hbuffers (run_trans (run_use hcontrol) hirq), h₂⟩
  | false =>
    simp only [hmapped, Bool.false_eq_true, if_false, List.nil_append] at h ⊢
    exact ⟨held, rfl, h⟩

/-- And `kyouko3_release` releases the rest. -/
theorem run_releaseEvents (h : held.Perm (k.dmaResources ++ k.deviceResources)) :
    Ledger.run held k.releaseEvents = some [] := by
  obtain ⟨held₁, hunbind, h₁⟩ := run_onTimeUnbindEvents h
  have hgraphics : Ledger.run held₁ (if k.graphicsOn then k.graphicsEvents else []) =
      some held₁ := by
    split
    · have hmem : ∀ r ∈ [k.controlRegion, k.fifoMemory], r ∈ held₁ := by
        intro r hr
        rw [h₁.mem_iff]
        simp only [deviceResources, List.mem_cons] at hr ⊢
        tauto
      exact run_use hmem
    · rfl
  have hdevice : held₁.Perm (k.deviceResources ++ []) := by rwa [List.append_nil]
  obtain ⟨held₂, hrelease, h₂⟩ := exists_run_release hdevice
  rw [List.perm_nil.mp h₂] at hrelease
  exact run_trans (run_trans hunbind hgraphics) hrelease

/-- A `bind_dma` that is granted everything acquires what `late_unbind_dma` will release. -/
theorem bindEvents_granted {env : BindEnv} (hmapped : k.dmaMapped = false)
    (hmsi : env.enableMsi = 0) (hirq : env.requestIrq = 0) (halloc : ∀ i, (env.alloc i).isSome) :
    k.bindEvents env = ([Resource.msi, Resource.irq] ++
      (List.finRange dmaNumBuffs).map (k.bindDma env).2.bufferMemory).map .acquire ++
        [k.controlRegion].map .use := by
  have hbuffers : (List.finRange dmaNumBuffs).filterMap (fun i => (env.alloc i).map fun address =>
        Event.acquire (Resource.coherent dmaBuffSize address.1 address.2)) =
      (List.finRange dmaNumBuffs).map fun i => .acquire ((k.bindDma env).2.bufferMemory i) := by
    apply List.filterMap_eq_map_iff_forall_eq_some.mpr
    intro i hi
    obtain ⟨⟨kBase, pBase⟩, haddress⟩ := Option.isSome_iff_exists.mp (halloc i)
    have hbound := foldl_bindBuffer_boundTo ((k.acquire .msi).acquire .irq) env haddress
      (List.finRange dmaNumBuffs) (.inl hi)
    rw [haddress, bufferMemory, bindDma_accepted hmapped hmsi hirq]
    simp only [Option.map_some, kWriteRegister_dmaBuffers, hbound.kBase_eq, hbound.pBase_eq]
  simp only [bindEvents, hmapped, hmsi, hirq, Bool.false_eq_true, if_false, ne_eq,
    not_true_eq_false, hbuffers]
  simp [Function.comp_def]

theorem bindDma_deviceResources (k : Kyouko3) (env : BindEnv) :
    (k.bindDma env).2.deviceResources = k.deviceResources := by
  rcases k.bindDma_cases env with hrefused | ⟨hmapped, hmsi, hirq⟩
  · rw [hrefused]
  · obtain ⟨buffers, held, hloop⟩ := foldl_bindBuffer ((k.acquire .msi).acquire .irq) env
      (List.finRange dmaNumBuffs)
    rw [bindDma_accepted hmapped hmsi hirq, hloop]
    rfl

/-- Its events, run on what the device holds. -/
theorem run_bindEvents {env : BindEnv} (hmapped : k.dmaMapped = false) (hmsi : env.enableMsi = 0)
    (hirq : env.requestIrq = 0) (halloc : ∀ i, (env.alloc i).isSome)
    (h : held.Perm (k.dmaResources ++ k.deviceResources)) :
    ∃ held', Ledger.run held (k.bindEvents env) = some held' ∧
      held'.Perm ((k.bindDma env).2.dmaResources ++ (k.bindDma env).2.deviceResources) := by
  have hdevice : held.Perm k.deviceResources := by simpa [dmaResources, hmapped] using h
  have hbinds := (bindDma_binds hmapped hmsi hirq).1
  rw [bindEvents_granted hmapped hmsi hirq halloc, bindDma_deviceResources, dmaResources,
    if_pos hbinds]
  refine ⟨_, run_trans (run_acquire held _) (run_use ?_), ?_⟩
  · intro r hr
    apply List.mem_append_right
    rw [List.mem_singleton.mp hr, hdevice.mem_iff]
    simp [deviceResources]
  · apply List.Perm.append _ hdevice
    -- the buffers were acquired after the interrupt, and are remembered before it
    refine (List.reverse_perm _).trans (List.perm_append_comm.trans ?_)
    exact (List.Perm.swap _ _ []).append_left _

theorem onTimeUnbindDma_resources (k : Kyouko3) :
    (k.onTimeUnbindDma []).2.dmaMapped = false ∧
      (k.onTimeUnbindDma []).2.deviceResources = k.deviceResources := by
  unfold onTimeUnbindDma
  cases hmapped : k.dmaMapped with
  | true =>
    obtain ⟨hcontrol, hram, hfifo, -⟩ := k.lateUnbindDma_memory
    simp only [not_true_eq_false, if_false, duringWait, List.foldl_nil, ite_self, deviceResources,
      hcontrol, hram, hfifo, and_true]
    rfl
  | false => simp [hmapped]

end Kyouko3

namespace HandleSys

variable {s t : HandleSys η} {a : HandleAct η}

/-- Either the device is closed and nothing is held, or one handle is open and what is
held is what the driver remembers. -/
def Accounted (s : HandleSys η) : Prop :=
  s.handles = [] ∧ s.k.held = [] ∨
    (∃ h, s.handles = [h]) ∧ s.k.Drained ∧ s.k.held.Perm (s.k.dmaResources ++ s.k.deviceResources)

theorem accounted_loaded : (loaded : HandleSys η).Accounted := .inl ⟨rfl, rfl⟩

/-- On an open handle everything is as it should be. -/
theorem Accounted.of_mem {h : η} (hs : s.Accounted) (hh : h ∈ s.handles) :
    s.handles = [h] ∧ s.k.Drained ∧ s.k.held.Perm (s.k.dmaResources ++ s.k.deviceResources) := by
  rcases hs with ⟨hnil, -⟩ | ⟨⟨h', hone⟩, hrest⟩
  · rw [hnil] at hh
    cases hh
  · rw [hone] at hh ⊢
    exact ⟨by rw [List.mem_singleton.mp hh], hrest⟩

variable [DecidableEq η]

/-- With one handle open, a call balances and the accounts stay right if its events lead
to what the driver then remembers. -/
theorem Step.accounted {h : η} {held : List Resource} (hstep : s.Step a t)
    (hone : t.handles = [h]) (hdrained : t.k.Drained)
    (hrun : Ledger.run s.k.held (s.events a) = some held)
    (hperm : held.Perm (t.k.dmaResources ++ t.k.deviceResources)) :
    t.Accounted ∧ Balanced s a t := by
  have hheld : held = t.k.held := by rw [eq_after_of_run hrun, hstep.held]
  subst hheld
  refine ⟨.inr ⟨⟨h, hone⟩, hdrained, hperm⟩, hrun, ?_⟩
  intro hclosed
  rw [hone] at hclosed
  cases hclosed

theorem Accounted.openFile {h : η} {env : OpenEnv} (hs : s.Accounted)
    (hstep : s.Step (.openFile h env) t) (hclosed : s.handles = []) :
    t.Accounted ∧ Balanced s (.openFile h env) t := by
  have hnone : s.k.held = [] := by
    rcases hs with ⟨-, hnone⟩ | ⟨⟨h', hone⟩, -⟩
    · exact hnone
    · rw [hclosed] at hone
      cases hone
  have hrun : Ledger.run s.k.held (openEvents env) = some [.coherent 8192 env.kBase env.pBase,
      .ioremap env.kRamCardBase, .ioremap env.kControlBase] := by
    rw [hnone]
    simp [openEvents, run_cons, entry]
  have hstep' := hstep
  obtain ⟨-, rfl⟩ := hstep'
  apply hstep.accounted (by rw [hclosed]) _ hrun
  · exact (List.Perm.swap _ _ []).cons _
  · intro hmapped
    cases hmapped

theorem Accounted.release {h : η} (hs : s.Accounted) (hstep : s.Step (.release h) t) :
    t.Accounted ∧ Balanced s (.release h) t := by
  have hheld := hstep.held
  obtain ⟨hopen, -, rfl⟩ := hstep
  obtain ⟨hone, -, hperm⟩ := hs.of_mem hopen
  have hrun := Kyouko3.run_releaseEvents hperm
  have hnone : s.k.wholeRelease.held = [] := hheld.trans (eq_after_of_run hrun).symm
  have hclosed : s.handles.erase h = [] := by rw [hone, List.erase_cons_head]
  refine ⟨.inl ⟨hclosed, hnone⟩, ?_, fun _ => hnone⟩
  rw [hnone]
  exact hrun

theorem Accounted.vmode {h : η} {arg : ℕ} (hs : s.Accounted) (hstep : s.Step (.vmode h arg) t) :
    t.Accounted ∧ Balanced s (.vmode h arg) t := by
  have hstep' := hstep
  obtain ⟨hopen, rfl⟩ := hstep'
  obtain ⟨hone, hdrained, hperm⟩ := hs.of_mem hopen
  have hsame := s.k.sameResources_vmode arg
  have huse : ∀ r ∈ [s.k.controlRegion, s.k.fifoMemory], r ∈ s.k.held := by
    intro r hr
    rw [hperm.mem_iff]
    simp only [Kyouko3.deviceResources, List.mem_append, List.mem_cons] at hr ⊢
    tauto
  apply hstep.accounted hone _ (run_use huse)
  · rw [Kyouko3.dmaResources, Kyouko3.deviceResources, hsame.dmaMapped, hsame.bufferMemory,
      hsame.fifoMemory, hsame.controlRegion, hsame.ramRegion]
    exact hperm
  · rw [Kyouko3.Drained, hsame.dmaMapped, hsame.queuedCount]
    exact hdrained

theorem Accounted.bind {h : η} {env : BindEnv} {copyToUser : ℕ} (hs : s.Accounted)
    (hstep : s.Step (.bind h env copyToUser) t) (hgrant : Grants s (.bind h env copyToUser)) :
    t.Accounted ∧ Balanced s (.bind h env copyToUser) t := by
  have hstep' := hstep
  obtain ⟨hopen, rfl⟩ := hstep'
  obtain ⟨hone, hdrained, hperm⟩ := hs.of_mem hopen
  obtain ⟨hmsi, hirq, halloc⟩ := hgrant
  cases hmapped : s.k.dmaMapped with
  | true =>
    have hk : (s.k.kyouko3Ioctl (.bindDma env copyToUser)).2 = s.k := by
      rw [Kyouko3.kyouko3Ioctl_bindDma, Kyouko3.bindDma_refused (.inl hmapped)]
    rw [hk] at hstep ⊢
    apply hstep.accounted hone hdrained _ hperm
    simp [events, Kyouko3.bindEvents, hmapped]
  | false =>
    obtain ⟨held, hrun, hperm'⟩ := Kyouko3.run_bindEvents hmapped hmsi hirq halloc hperm
    apply hstep.accounted hone _ hrun hperm'
    intro _
    rw [Kyouko3.kyouko3Ioctl_bindDma, Kyouko3.bindDma_accepted hmapped hmsi hirq]
    rfl

theorem Accounted.unbind {h : η} (hs : s.Accounted) (hstep : s.Step (.unbind h) t) :
    t.Accounted ∧ Balanced s (.unbind h) t := by
  have hstep' := hstep
  obtain ⟨hopen, -, rfl⟩ := hstep'
  obtain ⟨hone, -, hperm⟩ := hs.of_mem hopen
  obtain ⟨hmapped, hdevice⟩ := s.k.onTimeUnbindDma_resources
  obtain ⟨held, hrun, hperm'⟩ := Kyouko3.run_onTimeUnbindEvents hperm
  apply hstep.accounted hone _ hrun
  · rw [Kyouko3.kyouko3Ioctl, Kyouko3.dmaResources, hmapped, hdevice]
    exact hperm'
  · intro hmapped'
    exact absurd (hmapped.symm.trans hmapped') (by decide)

/-- With one handle at a time, every call balances and the accounts stay right. -/
theorem Accounted.step (hs : s.Accounted) (h : s.Step a t) (hgrant : Grants s a)
    (halone : Alone s a) : t.Accounted ∧ Balanced s a t := by
  cases a with
  | openFile handle env => exact hs.openFile h halone
  | release handle => exact hs.release h
  | vmode handle arg => exact hs.vmode h
  | bind handle env copyToUser => exact hs.bind h hgrant
  | unbind handle => exact hs.unbind h

/-! ### Overlapping handles -/

/-- The memory of a FIFO that the driver has forgotten: it is held, and it is not the one
that a release would give back. -/
structure Leaked (kBase pBase : ℕ) (s : HandleSys η) : Prop where
  held : .coherent 8192 kBase pBase ∈ s.k.held
  forgotten : s.k.fifoMemory ≠ .coherent 8192 kBase pBase

omit [DecidableEq η] in
/-- No call releases the memory of a FIFO but the one the driver remembers. -/
theorem not_mem_events {kBase pBase : ℕ} (hs : Leaked kBase pBase s) :
    .release (.coherent 8192 kBase pBase) ∉ s.events a := by
  have hbuffers : ∀ k : Kyouko3,
      Event.release (.coherent 8192 kBase pBase) ∉ k.onTimeUnbindEvents := by
    intro k
    unfold Kyouko3.onTimeUnbindEvents Kyouko3.lateUnbindEvents
    split
    · simp [Kyouko3.bufferMemory, dmaBuffSize]
    · exact List.not_mem_nil
  cases a with
  | openFile handle env => simp [events, openEvents]
  | release handle =>
    have hforgotten := hs.forgotten
    simp only [events, Kyouko3.releaseEvents, List.mem_append, hbuffers, false_or]
    split <;> simp [Kyouko3.graphicsEvents, Kyouko3.controlRegion, Kyouko3.ramRegion,
      Ne.symm hforgotten]
  | vmode handle arg => simp [events, Kyouko3.graphicsEvents]
  | bind handle env copyToUser =>
    simp only [events, Kyouko3.bindEvents]
    split_ifs <;> simp
  | unbind handle => exact hbuffers s.k

/-- The driver forgets an address only when the device is opened. -/
theorem Step.fifoMemory (h : s.Step a t) (ha : ∀ handle env, a ≠ .openFile handle env) :
    t.k.fifoMemory = s.k.fifoMemory := by
  cases a with
  | openFile handle env => exact absurd rfl (ha handle env)
  | release handle =>
    obtain ⟨-, -, rfl⟩ := h
    exact s.k.fifoMemory_wholeRelease
  | vmode handle arg =>
    obtain ⟨-, rfl⟩ := h
    exact (s.k.sameResources_vmode arg).fifoMemory
  | bind handle env copyToUser =>
    obtain ⟨-, rfl⟩ := h
    exact (List.cons.inj (s.k.bindDma_deviceResources env)).1
  | unbind handle =>
    obtain ⟨-, -, rfl⟩ := h
    exact (List.cons.inj s.k.onTimeUnbindDma_resources.2).1

/-- What is leaked stays so. -/
theorem Leaked.step {kBase pBase : ℕ} (hs : Leaked kBase pBase s) (h : s.Step a t)
    (hgrant : Grants s a) (hbalanced : Balanced s a t) : Leaked kBase pBase t := by
  refine ⟨mem_of_run hbalanced.1 hs.held (not_mem_events hs), ?_⟩
  cases a with
  | openFile handle env =>
    obtain ⟨-, rfl⟩ := h
    intro hsame
    apply hgrant
    rw [show Resource.coherent 8192 env.kBase env.pBase = _ from hsame]
    exact hs.held
  | _ =>
    rw [h.fifoMemory (by simp)]
    exact hs.forgotten

/-- Opening the device again leaks the memory of the first FIFO. -/
theorem Accounted.leaked {h : η} {env : OpenEnv} (hs : s.Accounted)
    (hstep : s.Step (.openFile h env) t) (hgrant : Grants s (.openFile h env))
    (hopen : s.handles ≠ []) : ∃ kBase pBase, Leaked kBase pBase t := by
  have hheld := hstep.held
  obtain ⟨-, rfl⟩ := hstep
  have hperm : s.k.held.Perm (s.k.dmaResources ++ s.k.deviceResources) := by
    rcases hs with ⟨hclosed, -⟩ | ⟨-, -, hperm⟩
    · exact absurd hclosed hopen
    · exact hperm
  have hmem : s.k.fifoMemory ∈ s.k.held := by
    rw [hperm.mem_iff]
    simp [Kyouko3.deviceResources]
  refine ⟨s.k.fifo.kBase, s.k.fifo.pBase, ?_, ?_⟩
  · rw [hheld]
    simp only [events, openEvents, after_acquire_cons, after_use_cons, after_nil, List.mem_cons]
    exact .inr (.inr (.inr hmem))
  · intro hsame
    apply hgrant
    rw [show Resource.coherent 8192 env.kBase env.pBase = _ from hsame]
    exact hmem

/-- A run that balances and closes its handles has not leaked anything on the way. -/
theorem alone_of_balanced {as : List (HandleAct η)}
    (h : Along Step (fun s a t => Grants s a ∧ Balanced s a t) s as t) (hs : s.Accounted)
    (hclosed : t.handles = []) :
    Along Step (fun s a _ => Grants s a ∧ Alone s a) s as t := by
  -- on the run, accounted for up to the first call that is not alone
  induction h with
  | nil s => exact .nil s
  | @cons s m t a as hstep hP hrest ih =>
    by_cases halone : Alone s a
    · exact .cons hstep ⟨hP.1, halone⟩ (ih (hs.step hstep hP.1 halone).1 hclosed)
    · exfalso
      cases a with
      | openFile handle env =>
        obtain ⟨kBase, pBase, hleaked⟩ := hs.leaked hstep hP.1 halone
        have hend : Leaked kBase pBase t :=
          hrest.invariant (Leaked kBase pBase)
            (fun _ _ _ hs h hP => hs.step h hP.1 hP.2) hleaked
        -- but a balanced run holds nothing once its handles are closed
        have hnone : t.handles = [] → t.k.held = [] :=
          hrest.invariant (fun s => s.handles = [] → s.k.held = [])
            (fun _ _ _ _ _ hP => hP.2.2) hP.2.2
        have hheld := hend.held
        rw [hnone hclosed] at hheld
        cases hheld
      | _ => exact halone trivial

end HandleSys

/-! ### Every sequence of calls -/

/-- **Resources balance while handles do not overlap.** Every sequence of calls on any
number of handles, when the kernel grants what it is asked for: if the device is opened
only while it is closed, each call releases and uses only what is held, at the address
it was acquired with, and when the last handle is closed nothing is held. And a
sequence that closes all its handles balances in no other way. -/
theorem resources_balanced [DecidableEq η] (as : List (HandleAct η)) (t : HandleSys η) :
    (Along HandleSys.Step (fun s a _ => Grants s a ∧ Alone s a) .loaded as t →
      Along HandleSys.Step (fun s a t => Grants s a ∧ Balanced s a t) .loaded as t) ∧
    (t.handles = [] →
      Along HandleSys.Step (fun s a t => Grants s a ∧ Balanced s a t) .loaded as t →
        Along HandleSys.Step (fun s a _ => Grants s a ∧ Alone s a) .loaded as t) := by
  constructor
  · intro h
    apply h.imp_of_invariant HandleSys.Accounted _ _ HandleSys.accounted_loaded
    · exact fun _ _ _ hs hstep hP => (hs.step hstep hP.1 hP.2).1
    · exact fun _ _ _ hs hstep hP => ⟨hP.1, (hs.step hstep hP.1 hP.2).2⟩
  · intro hclosed h
    exact HandleSys.alone_of_balanced h HandleSys.accounted_loaded hclosed

/-- A kernel that answers `kyouko3_open` with addresses from `base` on. -/
def openEnvAt (base : ℕ) : OpenEnv :=
  { zeroOpenEnv with kControlBase := base, kRamCardBase := base + 1, kBase := base + 2 }

/-- One handle, with graphics and DMA. -/
def oneSession : List (HandleAct ℕ) :=
  [.openFile 0 (openEnvAt 1), .vmode 0 1, .bind 0 grantingBindEnv 0, .unbind 0,
    .bind 0 grantingBindEnv 0, .release 0]

theorem resources_balanced_one :
    ∃ t, t.handles = [] ∧
      Along HandleSys.Step (fun s a t => Grants s a ∧ Balanced s a t) .loaded oneSession t := by
  refine ⟨_, ?_, (resources_balanced oneSession _).1 <|
    .cons ⟨List.not_mem_nil, rfl⟩ ⟨List.not_mem_nil, rfl⟩ <|
    .cons ⟨.head _, rfl⟩ ⟨trivial, trivial⟩ <|
    .cons ⟨.head _, rfl⟩ ⟨⟨rfl, rfl, fun _ => rfl⟩, trivial⟩ <|
    .cons ⟨.head _, fun _ => rfl, rfl⟩ ⟨trivial, trivial⟩ <|
    .cons ⟨.head _, rfl⟩ ⟨⟨rfl, rfl, fun _ => rfl⟩, trivial⟩ <|
    .cons ⟨.head _, fun _ => rfl, rfl⟩ ⟨trivial, trivial⟩ <| .nil _⟩
  rfl

/-- Two handles: the release of the second gives back what the release of the first gave
back already. -/
theorem second_release_frees_twice :
    ∃ s t : HandleSys ℕ, Along HandleSys.Step (fun s a _ => Grants s a) .loaded
        [.openFile 0 (openEnvAt 1), .openFile 1 (openEnvAt 4), .release 0] s ∧
      s.Step (.release 1) t ∧ ¬Balanced s (.release 1) t := by
  refine ⟨_, _, .cons ⟨by decide, rfl⟩ (by decide) <| .cons ⟨by decide, rfl⟩ (by decide) <|
    .cons ⟨by decide, nofun, rfl⟩ trivial <| .nil _, ⟨by decide, nofun, rfl⟩, fun hbalanced => ?_⟩
  have hrun := hbalanced.1
  revert hrun
  decide

end OsProjects.Driver
