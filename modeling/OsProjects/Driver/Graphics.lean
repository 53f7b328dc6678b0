import OsProjects.Driver.FifoDelivery
import OsProjects.Driver.Ioctl

/-!
# Sessions with graphics

`VMODE` switches the frame and the encoder on and off. Both ways it writes commands of
its own to the FIFO and flushes them, as `FIFO_FLUSH` does for the client's, and the
release of the device switches graphics off if they are on before it frees the ring.
Here a client queues, flushes, switches modes and releases the device in any order, with
every `fifo_flush` taken apart into the rounds of its loop and the card executing
entries in between.

Whatever the client has queued, the card is idle when a flush is over: the loop ends
when the cached tail is at the head, and where the two were equal from the start the
card had nothing to execute. So the ring is never freed, nor the acceleration switched
off, under a working card. What the card has executed by then is another matter; it is
everything when each batch was shorter than the ring.

## Main definitions

* `GraphicsSys`, `GraphicsSys.step` — the client, the driver and the card
* `GraphicsSys.fifoSys` — the same state as one of a client that only queues and flushes
* `GraphicsSys.Fits` — a flush ends on a batch shorter than the ring
* `GraphicsSys.Delivers` — a flush ends with everything written executed

## Main results

* `idle_outside` — along every run the card is idle unless a flush is under way
* `graphics_delivers_iff` — every flush delivers, those of mode switches and of the release
  included, in exactly the runs in which every batch fits
-/

namespace OsProjects.Driver

open Run

/-! ### The system -/

namespace Kyouko3

/-- `graphics_on` up to the loop of its `fifo_flush` -/
def graphicsOnStart (k : Kyouko3) : Kyouko3 :=
  let k := graphicsOnRegisters.foldl (fun k w => k.kWriteRegister w.1 w.2) k
  (graphicsOnCommands.foldl (fun k w => k.fifoWrite w.1 w.2) k).publish

/-- `graphics_on` after its `fifo_flush` -/
def graphicsOnEnd (k : Kyouko3) : Kyouko3 := { k with graphicsOn := true }

end Kyouko3

/-- Who called `fifo_flush`: the ioctl, `graphics_on`, or `graphics_off` for `VMODE` or for
`kyouko3_release`. -/
inductive FlushCaller
  | ioctl
  | graphicsOn
  | graphicsOff
  | release
  deriving DecidableEq

/-- What is left to do when the flush is over. -/
def FlushCaller.finish (k : Kyouko3) : FlushCaller → Kyouko3
  | .ioctl => k
  | .graphicsOn => k.graphicsOnEnd
  | .graphicsOff => k.graphicsOffEnd
  | .release => k.graphicsOffEnd.kyouko3Release

/-- Where the client is. -/
inductive GraphicsPc
  | user
  | flushing (caller : FlushCaller)
  | closed
  deriving DecidableEq

/-- Where the client is when the flush is over. -/
def FlushCaller.next : FlushCaller → GraphicsPc
  | .release => .closed
  | _ => .user

/-- The client is inside `fifo_flush`. -/
def GraphicsPc.inFlush : GraphicsPc → Bool
  | .flushing _ => true
  | _ => false

/-- The driver and the card, DMA unbound, while a client queues, flushes, switches modes
and releases the device. `flushed` is history: the number of entries that had been written
when a flush was last over. -/
structure GraphicsSys where
  k : Kyouko3
  card : Card
  pc : GraphicsPc
  flushed : ℕ

/-- What can happen: a call of the client, a round of the loop of `fifo_flush`, an entry
executed by the card. -/
inductive GraphicsAct
  | queue (entry : FifoEntry)
  | flush
  | vmode (arg : ℕ)
  | release
  | poll
  | exec

namespace GraphicsSys

/-- A call that the client makes outside the driver. -/
def fromUser (s t : GraphicsSys) : Option GraphicsSys :=
  match s.pc with
  | .user => some t
  | _ => none

/-- `VMODE` up to the loop of its `fifo_flush`. -/
def vmode (s : GraphicsSys) (arg : ℕ) : GraphicsSys :=
  if u32 arg = graphicsOffMode then
    { s with k := s.k.graphicsOffStart, pc := .flushing .graphicsOff }
  else { s with k := s.k.graphicsOnStart, pc := .flushing .graphicsOn }

/-- `kyouko3_release`, up to the loop of its `fifo_flush` if graphics are on. -/
def release (s : GraphicsSys) : GraphicsSys :=
  if s.k.graphicsOn then { s with k := s.k.graphicsOffStart, pc := .flushing .release }
  else { s with k := s.k.kyouko3Release, pc := .closed }

/-- A round of the loop, which ends the call when the cached tail is at the head. -/
def poll (s : GraphicsSys) : Option GraphicsSys :=
  match s.pc with
  | .flushing caller =>
    match s.k.fifoFlushLoop s.card.tail with
    | some k => some { s with k := k }
    | none => some { s with
        k := caller.finish s.k, pc := caller.next, flushed := s.k.fifo.log.length }
  | _ => none

/-- The effect of an action, if it is possible. -/
def step (s : GraphicsSys) : GraphicsAct → Option GraphicsSys
  | .queue entry => s.fromUser { s with k := (s.k.fifoQueue (0, entry)).2 }
  | .flush => s.fromUser { s with k := s.k.publish, pc := .flushing .ioctl }
  | .vmode arg => s.fromUser (s.vmode arg)
  | .release => s.fromUser s.release
  | .poll => s.poll
  | .exec => (s.card.exec s.k).map fun c => { s with card := c }

def Step (s : GraphicsSys) (a : GraphicsAct) (t : GraphicsSys) : Prop := s.step a = some t

/-- The state right after `kyouko3_open`, with the card's FIFO at its start. -/
def opened (k : Kyouko3) (env : OpenEnv) : GraphicsSys :=
  ⟨k.kyouko3Open env, ⟨0, [], 0⟩, .user, 0⟩

variable {s t : GraphicsSys}

/-! ### What each action does -/

theorem fromUser_eq_some {u : GraphicsSys} (h : s.fromUser u = some t) :
    s.pc = .user ∧ t = u := by
  unfold fromUser at h
  split at h
  · exact ⟨‹_›, (Option.some_inj.mp h).symm⟩
  · cases h

/-- A round of the loop either reads the card's tail or, when the cached tail is at the
head, ends the call. -/
theorem Step.poll (h : s.Step .poll t) :
    ∃ caller, s.pc = .flushing caller ∧
      (s.k.fifo.tailCache ≠ s.k.fifo.head ∧
          t = { s with k := { s.k with fifo := { s.k.fifo with tailCache := s.card.tail } } } ∨
        s.k.fifo.tailCache = s.k.fifo.head ∧ t = { s with
          k := caller.finish s.k, pc := caller.next, flushed := s.k.fifo.log.length }) := by
  simp only [Step, step, GraphicsSys.poll, Kyouko3.fifoFlushLoop] at h
  split at h
  · rename_i caller hpc
    refine ⟨caller, hpc, ?_⟩
    by_cases hcache : s.k.fifo.tailCache = s.k.fifo.head
    · rw [if_neg (not_not.mpr hcache)] at h
      exact .inr ⟨hcache, (Option.some_inj.mp h).symm⟩
    · rw [if_pos hcache] at h
      exact .inl ⟨hcache, (Option.some_inj.mp h).symm⟩
  · cases h

theorem Step.exec (h : s.Step .exec t) :
    ∃ c, s.card.exec s.k = some c ∧ t = { s with card := c } := by
  obtain ⟨c, hc, rfl⟩ := Option.map_eq_some_iff.mp h
  exact ⟨c, hc, rfl⟩

end GraphicsSys

/-! ### Registers

None of the register writes of the graphics commands is to `FifoHead`. -/

namespace Kyouko3

variable (k : Kyouko3)

theorem foldl_kWriteRegister {reg : ℕ} (ws : List (ℕ × ℕ))
    (h : ∀ w ∈ ws, reg >>> 2 ≠ w.1 >>> 2) :
    (ws.foldl (fun k w => k.kWriteRegister w.1 w.2) k).register reg = k.register reg ∧
      (ws.foldl (fun k w => k.kWriteRegister w.1 w.2) k).fifo = k.fifo := by
  induction ws generalizing k with
  | nil => exact ⟨rfl, rfl⟩
  | cons w ws ih =>
    obtain ⟨hreg, hfifo⟩ :=
      ih (k.kWriteRegister w.1 w.2) fun w' hw' => h w' (List.mem_cons_of_mem _ hw')
    rw [List.foldl_cons, hreg, hfifo]
    exact ⟨k.register_kWriteRegister_of_ne (h w List.mem_cons_self), rfl⟩

theorem graphicsOffEnd_register : k.graphicsOffEnd.register fifoHead = k.register fifoHead := by
  have h : ∀ w ∈ [(configAcceleration, 0x80000000), (configModeSet, 0)],
      fifoHead >>> 2 ≠ w.1 >>> 2 := by decide
  exact (k.foldl_kWriteRegister _ h).1

theorem kyouko3Release_fifo : k.kyouko3Release.fifo = k.fifo := rfl

theorem kyouko3Release_register (reg : ℕ) :
    k.kyouko3Release.register reg = k.register reg := rfl

end Kyouko3

/-- When the flush is over, what is left to do leaves the ring and `FifoHead` alone. -/
theorem FlushCaller.finish_ring (caller : FlushCaller) (k : Kyouko3) :
    (caller.finish k).fifo = k.fifo ∧
      (caller.finish k).register fifoHead = k.register fifoHead := by
  cases caller with
  | ioctl => exact ⟨rfl, rfl⟩
  | graphicsOn => exact ⟨rfl, rfl⟩
  | graphicsOff => exact ⟨rfl, k.graphicsOffEnd_register⟩
  | release => exact ⟨rfl, k.graphicsOffEnd_register⟩

theorem FlushCaller.next_inFlush (caller : FlushCaller) : caller.next.inFlush = false := by
  cases caller <;> rfl

/-! ### The card outside a flush -/

namespace Kyouko3

/-- Writing commands leaves the cached tail alone. -/
theorem foldl_fifoWrite_tailCache (k : Kyouko3) (ws : List (ℕ × ℕ)) :
    (ws.foldl (fun k w => k.fifoWrite w.1 w.2) k).fifo.tailCache = k.fifo.tailCache := by
  induction ws generalizing k with
  | nil => rfl
  | cons w ws ih => rw [List.foldl_cons, ih, fifoWrite_fifo, Fifo.write_tailCache]

theorem graphicsOnStart_ring (k : Kyouko3) :
    k.graphicsOnStart.register fifoHead = k.graphicsOnStart.fifo.head ∧
      k.graphicsOnStart.fifo.tailCache = k.fifo.tailCache := by
  have hapart : ∀ w ∈ graphicsOnRegisters, fifoHead >>> 2 ≠ w.1 >>> 2 := by decide
  refine ⟨register_publish _, ?_⟩
  unfold graphicsOnStart
  rw [publish_fifo, foldl_fifoWrite_tailCache]
  exact congrArg Fifo.tailCache (k.foldl_kWriteRegister _ hapart).2

theorem graphicsOffStart_ring (k : Kyouko3) :
    k.graphicsOffStart.register fifoHead = k.graphicsOffStart.fifo.head ∧
      k.graphicsOffStart.fifo.tailCache = k.fifo.tailCache :=
  ⟨register_publish _, Fifo.write_tailCache _ _ _⟩

end Kyouko3

namespace GraphicsSys

variable {s t : GraphicsSys}

/-- Outside a flush the card has caught up with `FifoHead`, where the tail was last read;
inside, `FifoHead` is at the head, and the card too if the cached tail is. -/
structure Quiet (s : GraphicsSys) : Prop where
  outside : s.pc.inFlush = false →
    s.card.tail = s.k.register fifoHead ∧ s.k.fifo.tailCache = s.card.tail
  inside : s.pc.inFlush = true → s.k.register fifoHead = s.k.fifo.head ∧
    (s.k.fifo.tailCache = s.k.fifo.head → s.card.tail = s.k.fifo.head)

theorem quiet_opened (k : Kyouko3) {env : OpenEnv} (hstart : env.control (fifoHead >>> 2) = 0) :
    Quiet (opened k env) :=
  ⟨fun _ => ⟨hstart.symm, rfl⟩, nofun⟩

/-- A flush begins with the tail cached where the card stands. -/
theorem Quiet.begin_flush {k : Kyouko3} {caller : FlushCaller} (hs : s.Quiet) (hpc : s.pc = .user)
    (hring : k.register fifoHead = k.fifo.head ∧ k.fifo.tailCache = s.k.fifo.tailCache) :
    Quiet { s with k := k, pc := .flushing caller } where
  outside := nofun
  inside _ := by
    have hcache := (hs.outside (by rw [hpc]; rfl)).2
    exact ⟨hring.1, fun h => by rw [← h, ← hcache, hring.2]⟩

theorem Quiet.poll (hs : s.Quiet) (h : s.Step .poll t) : t.Quiet := by
  obtain ⟨caller, hpc, ⟨-, rfl⟩ | ⟨hcache, rfl⟩⟩ := h.poll
  · have hin := hs.inside (by rw [hpc]; rfl)
    refine ⟨fun hout => ?_, fun _ => ⟨hin.1, id⟩⟩
    simp only [hpc, GraphicsPc.inFlush] at hout
    cases hout
  · obtain ⟨hhead, htail⟩ := hs.inside (by rw [hpc]; rfl)
    obtain ⟨hfifo, hreg⟩ := caller.finish_ring s.k
    refine ⟨fun _ => ?_, fun hin => ?_⟩
    · simp only [hfifo, hreg, hhead, htail hcache, hcache, and_self]
    · simp only [caller.next_inFlush] at hin
      cases hin

/-- The card works only inside a flush, and not once the cached tail is at the head. -/
theorem Quiet.exec (hs : s.Quiet) (h : s.Step .exec t) : t.Quiet := by
  obtain ⟨c, hc, rfl⟩ := h.exec
  obtain ⟨hne, -⟩ := Card.exec_eq_some_iff.mp hc
  refine ⟨fun hout => absurd (hs.outside hout).1 hne, fun hin => ?_⟩
  obtain ⟨hhead, htail⟩ := hs.inside hin
  exact ⟨hhead, fun hcache => absurd (hhead ▸ htail hcache) hne⟩

theorem Quiet.step {a : GraphicsAct} (hs : s.Quiet) (h : s.Step a t) : t.Quiet := by
  cases a with
  | queue entry =>
    obtain ⟨hpc, rfl⟩ := fromUser_eq_some h
    have hout := hs.outside (by rw [hpc]; rfl)
    refine ⟨fun _ => ⟨hout.1, ?_⟩, fun hin => ?_⟩
    · exact (Fifo.write_tailCache _ _ _).trans hout.2
    · simp only [hpc, GraphicsPc.inFlush] at hin
      cases hin
  | flush =>
    obtain ⟨hpc, rfl⟩ := fromUser_eq_some h
    exact hs.begin_flush hpc ⟨s.k.register_publish, rfl⟩
  | vmode arg =>
    obtain ⟨hpc, rfl⟩ := fromUser_eq_some h
    unfold vmode
    split
    · exact hs.begin_flush hpc s.k.graphicsOffStart_ring
    · exact hs.begin_flush hpc s.k.graphicsOnStart_ring
  | release =>
    obtain ⟨hpc, rfl⟩ := fromUser_eq_some h
    unfold release
    split
    · exact hs.begin_flush hpc s.k.graphicsOffStart_ring
    · exact ⟨fun _ => hs.outside (by rw [hpc]; rfl), nofun⟩
  | poll => exact hs.poll h
  | exec => exact hs.exec h

end GraphicsSys

/-- **The card is idle outside a flush.** Along every run of mode switches, queueing and
flushing, up to the release of the device and beyond, whatever was queued in between: as
soon as a flush is over, its own or that of a mode switch or of the release, the card has
nothing left to execute. So acceleration is switched off and the ring freed only when the
card is idle, and nothing is read from the ring after it is freed. -/
theorem idle_outside (k : Kyouko3) (env : OpenEnv) (hstart : env.control (fifoHead >>> 2) = 0)
    (as : List GraphicsAct) (t : GraphicsSys)
    (h : Path GraphicsSys.Step (GraphicsSys.opened k env) as t) (hout : t.pc.inFlush = false) :
    t.card.exec t.k = none := by
  have hquiet := h.invariant GraphicsSys.Quiet (fun _ _ _ hs hstep => hs.step hstep)
    (GraphicsSys.quiet_opened k hstart)
  exact if_pos (hquiet.outside hout).1

/-- The client switches graphics on and releases the device. -/
def onAndRelease : List GraphicsAct :=
  .vmode 1 :: (List.replicate 6 .exec ++ [.poll, .poll, .release, .exec, .poll, .poll])

theorem idle_outside_one :
    ∃ t, Path GraphicsSys.Step (GraphicsSys.opened .zero zeroOpenEnv) onAndRelease t ∧
      t.pc = .closed ∧ t.card.executed.length = 7 ∧ t.card.exec t.k = none := by
  obtain ⟨t, ht, hpc, hlength⟩ : ∃ t,
      onAndRelease.foldlM GraphicsSys.step (GraphicsSys.opened .zero zeroOpenEnv) = some t ∧
        t.pc = .closed ∧ t.card.executed.length = 7 := ⟨_, rfl, rfl, rfl⟩
  exact ⟨t, Path.of_foldlM ht, hpc, hlength,
    idle_outside .zero zeroOpenEnv rfl _ t (Path.of_foldlM ht) (by rw [hpc]; rfl)⟩

/-! ### What is executed -/

namespace FifoSys

variable {s : FifoSys}

/-- A driver with the same ring and the same `FifoHead` serves as well. -/
theorem Inv.congr {k : Kyouko3} (hs : s.Inv) (hfifo : k.fifo = s.k.fifo)
    (hhead : k.register fifoHead = s.k.register fifoHead) : Inv { s with k := k } where
  log := by rw [hfifo, hs.log]
  batch_le := hs.batch_le
  head := by rw [hfifo, hs.head]
  upTo := by rw [hhead, hs.upTo]
  tail := hs.tail
  start_le := hs.start_le
  limit := hs.limit
  idle := hs.idle
  cached := by simpa only [hfifo] using hs.cached
  small := by simpa only [hfifo, hhead] using hs.small

/-- The driver's own commands are queued like the client's. -/
theorem Inv.queue_all (ws : List (ℕ × ℕ)) (hs : s.Inv) (hidle : s.flushing = false) :
    Inv { s with
      k := ws.foldl (fun k w => k.fifoWrite w.1 w.2) s.k
      queued := s.queued ++ ws.map fun w => ⟨w.1, w.2⟩
      batch := s.batch + ws.length } := by
  induction ws generalizing s with
  | nil => simpa using hs
  | cons w ws ih =>
    have hstep : s.Step (.queue ⟨w.1, w.2⟩) { s with
        k := s.k.fifoWrite w.1 w.2
        queued := s.queued ++ [⟨w.1, w.2⟩]
        batch := s.batch + 1 } := by
      rw [Step, FifoSys.step, if_neg (by simp [hidle])]
      rfl
    have hrest := ih (hs.queue hstep) hidle
    simpa [Nat.add_assoc, Nat.add_comm 1] using hrest

end FifoSys

theorem Kyouko3.foldl_fifoWrite_log (k : Kyouko3) (ws : List (ℕ × ℕ)) :
    (ws.foldl (fun k w => k.fifoWrite w.1 w.2) k).fifo.log =
      k.fifo.log ++ ws.map fun w => ⟨w.1, w.2⟩ := by
  induction ws generalizing k with
  | nil => simp
  | cons w ws ih => simp [ih]

namespace GraphicsSys

variable {s t : GraphicsSys}

/-- The same ring and card, as of a client that only queues and flushes: what the driver
queues for a mode switch counts as queued by the client. -/
def fifoSys (s : GraphicsSys) : FifoSys where
  k := s.k
  card := s.card
  flushing := s.pc.inFlush
  queued := s.k.fifo.log
  batch := s.k.fifo.log.length - s.flushed

/-- A flush that ends in this step was of fewer entries than the ring has. -/
def Fits (s : GraphicsSys) (_ : GraphicsAct) (t : GraphicsSys) : Prop :=
  s.pc.inFlush = true → t.pc.inFlush = false → s.k.fifo.log.length < s.flushed + fifoEntries

/-- When a flush ends in this step, the card has executed everything ever written. -/
def Delivers (s : GraphicsSys) (_ : GraphicsAct) (t : GraphicsSys) : Prop :=
  s.pc.inFlush = true → t.pc.inFlush = false → t.card.executed = t.k.fifo.log

/-- What holds along a run in which every batch fits. -/
structure Tracked (s : GraphicsSys) : Prop where
  flushed_le : s.flushed ≤ s.k.fifo.log.length
  inv : s.fifoSys.Inv

theorem tracked_opened (k : Kyouko3) {env : OpenEnv}
    (hstart : env.control (fifoHead >>> 2) = 0) : Tracked (opened k env) :=
  ⟨le_rfl, FifoSys.inv_opened k env hstart⟩

/-- Commands written outside a flush, after registers other than `FifoHead`, make the batch
longer. -/
theorem Tracked.writes {k : Kyouko3} (hs : s.Tracked) (hpc : s.pc = .user) (ws : List (ℕ × ℕ))
    (hring : k.fifo = s.k.fifo ∧ k.register fifoHead = s.k.register fifoHead) :
    Tracked { s with k := ws.foldl (fun k w => k.fifoWrite w.1 w.2) k } := by
  have hlog : (ws.foldl (fun k w => k.fifoWrite w.1 w.2) k).fifo.log =
      s.k.fifo.log ++ ws.map fun w => ⟨w.1, w.2⟩ := by
    rw [k.foldl_fifoWrite_log, hring.1]
  have hle := hs.flushed_le
  have hinv := (hs.inv.congr hring.1 hring.2).queue_all ws
    (show s.pc.inFlush = false by rw [hpc]; rfl)
  refine ⟨?_, ?_⟩
  · simp only [hlog, List.length_append]
    omega
  · have hbatch : s.k.fifo.log.length - s.flushed + ws.length =
        (s.k.fifo.log ++ ws.map fun w => (⟨w.1, w.2⟩ : FifoEntry)).length - s.flushed := by
      rw [List.length_append, List.length_map]
      omega
    simp only [fifoSys, hbatch, hlog] at hinv ⊢
    exact hinv

/-- A flush begins. -/
theorem Tracked.begin_flush {caller : FlushCaller} (hs : s.Tracked) (hpc : s.pc = .user) :
    Tracked { s with k := s.k.publish, pc := .flushing caller } := by
  have hstep : s.fifoSys.Step .flush { s.fifoSys with k := s.k.publish, flushing := true } := by
    rw [FifoSys.Step, FifoSys.step, if_neg (by simp [fifoSys, hpc, GraphicsPc.inFlush])]
    rfl
  exact ⟨hs.flushed_le, hs.inv.flush hstep⟩

/-- The driver's own batch, up to the loop of its flush. -/
theorem Tracked.begin_batch {k : Kyouko3} {caller : FlushCaller} (hs : s.Tracked)
    (hpc : s.pc = .user) (ws : List (ℕ × ℕ))
    (hring : k.fifo = s.k.fifo ∧ k.register fifoHead = s.k.register fifoHead) :
    Tracked { s with
      k := (ws.foldl (fun k w => k.fifoWrite w.1 w.2) k).publish, pc := .flushing caller } :=
  (hs.writes hpc ws hring).begin_flush hpc

theorem Tracked.graphicsOffStart {caller : FlushCaller} (hs : s.Tracked) (hpc : s.pc = .user) :
    Tracked { s with k := s.k.graphicsOffStart, pc := .flushing caller } :=
  hs.begin_batch hpc [(rasterClear, 0x03)] ⟨rfl, rfl⟩

theorem Tracked.graphicsOnStart {caller : FlushCaller} (hs : s.Tracked) (hpc : s.pc = .user) :
    Tracked { s with k := s.k.graphicsOnStart, pc := .flushing caller } :=
  hs.begin_batch hpc graphicsOnCommands
    (s.k.foldl_kWriteRegister graphicsOnRegisters (by decide)).symm

theorem Tracked.poll (hs : s.Tracked) (h : s.Step .poll t) (hfits : Fits s .poll t) :
    t.Tracked := by
  obtain ⟨caller, hpc, ⟨hcache, rfl⟩ | ⟨hcache, rfl⟩⟩ := h.poll
  · have hflush : s.fifoSys.flushing = true := by rw [fifoSys, hpc]; rfl
    have hstep : s.fifoSys.Step .poll { s.fifoSys with
        k := { s.k with fifo := { s.k.fifo with tailCache := s.card.tail } } } := by
      rw [FifoSys.Step, FifoSys.step, if_pos hflush]
      simp [fifoSys, Kyouko3.fifoFlushLoop, hcache]
    refine ⟨hs.flushed_le, hs.inv.poll hstep ?_⟩
    exact fun hreturn => absurd (hflush.symm.trans hreturn.2) (by decide)
  · have hflush : s.fifoSys.flushing = true := by rw [fifoSys, hpc]; rfl
    have hstep : s.fifoSys.Step .poll { s.fifoSys with flushing := false, batch := 0 } := by
      rw [FifoSys.Step, FifoSys.step, if_pos hflush]
      simp [fifoSys, Kyouko3.fifoFlushLoop, hcache]
    obtain ⟨hfifo, hreg⟩ := caller.finish_ring s.k
    have hinv := hs.inv.poll hstep fun _ => by
      have hle := hs.flushed_le
      have hlt := hfits (by rw [hpc]; rfl) caller.next_inFlush
      simp only [fifoSys]
      omega
    refine ⟨by simp only [hfifo, le_refl], ?_⟩
    have hfinish := hinv.congr hfifo hreg
    simp only [fifoSys, hfifo, caller.next_inFlush, Nat.sub_self] at hfinish ⊢
    exact hfinish

/-- Every step, as long as batches fit. -/
theorem Tracked.step {a : GraphicsAct} (hs : s.Tracked) (h : s.Step a t) (hfits : Fits s a t) :
    t.Tracked := by
  cases a with
  | queue entry =>
    obtain ⟨hpc, rfl⟩ := fromUser_eq_some h
    exact hs.writes hpc [(entry.command, entry.value)] ⟨rfl, rfl⟩
  | flush =>
    obtain ⟨hpc, rfl⟩ := fromUser_eq_some h
    exact hs.begin_flush hpc
  | vmode arg =>
    obtain ⟨hpc, rfl⟩ := fromUser_eq_some h
    unfold vmode
    split
    · exact hs.graphicsOffStart hpc
    · exact hs.graphicsOnStart hpc
  | release =>
    obtain ⟨hpc, rfl⟩ := fromUser_eq_some h
    unfold release
    split
    · exact hs.graphicsOffStart hpc
    · refine ⟨hs.flushed_le, ?_⟩
      have hinv := hs.inv.congr s.k.kyouko3Release_fifo (s.k.kyouko3Release_register fifoHead)
      simp only [fifoSys, hpc] at hinv
      exact hinv
  | poll => exact hs.poll h hfits
  | exec =>
    obtain ⟨c, hc, rfl⟩ := h.exec
    exact ⟨hs.flushed_le, hs.inv.exec (Option.map_eq_some_iff.mpr ⟨c, hc, rfl⟩)⟩

/-- At the end of a flush, delivering everything and having had a batch shorter than the
ring are the same thing. -/
theorem Tracked.fits_iff {a : GraphicsAct} (hs : s.Tracked) (h : s.Step a t) :
    Fits s a t ↔ Delivers s a t := by
  refine forall_congr' fun hin => forall_congr' fun hout => ?_
  have hcall : ∀ {u : GraphicsSys}, s.fromUser u = some t → False := fun hu => by
    rw [(fromUser_eq_some hu).1] at hin
    cases hin
  cases a with
  | poll =>
    obtain ⟨caller, hpc, ⟨-, rfl⟩ | ⟨hcache, rfl⟩⟩ := h.poll
    · exact absurd (hin.symm.trans hout) (by decide)
    · have hle := hs.flushed_le
      obtain ⟨hfifo, -⟩ := caller.finish_ring s.k
      simp only [hfifo]
      rcases hs.inv.executed_of_cached hcache with ⟨hsmall, hexec⟩ | ⟨hlarge, hexec⟩
      · simp only [fifoSys] at hsmall hexec
        exact iff_of_true (by omega) hexec
      · simp only [fifoSys] at hlarge hexec
        refine iff_of_false (by omega) fun heq => ?_
        rw [heq] at hexec
        exact absurd hexec (lt_irrefl _)
  | exec =>
    obtain ⟨c, -, rfl⟩ := h.exec
    exact absurd (hin.symm.trans hout) (by decide)
  | _ => exact (hcall h).elim

end GraphicsSys

/-- **Flushes deliver exactly what fits, whoever calls them.** Along every run from the
opening of the device, the flushes of `FIFO_FLUSH`, of both mode switches and of the release
end with the card having executed all commands ever written, the client's and the
driver's own, in order, if and only if every batch is shorter than the ring. -/
theorem graphics_delivers_iff (k : Kyouko3) (env : OpenEnv)
    (hstart : env.control (fifoHead >>> 2) = 0) (as : List GraphicsAct) (t : GraphicsSys) :
    Along GraphicsSys.Step GraphicsSys.Delivers (GraphicsSys.opened k env) as t ↔
      Along GraphicsSys.Step GraphicsSys.Fits (GraphicsSys.opened k env) as t :=
  (along_iff_of_invariant GraphicsSys.Tracked (fun _ _ _ hs h hfits => hs.step h hfits)
    (fun _ _ _ hs h => hs.fits_iff h) (GraphicsSys.tracked_opened k hstart)).symm

/-- The two batches of the driver's own, of six commands and of one. -/
theorem graphics_delivers_iff_one :
    ∃ t, Along GraphicsSys.Step GraphicsSys.Delivers (GraphicsSys.opened .zero zeroOpenEnv)
        onAndRelease t ∧
      t.card.executed = graphicsOnCommands.map (fun w => ⟨w.1, w.2⟩) ++ [⟨rasterClear, 3⟩] := by
  have hfits : ∃ t, Along GraphicsSys.Step GraphicsSys.Fits
      (GraphicsSys.opened .zero zeroOpenEnv) onAndRelease t ∧
        t.card.executed = graphicsOnCommands.map (fun w => ⟨w.1, w.2⟩) ++ [⟨rasterClear, 3⟩] := by
    refine ⟨_, .cons rfl nofun <| .cons rfl nofun <| .cons rfl nofun <| .cons rfl nofun <|
      .cons rfl nofun <| .cons rfl nofun <| .cons rfl nofun <| .cons rfl nofun <|
      .cons rfl (fun _ _ => by decide) <| .cons rfl nofun <| .cons rfl nofun <| .cons rfl nofun <|
      .cons rfl (fun _ _ => by decide) <| .nil _, rfl⟩
  obtain ⟨t, ht, hexecuted⟩ := hfits
  exact ⟨t, (graphics_delivers_iff .zero zeroOpenEnv rfl _ t).mpr ht, hexecuted⟩

end OsProjects.Driver
