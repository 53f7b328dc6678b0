import OsProjects.Driver.Graphics
import OsProjects.Labs.Ring

/-!
# Sessions of the lab drivers

The lab drivers queue, flush, switch graphics on and off and release the device as the
Kyouko3 driver does, with the ring of one slot more. Two things come of the differences.

A flush waits for the card's tail to come to the head. The tail is never behind the last
slot of the ring, but the head stops there once a lap, and a flush that begins then never
ends. And `off_GraphicsMode`, by which a release stops the card, flushes in lab3 and in
5lab but not in lab4, where the call is commented out. That does no harm to the ring,
which the card leaves alone between two flushes; but what was queued since the last one
is dropped with it.

## Main definitions

* `Session`, `Session.step` — a client, a lab's driver and the card
* `Session.Inv` — where the three pointers into the ring stand

## Main results

* `lab_idle_outside` — outside a flush the card is idle, in lab4 too
* `lab_flush_ends_iff` — a flush can end unless the head is behind the ring
* `release_delivers_iff` — what is queued and not flushed is lost in lab4 only
-/

namespace OsProjects.Labs

open Driver (FifoEntry OpenEnv Card FlushCaller GraphicsPc GraphicsAct fifoEntries fifoHead u32
  configAcceleration configModeSet drawClearColor4fRed drawClearColor4fGreen
  drawClearColor4fBlue drawClearColor4fAlpha rasterClear rasterFlush graphicsOffMode
  graphicsOnRegisters mod_fifoEntries_lt zeroOpenEnv)
open Run

/-! ### Functions -/

/-- The FIFO writes of `on_GraphicsMode`, with the bits of the blue of the background. -/
def onGraphicsCommands (blue : ℕ) : List (ℕ × ℕ) :=
  [(drawClearColor4fRed, 0), (drawClearColor4fGreen, 0), (drawClearColor4fBlue, blue),
    (drawClearColor4fAlpha, 0), (rasterClear, 0x03), (rasterFlush, 0x0)]

namespace Kyouko3

def register (k : Kyouko3) (reg : ℕ) : ℕ := k.control (reg >>> 2)

/-- `fifo_flush` up to its loop -/
def publish (k : Kyouko3) : Kyouko3 := k.kWriteReg fifoHead k.fifo.head

/-- `on_GraphicsMode` up to the loop of its `fifo_flush`; the register writes are those of
the Kyouko3 driver. -/
def onGraphicsModeStart (k : Kyouko3) (commands : List (ℕ × ℕ)) : Kyouko3 :=
  let k := graphicsOnRegisters.foldl (fun k w => k.kWriteReg w.1 w.2) k
  (commands.foldl (fun k w => k.fifoWrite w.1 w.2) k).publish

/-- `off_GraphicsMode` after its `fifo_flush` -/
def offGraphicsModeEnd (k : Kyouko3) : Kyouko3 :=
  let k := k.kWriteReg configAcceleration 0x80000000
  let k := k.kWriteReg configModeSet 0
  { k with bGraphicsOn := false }

end Kyouko3

namespace Lab3

def onGraphicsModeCommands : List (ℕ × ℕ) := onGraphicsCommands 0

/-- `off_GraphicsMode` up to the loop of its `fifo_flush`, if it has one -/
def offGraphicsModeStart (k : Kyouko3) : Option Kyouko3 := some k.publish

end Lab3

namespace Lab4

/-- The blue is `0.2f`. -/
def onGraphicsModeCommands : List (ℕ × ℕ) := onGraphicsCommands 0x3E4CCCCD

/-- Here `fifo_flush` is commented out. -/
def offGraphicsModeStart (_ : Kyouko3) : Option Kyouko3 := none

end Lab4

namespace Lab5

def onGraphicsModeCommands : List (ℕ × ℕ) := onGraphicsCommands 0x3E4CCCCD

def offGraphicsModeStart (k : Kyouko3) : Option Kyouko3 := some k.publish

end Lab5

namespace Lab

def onGraphicsModeCommands : Lab → List (ℕ × ℕ)
  | .lab3 => Lab3.onGraphicsModeCommands
  | .lab4 => Lab4.onGraphicsModeCommands
  | .lab5 => Lab5.onGraphicsModeCommands

def offGraphicsModeStart : Lab → Kyouko3 → Option Kyouko3
  | .lab3 => Lab3.offGraphicsModeStart
  | .lab4 => Lab4.offGraphicsModeStart
  | .lab5 => Lab5.offGraphicsModeStart

end Lab

/-- What is left to do when a flush is over. A release frees the ring and unmaps the card,
but leaves the structure as it is. -/
def finish (k : Kyouko3) : FlushCaller → Kyouko3
  | .ioctl => k
  | .graphicsOn => { k with bGraphicsOn := true }
  | .graphicsOff | .release => k.offGraphicsModeEnd

/-- The card executes the entry at its tail, unless it has caught up with `FIFOHEAD`. The
ring that it was told of ends with slot `FIFO_ENTRIES - 1`. -/
def cardExec (c : Card) (k : Kyouko3) : Option Card :=
  if c.tail = k.register fifoHead then none
  else some { c with
    tail := (c.tail + 1) % fifoEntries
    executed := c.executed ++ [k.fifo.slots c.tail] }

/-! ### Sessions -/

/-- A client, a lab's driver and the card. `written` and `published` are history: the
entries written to the ring, and how many there were when the head was last published. -/
structure Session where
  k : Kyouko3
  card : Card
  pc : GraphicsPc
  written : List FifoEntry
  published : ℕ

namespace Session

/-- A call that the client makes outside the driver. -/
def fromUser (s t : Session) : Option Session :=
  match s.pc with
  | .user => some t
  | _ => none

/-- A call up to the loop of its `fifo_flush`, with the head published. -/
def beginFlush (s : Session) (k : Kyouko3) (caller : FlushCaller) (es : List FifoEntry) : Session :=
  { s with
    k := k
    pc := .flushing caller
    written := s.written ++ es
    published := (s.written ++ es).length }

/-- What a call does once its `fifo_flush` is over, if it has one. -/
def finishCall (s : Session) (caller : FlushCaller) : Session :=
  { s with k := finish s.k caller, pc := caller.next }

/-- `off_GraphicsMode`, for `VMODE` or for `kyouko3fops_release`. -/
def off (lab : Lab) (s : Session) (caller : FlushCaller) : Session :=
  match lab.offGraphicsModeStart s.k with
  | some k => s.beginFlush k caller []
  | none => s.finishCall caller

/-- `fifo_vmode` -/
def vmode (lab : Lab) (s : Session) (arg : ℕ) : Session :=
  if u32 arg = graphicsOffMode then s.off lab .graphicsOff
  else s.beginFlush (s.k.onGraphicsModeStart lab.onGraphicsModeCommands) .graphicsOn
    (lab.onGraphicsModeCommands.map fun w => ⟨w.1, w.2⟩)

/-- A round of the loop of `fifo_flush`. -/
def poll (lab : Lab) (s : Session) : Option Session :=
  match s.pc with
  | .flushing caller =>
    match lab.fifoFlushLoop s.k s.card.tail with
    | some k => some { s with k := k }
    | none => some (s.finishCall caller)
  | _ => none

/-- The effect of an action, if it is possible. -/
def step (lab : Lab) (s : Session) : GraphicsAct → Option Session
  | .queue entry => s.fromUser { s with
      k := lab.fifoWrite s.k entry.command entry.value, written := s.written ++ [entry] }
  | .flush => s.fromUser (s.beginFlush s.k.publish .ioctl [])
  | .vmode arg => s.fromUser (s.vmode lab arg)
  | .release => s.fromUser (s.off lab .release)
  | .poll => s.poll lab
  | .exec => (cardExec s.card s.k).map fun c => { s with card := c }

def Step (lab : Lab) (s : Session) (a : GraphicsAct) (t : Session) : Prop := s.step lab a = some t

/-- The state right after `kyouko3fops_open`, with the card's FIFO at its start. -/
def opened (lab : Lab) (k : Kyouko3) (env : OpenEnv) : Session :=
  ⟨lab.kyouko3fopsOpen k env, ⟨0, [], 0⟩, .user, [], 0⟩

end Session

/-! ### What the functions leave alone -/

namespace Kyouko3

variable {k : Kyouko3} {slots₀ : ℕ → FifoEntry} {log : List FifoEntry}

theorem register_publish (k : Kyouko3) : k.publish.register fifoHead = k.fifo.head := by
  simp only [publish, register, kWriteReg, Function.update_self]

theorem register_kWriteReg_of_ne {reg reg' value : ℕ} (h : reg' >>> 2 ≠ reg >>> 2) :
    (k.kWriteReg reg value).register reg' = k.register reg' := by
  rw [register, kWriteReg]
  exact Function.update_of_ne h ..

theorem offGraphicsModeEnd_register (k : Kyouko3) :
    k.offGraphicsModeEnd.register fifoHead = k.register fifoHead := by
  have hacceleration : fifoHead >>> 2 ≠ configAcceleration >>> 2 := by decide
  have hmode : fifoHead >>> 2 ≠ configModeSet >>> 2 := by decide
  calc k.offGraphicsModeEnd.register fifoHead
      = ((k.kWriteReg configAcceleration 0x80000000).kWriteReg configModeSet 0).register fifoHead :=
        rfl
    _ = (k.kWriteReg configAcceleration 0x80000000).register fifoHead :=
        register_kWriteReg_of_ne hmode
    _ = k.register fifoHead := register_kWriteReg_of_ne hacceleration

theorem foldl_kWriteReg_fifo (k : Kyouko3) (ws : List (ℕ × ℕ)) :
    (ws.foldl (fun k w => k.kWriteReg w.1 w.2) k).fifo = k.fifo := by
  induction ws generalizing k with
  | nil => rfl
  | cons w ws ih =>
    rw [List.foldl_cons, ih]
    rfl

theorem fifoWrite_tail (k : Kyouko3) (reg value : ℕ) :
    (k.fifoWrite reg value).fifo.tail = k.fifo.tail := by
  simp only [fifoWrite, Fifo.advance]
  split
  · rfl
  · rfl

theorem foldl_fifoWrite_tail (k : Kyouko3) (ws : List (ℕ × ℕ)) :
    (ws.foldl (fun k w => k.fifoWrite w.1 w.2) k).fifo.tail = k.fifo.tail := by
  induction ws generalizing k with
  | nil => rfl
  | cons w ws ih => rw [List.foldl_cons, ih, fifoWrite_tail]

theorem filled_foldl_fifoWrite (h : k.fifo.Filled slots₀ log) (ws : List (ℕ × ℕ)) :
    (ws.foldl (fun k w => k.fifoWrite w.1 w.2) k).fifo.Filled slots₀
      (log ++ ws.map fun w => ⟨w.1, w.2⟩) := by
  induction ws generalizing k log with
  | nil => simpa using h
  | cons w ws ih =>
    have hwrite : (k.fifoWrite w.1 w.2).fifo.Filled slots₀ (log ++ [⟨w.1, w.2⟩]) :=
      h.write ⟨w.1, w.2⟩
    have hrest := ih hwrite
    rwa [List.append_assoc] at hrest

end Kyouko3

/-- `on_GraphicsMode` writes its commands behind what the ring holds. -/
theorem Fifo.Filled.onGraphicsModeStart {k : Kyouko3} {slots₀ : ℕ → FifoEntry}
    {log : List FifoEntry} (h : k.fifo.Filled slots₀ log) (commands : List (ℕ × ℕ)) :
    (k.onGraphicsModeStart commands).fifo.Filled slots₀
      (log ++ commands.map fun w => ⟨w.1, w.2⟩) := by
  apply Kyouko3.filled_foldl_fifoWrite
  rw [k.foldl_kWriteReg_fifo graphicsOnRegisters]
  exact h

/-- When a flush is over, what is left to do leaves the ring and `FIFOHEAD` alone. -/
theorem finish_ring (k : Kyouko3) (caller : FlushCaller) :
    (finish k caller).fifo = k.fifo ∧
      (finish k caller).register fifoHead = k.register fifoHead := by
  cases caller with
  | ioctl => exact ⟨rfl, rfl⟩
  | graphicsOn => exact ⟨rfl, rfl⟩
  | graphicsOff => exact ⟨rfl, k.offGraphicsModeEnd_register⟩
  | release => exact ⟨rfl, k.offGraphicsModeEnd_register⟩

theorem cardExec_eq_some_iff {c c' : Card} {k : Kyouko3} :
    cardExec c k = some c' ↔ c.tail ≠ k.register fifoHead ∧
      c' = { c with
        tail := (c.tail + 1) % fifoEntries
        executed := c.executed ++ [k.fifo.slots c.tail] } := by
  unfold cardExec
  split
  · rename_i heq
    exact iff_of_false (Option.some_ne_none _).symm fun h => h.1 heq
  · rename_i hne
    rw [Option.some_inj]
    exact ⟨fun h => ⟨hne, h.symm⟩, fun h => h.2.symm⟩

theorem Lab.fifoFlushLoop_eq (lab : Lab) : lab.fifoFlushLoop = Kyouko3.fifoFlushLoop := by
  cases lab <;> rfl

/-! ### Where the pointers stand -/

namespace Session

variable {lab : Lab} {slots₀ : ℕ → FifoEntry} {s t : Session}

theorem fromUser_eq_some {u : Session} (h : s.fromUser u = some t) : s.pc = .user ∧ t = u := by
  unfold fromUser at h
  split at h
  · exact ⟨‹_›, (Option.some_inj.mp h).symm⟩
  · cases h

/-- A round of the loop either reads the card's tail or ends the call. -/
theorem Step.poll (h : s.Step lab .poll t) :
    ∃ caller, s.pc = .flushing caller ∧
      (s.k.fifo.tail ≠ s.k.fifo.head ∧
          t = { s with k := { s.k with fifo := { s.k.fifo with tail := s.card.tail } } } ∨
        s.k.fifo.tail = s.k.fifo.head ∧ t = s.finishCall caller) := by
  simp only [Step, step, Session.poll, lab.fifoFlushLoop_eq, Kyouko3.fifoFlushLoop] at h
  split at h
  · rename_i caller hpc
    refine ⟨caller, hpc, ?_⟩
    by_cases hcache : s.k.fifo.tail = s.k.fifo.head
    · rw [if_neg (not_not.mpr hcache)] at h
      exact .inr ⟨hcache, (Option.some_inj.mp h).symm⟩
    · rw [if_pos hcache] at h
      exact .inl ⟨hcache, (Option.some_inj.mp h).symm⟩
  · cases h

theorem Step.exec (h : s.Step lab .exec t) :
    ∃ c, cardExec s.card s.k = some c ∧ t = { s with card := c } := by
  obtain ⟨c, hc, rfl⟩ := Option.map_eq_some_iff.mp h
  exact ⟨c, hc, rfl⟩

/-- `off_GraphicsMode` begins a flush, or is done at once in lab4. -/
theorem off_cases (lab : Lab) (s : Session) (caller : FlushCaller) :
    lab ≠ .lab4 ∧ s.off lab caller = s.beginFlush s.k.publish caller [] ∨
      lab = .lab4 ∧ s.off lab caller = s.finishCall caller := by
  cases lab with
  | lab3 => exact .inl ⟨nofun, rfl⟩
  | lab4 => exact .inr ⟨rfl, rfl⟩
  | lab5 => exact .inl ⟨nofun, rfl⟩

/-- What holds in every session: what was written fills the ring; outside a flush the card
has caught up with `FIFOHEAD`, where its tail was last read; inside, all that was written
is published, and the card is at the head if the tail that was read is. -/
structure Inv (slots₀ : ℕ → FifoEntry) (s : Session) : Prop where
  filled : s.k.fifo.Filled slots₀ s.written
  card : s.card.tail < fifoEntries
  read : s.k.fifo.tail < fifoEntries
  outside : s.pc.inFlush = false →
    s.card.tail = s.k.register fifoHead ∧ s.k.fifo.tail = s.card.tail
  inside : s.pc.inFlush = true → s.k.register fifoHead = s.k.fifo.head ∧
    (s.k.fifo.tail = s.k.fifo.head → s.card.tail = s.k.fifo.head) ∧
      s.published = s.written.length

theorem inv_opened (lab : Lab) (k : Kyouko3) {env : OpenEnv}
    (hstart : env.control (fifoHead >>> 2) = 0) : (opened lab k env).Inv env.slots where
  filled := lab.filled_open k env
  card := Nat.succ_pos _
  read := by cases lab <;> exact Nat.succ_pos _
  outside _ := by cases lab <;> exact ⟨hstart.symm, rfl⟩
  inside := nofun

theorem Inv.beginFlush {k : Kyouko3} {caller : FlushCaller} {es : List FifoEntry}
    (hs : s.Inv slots₀) (hpc : s.pc = .user) (hfilled : k.fifo.Filled slots₀ (s.written ++ es))
    (htail : k.fifo.tail = s.k.fifo.tail) (hhead : k.register fifoHead = k.fifo.head) :
    (s.beginFlush k caller es).Inv slots₀ where
  filled := hfilled
  card := hs.card
  read := by
    rw [Session.beginFlush, htail]
    exact hs.read
  outside := nofun
  inside _ := by
    have hread := (hs.outside (by rw [hpc]; rfl)).2
    refine ⟨hhead, fun hcache => ?_, rfl⟩
    rw [Session.beginFlush] at hcache ⊢
    rw [← hcache, htail, hread]

/-- A call ends with the card where the head was last published. -/
theorem Inv.finishCall {caller : FlushCaller} (hs : s.Inv slots₀)
    (hcard : s.card.tail = s.k.register fifoHead) (hread : s.k.fifo.tail = s.card.tail) :
    (s.finishCall caller).Inv slots₀ := by
  obtain ⟨hfifo, hreg⟩ := finish_ring s.k caller
  refine ⟨?_, hs.card, ?_, fun _ => ⟨?_, ?_⟩, fun hin => ?_⟩
  · rw [Session.finishCall, hfifo]
    exact hs.filled
  · rw [Session.finishCall, hfifo]
    exact hs.read
  · exact hcard.trans hreg.symm
  · rw [Session.finishCall, hfifo]
    exact hread
  · exact absurd (hin.symm.trans caller.next_inFlush) (by decide)

theorem Inv.off {caller : FlushCaller} (hs : s.Inv slots₀) (hpc : s.pc = .user) :
    (s.off lab caller).Inv slots₀ := by
  obtain ⟨hcard, hread⟩ := hs.outside (by rw [hpc]; rfl)
  rcases s.off_cases lab caller with ⟨-, hoff⟩ | ⟨-, hoff⟩
  · rw [hoff]
    exact hs.beginFlush hpc (by rw [List.append_nil]; exact hs.filled) rfl s.k.register_publish
  · rw [hoff]
    exact hs.finishCall hcard hread

/-- Every action keeps the pointers where they belong. -/
theorem Inv.step {a : GraphicsAct} (hs : s.Inv slots₀) (h : s.Step lab a t) : t.Inv slots₀ := by
  cases a with
  | queue entry =>
    obtain ⟨hpc, rfl⟩ := fromUser_eq_some h
    have hout := hs.outside (by rw [hpc]; rfl)
    rw [lab.fifoWrite_eq]
    refine ⟨hs.filled.write entry, hs.card, ?_, fun _ => ⟨hout.1, ?_⟩, fun hin => ?_⟩
    · rw [Kyouko3.fifoWrite_tail]
      exact hs.read
    · rw [Kyouko3.fifoWrite_tail]
      exact hout.2
    · rw [hpc] at hin
      cases hin
  | flush =>
    obtain ⟨hpc, rfl⟩ := fromUser_eq_some h
    exact hs.beginFlush hpc (by rw [List.append_nil]; exact hs.filled) rfl s.k.register_publish
  | vmode arg =>
    obtain ⟨hpc, rfl⟩ := fromUser_eq_some h
    unfold vmode
    split
    · exact hs.off hpc
    · refine hs.beginFlush hpc (hs.filled.onGraphicsModeStart _) ?_ (Kyouko3.register_publish _)
      exact (Kyouko3.foldl_fifoWrite_tail _ _).trans
        (congrArg Fifo.tail (s.k.foldl_kWriteReg_fifo graphicsOnRegisters))
  | release =>
    obtain ⟨hpc, rfl⟩ := fromUser_eq_some h
    exact hs.off hpc
  | poll =>
    obtain ⟨caller, hpc, ⟨-, rfl⟩ | ⟨hcache, rfl⟩⟩ := h.poll
    · obtain ⟨hhead, -, hpublished⟩ := hs.inside (by rw [hpc]; rfl)
      refine ⟨⟨hs.filled.ring, hs.filled.stores⟩, hs.card, hs.card, fun hout => ?_,
        fun _ => ⟨hhead, id, hpublished⟩⟩
      rw [hpc] at hout
      cases hout
    · obtain ⟨hhead, hcard, -⟩ := hs.inside (by rw [hpc]; rfl)
      exact hs.finishCall ((hcard hcache).trans hhead.symm) (hcache.trans (hcard hcache).symm)
  | exec =>
    obtain ⟨c, hc, rfl⟩ := h.exec
    obtain ⟨hne, rfl⟩ := cardExec_eq_some_iff.mp hc
    refine ⟨hs.filled, mod_fifoEntries_lt _, hs.read, fun hout => ?_, fun hin => ?_⟩
    · exact absurd (hs.outside hout).1 hne
    · obtain ⟨hhead, hcard, hpublished⟩ := hs.inside hin
      exact ⟨hhead, fun hcache => absurd ((hcard hcache).trans hhead.symm) hne, hpublished⟩

end Session

/-- **The card is idle outside a flush.** In every session of each lab, whatever was queued and
whichever calls were made, the card has nothing to execute unless a flush is under way; so
it reads nothing from the ring after a release has freed it, though in lab4 a release does
not wait for it. -/
theorem lab_idle_outside (lab : Lab) (k : Kyouko3) (env : OpenEnv)
    (hstart : env.control (fifoHead >>> 2) = 0) (as : List GraphicsAct) (t : Session)
    (h : Path (Session.Step lab) (.opened lab k env) as t) (hout : t.pc.inFlush = false) :
    cardExec t.card t.k = none := by
  have hinv := h.invariant (Session.Inv env.slots) (fun _ _ _ hs hstep => hs.step hstep)
    (Session.inv_opened lab k hstart)
  exact if_pos (hinv.outside hout).1

/-- A release of lab4 with a command queued and not flushed. -/
theorem lab_idle_outside_lab4 :
    ∃ t, Path (Session.Step .lab4) (.opened .lab4 .zero zeroOpenEnv)
        [.queue ⟨rasterFlush, 0⟩, .release] t ∧
      t.pc = .closed ∧ cardExec t.card t.k = none := by
  have hrun : ∃ t, Path (Session.Step .lab4) (.opened .lab4 .zero zeroOpenEnv)
      [.queue ⟨rasterFlush, 0⟩, .release] t ∧ t.pc = .closed :=
    ⟨_, Path.cons rfl (Path.cons rfl (Path.nil _)), rfl⟩
  obtain ⟨t, hpath, hclosed⟩ := hrun
  exact ⟨t, hpath, hclosed,
    lab_idle_outside .lab4 .zero zeroOpenEnv rfl _ t hpath (by rw [hclosed]; rfl)⟩

/-! ### Flushes that do not end -/

namespace Session

variable {lab : Lab} {slots₀ : ℕ → FifoEntry} {s t : Session}

/-- In a flush that waits for the card's tail to come behind the last slot. -/
structure Stuck (s : Session) : Prop where
  inFlush : s.pc.inFlush = true
  head : s.k.fifo.head = fifoEntries
  card : s.card.tail < fifoEntries
  read : s.k.fifo.tail < fifoEntries

/-- No action leads out of it. -/
theorem Stuck.step {a : GraphicsAct} (hs : s.Stuck) (h : s.Step lab a t) : t.Stuck := by
  have hcall : ∀ {u : Session}, s.fromUser u = some t → t.Stuck := fun hu => by
    have hin := hs.inFlush
    rw [(fromUser_eq_some hu).1] at hin
    cases hin
  cases a with
  | poll =>
    obtain ⟨caller, -, ⟨-, rfl⟩ | ⟨hcache, -⟩⟩ := h.poll
    · exact ⟨hs.inFlush, hs.head, hs.card, hs.card⟩
    · exact absurd (hcache.trans hs.head) hs.read.ne
  | exec =>
    obtain ⟨c, hc, rfl⟩ := h.exec
    obtain ⟨-, rfl⟩ := cardExec_eq_some_iff.mp hc
    exact ⟨hs.inFlush, hs.head, mod_fifoEntries_lt _, hs.read⟩
  | _ => exact hcall h

/-- The card can go on until it is at `FIFOHEAD`. -/
theorem exists_caught_up (htail : s.card.tail < fifoEntries)
    (hhead : s.k.register fifoHead < fifoEntries) :
    ∃ as, ∃ c : Card, Path (Step lab) s as { s with card := c } ∧
      c.tail = s.k.register fifoHead := by
  have hmove : ∀ t, (∃ c : Card, t = { s with card := c }) → t.card.tail ≠ s.k.register fifoHead →
      ∃ u, Step lab t .exec u ∧ (∃ c : Card, u = { s with card := c }) ∧
        u.card.tail = (t.card.tail + 1) % fifoEntries := by
    rintro _ ⟨c, rfl⟩ hne
    obtain ⟨c', hc'⟩ : ∃ c', cardExec c s.k = some c' := ⟨_, cardExec_eq_some_iff.mpr ⟨hne, rfl⟩⟩
    refine ⟨_, Option.map_eq_some_iff.mpr ⟨c', hc', rfl⟩, ⟨c', rfl⟩, ?_⟩
    rw [(cardExec_eq_some_iff.mp hc').2]
  obtain ⟨n, -, _, hpath, ⟨c, rfl⟩, hcaught⟩ :=
    RingLog.exists_caught_up _ hhead hmove ⟨s.card, rfl⟩ htail
  exact ⟨_, c, hpath, hcaught⟩

theorem step_poll_read {caller : FlushCaller} (hpc : s.pc = .flushing caller)
    (hread : s.k.fifo.tail ≠ s.k.fifo.head) :
    s.Step lab .poll
      { s with k := { s.k with fifo := { s.k.fifo with tail := s.card.tail } } } := by
  simp [Step, step, poll, hpc, lab.fifoFlushLoop_eq, Kyouko3.fifoFlushLoop, hread]

theorem step_poll_end {caller : FlushCaller} (hpc : s.pc = .flushing caller)
    (hread : s.k.fifo.tail = s.k.fifo.head) : s.Step lab .poll (s.finishCall caller) := by
  simp [Step, step, poll, hpc, lab.fifoFlushLoop_eq, Kyouko3.fifoFlushLoop, hread]

/-- Where the head is a slot of the ring, the card can come there, and the flush end. -/
theorem Inv.exists_end {caller : FlushCaller} (hs : s.Inv slots₀) (hpc : s.pc = .flushing caller)
    (hhead : s.k.fifo.head < fifoEntries) :
    ∃ bs t, Path (Step lab) s bs t ∧ t.pc.inFlush = false := by
  have hpublished := (hs.inside (by rw [hpc]; rfl)).1
  obtain ⟨as, c, hpath, hcaught⟩ := exists_caught_up hs.card (hpublished ▸ hhead)
  by_cases hread : s.k.fifo.tail = s.k.fifo.head
  · have hend : Step lab { s with card := c } .poll
        (Session.finishCall { s with card := c } caller) := step_poll_end hpc hread
    exact ⟨_, _, hpath.append (Path.cons hend (Path.nil _)), caller.next_inFlush⟩
  · let m : Session := { s with
      card := c
      k := { s.k with fifo := { s.k.fifo with tail := c.tail } } }
    have hround : Step lab { s with card := c } .poll m := step_poll_read hpc hread
    have hend : Step lab m .poll (m.finishCall caller) :=
      step_poll_end hpc (hcaught.trans hpublished)
    exact ⟨_, _, hpath.append (Path.cons hround (Path.cons hend (Path.nil _))),
      caller.next_inFlush⟩

end Session

/-- **A flush ends unless the head is behind the ring.** In every session of each lab, from
every state inside a flush: the flush can still come to its end if and only if the number of
entries written since the opening is not `FIFO_ENTRIES` modulo `FIFO_ENTRIES + 1`. -/
theorem lab_flush_ends_iff (lab : Lab) (k : Kyouko3) (env : OpenEnv)
    (hstart : env.control (fifoHead >>> 2) = 0) (as : List GraphicsAct) (s : Session)
    (h : Path (Session.Step lab) (.opened lab k env) as s) (hin : s.pc.inFlush = true) :
    (∃ bs t, Path (Session.Step lab) s bs t ∧ t.pc.inFlush = false) ↔
      s.written.length % (fifoEntries + 1) ≠ fifoEntries := by
  have hinv := h.invariant (Session.Inv env.slots) (fun _ _ _ hs hstep => hs.step hstep)
    (Session.inv_opened lab k hstart)
  have hlt : s.k.fifo.head < fifoEntries + 1 := by
    rw [hinv.filled.ring.head]
    exact Nat.mod_lt _ (Nat.succ_pos _)
  rw [← hinv.filled.ring.head]
  constructor
  · rintro ⟨bs, t, hpath, hout⟩ hhead
    have hstuck := hpath.invariant Session.Stuck (fun _ _ _ hs hstep => hs.step hstep)
      ⟨hin, hhead, hinv.card, hinv.read⟩
    exact absurd (hstuck.inFlush.symm.trans hout) (by decide)
  · intro hne
    obtain ⟨caller, hpc⟩ : ∃ caller, s.pc = .flushing caller := by
      cases hpc : s.pc with
      | flushing caller => exact ⟨caller, rfl⟩
      | _ => simp [hpc, GraphicsPc.inFlush] at hin
    exact hinv.exists_end hpc (by omega)

namespace Session

variable {lab : Lab} {s t : Session}

/-- Commands can be queued outside a flush. -/
theorem exists_queued (lab : Lab) (es : List FifoEntry) (hpc : s.pc = .user) :
    ∃ t, Path (Step lab) s (es.map .queue) t ∧ t.pc = .user ∧ t.written = s.written ++ es := by
  induction es generalizing s with
  | nil => exact ⟨s, Path.nil s, hpc, (List.append_nil _).symm⟩
  | cons e es ih =>
    have hstep : s.Step lab (.queue e) { s with
        k := lab.fifoWrite s.k e.command e.value, written := s.written ++ [e] } := by
      simp [Step, step, fromUser, hpc]
    obtain ⟨t, hpath, htpc, hwritten⟩ := ih (s := { s with
      k := lab.fifoWrite s.k e.command e.value, written := s.written ++ [e] }) hpc
    refine ⟨t, hpath.cons hstep, htpc, ?_⟩
    rw [hwritten, List.append_assoc]
    rfl

end Session

/-- The flush of a lap of commands never ends. -/
theorem lab_flush_ends_iff_lap :
    ∃ s, Path (Session.Step .lab5) (.opened .lab5 .zero zeroOpenEnv)
        ((List.replicate fifoEntries ⟨0, 0⟩).map .queue ++ [.flush]) s ∧
      ¬∃ bs t, Path (Session.Step .lab5) s bs t ∧ t.pc.inFlush = false := by
  obtain ⟨t, hpath, hpc, hwritten⟩ := Session.exists_queued (s := .opened .lab5 .zero zeroOpenEnv)
    .lab5 (List.replicate fifoEntries ⟨0, 0⟩) rfl
  have hflush : t.Step .lab5 .flush (t.beginFlush t.k.publish .ioctl []) := by
    simp [Session.Step, Session.step, Session.fromUser, hpc]
  have hrun := hpath.append (Path.cons hflush (Path.nil _))
  refine ⟨_, hrun, ?_⟩
  rw [lab_flush_ends_iff .lab5 .zero zeroOpenEnv rfl _ _ hrun rfl, not_not, Session.beginFlush,
    hwritten, List.append_nil]
  have hlength : (List.replicate fifoEntries (⟨0, 0⟩ : FifoEntry)).length = fifoEntries :=
    List.length_replicate
  exact (congrArg (· % (fifoEntries + 1)) hlength).trans
    (Nat.mod_eq_of_lt (Nat.lt_succ_self fifoEntries))

/-! ### What a release drops -/

namespace Session

variable {lab : Lab} {slots₀ : ℕ → FifoEntry} {s t : Session}

/-- Written entries are not taken back. -/
theorem Step.written_le {a : GraphicsAct} (h : s.Step lab a t) :
    s.written.length ≤ t.written.length := by
  have happend : ∀ es, s.written.length ≤ (s.written ++ es).length := fun es => by
    rw [List.length_append]
    exact Nat.le_add_right _ _
  have hoff : ∀ caller, s.written.length ≤ (s.off lab caller).written.length := fun caller => by
    rcases s.off_cases lab caller with ⟨-, hoff⟩ | ⟨-, hoff⟩
    · rw [hoff]
      exact happend []
    · rw [hoff]
      exact le_rfl
  cases a with
  | queue entry =>
    obtain ⟨-, rfl⟩ := fromUser_eq_some h
    exact happend [entry]
  | flush =>
    obtain ⟨-, rfl⟩ := fromUser_eq_some h
    exact happend []
  | vmode arg =>
    obtain ⟨-, rfl⟩ := fromUser_eq_some h
    unfold vmode
    split
    · exact hoff _
    · exact happend _
  | release =>
    obtain ⟨-, rfl⟩ := fromUser_eq_some h
    exact hoff _
  | poll =>
    obtain ⟨caller, -, ⟨-, rfl⟩ | ⟨-, rfl⟩⟩ := h.poll
    · exact le_rfl
    · exact le_rfl
  | exec =>
    obtain ⟨c, -, rfl⟩ := h.exec
    exact le_rfl

/-- What holds in a session that has written less than a lap: the card has executed the
first of the entries written, in order and as far as published at most; and a device that
was released is all published, but for lab4. -/
structure Short (lab : Lab) (s : Session) : Prop where
  published_le : s.published ≤ s.written.length
  fifoHead : s.k.register fifoHead = s.published
  tail : s.card.tail = s.card.executed.length
  executed_le : s.card.executed.length ≤ s.published
  executed : s.card.executed = s.written.take s.card.executed.length
  closed : s.pc = .closed → lab ≠ .lab4 → s.published = s.written.length

theorem short_opened (lab : Lab) (k : Kyouko3) {env : OpenEnv}
    (hstart : env.control (fifoHead >>> 2) = 0) : (opened lab k env).Short lab where
  published_le := le_rfl
  fifoHead := by cases lab <;> exact hstart
  tail := rfl
  executed_le := le_rfl
  executed := rfl
  closed := nofun

/-- The first entries are still the first when more are written. -/
theorem Short.take_append (hs : s.Short lab) (es : List FifoEntry) :
    s.card.executed = (s.written ++ es).take s.card.executed.length := by
  rw [List.take_append_of_le_length (hs.executed_le.trans hs.published_le)]
  exact hs.executed

theorem Short.beginFlush {k : Kyouko3} {caller : FlushCaller} {es : List FifoEntry}
    (hs : s.Short lab) (hfilled : k.fifo.Filled slots₀ (s.written ++ es))
    (hhead : k.register Driver.fifoHead = k.fifo.head)
    (hshort : (s.written ++ es).length < fifoEntries) : (s.beginFlush k caller es).Short lab where
  published_le := le_rfl
  fifoHead := by
    rw [Session.beginFlush, hhead, hfilled.ring.head]
    exact Nat.mod_eq_of_lt (Nat.lt_succ_of_lt hshort)
  tail := hs.tail
  executed_le := by
    rw [Session.beginFlush, List.length_append]
    exact (hs.executed_le.trans hs.published_le).trans (Nat.le_add_right _ _)
  executed := hs.take_append es
  closed := nofun

theorem Short.finishCall {caller : FlushCaller} (hs : s.Short lab)
    (hpublished : lab ≠ .lab4 → s.published = s.written.length) :
    (s.finishCall caller).Short lab where
  published_le := hs.published_le
  fifoHead := (finish_ring s.k caller).2.trans hs.fifoHead
  tail := hs.tail
  executed_le := hs.executed_le
  executed := hs.executed
  closed _ := hpublished

theorem Short.off {caller : FlushCaller} (hs : s.Short lab) (hinv : s.Inv slots₀)
    (hshort : s.written.length < fifoEntries) : (s.off lab caller).Short lab := by
  rcases s.off_cases lab caller with ⟨-, hoff⟩ | ⟨hlab, hoff⟩
  · rw [hoff]
    have hnil : s.written ++ [] = s.written := List.append_nil _
    exact hs.beginFlush (hnil.symm ▸ hinv.filled) s.k.register_publish (hnil.symm ▸ hshort)
  · rw [hoff]
    exact hs.finishCall fun hne => absurd hlab hne

/-- The card executes the next of the entries written. -/
theorem Short.exec {c : Card} (hs : s.Short lab) (hinv : s.Inv slots₀)
    (hshort : s.written.length < fifoEntries) (hc : cardExec s.card s.k = some c) :
    Short lab { s with card := c } := by
  obtain ⟨hne, rfl⟩ := cardExec_eq_some_iff.mp hc
  rw [hs.tail, hs.fifoHead] at hne
  have hlt : s.card.executed.length < s.published := lt_of_le_of_ne hs.executed_le hne
  have hwritten := hlt.trans_le hs.published_le
  have hslot : s.k.fifo.slots s.card.tail = s.written[s.card.executed.length] := by
    rw [hinv.filled.ring.slots_eq (by omega), hs.tail, List.getElem?_eq_getElem hwritten]
    rfl
  refine ⟨hs.published_le, hs.fifoHead, ?_, ?_, ?_, hs.closed⟩
  · rw [List.length_append, List.length_singleton, hs.tail]
    exact Nat.mod_eq_of_lt (by omega)
  · rw [List.length_append, List.length_singleton]
    exact hlt
  · rw [List.length_append, List.length_singleton, List.take_add_one, ← hs.executed,
      List.getElem?_eq_getElem hwritten, hslot]
    rfl

theorem Short.step {a : GraphicsAct} (hs : s.Short lab) (hinv : s.Inv slots₀)
    (h : s.Step lab a t) (hshort : t.written.length < fifoEntries) : t.Short lab := by
  have hless := h.written_le.trans_lt hshort
  cases a with
  | queue entry =>
    obtain ⟨hpc, rfl⟩ := fromUser_eq_some h
    rw [lab.fifoWrite_eq]
    refine ⟨?_, hs.fifoHead, hs.tail, hs.executed_le, hs.take_append [entry], fun hclosed => ?_⟩
    · exact hs.published_le.trans h.written_le
    · rw [hpc] at hclosed
      cases hclosed
  | flush =>
    obtain ⟨-, rfl⟩ := fromUser_eq_some h
    exact hs.beginFlush (by rw [List.append_nil]; exact hinv.filled) s.k.register_publish hshort
  | vmode arg =>
    obtain ⟨-, rfl⟩ := fromUser_eq_some h
    unfold vmode at hshort ⊢
    split
    · exact hs.off hinv hless
    · rename_i hon
      rw [if_neg hon] at hshort
      exact hs.beginFlush (hinv.filled.onGraphicsModeStart _) (Kyouko3.register_publish _) hshort
  | release =>
    obtain ⟨-, rfl⟩ := fromUser_eq_some h
    exact hs.off hinv hless
  | poll =>
    obtain ⟨caller, hpc, ⟨-, rfl⟩ | ⟨-, rfl⟩⟩ := h.poll
    · exact ⟨hs.published_le, hs.fifoHead, hs.tail, hs.executed_le, hs.executed, hs.closed⟩
    · exact hs.finishCall fun _ => (hinv.inside (by rw [hpc]; rfl)).2.2
  | exec =>
    obtain ⟨c, hc, rfl⟩ := h.exec
    exact hs.exec hinv hshort hc

end Session

/-- **What is queued and not flushed is lost in lab4 only.** In every session of each lab that
writes less than a lap and releases the device: the card has executed all that was
written, in order, if and only if the lab is not lab4 or nothing was written since the last
flush. -/
theorem release_delivers_iff (lab : Lab) (k : Kyouko3) (env : OpenEnv)
    (hstart : env.control (fifoHead >>> 2) = 0) (as : List GraphicsAct) (t : Session)
    (h : Path (Session.Step lab) (.opened lab k env) as t) (hclosed : t.pc = .closed)
    (hshort : t.written.length < fifoEntries) :
    t.card.executed = t.written ↔ lab ≠ .lab4 ∨ t.published = t.written.length := by
  obtain ⟨hinv, hs⟩ := h.invariant
    (fun t => t.Inv env.slots ∧ (t.written.length < fifoEntries → t.Short lab))
    (fun _ _ _ hs hstep => ⟨hs.1.step hstep, fun hlt =>
      (hs.2 (hstep.written_le.trans_lt hlt)).step hs.1 hstep hlt⟩)
    ⟨Session.inv_opened lab k hstart, fun _ => Session.short_opened lab k hstart⟩
  have ht := hs hshort
  -- the card is idle, so it has executed what was published
  have hexecuted : t.card.executed.length = t.published := by
    rw [← ht.tail, (hinv.outside (by rw [hclosed]; rfl)).1, ht.fifoHead]
  constructor
  · intro heq
    right
    rw [← hexecuted, heq]
  · intro hlab
    have hpublished : t.published = t.written.length := by
      rcases hlab with hne | hpublished
      · exact ht.closed hclosed hne
      · exact hpublished
    rw [ht.executed, hexecuted, hpublished, List.take_length]

/-- A command that lab4 drops. -/
theorem release_delivers_iff_lab4 :
    ∃ t, Path (Session.Step .lab4) (.opened .lab4 .zero zeroOpenEnv)
        [.queue ⟨rasterFlush, 0⟩, .release] t ∧
      t.pc = .closed ∧ t.card.executed ≠ t.written := by
  have hrun : ∃ t, Path (Session.Step .lab4) (.opened .lab4 .zero zeroOpenEnv)
      [.queue ⟨rasterFlush, 0⟩, .release] t ∧ t.pc = .closed ∧ t.published = 0 ∧
        t.written.length = 1 :=
    ⟨_, Path.cons rfl (Path.cons rfl (Path.nil _)), rfl, rfl, rfl⟩
  obtain ⟨t, hpath, hclosed, hpublished, hwritten⟩ := hrun
  refine ⟨t, hpath, hclosed, ?_⟩
  rw [ne_eq, release_delivers_iff .lab4 .zero zeroOpenEnv rfl _ t hpath hclosed
    (by rw [hwritten]; decide), hpublished, hwritten]
  simp

end OsProjects.Labs
