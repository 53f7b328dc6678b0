import OsProjects.Driver.Card
import OsProjects.Lib.Run

/-!
# DMA sessions

One client of the driver binds the DMA buffers, submits them with `START_DMA`,
unbinds them and finally releases the device, while the card transfers what it is
issued and interrupts once for each completed transfer. `start_dma` and
`late_unbind_dma` are taken apart where an interrupt, a wake-up or a signal can
fall: after the locked section, between the FIFO writes, and around the waits. The
locked section of `start_dma` and the interrupt handler are single steps. The ground for
the first is not the lock itself, which is a variable of the call's own and excludes
nobody, but that `spin_lock_irqsave` keeps interrupts off the CPU of the call until the
section ends; a handler that runs meanwhile on another CPU is not covered.

A sleeper remembers how many wake-ups its queue had been given when it tested its
condition, and may go on once there has been another. A signal ends either wait at
once, whatever the condition says, since both callers drop the result of
`wait_event_interruptible`.

## Main definitions

* `StartPc`, `Kyouko3.startStep` — `start_dma` after its locked section
* `LatePc`, `Kyouko3.lateStep` — the wait of `late_unbind_dma`
* `Submission`, `DmaSys`, `DmaSys.step` — the client, the driver and the card
* `DmaSys.outstanding` — the accepted submissions the card has not completed
-/

namespace OsProjects.Driver

/-! ### Inside `start_dma` and `late_unbind_dma` -/

/-- Where a thread is inside `start_dma` after the locked section: on the way that
issues the buffer to the card, in the wait for a free buffer, or about to return. -/
inductive StartPc
  | fill (count : Int32)
  | address (count : Int32)
  | config (count : Int32)
  | readHead
  | writeHead (head : ℕ)
  | wait
  | sleep (since : ℕ)
  | ret

/-- Where a thread is inside `late_unbind_dma`. -/
inductive LatePc
  | wait
  | sleep (since : ℕ)
  | free

/-- Where `start_dma` goes on after the locked section. -/
def StartPath.pc : StartPath → Int32 → StartPc
  | .issue, count => .fill count
  | .queued true, _ => .wait
  | .queued false, _ => .ret

namespace Kyouko3

/-- The next step of `start_dma`, if it is not asleep or returning. -/
def startStep (k : Kyouko3) : StartPc → Option (Kyouko3 × StartPc)
  | .fill count => some ({ k with fill := nextBuffer k.fill }, .address count)
  | .address count =>
    some (k.fifoWrite bufferAAddress (u32 (k.dmaBuffers k.drain).pBase), .config count)
  | .config count => some (k.fifoWrite bufferAConfig (unsigned count), .readHead)
  | .readHead => some (k, .writeHead k.fifo.head)
  -- the head as it was read, which may be out of date
  | .writeHead head => some (k.kWriteRegister fifoHead head, .ret)
  | .wait =>
    if k.queuedCount ≠ (dmaNumBuffs : ℤ) then some (k, .ret) else some (k, .sleep k.dmaNotFull)
  | .sleep since => if since ≠ k.dmaNotFull then some (k, .wait) else none
  | .ret => none

/-- After the locked section `start_dma` works on `fill` and the ring only. -/
theorem startStep_frame {k : Kyouko3} {pc : StartPc} {r : Kyouko3 × StartPc}
    (h : k.startStep pc = some r) :
    r.1.queuedCount = k.queuedCount ∧ r.1.drain = k.drain ∧ r.1.dmaBuffers = k.dmaBuffers ∧
      r.1.dmaMapped = k.dmaMapped ∧ r.1.held = k.held := by
  cases pc with
  | wait =>
    simp only [startStep] at h
    split at h <;> cases h <;> exact ⟨rfl, rfl, rfl, rfl, rfl⟩
  | sleep since =>
    simp only [startStep] at h
    split at h
    · cases h
      exact ⟨rfl, rfl, rfl, rfl, rfl⟩
    · cases h
  | ret => cases h
  | _ =>
    cases h
    exact ⟨rfl, rfl, rfl, rfl, rfl⟩

/-- The next step of the wait of `late_unbind_dma`, if it is not asleep. -/
def lateStep (k : Kyouko3) : LatePc → Option LatePc
  | .wait => if k.queuedCount = 0 then some .free else some (.sleep k.dmaEmpty)
  | .sleep since => if since ≠ k.dmaEmpty then some .wait else none
  | .free => none

end Kyouko3

/-! ### The system -/

/-- An accepted `START_DMA`: the buffer it submits, the bus address and the user
address the buffer has at that moment, and the byte count. -/
structure Submission where
  buffer : Fin dmaNumBuffs
  address : ℕ
  user : ℕ
  count : Int32

/-- Who called `late_unbind_dma`. -/
inductive Caller
  | unbind
  | release
  deriving DecidableEq

/-- Where the client is. Outside the driver it is at `user`; `graphics` and `flush`
are the rest of `kyouko3_release`, after which the device is `closed`. -/
inductive ClientPc
  | user
  | start (pc : StartPc)
  | late (caller : Caller) (pc : LatePc)
  | graphics
  | flush
  | closed

/-- The driver, the card and the client. `accepted` and `returned` are history: the
accepted submissions in call order, and the user addresses that a successful
`BIND_DMA` and the accepted calls of `START_DMA` have returned. -/
structure DmaSys where
  k : Kyouko3
  card : Card
  pc : ClientPc
  accepted : List Submission
  returned : List ℕ

/-- What can happen: the client calls an ioctl or releases the device, takes its
next step, or is sent a signal; the card executes an entry or interrupts. -/
inductive DmaAct
  | bind (env : BindEnv)
  | start (count : Int32)
  | unbind
  | release
  | run
  | signal
  | exec
  | intr (iflags : ℕ)

/-- The client waits for a free buffer. -/
def ClientPc.Waiting : ClientPc → Prop
  | .start .wait | .start (.sleep _) => True
  | _ => False

/-- The client is past the last use of DMA. -/
def ClientPc.Gone : ClientPc → Prop
  | .graphics | .flush | .closed => True
  | _ => False

namespace DmaSys

/-- The submission that an accepted `START_DMA` makes in this state. -/
def submission (s : DmaSys) (count : Int32) : Submission :=
  ⟨s.k.fill, (s.k.dmaBuffers s.k.fill).pBase, (s.k.dmaBuffers s.k.fill).uBase, count⟩

/-- `BIND_DMA` -/
def bind (s : DmaSys) (env : BindEnv) : DmaSys :=
  let r := s.k.bindDma env
  { s with k := r.2, returned := if r.1 = 0 then s.returned else s.returned ++ [r.1] }

/-- `START_DMA` up to the end of the locked section. -/
def start (s : DmaSys) (count : Int32) : DmaSys :=
  if Kyouko3.startDmaRefuses count then s
  else
    let r := s.k.startDmaLocked count
    { s with
      k := r.2
      pc := .start (r.1.pc count)
      accepted := s.accepted ++ [s.submission count] }

/-- `UNBIND_DMA` up to the wait of `late_unbind_dma`. -/
def unbind (s : DmaSys) : DmaSys :=
  if s.k.dmaMapped then { s with pc := .late .unbind .wait } else s

/-- `kyouko3_release` up to its first test. -/
def release (s : DmaSys) : DmaSys :=
  { s with pc := if s.k.dmaMapped then .late .release .wait else .graphics }

/-- The client's next step inside the driver, if it can take one. -/
def run (s : DmaSys) : Option DmaSys :=
  match s.pc with
  | .user | .closed => none
  | .start .ret => some { s with
      pc := .user, returned := s.returned ++ [(s.k.dmaBuffers s.k.fill).uBase] }
  | .start pc => (s.k.startStep pc).map fun r => { s with k := r.1, pc := .start r.2 }
  -- the buffers are freed whether the wait ended on its condition or on a signal
  | .late caller .free => some { s with
      k := s.k.lateUnbindDma
      pc := match caller with | .unbind => .user | .release => .graphics }
  | .late caller pc => (s.k.lateStep pc).map fun pc => { s with pc := .late caller pc }
  | .graphics =>
    if s.k.graphicsOn then some { s with k := s.k.graphicsOffStart, pc := .flush }
    else some { s with k := s.k.kyouko3Release, pc := .closed }
  | .flush =>
    match s.k.fifoFlushLoop s.card.tail with
    | some k => some { s with k := k }
    | none => some { s with k := s.k.graphicsOffEnd.kyouko3Release, pc := .closed }

/-- A signal sent to a client that waits ends the wait. -/
def signal (s : DmaSys) : Option DmaSys :=
  match s.pc with
  | .start .wait | .start (.sleep _) => some { s with pc := .start .ret }
  | .late caller .wait | .late caller (.sleep _) => some { s with pc := .late caller .free }
  | _ => none

/-- The card interrupts. The handler runs only while the irq is requested; it finds
the completion bit set only when the card has completed one more transfer. -/
def intr (s : DmaSys) (iflags : ℕ) : Option DmaSys :=
  if .irq ∈ s.k.held then
    if iflags &&& 0x02 = 0 then some { s with k := (s.k.dmaIntr iflags).2 }
    else if s.card.completed < (transfers s.card.executed).length then some { s with
      k := (s.k.dmaIntr iflags).2, card := { s.card with completed := s.card.completed + 1 } }
    else none
  else none

/-- Something the client can only do outside the driver. -/
def fromUser (s t : DmaSys) : Option DmaSys :=
  match s.pc with
  | .user => some t
  | _ => none

/-- The effect of an action, if it is possible. -/
def step (s : DmaSys) : DmaAct → Option DmaSys
  | .bind env => s.fromUser (s.bind env)
  | .start count => s.fromUser (s.start count)
  | .unbind => s.fromUser s.unbind
  | .release => s.fromUser s.release
  | .run => s.run
  | .signal => s.signal
  | .exec => (s.card.exec s.k).map fun c => { s with card := c }
  | .intr iflags => s.intr iflags

def Step (s : DmaSys) (a : DmaAct) (t : DmaSys) : Prop := s.step a = some t

/-- The accepted submissions the card has not completed: the one it is transferring
and those waiting in the queue. -/
def outstanding (s : DmaSys) : List Submission := s.accepted.drop s.card.completed

/-- The state right after `kyouko3_open`, with the card's FIFO at its start. -/
def opened (k : Kyouko3) (env : OpenEnv) : DmaSys where
  k := k.kyouko3Open env
  card := ⟨0, [], 0⟩
  pc := .user
  accepted := []
  returned := []

/-! ### What each action does -/

section Steps

variable {s t : DmaSys}

theorem fromUser_eq_some {u : DmaSys} (h : s.fromUser u = some t) : s.pc = .user ∧ t = u := by
  unfold fromUser at h
  split at h
  · exact ⟨‹_›, (Option.some_inj.mp h).symm⟩
  · simp at h

theorem Step.start {count : Int32} (h : s.Step (.start count) t) :
    s.pc = .user ∧ t = s.start count :=
  fromUser_eq_some h

theorem Step.bind {env : BindEnv} (h : s.Step (.bind env) t) : s.pc = .user ∧ t = s.bind env :=
  fromUser_eq_some h

/-- `UNBIND_DMA` comes to the wait of `late_unbind_dma`, or finds nothing bound. -/
theorem Step.unbind (h : s.Step .unbind t) : s.pc = .user ∧
    (s.k.dmaMapped = true ∧ t = { s with pc := .late .unbind .wait } ∨
      s.k.dmaMapped = false ∧ t = s) := by
  obtain ⟨hpc, rfl⟩ := fromUser_eq_some h
  refine ⟨hpc, ?_⟩
  unfold DmaSys.unbind
  cases s.k.dmaMapped with
  | true => exact .inl ⟨rfl, rfl⟩
  | false => exact .inr ⟨rfl, rfl⟩

/-- `kyouko3_release` unbinds first, if it must. -/
theorem Step.release (h : s.Step .release t) : s.pc = .user ∧
    (s.k.dmaMapped = true ∧ t = { s with pc := .late .release .wait } ∨
      s.k.dmaMapped = false ∧ t = { s with pc := .graphics }) := by
  obtain ⟨hpc, rfl⟩ := fromUser_eq_some h
  refine ⟨hpc, ?_⟩
  unfold DmaSys.release
  cases s.k.dmaMapped with
  | true => exact .inl ⟨rfl, rfl⟩
  | false => exact .inr ⟨rfl, rfl⟩

theorem Step.exec (h : s.Step .exec t) :
    ∃ c, s.card.exec s.k = some c ∧ t = { s with card := c } := by
  simp only [Step, step, Option.map_eq_some_iff] at h
  obtain ⟨c, hc, rfl⟩ := h
  exact ⟨c, hc, rfl⟩

/-! The three outcomes of the locked section -/

theorem start_refused {count : Int32} (h : Kyouko3.startDmaRefuses count = true) :
    s.start count = s := by
  unfold DmaSys.start
  rw [if_pos h]

theorem start_issue {count : Int32} (h : Kyouko3.startDmaRefuses count = false)
    (hfd : s.k.fill = s.k.drain) :
    s.start count = { s with
      k := { s.k with queuedCount := s.k.queuedCount + 1 }
      pc := .start (.fill count)
      accepted := s.accepted ++ [s.submission count] } := by
  unfold DmaSys.start
  rw [if_neg (by simp [h]), Kyouko3.startDmaLocked_issue hfd]
  rfl

theorem start_queued {count : Int32} (h : Kyouko3.startDmaRefuses count = false)
    (hfd : s.k.fill ≠ s.k.drain) :
    s.start count = { s with
      k := { s.k with
        queuedCount := s.k.queuedCount + 1
        dmaBuffers := Function.update s.k.dmaBuffers s.k.fill
          { s.k.dmaBuffers s.k.fill with storedCount := count }
        fill := nextBuffer s.k.fill }
      pc := .start (if nextBuffer s.k.fill = s.k.drain then .wait else .ret)
      accepted := s.accepted ++ [s.submission count] } := by
  unfold DmaSys.start
  rw [if_neg (by simp [h]), Kyouko3.startDmaLocked_queued hfd]
  by_cases hfull : nextBuffer s.k.fill = s.k.drain
  · simp [hfull, StartPath.pc]
  · simp [hfull, StartPath.pc]

/-- The client inside the driver takes a step of `start_dma`, returns from it, takes a
step of the wait of `late_unbind_dma`, ends that call, or goes on releasing. -/
theorem Step.run (h : s.Step .run t) :
    (∃ pc r, s.pc = .start pc ∧ s.k.startStep pc = some r ∧
        t = { s with k := r.1, pc := .start r.2 }) ∨
      (s.pc = .start .ret ∧ t = { s with
        pc := .user, returned := s.returned ++ [(s.k.dmaBuffers s.k.fill).uBase] }) ∨
      (∃ caller pc pc', s.pc = .late caller pc ∧ s.k.lateStep pc = some pc' ∧
        t = { s with pc := .late caller pc' }) ∨
      (∃ caller, s.pc = .late caller .free ∧ t = { s with
        k := s.k.lateUnbindDma
        pc := match caller with | .unbind => .user | .release => .graphics }) ∨
      (s.pc.Gone ∧ t.pc.Gone ∧ t.accepted = s.accepted) := by
  simp only [Step, step, DmaSys.run] at h
  split at h
  · cases h
  · cases h
  · cases h
    exact .inr (.inl ⟨‹_›, rfl⟩)
  · obtain ⟨r, hr, rfl⟩ := Option.map_eq_some_iff.mp h
    exact .inl ⟨_, r, ‹_›, hr, rfl⟩
  · cases h
    exact .inr (.inr (.inr (.inl ⟨_, ‹_›, rfl⟩)))
  · obtain ⟨pc', hpc', rfl⟩ := Option.map_eq_some_iff.mp h
    exact .inr (.inr (.inl ⟨_, _, pc', ‹_›, hpc', rfl⟩))
  · rename_i hpc
    refine .inr (.inr (.inr (.inr ⟨by simp [hpc, ClientPc.Gone], ?_⟩)))
    split at h <;> cases h <;> exact ⟨trivial, rfl⟩
  · rename_i hpc
    refine .inr (.inr (.inr (.inr ⟨by simp [hpc, ClientPc.Gone], ?_⟩)))
    split at h
    · cases h
      simp [hpc, ClientPc.Gone]
    · cases h
      exact ⟨trivial, rfl⟩

/-- An interrupt either reports no completion or the completion of a transfer whose
commands the card has executed. -/
theorem Step.intr {iflags : ℕ} (h : s.Step (.intr iflags) t) :
    .irq ∈ s.k.held ∧
      (iflags &&& 0x02 = 0 ∧ t = { s with k := (s.k.dmaIntr iflags).2 } ∨
        ¬iflags &&& 0x02 = 0 ∧ s.card.completed < (transfers s.card.executed).length ∧
          t = { s with
            k := (s.k.dmaIntr iflags).2
            card := { s.card with completed := s.card.completed + 1 } }) := by
  simp only [Step, step, DmaSys.intr] at h
  split at h
  · refine ⟨‹_›, ?_⟩
    split at h
    · exact .inl ⟨‹_›, (Option.some_inj.mp h).symm⟩
    · split at h
      · exact .inr ⟨‹_›, ‹_›, (Option.some_inj.mp h).symm⟩
      · simp at h
  · simp at h

/-- A signal ends a wait of `start_dma` or of `late_unbind_dma`. -/
theorem Step.signal (h : s.Step .signal t) :
    ((s.pc = .start .wait ∨ ∃ since, s.pc = .start (.sleep since)) ∧
        t = { s with pc := .start .ret }) ∨
      ∃ caller, (s.pc = .late caller .wait ∨ ∃ since, s.pc = .late caller (.sleep since)) ∧
        t = { s with pc := .late caller .free } := by
  simp only [Step, step, DmaSys.signal] at h
  split at h
  · exact .inl ⟨.inl ‹_›, (Option.some_inj.mp h).symm⟩
  · exact .inl ⟨.inr ⟨_, ‹_›⟩, (Option.some_inj.mp h).symm⟩
  · exact .inr ⟨_, .inl ‹_›, (Option.some_inj.mp h).symm⟩
  · exact .inr ⟨_, .inr ⟨_, ‹_›⟩, (Option.some_inj.mp h).symm⟩
  · simp at h

end Steps

end DmaSys

end OsProjects.Driver
