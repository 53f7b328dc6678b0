import OsProjects.Driver.Delivery

/-!
# No wake-up is lost

After a successful `BIND_DMA` the client submits buffers, unbinds them and releases the
device, and sleeps on the way: in `start_dma` while all buffers are in use and in
`late_unbind_dma` while any is. The handler wakes the sleepers only when the queue ceases
to be full and when it becomes empty. This file shows that this is enough: whoever sleeps
has yet to be woken and will be, since the card has a transfer to complete.

## Main definitions

* `DmaSys.SleepsNotFull`, `DmaSys.SleepsEmpty` — asleep, and not woken since
* `Wakes` — what is asked of a state in which somebody sleeps
* `completions` — the completion interrupts of a run

## Main results

* `DmaSys.SleepsEmpty.run` — a sleeper on an empty queue sleeps through all completions
  but the last
* `no_lost_wakeup` — in every state that can be reached
-/

namespace OsProjects.Driver

open Run

/-! ### Sleepers -/

/-- Every wait ends on its condition, and the buffers are not bound again. -/
def DmaAct.WaitsOut : DmaAct → Prop
  | .bind _ | .signal => False
  | _ => True

/-- The action is the interrupt for a completed transfer. -/
def DmaAct.isCompletion : DmaAct → Bool
  | .intr iflags => iflags &&& 0x02 ≠ 0
  | _ => false

/-- The completion interrupts of a run. -/
def completions (as : List DmaAct) : ℕ := as.countP DmaAct.isCompletion

namespace DmaSys

/-- `start_dma` sleeps on `dma_not_full`, which has been given no wake-up since. -/
def SleepsNotFull (s : DmaSys) : Prop := s.pc = .start (.sleep s.k.dmaNotFull)

/-- `late_unbind_dma` sleeps on `dma_empty`, which has been given no wake-up since. -/
def SleepsEmpty (s : DmaSys) : Prop := ∃ caller, s.pc = .late caller (.sleep s.k.dmaEmpty)

/-- The card has been issued a transfer that it has not completed. -/
def TransferOutstanding (s : DmaSys) : Prop := s.card.completed < (issued s.k s.card).length

end DmaSys

/-- Whoever sleeps does so rightly and will be woken: the queue is full, a transfer is
outstanding, and the next completion ends the wait; or the queue holds `n` submissions, a
transfer is outstanding, and the wait lasts until the `n`-th completion and ends with it.
While DMA is bound, the card needs only go on for the next completion to come. -/
structure Wakes (s : DmaSys) : Prop where
  notFull : s.SleepsNotFull →
    s.k.queuedCount = (dmaNumBuffs : ℤ) ∧ s.TransferOutstanding ∧
      ∀ iflags t, ¬iflags &&& 0x02 = 0 → s.Step (.intr iflags) t →
        t.k.queuedCount ≠ (dmaNumBuffs : ℤ) ∧ t.k.dmaNotFull = s.k.dmaNotFull + 1
  empty : s.SleepsEmpty → ∃ n : ℕ, 0 < n ∧ s.k.queuedCount = n ∧ s.TransferOutstanding ∧
    (∀ as t, Along DmaSys.Step (fun _ a _ => a.WaitsOut) s as t → completions as < n →
      t.SleepsEmpty ∧ t.k.queuedCount = n - completions as) ∧
    ∀ as m iflags t, Along DmaSys.Step (fun _ a _ => a.WaitsOut) s as m →
      completions as + 1 = n → ¬iflags &&& 0x02 = 0 → m.Step (.intr iflags) t →
        t.k.queuedCount = 0 ∧ t.k.dmaEmpty = s.k.dmaEmpty + 1
  completes : s.SleepsNotFull ∨ s.SleepsEmpty → s.k.dmaMapped = true →
    ∃ as m t, Along DmaSys.Step (fun _ a _ => a = .exec) s as m ∧ m.Step (.intr 0x02) t

/-! ### The handler and the sleepers -/

namespace Kyouko3

variable {k : Kyouko3} {iflags : ℕ}

/-- A completion wakes the sleepers on `dma_not_full` when it makes room in a full queue. -/
theorem dmaIntr_dmaNotFull (h : iflags &&& 0x02 ≠ 0) :
    (k.dmaIntr iflags).2.dmaNotFull =
      if k.queuedCount = (dmaNumBuffs : ℤ) then k.dmaNotFull + 1 else k.dmaNotFull := by
  have hfull : k.queuedCount - 1 + 1 = (dmaNumBuffs : ℤ) ↔ k.queuedCount = (dmaNumBuffs : ℤ) := by
    omega
  simp only [dmaIntr, h, if_false, kWriteRegister_queuedCount, kWriteRegister_dmaNotFull, hfull]
  split_ifs <;> rfl

/-- And those on `dma_empty` when it empties the queue. -/
theorem dmaIntr_dmaEmpty (h : iflags &&& 0x02 ≠ 0) :
    (k.dmaIntr iflags).2.dmaEmpty =
      if k.queuedCount = 1 then k.dmaEmpty + 1 else k.dmaEmpty := by
  have hempty : k.queuedCount - 1 = 0 ↔ k.queuedCount = 1 := by omega
  simp only [dmaIntr, h, if_false]
  split_ifs <;> first | rfl | simp_all

/-- A thread falls asleep in `start_dma` only when it finds the queue full. -/
theorem startStep_sleep {pc : StartPc} {k' : Kyouko3} {since : ℕ}
    (h : k.startStep pc = some (k', .sleep since)) :
    k' = k ∧ since = k.dmaNotFull ∧ k.queuedCount = (dmaNumBuffs : ℤ) := by
  cases pc with
  | wait =>
    simp only [startStep] at h
    split at h
    · cases h
    · rename_i hfull
      cases h
      exact ⟨rfl, rfl, not_not.mp hfull⟩
  | sleep since' =>
    simp only [startStep] at h
    split at h <;> cases h
  | _ => cases h

/-- And in `late_unbind_dma` only when it finds the queue not empty. -/
theorem lateStep_sleep {pc : LatePc} {since : ℕ} (h : k.lateStep pc = some (.sleep since)) :
    since = k.dmaEmpty ∧ k.queuedCount ≠ 0 := by
  cases pc with
  | wait =>
    simp only [lateStep] at h
    split at h
    · cases h
    · cases h
      exact ⟨rfl, by assumption⟩
  | sleep since' =>
    simp only [lateStep] at h
    split at h <;> cases h
  | free => cases h

section Bind

variable {env : BindEnv}

theorem mem_held_foldl_bindBuffer {r : Resource} (is : List (Fin dmaNumBuffs))
    (h : r ∈ k.held) : r ∈ (is.foldl (bindBuffer env) k).held := by
  induction is generalizing k with
  | nil => exact h
  | cons i is ih =>
    apply ih
    unfold bindBuffer
    split
    · exact List.mem_cons_of_mem _ h
    · exact h

/-- A successful `BIND_DMA` has requested the irq. -/
theorem irq_mem_bindDma (hmapped : k.dmaMapped = false) (hmsi : env.enableMsi = 0)
    (hirq : env.requestIrq = 0) : .irq ∈ (k.bindDma env).2.held := by
  rw [bindDma_accepted hmapped hmsi hirq]
  exact mem_held_foldl_bindBuffer _ List.mem_cons_self

end Bind

end Kyouko3

theorem DmaSys.irq_of_bind {k : Kyouko3} {env : OpenEnv} {benv : BindEnv} {t : DmaSys}
    (h : (opened k env).Step (.bind benv) t) (hsuccess : t.returned ≠ []) :
    .irq ∈ t.k.held := by
  obtain ⟨-, rfl⟩ := Step.bind h
  rcases (opened k env).k.bindDma_cases benv with hrefused | ⟨hmapped, hmsi, hirq⟩
  · simp only [DmaSys.bind, hrefused] at hsuccess
    exact absurd rfl hsuccess
  · exact Kyouko3.irq_mem_bindDma hmapped hmsi hirq

/-! ### The card goes on -/

section Card

variable {base d : ℕ} {s : DmaSys}

/-- With the queue not empty and nobody writing the ring, the card has a transfer to
complete. -/
theorem Rest.transferOutstanding (h : Rest base d s.k s.card s.accepted)
    (hq : s.k.queuedCount ≠ 0) : s.TransferOutstanding := by
  have hle := h.completed_le
  have hcount := h.queuedCount
  unfold DmaSys.TransferOutstanding
  rw [h.issued_eq le_rfl, List.length_map, List.length_take, settled]
  omega

/-- Left alone, the card executes all it has been handed. -/
theorem Rest.exists_exec (h : Rest base d s.k s.card s.accepted) :
    ∃ as m, Along DmaSys.Step (fun _ a _ => a = .exec) s as m ∧ m.k = s.k ∧
      m.accepted = s.accepted ∧ m.card.completed = s.card.completed ∧
      Rest base d m.k m.card m.accepted ∧
      m.card.executed.length = settled m.card m.accepted := by
  -- on the entries that are handed to the card and not executed
  induction hn : settled s.card s.accepted - s.card.executed.length generalizing s with
  | zero =>
    have hle := h.channel.executed_le
    exact ⟨[], s, .nil s, rfl, rfl, rfl, h, by omega⟩
  | succ n ih =>
    have hne : s.card.tail ≠ s.k.register fifoHead := by
      intro htail
      have hlen := h.channel.tail_eq_iff.mp htail
      omega
    obtain ⟨c, hc⟩ : ∃ c, s.card.exec s.k = some c :=
      ⟨_, Card.exec_eq_some_iff.mpr ⟨hne, rfl⟩⟩
    obtain ⟨-, hlen, hcompleted⟩ := h.channel.exec rfl hc
    have hsettled : settled c s.accepted = settled s.card s.accepted := by
      rw [settled, settled, hcompleted]
    have hstep : s.Step .exec { s with card := c } := by
      rw [DmaSys.Step, DmaSys.step, hc]
      rfl
    have hleft : settled c s.accepted - c.executed.length = n := by
      rw [hsettled, hlen]
      omega
    obtain ⟨as, m, hrun, hk, haccepted, hcompleted', hrest, hdone⟩ :=
      ih (s := { s with card := c }) (h.exec hc) hleft
    exact ⟨.exec :: as, m, .cons hstep rfl hrun, hk, haccepted, hcompleted'.trans hcompleted,
      hrest, hdone⟩

/-- And then, with the irq requested, it interrupts for the transfer it has completed. -/
theorem Rest.exists_completion (h : Rest base d s.k s.card s.accepted)
    (hq : s.k.queuedCount ≠ 0) (hirq : .irq ∈ s.k.held) :
    ∃ as m t, Along DmaSys.Step (fun _ a _ => a = .exec) s as m ∧ m.Step (.intr 0x02) t := by
  obtain ⟨as, m, hrun, hk, haccepted, hcompleted, hrest, hdone⟩ := h.exists_exec
  have hcount := h.queuedCount
  have hle := h.completed_le
  have hstarted : m.card.completed < (transfers m.card.executed).length := by
    rw [hrest.transfers_executed, List.length_map, List.length_take, hdone, settled, haccepted,
      hcompleted]
    omega
  have hirq' : .irq ∈ m.k.held := hk ▸ hirq
  have hflag : ¬(0x02 &&& 0x02 = 0) := by decide
  have hintr : ∃ t, m.intr 0x02 = some t := by
    rw [DmaSys.intr, if_pos hirq', if_neg hflag, if_pos hstarted]
    exact ⟨_, rfl⟩
  obtain ⟨t, ht⟩ := hintr
  exact ⟨as, m, t, hrun, ht⟩

end Card

/-! ### The invariant -/

namespace DmaSys

variable {base d : ℕ} {s t m : DmaSys} {a : DmaAct} {as : List DmaAct}

/-- What holds while every wait ends on its condition: a sleeper that has not been woken
since it fell asleep has its condition still against it. -/
structure Sleeping (s : DmaSys) : Prop where
  start : ∀ since, s.pc = .start (.sleep since) → since ≤ s.k.dmaNotFull ∧
    (since = s.k.dmaNotFull → s.k.queuedCount = (dmaNumBuffs : ℤ))
  late : ∀ caller since, s.pc = .late caller (.sleep since) → since ≤ s.k.dmaEmpty ∧
    (since = s.k.dmaEmpty → s.k.queuedCount ≠ 0)

/-- Nobody sleeps. -/
theorem Sleeping.of_awake (hstart : ∀ since, s.pc ≠ .start (.sleep since))
    (hlate : ∀ caller since, s.pc ≠ .late caller (.sleep since)) : Sleeping s :=
  ⟨fun since hpc => absurd hpc (hstart since),
    fun caller since hpc => absurd hpc (hlate caller since)⟩

theorem Sleeping.of_gone (h : s.pc.Gone) : Sleeping s := by
  apply Sleeping.of_awake
  · intro since hpc
    simp [hpc, ClientPc.Gone] at h
  · intro caller since hpc
    simp [hpc, ClientPc.Gone] at h

theorem sleeping_run (h : s.Step .run t) : Sleeping t := by
  rcases h.run with ⟨pc, r, -, hr, rfl⟩ | ⟨-, rfl⟩ | ⟨caller, pc, pc', -, hstep, rfl⟩ |
    ⟨caller, -, rfl⟩ | ⟨-, hgone, -⟩
  · refine ⟨?_, by simp⟩
    intro since hpc
    have hsleep : r = (r.1, .sleep since) := by
      have hpc' : r.2 = .sleep since := by simpa using hpc
      rw [← hpc']
    rw [hsleep] at hr
    obtain ⟨hk, hsince, hfull⟩ := Kyouko3.startStep_sleep hr
    simp only [hk]
    exact ⟨hsince.le, fun _ => hfull⟩
  · exact .of_awake (by simp) (by simp)
  · refine ⟨by simp, ?_⟩
    intro caller' since hpc
    have hpc' : pc' = .sleep since := by simp_all
    rw [hpc'] at hstep
    obtain ⟨hsince, hnonempty⟩ := Kyouko3.lateStep_sleep hstep
    exact ⟨hsince.le, fun _ => hnonempty⟩
  · cases caller <;> exact .of_awake (by simp) (by simp)
  · exact .of_gone hgone

/-- The handler wakes a sleeper in the same step that turns its condition. -/
theorem Sleeping.intr {iflags : ℕ} (hs : Sleeping s) (h : s.Step (.intr iflags) t) :
    Sleeping t := by
  obtain ⟨-, ⟨hflag, rfl⟩ | ⟨hflag, -, rfl⟩⟩ := h.intr
  · rw [Kyouko3.dmaIntr_spurious hflag]
    exact ⟨hs.start, hs.late⟩
  · constructor
    · intro since hpc
      obtain ⟨hle, hfull⟩ := hs.start since hpc
      simp only [Kyouko3.dmaIntr_dmaNotFull hflag, Kyouko3.dmaIntr_queuedCount hflag]
      split
      · exact ⟨hle.trans (Nat.le_succ _), fun hsince => by omega⟩
      · rename_i hnotfull
        exact ⟨hle, fun hsince => absurd (hfull hsince) hnotfull⟩
    · intro caller since hpc
      obtain ⟨hle, hnonempty⟩ := hs.late caller since hpc
      simp only [Kyouko3.dmaIntr_dmaEmpty hflag, Kyouko3.dmaIntr_queuedCount hflag]
      split
      · exact ⟨hle.trans (Nat.le_succ _), fun hsince => by omega⟩
      · exact ⟨hle, fun _ => by omega⟩

theorem Sleeping.step (hs : Sleeping s) (h : s.Step a t) (ha : a.WaitsOut) : Sleeping t := by
  cases a with
  | bind env => exact ha.elim
  | signal => exact ha.elim
  | start count =>
    obtain ⟨hpc, rfl⟩ := Step.start h
    rcases s.k.startDma_cases count with hcount | ⟨hcount, hfd⟩ | ⟨hcount, hfd⟩
    · rw [start_refused hcount]
      exact hs
    · rw [start_issue hcount hfd]
      exact .of_awake (by simp) (by simp)
    · rw [start_queued hcount hfd]
      refine .of_awake ?_ (by simp)
      intro since
      dsimp only
      split <;> simp
  | unbind =>
    obtain ⟨-, ⟨-, rfl⟩ | ⟨-, rfl⟩⟩ := Step.unbind h
    · exact .of_awake (by simp) (by simp)
    · exact hs
  | release =>
    obtain ⟨-, ⟨-, rfl⟩ | ⟨-, rfl⟩⟩ := Step.release h
    · exact .of_awake (by simp) (by simp)
    · exact .of_awake (by simp) (by simp)
  | run => exact sleeping_run h
  | exec =>
    obtain ⟨c, -, rfl⟩ := h.exec
    exact ⟨hs.start, hs.late⟩
  | intr iflags => exact hs.intr h

/-- What holds after a successful `BIND_DMA` while every wait ends on its condition. -/
structure WaitingOut (base : ℕ) (s : DmaSys) : Prop where
  inv : ∃ d, s.Inv base d
  notFull : NotFull s
  sleeping : Sleeping s
  irq : ¬s.pc.Gone → s.k.dmaMapped = true → .irq ∈ s.k.held

theorem irq_run (hs : ¬s.pc.Gone → s.k.dmaMapped = true → .irq ∈ s.k.held) (h : s.Step .run t) :
    ¬t.pc.Gone → t.k.dmaMapped = true → .irq ∈ t.k.held := by
  intro hgone hmapped
  rcases h.run with ⟨pc, r, hpc, hr, rfl⟩ | ⟨hpc, rfl⟩ | ⟨caller, pc, pc', hpc, -, rfl⟩ |
    ⟨caller, -, rfl⟩ | ⟨-, hgone', -⟩
  · obtain ⟨-, -, -, hmapped', hheld⟩ := Kyouko3.startStep_frame hr
    simp only [hmapped', hheld] at hmapped ⊢
    exact hs (by simp [hpc, ClientPc.Gone]) hmapped
  · exact hs (by simp [hpc, ClientPc.Gone]) hmapped
  · exact hs (by simp [hpc, ClientPc.Gone]) hmapped
  · cases hmapped
  · exact absurd hgone' hgone

theorem WaitingOut.irq_step (hs : WaitingOut base s) (h : s.Step a t) (ha : a.WaitsOut) :
    ¬t.pc.Gone → t.k.dmaMapped = true → .irq ∈ t.k.held := by
  have hirq := hs.irq
  cases a with
  | bind env => exact ha.elim
  | signal => exact ha.elim
  | start count =>
    obtain ⟨hpc, rfl⟩ := Step.start h
    intro _
    have huser := hirq (by simp [hpc, ClientPc.Gone])
    rcases s.k.startDma_cases count with hcount | ⟨hcount, hfd⟩ | ⟨hcount, hfd⟩
    · rwa [start_refused hcount]
    · rwa [start_issue hcount hfd]
    · rwa [start_queued hcount hfd]
  | unbind =>
    obtain ⟨hpc, hunbind⟩ := Step.unbind h
    intro _
    have huser := hirq (by simp [hpc, ClientPc.Gone])
    rcases hunbind with ⟨-, rfl⟩ | ⟨-, rfl⟩
    · exact huser
    · exact huser
  | release =>
    obtain ⟨hpc, hrelease⟩ := Step.release h
    intro _
    have huser := hirq (by simp [hpc, ClientPc.Gone])
    rcases hrelease with ⟨-, rfl⟩ | ⟨-, rfl⟩
    · exact huser
    · exact huser
  | run => exact irq_run hirq h
  | exec =>
    obtain ⟨c, -, rfl⟩ := h.exec
    exact hirq
  | intr iflags =>
    obtain ⟨hheld, ⟨-, rfl⟩ | ⟨-, -, rfl⟩⟩ := h.intr
    · exact fun _ _ => by simpa using hheld
    · exact fun _ _ => by simpa using hheld

theorem WaitingOut.step (hs : WaitingOut base s) (h : s.Step a t) (ha : a.WaitsOut) :
    WaitingOut base t := by
  obtain ⟨d, hd⟩ := hs.inv
  -- the client submits only while it is in user space, where the queue has room
  have hkeeps : KeepsQueue s a := by
    cases a with
    | start count =>
      obtain ⟨hpc, -⟩ := Step.start h
      exact fun _ => hs.notFull (by simp [hpc, ClientPc.Waiting]) (by simp [hpc, ClientPc.Gone])
    | bind env => exact ha.elim
    | _ => trivial
  have hsignal : a ≠ .signal := by
    rintro rfl
    exact ha
  exact ⟨hd.step h hkeeps, hd.notFull hs.notFull h hsignal, hs.sleeping.step h ha,
    hs.irq_step h ha⟩

theorem Bound.waitingOut (hs : s.Bound) (hirq : .irq ∈ s.k.held) :
    WaitingOut s.k.fifo.head s where
  inv := ⟨0, hs.inv⟩
  notFull := hs.submitting.notFull
  sleeping := .of_awake (by simp [hs.pc]) (by simp [hs.pc])
  irq _ _ := hirq

/-! ### What a sleeper sleeps through -/

theorem SleepsEmpty.rest (h : s.SleepsEmpty) (hs : s.Inv base d) :
    Rest base d s.k s.card s.accepted := by
  obtain ⟨caller, hpc⟩ := h
  exact hs.rest (by simp [hpc, AtRest])

theorem SleepsNotFull.rest (h : s.SleepsNotFull) (hs : s.Inv base d) :
    Rest base d s.k s.card s.accepted := hs.rest (by rw [h]; trivial)

/-- While `late_unbind_dma` sleeps, only the card acts. A completion that leaves the queue
not empty takes one submission off it and wakes nobody. -/
theorem SleepsEmpty.step (h : s.SleepsEmpty) (hstep : s.Step a t) (ha : a.WaitsOut)
    (hmore : a.isCompletion = true → s.k.queuedCount ≠ 1) :
    t.SleepsEmpty ∧ t.k.dmaEmpty = s.k.dmaEmpty ∧
      t.k.queuedCount = s.k.queuedCount - completions [a] := by
  obtain ⟨caller, hpc⟩ := h
  have hnotUser : s.pc ≠ .user := by simp [hpc]
  cases a with
  | bind env => exact ha.elim
  | signal => exact ha.elim
  | start count => exact absurd (Step.start hstep).1 hnotUser
  | unbind => exact absurd (Step.unbind hstep).1 hnotUser
  | release => exact absurd (Step.release hstep).1 hnotUser
  | run =>
    have hnone : s.run = none := by
      simp [DmaSys.run, hpc, Kyouko3.lateStep]
    rw [Step, DmaSys.step, hnone] at hstep
    cases hstep
  | exec =>
    obtain ⟨c, -, rfl⟩ := hstep.exec
    exact ⟨⟨caller, hpc⟩, rfl, by simp [completions, DmaAct.isCompletion]⟩
  | intr iflags =>
    obtain ⟨-, ⟨hflag, rfl⟩ | ⟨hflag, -, rfl⟩⟩ := hstep.intr
    · have hone : completions [.intr iflags] = 0 := by
        simp [completions, DmaAct.isCompletion, hflag]
      rw [Kyouko3.dmaIntr_spurious hflag, hone]
      exact ⟨⟨caller, hpc⟩, rfl, by simp⟩
    · have hone : completions [.intr iflags] = 1 := by
        simp [completions, DmaAct.isCompletion, hflag]
      have hne := hmore (by simp [DmaAct.isCompletion, hflag])
      have hempty := Kyouko3.dmaIntr_dmaEmpty (k := s.k) hflag
      rw [if_neg hne] at hempty
      rw [hone]
      refine ⟨⟨caller, ?_⟩, hempty, Kyouko3.dmaIntr_queuedCount hflag⟩
      simp only [hempty]
      exact hpc

theorem completions_cons (a : DmaAct) (as : List DmaAct) :
    completions (a :: as) = completions [a] + completions as := by
  simp [completions, List.countP_cons, Nat.add_comm]

/-- It sleeps through every completion but the last. -/
theorem SleepsEmpty.run (h : Along Step (fun _ a _ => a.WaitsOut) s as t) (hs : s.SleepsEmpty)
    {n : ℕ} (hn : s.k.queuedCount = n) (hlt : completions as < n) :
    t.SleepsEmpty ∧ t.k.dmaEmpty = s.k.dmaEmpty ∧ t.k.queuedCount = n - completions as := by
  -- on the run, with `n` what is queued when the rest of it begins
  induction h generalizing n with
  | nil s =>
    refine ⟨hs, rfl, ?_⟩
    rw [hn]
    simp [completions]
  | @cons s m t a as hstep ha hrest ih =>
    rw [completions_cons] at hlt ⊢
    have hmore : a.isCompletion = true → s.k.queuedCount ≠ 1 := by
      intro hcompletion hone
      have hcount : completions [a] = 1 := by simp [completions, hcompletion]
      omega
    obtain ⟨hasleep, hempty, hcount⟩ := hs.step hstep ha hmore
    have hleft : m.k.queuedCount = ((n - completions [a] : ℕ) : ℤ) := by
      rw [hcount, hn]
      omega
    obtain ⟨hasleep', hempty', hcount'⟩ := ih hasleep hleft (by omega)
    refine ⟨hasleep', hempty'.trans hempty, ?_⟩
    rw [hcount']
    omega

/-! ### What the invariant says of the sleepers -/

theorem WaitingOut.wakes (hs : WaitingOut base s) : Wakes s where
  notFull hasleep := by
    obtain ⟨d, hd⟩ := hs.inv
    have hfull := (hs.sleeping.start _ hasleep).2 rfl
    have hrest := hasleep.rest hd
    refine ⟨hfull, hrest.transferOutstanding (by rw [hfull]; decide), ?_⟩
    intro iflags t hflag hstep
    obtain ⟨-, ⟨hspurious, -⟩ | ⟨-, -, rfl⟩⟩ := hstep.intr
    · exact absurd hspurious hflag
    · constructor
      · simp only [Kyouko3.dmaIntr_queuedCount hflag, hfull]
        decide
      · simp only [Kyouko3.dmaIntr_dmaNotFull hflag, if_pos hfull]
  empty hasleep := by
    obtain ⟨d, hd⟩ := hs.inv
    have hrest := hasleep.rest hd
    have hne : s.k.queuedCount ≠ 0 := by
      obtain ⟨caller, hpc⟩ := hasleep
      exact (hs.sleeping.late caller _ hpc).2 rfl
    have hcount := hrest.queuedCount
    have hle := hrest.completed_le
    refine ⟨s.accepted.length - s.card.completed, by omega, by omega,
      hrest.transferOutstanding hne, ?_, ?_⟩
    · intro as t hrun hlt
      obtain ⟨hasleep', -, hcount'⟩ := hasleep.run hrun (by omega) hlt
      exact ⟨hasleep', hcount'⟩
    · intro as m iflags t hrun hlast hflag hstep
      obtain ⟨-, hempty, hcount'⟩ := hasleep.run hrun
        (n := s.accepted.length - s.card.completed) (by omega) (by omega)
      have hone : m.k.queuedCount = 1 := by omega
      obtain ⟨-, ⟨hspurious, -⟩ | ⟨-, -, rfl⟩⟩ := hstep.intr
      · exact absurd hspurious hflag
      · constructor
        · simp only [Kyouko3.dmaIntr_queuedCount hflag, hone]
          rfl
        · simp only [Kyouko3.dmaIntr_dmaEmpty hflag, if_pos hone, hempty]
  completes hasleep hmapped := by
    obtain ⟨d, hd⟩ := hs.inv
    rcases hasleep with hasleep | hasleep
    · have hfull := (hs.sleeping.start _ hasleep).2 rfl
      have hpc : s.pc = .start (.sleep s.k.dmaNotFull) := hasleep
      have hirq := hs.irq (by simp [hpc, ClientPc.Gone]) hmapped
      exact (hasleep.rest hd).exists_completion (by rw [hfull]; decide) hirq
    · obtain ⟨caller, hpc⟩ := hasleep
      have hirq := hs.irq (by simp [hpc, ClientPc.Gone]) hmapped
      exact (SleepsEmpty.rest ⟨caller, hpc⟩ hd).exists_completion
        ((hs.sleeping.late caller _ hpc).2 rfl) hirq

end DmaSys

/-- No wake-up is lost. After a successful `BIND_DMA`, however submissions, unbinding,
release, the card and its interrupts are interleaved, whoever sleeps is woken by a
completion that is still to come. -/
theorem no_lost_wakeup {s t : DmaSys} {as : List DmaAct} (hs : s.Bound)
    (hirq : .irq ∈ s.k.held) (h : Along DmaSys.Step (fun _ a _ => a.WaitsOut) s as t) :
    Wakes t := by
  have hwaiting := h.invariant (DmaSys.WaitingOut s.k.fifo.head)
    (fun _ _ _ hs hstep ha => hs.step hstep ha) (hs.waitingOut hirq)
  exact hwaiting.wakes

/-- Eight submissions, the last of them waiting for a free buffer. -/
def fillUp : List DmaAct :=
  [.start 4, .run, .run, .run, .run, .run, .run, .start 4, .run, .start 4, .run, .start 4, .run,
    .start 4, .run, .start 4, .run, .start 4, .run, .start 4, .run]

/-- Two submissions, and the wait for both of them to be completed. -/
def submitAndUnbind : List DmaAct :=
  [.start 4, .run, .run, .run, .run, .run, .run, .start 4, .run, .unbind, .run]

theorem no_lost_wakeup_asleep :
    (∃ t, Along DmaSys.Step (fun _ a _ => a.WaitsOut) boundSys fillUp t ∧ t.SleepsNotFull ∧
      Wakes t) ∧
    ∃ t, Along DmaSys.Step (fun _ a _ => a.WaitsOut) boundSys submitAndUnbind t ∧
      t.SleepsEmpty ∧ Wakes t := by
  have hirq : .irq ∈ boundSys.k.held := List.mem_cons_self
  obtain ⟨t, ht, hasleep⟩ : ∃ t, fillUp.foldlM DmaSys.step boundSys = some t ∧ t.SleepsNotFull :=
    ⟨_, rfl, rfl⟩
  obtain ⟨u, hu, hasleep'⟩ : ∃ u, submitAndUnbind.foldlM DmaSys.step boundSys = some u ∧
      u.SleepsEmpty := ⟨_, rfl, _, rfl⟩
  have hfull : ∀ a ∈ fillUp, a.WaitsOut := by simp [fillUp, DmaAct.WaitsOut]
  have hempty : ∀ a ∈ submitAndUnbind, a.WaitsOut := by simp [submitAndUnbind, DmaAct.WaitsOut]
  have hrun := (Path.of_foldlM ht).along hfull
  have hrun' := (Path.of_foldlM hu).along hempty
  exact ⟨⟨t, hrun, hasleep, no_lost_wakeup boundSys_bound hirq hrun⟩,
    u, hrun', hasleep', no_lost_wakeup boundSys_bound hirq hrun'⟩

end OsProjects.Driver
