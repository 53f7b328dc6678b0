import OsProjects.Driver.DmaQueue

/-!
# Sessions keep the queue

Every step of a session keeps the correspondence between the driver and the queue of
submissions, but for two: an accepted `START_DMA` while all eight buffers are in use,
which `fill == drain` mistakes for an empty queue, and a `BIND_DMA` while submissions
are outstanding, which forgets them.

## Main definitions

* `DmaSys.Inv` — the correspondence, wherever the client is
* `KeepsQueue` — the step is not one of the two
* `NotFull` — a buffer is free unless the client waits for one

## Main results

* `DmaSys.Inv.step` — what each step preserves
* `DmaSys.Inv.notFull` — only a signal leaves the client out of its wait with no
  buffer free
-/

namespace OsProjects.Driver

namespace DmaSys

/-- The last submission is the only outstanding one. -/
def Sole (s : DmaSys) : Prop := s.accepted.length = s.card.completed + 1

/-- The last submission is the only outstanding one and has this byte count. -/
def Fresh (s : DmaSys) (count : Int32) : Prop :=
  s.Sole ∧ s.accepted.getLast?.map Submission.count = some count

/-- While the client issues its buffer, nothing of it has been handed to the card and
`written` of its two commands are in the ring. -/
def Issuing (base d written : ℕ) (s : DmaSys) : Prop :=
  Queue base d s.k s.card s.accepted (2 * s.card.completed) (2 * s.card.completed + written)

/-- The correspondence at each point of the client, until it begins to release the
device for good. -/
def Inv (base d : ℕ) (s : DmaSys) : Prop :=
  match s.pc with
  | .start (.fill count) =>
    s.Issuing base d 0 ∧ s.Fresh count ∧ s.k.fill = bufferAt d s.card.completed
  | .start (.address count) =>
    s.Issuing base d 0 ∧ s.Fresh count ∧ s.k.fill = bufferAt d s.accepted.length
  | .start (.config count) =>
    s.Issuing base d 1 ∧ s.Fresh count ∧ s.k.fill = bufferAt d s.accepted.length
  | .start .readHead =>
    s.Issuing base d 2 ∧ s.Sole ∧ s.k.fill = bufferAt d s.accepted.length
  | .start (.writeHead head) =>
    s.Issuing base d 2 ∧ s.Sole ∧ s.k.fill = bufferAt d s.accepted.length ∧
      head = s.k.fifo.head
  | .graphics | .flush | .closed => True
  | _ => Rest base d s.k s.card s.accepted

/-- The states of the client in which it is not issuing. -/
def AtRest : ClientPc → Prop
  | .start (.fill _) | .start (.address _) | .start (.config _) | .start .readHead
  | .start (.writeHead _) | .graphics | .flush | .closed => False
  | _ => True

variable {base d : ℕ} {s t : DmaSys}

/-- Wherever the client is, it is issuing its only outstanding submission, gone, or at
rest. -/
theorem Inv.cases (hs : s.Inv base d) :
    (∃ written, ¬AtRest s.pc ∧ s.Issuing base d written ∧ s.Sole) ∨
      (¬AtRest s.pc ∧ s.pc.Gone) ∨ AtRest s.pc ∧ Rest base d s.k s.card s.accepted := by
  unfold Inv at hs
  split at hs <;> rename_i hpc
  · exact .inl ⟨0, by simp [hpc, AtRest], hs.1, hs.2.1.1⟩
  · exact .inl ⟨0, by simp [hpc, AtRest], hs.1, hs.2.1.1⟩
  · exact .inl ⟨1, by simp [hpc, AtRest], hs.1, hs.2.1.1⟩
  · exact .inl ⟨2, by simp [hpc, AtRest], hs.1, hs.2.1⟩
  · exact .inl ⟨2, by simp [hpc, AtRest], hs.1, hs.2.1⟩
  · exact .inr (.inl (by simp [hpc, AtRest, ClientPc.Gone]))
  · exact .inr (.inl (by simp [hpc, AtRest, ClientPc.Gone]))
  · exact .inr (.inl (by simp [hpc, AtRest, ClientPc.Gone]))
  · refine .inr (.inr ⟨?_, hs⟩)
    unfold AtRest
    split <;> simp_all

/-- Where the client stays, so does the correspondence, if what it says of the queue
does. -/
theorem Inv.map (hs : s.Inv base d) (hpc : t.pc = s.pc) (haccepted : t.accepted = s.accepted)
    (hfill : t.k.fill = s.k.fill) (hhead : t.k.fifo.head = s.k.fifo.head)
    (hissuing : ∀ written, s.Issuing base d written →
      t.Issuing base d written ∧ t.card.completed = s.card.completed)
    (hrest : Rest base d s.k s.card s.accepted → Rest base d t.k t.card t.accepted) :
    t.Inv base d := by
  unfold Inv at hs ⊢
  split at hs <;> rename_i hspc
  · obtain ⟨h, hcompleted⟩ := hissuing _ hs.1
    simpa only [hpc, hspc, Fresh, Sole, haccepted, hfill, hcompleted] using ⟨h, hs.2⟩
  · obtain ⟨h, hcompleted⟩ := hissuing _ hs.1
    simpa only [hpc, hspc, Fresh, Sole, haccepted, hfill, hcompleted] using ⟨h, hs.2⟩
  · obtain ⟨h, hcompleted⟩ := hissuing _ hs.1
    simpa only [hpc, hspc, Fresh, Sole, haccepted, hfill, hcompleted] using ⟨h, hs.2⟩
  · obtain ⟨h, hcompleted⟩ := hissuing _ hs.1
    simpa only [hpc, hspc, Sole, haccepted, hfill, hcompleted] using ⟨h, hs.2⟩
  · obtain ⟨h, hcompleted⟩ := hissuing _ hs.1
    simpa only [hpc, hspc, Sole, haccepted, hfill, hhead, hcompleted] using ⟨h, hs.2⟩
  · simp [hpc, hspc]
  · simp [hpc, hspc]
  · simp [hpc, hspc]
  · simpa [hpc] using hrest hs

/-- Wherever the client is, there is a queue. -/
theorem Inv.queue (hs : s.Inv base d) (h : ¬s.pc.Gone) :
    ∃ handed written, handed ≤ written ∧ Queue base d s.k s.card s.accepted handed written := by
  rcases hs.cases with ⟨written, -, hissuing, -⟩ | ⟨-, hgone⟩ | ⟨-, hrest⟩
  · exact ⟨_, _, Nat.le_add_right _ _, hissuing⟩
  · exact absurd hgone h
  · exact ⟨_, _, le_rfl, hrest.toQueue⟩

/-- The transfers issued are those of the first submissions accepted: of one more than
are completed at most, and of all when all are completed. -/
theorem Inv.issued (hs : s.Inv base d) (hgone : ¬s.pc.Gone) :
    ∃ m, issued s.k s.card = (s.accepted.take m).map Submission.transfer ∧
      m ≤ s.card.completed + 1 ∧
        (s.accepted.length = s.card.completed → s.accepted.length ≤ m) := by
  rcases hs.cases with ⟨written, -, hissuing, hsole⟩ | ⟨-, hgone'⟩ | ⟨-, hrest⟩
  · refine ⟨_, Queue.issued_eq hissuing (Nat.le_add_right _ _), ?_, ?_⟩
    · omega
    · intro hn
      rw [Sole] at hsole
      omega
  · exact absurd hgone' hgone
  · refine ⟨_, hrest.issued_eq le_rfl, ?_, ?_⟩
    · rw [settled]
      omega
    · intro hn
      rw [settled]
      omega

theorem Inv.rest (hs : s.Inv base d) (h : AtRest s.pc) : Rest base d s.k s.card s.accepted := by
  rcases hs.cases with ⟨-, hpc, -⟩ | ⟨hpc, -⟩ | ⟨-, hrest⟩
  · exact absurd h hpc
  · exact absurd h hpc
  · exact hrest

theorem Inv.of_rest (h : Rest base d s.k s.card s.accepted) (hpc : AtRest s.pc) :
    s.Inv base d := by
  unfold Inv
  unfold AtRest at hpc
  split at hpc <;> simp_all

theorem Inv.of_gone (h : s.pc.Gone) : s.Inv base d := by
  unfold Inv
  unfold ClientPc.Gone at h
  split at h <;> simp_all

/-- At rest, the client may be anywhere at rest. -/
theorem Inv.move {pc : ClientPc} {returned : List ℕ} (hs : s.Inv base d) (h : AtRest s.pc)
    (h' : AtRest pc) : Inv base d { s with pc := pc, returned := returned } :=
  Inv.of_rest (hs.rest h) h'

/-- A driver state with the same queue serves as well. -/
theorem Inv.congr {k : Kyouko3} (hs : s.Inv base d) (hk : SameQueue s.k k) :
    Inv base d { s with k := k } := by
  refine hs.map rfl rfl hk.fill (congrArg Fifo.head hk.fifo) ?_ (fun hrest => hrest.congr hk)
  exact fun written hissuing => ⟨Queue.congr hissuing hk, rfl⟩

/-! ### `START_DMA` -/

/-- With a buffer free, the locked section of `start_dma` puts the submission in the
queue. -/
theorem Inv.start {count : Int32} (hs : s.Inv base d) (hpc : s.pc = .user)
    (hroom : Kyouko3.startDmaRefuses count = false → s.k.queuedCount ≠ (dmaNumBuffs : ℤ)) :
    (s.start count).Inv base d := by
  have hrest : Rest base d s.k s.card s.accepted := hs.rest (by simp [hpc, AtRest])
  rcases s.k.startDma_cases count with hcount | ⟨hcount, hfd⟩ | ⟨hcount, hfd⟩
  · rw [start_refused hcount]
    exact hs
  · have hn := hrest.length_eq (hroom hcount) hfd
    rw [start_issue hcount hfd]
    refine ⟨?_, ⟨?_, ?_⟩, ?_⟩
    · exact hrest.start_issue (x := s.submission count) hn rfl rfl
    · simp [Sole, hn]
    · simp [submission]
    · exact hfd.trans hrest.drain
  · have hqueued := hrest.start_queued (hrest.lt_length hfd) (hrest.has_room (hroom hcount))
      (x := s.submission count) rfl rfl
    rw [start_queued hcount hfd]
    apply Inv.of_rest hqueued
    split <;> trivial

/-- The only outstanding submission, to which the commands being written belong. -/
theorem Fresh.getElem {count : Int32} (h : s.Fresh count) :
    ∃ hlt : s.card.completed < s.accepted.length,
      s.accepted[s.card.completed].count = count := by
  obtain ⟨hsole, hlast⟩ := h
  have hlt : s.card.completed < s.accepted.length := by rw [hsole]; exact Nat.lt_succ_self _
  refine ⟨hlt, ?_⟩
  rw [List.getLast?_eq_getElem?, hsole, Nat.add_sub_cancel, List.getElem?_eq_getElem hlt] at hlast
  exact Option.some_inj.mp hlast

/-- Each step of `start_dma` after its locked section. -/
theorem Inv.startStep {pc : StartPc} {r : Kyouko3 × StartPc} (hs : s.Inv base d)
    (hpc : s.pc = .start pc) (h : s.k.startStep pc = some r) :
    Inv base d { s with k := r.1, pc := .start r.2 } := by
  cases pc with
  | fill count =>
    obtain rfl := Option.some_inj.mp h
    simp only [Inv, hpc] at hs
    obtain ⟨hqueue, hfresh, hfill⟩ := hs
    refine ⟨?_, hfresh, ?_⟩
    · exact ⟨hqueue.channel, hqueue.log, hqueue.completed_le, hqueue.live, hqueue.done,
        hqueue.queuedCount, hqueue.drain, hqueue.buffer, hqueue.stored⟩
    · simp [hfill, hfresh.1.symm]
  | address count =>
    obtain rfl := Option.some_inj.mp h
    simp only [Inv, hpc] at hs
    obtain ⟨hqueue, hfresh, hfill⟩ := hs
    obtain ⟨hlt, -⟩ := hfresh.getElem
    have haddress : (s.k.dmaBuffers s.k.drain).pBase = s.accepted[s.card.completed].address := by
      rw [hqueue.drain, (hqueue.buffer _ hlt le_rfl).2]
    refine ⟨?_, hfresh, hfill⟩
    rw [haddress]
    exact hqueue.fifoWrite (commands_take_address hlt) (by simp only [fifoEntries]; omega)
  | config count =>
    obtain rfl := Option.some_inj.mp h
    simp only [Inv, hpc] at hs
    obtain ⟨hqueue, hfresh, hfill⟩ := hs
    obtain ⟨hlt, rfl⟩ := hfresh.getElem
    refine ⟨?_, hfresh.1, hfill⟩
    exact hqueue.fifoWrite (commands_take_config hlt) (by simp only [fifoEntries]; omega)
  | readHead =>
    obtain rfl := Option.some_inj.mp h
    simp only [Inv, hpc] at hs
    exact ⟨hs.1, hs.2.1, hs.2.2, rfl⟩
  | writeHead head =>
    obtain rfl := Option.some_inj.mp h
    simp only [Inv, hpc] at hs
    obtain ⟨hqueue, hsole, hfill, rfl⟩ := hs
    -- both commands of the submission are written, so publishing them settles it
    have hsettled : settled s.card s.accepted = 2 * s.card.completed + 2 := by
      rw [settled, hsole, Nat.min_self]
      ring
    have hpub := hqueue.publish (by rw [hsole]; omega)
    rw [← hsettled] at hpub
    exact Inv.of_rest ⟨hpub, hfill⟩ trivial
  | wait =>
    simp only [Kyouko3.startStep] at h
    split at h <;> obtain rfl := Option.some_inj.mp h
    · exact hs.move (by simp [hpc, AtRest]) trivial
    · exact hs.move (by simp [hpc, AtRest]) trivial
  | sleep since =>
    simp only [Kyouko3.startStep] at h
    split at h
    · obtain rfl := Option.some_inj.mp h
      exact hs.move (by simp [hpc, AtRest]) trivial
    · simp at h
  | ret => simp [Kyouko3.startStep] at h

/-! ### The other steps -/

theorem sameQueue_kWriteRegister {k : Kyouko3} {reg value : ℕ} (h : fifoHead >>> 2 ≠ reg >>> 2) :
    SameQueue k (k.kWriteRegister reg value) :=
  ⟨rfl, k.register_kWriteRegister_of_ne h, rfl, rfl, rfl, rfl⟩

theorem sameQueue_lateUnbindDma (k : Kyouko3) : SameQueue k k.lateUnbindDma := by
  have hwrite : SameQueue k (k.kWriteRegister configInterrupt 0x0) :=
    sameQueue_kWriteRegister (by decide)
  obtain ⟨held, h⟩ := k.lateUnbindDma_eq
  rw [h]
  exact ⟨rfl, hwrite.fifoHead, rfl, rfl, rfl, rfl⟩

/-- Each step of the client inside the driver. -/
theorem Inv.run (hs : s.Inv base d) (h : s.Step .run t) : t.Inv base d := by
  rcases h.run with ⟨pc, r, hpc, hr, rfl⟩ | ⟨hpc, rfl⟩ | ⟨caller, pc, pc', hpc, -, rfl⟩ |
    ⟨caller, hpc, rfl⟩ | ⟨-, hgone, -⟩
  · exact hs.startStep hpc hr
  · exact hs.move (by simp [hpc, AtRest]) trivial
  · exact hs.move (by simp [hpc, AtRest]) trivial
  · cases caller with
    | unbind =>
      have hfree := hs.congr (sameQueue_lateUnbindDma s.k)
      exact hfree.move (by simp [hpc, AtRest]) trivial
    | release => exact Inv.of_gone trivial
  · exact Inv.of_gone hgone

theorem Inv.signal (hs : s.Inv base d) (h : s.Step .signal t) : t.Inv base d := by
  rcases h.signal with ⟨hpc, rfl⟩ | ⟨caller, hpc, rfl⟩
  · refine hs.move ?_ trivial
    rcases hpc with hpc | ⟨since, hpc⟩ <;> simp [hpc, AtRest]
  · refine hs.move ?_ trivial
    rcases hpc with hpc | ⟨since, hpc⟩ <;> simp [hpc, AtRest]

theorem Issuing.exec {written : ℕ} {c : Card} (h : s.Issuing base d written)
    (hc : s.card.exec s.k = some c) :
    Issuing base d written { s with card := c } ∧ c.completed = s.card.completed := by
  obtain ⟨hqueue, hcompleted⟩ := Queue.exec h hc
  rw [← hcompleted] at hqueue
  exact ⟨hqueue, hcompleted⟩

/-- The card may execute whatever has been handed to it. -/
theorem Inv.exec (hs : s.Inv base d) (h : s.Step .exec t) : t.Inv base d := by
  obtain ⟨c, hc, rfl⟩ := h.exec
  refine hs.map rfl rfl rfl rfl ?_ (fun hrest => hrest.exec hc)
  exact fun written hissuing => hissuing.exec hc

/-- While the client issues its buffer the card has nothing to complete. -/
theorem Issuing.not_started {written : ℕ} (h : s.Issuing base d written) :
    ¬ s.card.completed < (transfers s.card.executed).length := by
  intro hlt
  have hhanded := (Queue.of_started h hlt).2.2
  omega

/-- A completion comes only while the client is not issuing. -/
theorem Inv.atRest_of_started (hs : s.Inv base d) (hgone : ¬s.pc.Gone)
    (h : s.card.completed < (transfers s.card.executed).length) : AtRest s.pc := by
  rcases hs.cases with ⟨written, -, hissuing, -⟩ | ⟨-, hgone'⟩ | ⟨hrest, -⟩
  · exact absurd h hissuing.not_started
  · exact absurd hgone' hgone
  · exact hrest

theorem Inv.intr {iflags : ℕ} (hs : s.Inv base d) (h : s.Step (.intr iflags) t) :
    t.Inv base d := by
  obtain ⟨-, ⟨hflag, rfl⟩ | ⟨hflag, hstarted, rfl⟩⟩ := h.intr
  · apply hs.congr
    rw [Kyouko3.dmaIntr_spurious hflag]
    exact sameQueue_kWriteRegister (by decide)
  · by_cases hgone : s.pc.Gone
    · exact Inv.of_gone hgone
    · have hrest := hs.atRest_of_started hgone hstarted
      exact Inv.of_rest ((hs.rest hrest).completion hflag hstarted) hrest

/-- With nothing outstanding, `BIND_DMA` starts the ring of buffers over. -/
theorem Inv.bind {env : BindEnv} (hs : s.Inv base d) (hpc : s.pc = .user)
    (hidle : s.k.dmaMapped = false → s.accepted.length = s.card.completed) :
    ∃ d', (s.bind env).Inv base d' := by
  have hrest : Rest base d s.k s.card s.accepted := hs.rest (by simp [hpc, AtRest])
  rcases s.k.bindDma_cases env with hrefused | ⟨hmapped, hmsi, hirq⟩
  · refine ⟨d, ?_⟩
    unfold DmaSys.bind
    rw [hrefused]
    exact hs
  · obtain ⟨buffers, held, hloop⟩ := Kyouko3.foldl_bindBuffer ((s.k.acquire .msi).acquire .irq)
      env (List.finRange dmaNumBuffs)
    obtain ⟨d', hd'⟩ := exists_bufferAt_eq_zero s.card.completed
    refine ⟨d', Inv.of_rest ?_ (by simp [DmaSys.bind, hpc, AtRest])⟩
    simp only [DmaSys.bind, Kyouko3.bindDma_accepted hmapped hmsi hirq, hloop]
    exact hrest.rebase (hidle hmapped) rfl (Kyouko3.register_kWriteRegister_of_ne _ (by decide))
      hd'.symm rfl rfl

end DmaSys

/-- The step is neither an accepted `START_DMA` while all eight buffers are in use nor
a `BIND_DMA` while submissions are outstanding. -/
def KeepsQueue (s : DmaSys) (a : DmaAct) : Prop :=
  match a with
  | .start count =>
    Kyouko3.startDmaRefuses count = false → s.k.queuedCount ≠ (dmaNumBuffs : ℤ)
  | .bind _ => s.k.dmaMapped = false → s.accepted.length = s.card.completed
  | _ => True

/-- **What a step preserves.** -/
theorem DmaSys.Inv.step {base d : ℕ} {s t : DmaSys} {a : DmaAct} (hs : s.Inv base d)
    (h : s.Step a t) (hkeeps : KeepsQueue s a) : ∃ d', t.Inv base d' := by
  cases a with
  | bind env =>
    obtain ⟨hpc, rfl⟩ := Step.bind h
    exact hs.bind hpc hkeeps
  | start count =>
    obtain ⟨hpc, rfl⟩ := Step.start h
    exact ⟨d, hs.start hpc hkeeps⟩
  | unbind =>
    obtain ⟨hpc, ⟨-, rfl⟩ | ⟨-, rfl⟩⟩ := Step.unbind h
    · exact ⟨d, hs.move (by simp [hpc, AtRest]) trivial⟩
    · exact ⟨d, hs⟩
  | release =>
    obtain ⟨hpc, ⟨-, rfl⟩ | ⟨-, rfl⟩⟩ := Step.release h
    · exact ⟨d, hs.move (by simp [hpc, AtRest]) trivial⟩
    · exact ⟨d, Inv.of_gone trivial⟩
  | run => exact ⟨d, hs.run h⟩
  | signal => exact ⟨d, hs.signal h⟩
  | exec => exact ⟨d, hs.exec h⟩
  | intr iflags => exact ⟨d, hs.intr h⟩

/-! ### Waits that end on their condition

Without signals `start_dma` leaves its wait only when a buffer is free, so that the
queue is never full but while the client waits. -/

/-- Unless the client waits for a free buffer, there is one. -/
def NotFull (s : DmaSys) : Prop :=
  ¬s.pc.Waiting → ¬s.pc.Gone → s.k.queuedCount ≠ (dmaNumBuffs : ℤ)

namespace DmaSys

variable {base d : ℕ} {s t : DmaSys}

/-- Unless the submission makes the queue full, and the client wait, a buffer is left
after it. -/
theorem Inv.notFull_start {count : Int32} (hs : s.Inv base d) (hpc : s.pc = .user)
    (hfree : NotFull s) : NotFull (s.start count) := by
  have hrest : Rest base d s.k s.card s.accepted := hs.rest (by simp [hpc, AtRest])
  have hq := hrest.queuedCount
  have hfree' := hfree (by simp [hpc, ClientPc.Waiting]) (by simp [hpc, ClientPc.Gone])
  rcases s.k.startDma_cases count with hcount | ⟨hcount, hfd⟩ | ⟨hcount, hfd⟩
  · rw [start_refused hcount]
    exact hfree
  · have hn := hrest.length_eq hfree' hfd
    rw [start_issue hcount hfd]
    intro _ _
    simp only [hq, hn, sub_self]
    decide
  · rw [start_queued hcount hfd]
    intro hwait _ hfull
    apply hwait
    -- the last free buffer has been taken, so that `fill` is at `drain` again
    have hlast : s.accepted.length + 1 = s.card.completed + dmaNumBuffs := by
      simp only [hq] at hfull
      omega
    have hnext : nextBuffer s.k.fill = s.k.drain := by
      rw [hrest.fill, hrest.drain, nextBuffer_bufferAt, hlast, bufferAt_add]
    simp [hnext, ClientPc.Waiting]

/-- A thread leaves the wait of `start_dma` only when a buffer is free. -/
theorem startStep_leaves {k : Kyouko3} {pc : StartPc} {r : Kyouko3 × StartPc}
    (h : k.startStep pc = some r) (hwait : ¬(ClientPc.start r.2).Waiting) :
    ¬(ClientPc.start pc).Waiting ∨ k.queuedCount ≠ (dmaNumBuffs : ℤ) := by
  cases pc with
  | wait =>
    simp only [Kyouko3.startStep] at h
    split at h
    · exact .inr ‹_›
    · cases h
      exact absurd trivial hwait
  | sleep since =>
    simp only [Kyouko3.startStep] at h
    split at h
    · cases h
      exact absurd trivial hwait
    · cases h
  | _ => exact .inl (by simp [ClientPc.Waiting])

theorem notFull_run (hfree : NotFull s) (h : s.Step .run t) : NotFull t := by
  rcases h.run with ⟨pc, r, hpc, hr, rfl⟩ | ⟨hpc, rfl⟩ | ⟨caller, pc, pc', hpc, -, rfl⟩ |
    ⟨caller, hpc, rfl⟩ | ⟨-, hgone, -⟩
  · intro hwait _
    simp only [(Kyouko3.startStep_frame hr).1]
    rcases startStep_leaves hr hwait with hpc' | hq
    · exact hfree (by rwa [hpc]) (by simp [hpc, ClientPc.Gone])
    · exact hq
  · exact fun _ _ => hfree (by simp [hpc, ClientPc.Waiting]) (by simp [hpc, ClientPc.Gone])
  · exact fun _ _ => hfree (by simp [hpc, ClientPc.Waiting]) (by simp [hpc, ClientPc.Gone])
  · obtain ⟨held, hlate⟩ := s.k.lateUnbindDma_eq
    intro _ _
    simp only [hlate]
    exact hfree (by simp [hpc, ClientPc.Waiting]) (by simp [hpc, ClientPc.Gone])
  · exact fun _ h => absurd hgone h

/-- A completion frees a buffer. -/
theorem Inv.notFull_intr {iflags : ℕ} (hs : s.Inv base d) (hfree : NotFull s)
    (h : s.Step (.intr iflags) t) : NotFull t := by
  obtain ⟨-, ⟨hflag, rfl⟩ | ⟨hflag, -, rfl⟩⟩ := h.intr
  · intro hwait hgone
    simp only [Kyouko3.dmaIntr_spurious hflag]
    exact hfree hwait hgone
  · intro _ hgone
    obtain ⟨handed, written, -, hqueue⟩ := hs.queue hgone
    have hmem := hqueue.queuedCount_mem
    simp only [Kyouko3.dmaIntr_queuedCount hflag]
    omega

/-- Every step but a signal leaves a buffer free unless the client waits for one. -/
theorem Inv.notFull {a : DmaAct} (hs : s.Inv base d) (hfree : NotFull s) (h : s.Step a t)
    (hsignal : a ≠ .signal) : NotFull t := by
  cases a with
  | bind env =>
    obtain ⟨hpc, rfl⟩ := Step.bind h
    intro hwait hgone
    rcases s.k.bindDma_cases env with hrefused | ⟨hmapped, hmsi, hirq⟩
    · simp only [DmaSys.bind, hrefused]
      exact hfree hwait hgone
    · simp only [DmaSys.bind, Kyouko3.bindDma_accepted hmapped hmsi hirq]
      exact show (0 : ℤ) ≠ (dmaNumBuffs : ℤ) by decide
  | start count =>
    obtain ⟨hpc, rfl⟩ := Step.start h
    exact hs.notFull_start hpc hfree
  | unbind =>
    obtain ⟨hpc, hunbind⟩ := Step.unbind h
    have hq := hfree (by simp [hpc, ClientPc.Waiting]) (by simp [hpc, ClientPc.Gone])
    rcases hunbind with ⟨-, rfl⟩ | ⟨-, rfl⟩
    · exact fun _ _ => hq
    · exact fun _ _ => hq
  | release =>
    obtain ⟨hpc, hrelease⟩ := Step.release h
    have hq := hfree (by simp [hpc, ClientPc.Waiting]) (by simp [hpc, ClientPc.Gone])
    rcases hrelease with ⟨-, rfl⟩ | ⟨-, rfl⟩
    · exact fun _ _ => hq
    · exact fun _ _ => hq
  | run => exact notFull_run hfree h
  | signal => exact absurd rfl hsignal
  | exec =>
    obtain ⟨c, -, rfl⟩ := h.exec
    exact hfree
  | intr iflags => exact hs.notFull_intr hfree h

end DmaSys

end OsProjects.Driver
