import OsProjects.Driver.SessionInv

/-!
# Taking DMA down

`UNBIND_DMA` and the release of the device both end in `late_unbind_dma`, which waits
for the queue to drain and then frees the buffers and the interrupt. Whether the card
is done by then depends on the wait being left on its condition, and on the queue's
count being that of the submissions outstanding.

## Main definitions

* `FreesIdle` — when the buffers are freed, the card is done with them
* `Orderly` — submissions go to a bound queue with a buffer free, and no signal ends
  the wait for an empty queue early

## Main results

* `frees_idle` — along every run of orderly steps the buffers are freed only when the
  card is done with them
-/

namespace OsProjects.Driver

open Run

/-- The submissions of an idle queue: none. As when the module is loaded. -/
structure Kyouko3.Idle (k : Kyouko3) : Prop where
  fill : k.fill = k.drain
  queuedCount : k.queuedCount = 0

theorem Kyouko3.zero_idle : Kyouko3.zero.Idle := ⟨rfl, rfl⟩

/-- If `late_unbind_dma` frees the buffers in this step, no accepted submission is
queued or being transferred, and the card has completed every transfer it was issued. -/
def FreesIdle (s : DmaSys) (a : DmaAct) : Prop :=
  ∀ caller, s.pc = .late caller .free → a = .run →
    s.outstanding = [] ∧ (issued s.k s.card).length = s.card.completed

/-- An accepted `START_DMA` finds DMA bound and a buffer free, and a signal ends the
wait of `late_unbind_dma` only when the queue is empty. -/
def Orderly (s : DmaSys) (a : DmaAct) : Prop :=
  match a with
  | .start count => Kyouko3.startDmaRefuses count = false →
    s.k.dmaMapped = true ∧ s.k.queuedCount ≠ (dmaNumBuffs : ℤ)
  | .signal => (∃ caller pc, s.pc = .late caller pc) → s.k.queuedCount = 0
  | _ => True

namespace DmaSys

variable {base d : ℕ} {s t : DmaSys}

/-- At each point of the client: whether DMA is bound, and where the queue is known to
be empty. -/
def Settled (s : DmaSys) : Prop :=
  match s.pc with
  | .user => s.k.dmaMapped = false → s.accepted.length = s.card.completed
  | .start _ => s.k.dmaMapped = true
  | .late _ .free => s.k.dmaMapped = true ∧ s.accepted.length = s.card.completed
  | .late _ _ => s.k.dmaMapped = true
  | .graphics | .flush | .closed => True

/-- What holds along a run of orderly steps. -/
structure Tidy (base : ℕ) (s : DmaSys) : Prop where
  inv : ∃ d, s.Inv base d
  settled : s.Settled

theorem inv_opened {k : Kyouko3} {env : OpenEnv} (hk : k.Idle)
    (hstart : env.control (fifoHead >>> 2) = 0) : (opened k env).Inv 0 k.drain := by
  have hd : k.drain = bufferAt k.drain 0 := Fin.ext (Nat.mod_eq_of_lt k.drain.isLt).symm
  refine Inv.of_rest ⟨⟨?_, rfl, le_rfl, Nat.zero_le _, le_rfl, hk.queuedCount, hd, nofun, nofun⟩,
    hk.fill.trans hd⟩ trivial
  have hhead : (opened k env).k.register fifoHead = 0 := hstart
  rw [hhead]
  have hlt : (0 : ℕ) < fifoEntries := by decide
  exact Channel.drained (opened k env).k.fifo (opened k env).card hlt rfl rfl rfl

theorem tidy_opened {k : Kyouko3} {env : OpenEnv} (hk : k.Idle)
    (hstart : env.control (fifoHead >>> 2) = 0) : Tidy 0 (opened k env) :=
  ⟨⟨_, inv_opened hk hstart⟩, fun _ => rfl⟩

/-- Orderly steps keep the queue. -/
theorem Tidy.keepsQueue {a : DmaAct} (hs : Tidy base s) (h : s.Step a t) (ha : Orderly s a) :
    KeepsQueue s a := by
  cases a with
  | start count => exact fun hcount => (ha hcount).2
  | bind env =>
    obtain ⟨hpc, -⟩ := Step.bind h
    have hsettled := hs.settled
    rw [Settled, hpc] at hsettled
    exact hsettled
  | _ => trivial

/-- Nothing is asked of a session whose client is gone. -/
theorem settled_of_gone (h : s.pc.Gone) : s.Settled := by
  unfold Settled
  unfold ClientPc.Gone at h
  split at h <;> simp_all

/-- The submission being transferred is why DMA is still bound. -/
theorem Tidy.mapped_of_started (hs : Tidy base s) (hgone : ¬s.pc.Gone)
    (h : s.card.completed < (transfers s.card.executed).length) :
    s.k.dmaMapped = true ∧ ∀ caller, s.pc ≠ .late caller .free := by
  obtain ⟨d, hd⟩ := hs.inv
  obtain ⟨handed, written, -, hqueue⟩ := hd.queue hgone
  have hlt := (hqueue.of_started h).1
  have hsettled := hs.settled
  unfold Settled at hsettled
  split at hsettled
  · rename_i hpc
    refine ⟨?_, by simp [hpc]⟩
    by_contra hmapped
    have hn := hsettled (by simpa using hmapped)
    omega
  · rename_i hpc
    exact ⟨hsettled, by simp [hpc]⟩
  · have hn := hsettled.2
    omega
  · rename_i hpc hne
    exact ⟨hsettled, fun caller hfree => by simp_all⟩
  · exact absurd (by simp [*, ClientPc.Gone]) hgone
  · exact absurd (by simp [*, ClientPc.Gone]) hgone
  · exact absurd (by simp [*, ClientPc.Gone]) hgone

theorem Tidy.run (hs : Tidy base s) (h : s.Step .run t) : t.Settled := by
  obtain ⟨d, hd⟩ := hs.inv
  have hsettled := hs.settled
  rcases h.run with ⟨pc, r, hpc, hr, rfl⟩ | ⟨hpc, rfl⟩ | ⟨caller, pc, pc', hpc, hstep, rfl⟩ |
    ⟨caller, hpc, rfl⟩ | ⟨-, hgone, -⟩
  · simp only [Settled, hpc] at hsettled
    exact (Kyouko3.startStep_frame hr).2.2.2.1.trans hsettled
  · simp only [Settled, hpc] at hsettled
    exact fun hmapped => absurd (hsettled.symm.trans hmapped) (by decide)
  · have hrest : Rest base d s.k s.card s.accepted := hd.rest (by simp [hpc, AtRest])
    cases pc with
    | wait =>
      simp only [Settled, hpc] at hsettled
      simp only [Kyouko3.lateStep] at hstep
      split at hstep <;> cases hstep
      · refine ⟨hsettled, ?_⟩
        have hq := hrest.queuedCount
        have hle := hrest.completed_le
        simp only
        omega
      · exact hsettled
    | sleep since =>
      simp only [Settled, hpc] at hsettled
      simp only [Kyouko3.lateStep] at hstep
      split at hstep <;> cases hstep
      exact hsettled
    | free => cases hstep
  · simp only [Settled, hpc] at hsettled
    cases caller with
    | unbind => exact fun _ => hsettled.2
    | release => trivial
  · exact settled_of_gone hgone

/-- Every orderly step keeps the session tidy. -/
theorem Tidy.step {a : DmaAct} (hs : Tidy base s) (h : s.Step a t) (ha : Orderly s a) :
    Tidy base t := by
  obtain ⟨d, hd⟩ := hs.inv
  have hinv := hd.step h (hs.keepsQueue h ha)
  have hsettled := hs.settled
  refine ⟨hinv, ?_⟩
  cases a with
  | bind env =>
    obtain ⟨hpc, rfl⟩ := Step.bind h
    simp only [Settled, hpc] at hsettled
    rcases s.k.bindDma_cases env with hrefused | ⟨hmapped, hmsi, hirq⟩
    · simpa only [Settled, DmaSys.bind, hpc, hrefused] using hsettled
    · simp [Settled, DmaSys.bind, hpc, Kyouko3.bindDma_accepted hmapped hmsi hirq]
  | start count =>
    obtain ⟨hpc, rfl⟩ := Step.start h
    rcases s.k.startDma_cases count with hcount | ⟨hcount, hfd⟩ | ⟨hcount, hfd⟩
    · rwa [start_refused hcount]
    · rw [start_issue hcount hfd]
      exact (ha hcount).1
    · rw [start_queued hcount hfd]
      exact (ha hcount).1
  | unbind =>
    obtain ⟨-, ⟨hmapped, rfl⟩ | ⟨-, rfl⟩⟩ := Step.unbind h
    · exact hmapped
    · exact hsettled
  | release =>
    obtain ⟨-, ⟨hmapped, rfl⟩ | ⟨-, rfl⟩⟩ := Step.release h
    · exact hmapped
    · trivial
  | run => exact hs.run h
  | signal =>
    rcases h.signal with ⟨hpc, rfl⟩ | ⟨caller, hpc, rfl⟩
    · rcases hpc with hpc | ⟨since, hpc⟩ <;> simpa only [Settled, hpc] using hsettled
    · have hlate : ∃ caller pc, s.pc = .late caller pc := by
        rcases hpc with hpc | ⟨since, hpc⟩
        · exact ⟨_, _, hpc⟩
        · exact ⟨_, _, hpc⟩
      have hmapped : s.k.dmaMapped = true := by
        rcases hpc with hpc | ⟨since, hpc⟩ <;> simpa only [Settled, hpc] using hsettled
      have hq := ha hlate
      obtain ⟨caller', pc', hpc'⟩ := hlate
      have hrest : Rest base d s.k s.card s.accepted := hd.rest (by simp [hpc', AtRest])
      have hle := hrest.completed_le
      rw [hrest.queuedCount] at hq
      refine ⟨hmapped, ?_⟩
      simp only
      omega
  | exec =>
    obtain ⟨c, hc, rfl⟩ := h.exec
    obtain ⟨-, rfl⟩ := Card.exec_eq_some_iff.mp hc
    exact hsettled
  | intr iflags =>
    obtain ⟨-, ⟨-, rfl⟩ | ⟨-, hstarted, rfl⟩⟩ := h.intr
    · simpa only [Settled, Kyouko3.dmaIntr_dmaMapped] using hsettled
    · -- what completes was started, so DMA is bound until the buffers are freed
      by_cases hgone : s.pc.Gone
      · exact settled_of_gone hgone
      · obtain ⟨hmapped, hfree⟩ := hs.mapped_of_started hgone hstarted
        unfold Settled at hsettled ⊢
        split at hsettled <;> simp_all

/-- When the buffers are freed, the card has completed what it was issued. -/
theorem Tidy.freesIdle {a : DmaAct} (hs : Tidy base s) : FreesIdle s a := by
  intro caller hpc _
  obtain ⟨d, hd⟩ := hs.inv
  have hsettled := hs.settled
  rw [Settled, hpc] at hsettled
  have hn := hsettled.2
  obtain ⟨m, hissued, -, hall⟩ := hd.issued (by simp [hpc, ClientPc.Gone])
  refine ⟨?_, ?_⟩
  · rw [outstanding, hn.symm, List.drop_length]
  · rw [hissued, List.length_map, List.length_take]
    have hle := hall hn
    omega

end DmaSys

/-- **Buffers are freed when the card is done with them.** Along every run from the
opening of the device, whatever the client calls and whenever completions and signals
arrive: if submissions are made only while DMA is bound and a buffer is free, and
signals end the wait for an empty queue only when it is empty, then whenever
`late_unbind_dma` frees the buffers nothing accepted is outstanding. -/
theorem frees_idle (k : Kyouko3) (env : OpenEnv) (hk : k.Idle)
    (hstart : env.control (fifoHead >>> 2) = 0) (as : List DmaAct) (t : DmaSys)
    (h : Along DmaSys.Step (fun s a _ => Orderly s a) (DmaSys.opened k env) as t) :
    Along DmaSys.Step (fun s a _ => FreesIdle s a) (DmaSys.opened k env) as t :=
  h.imp_of_invariant (DmaSys.Tidy 0) (fun _ _ _ hs h ha => hs.step h ha)
    (fun _ _ _ hs _ _ => hs.freesIdle) (DmaSys.tidy_opened hk hstart)

/-- One buffer bound, submitted and waited for. -/
theorem frees_idle_one :
    ∃ t, Along DmaSys.Step (fun s a _ => FreesIdle s a) (DmaSys.opened .zero zeroOpenEnv)
      [.bind grantingBindEnv, .start 4, .run, .run, .run, .run, .run, .run, .unbind, .run, .exec,
        .exec, .intr 2, .run, .run, .run] t :=
  ⟨_, frees_idle .zero zeroOpenEnv Kyouko3.zero_idle rfl _ _ <|
    .cons rfl trivial <| .cons rfl (fun _ => by decide) <| .cons rfl trivial <|
    .cons rfl trivial <| .cons rfl trivial <| .cons rfl trivial <| .cons rfl trivial <|
    .cons rfl trivial <| .cons rfl trivial <| .cons rfl trivial <| .cons rfl trivial <|
    .cons rfl trivial <| .cons rfl trivial <| .cons rfl trivial <| .cons rfl trivial <|
    .cons rfl trivial <| .nil _⟩

/-- One buffer submitted, and the wait for it ended by a signal. -/
def unbindAndSignal : List DmaAct :=
  [.bind grantingBindEnv, .start 4, .run, .run, .run, .run, .run, .run, .unbind, .run, .signal]

/-- The signal makes `late_unbind_dma` free the buffers while the card has yet to
transfer the first one. -/
theorem signal_frees_busy_buffer :
    ∃ s t, Path DmaSys.Step (DmaSys.opened .zero zeroOpenEnv) unbindAndSignal s ∧
      s.Step .run t ∧ ¬FreesIdle s .run := by
  obtain ⟨s, hs, hpc, hbusy, t, ht⟩ : ∃ s,
      unbindAndSignal.foldlM DmaSys.step (DmaSys.opened .zero zeroOpenEnv) = some s ∧
        s.pc = .late .unbind .free ∧ s.outstanding.length = 1 ∧ ∃ t, s.Step .run t :=
    ⟨_, rfl, rfl, rfl, _, rfl⟩
  refine ⟨s, t, Path.of_foldlM hs, ht, fun hfrees => ?_⟩
  rw [(hfrees .unbind hpc rfl).1] at hbusy
  exact absurd hbusy (by decide)

end OsProjects.Driver
