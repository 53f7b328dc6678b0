import OsProjects.Driver.Delivery

/-!
# Several threads submit

The threads of a client may call `START_DMA` at the same time. What the spin lock is
there for is that no two of them, and no interrupt, are between taking it and letting go
of it at once, so here the locked section is one step. Behind it each thread goes its own
way: the one that found the queue empty advances `fill` and issues its buffer, the one
that made it full waits, the others return.

`fill` is advanced inside the locked section for a buffer that is queued, and after it for
one that is issued. A thread that enters in between takes the queue for empty as well; and
so does one that enters while all buffers are in use. Kept from both, any number of
threads keep the queue.

## Main definitions

* `ThreadSys`, `ThreadSys.step` — the threads, the driver and the card
* `Consistent` — what is asked of a state with no thread inside `start_dma`
* `EntersClear` — a call is not accepted in either of the two situations

## Main results

* `threads_consistent` — in every run whose calls are accepted in the clear
* `two_transfers_outstanding` — two threads that enter one after the other
-/

namespace OsProjects.Driver

open Run

/-! ### The system -/

/-- The driver, the card and the threads: `pcs i` is where thread `i` is inside
`start_dma`, if it is. `accepted` and `returned` are history: the accepted submissions in
the order of their locked sections, and what the calls have returned to whom. -/
structure ThreadSys (ι : Type) where
  k : Kyouko3
  card : Card
  pcs : ι → Option StartPc
  accepted : List Submission
  returned : List (ι × ℕ)

/-- A thread calls `START_DMA` or takes its next step, or the card executes an entry or
interrupts. -/
inductive ThreadAct (ι : Type)
  | start (i : ι) (count : Int32)
  | run (i : ι)
  | exec
  | intr (iflags : ℕ)

namespace ThreadSys

variable {ι : Type} [DecidableEq ι]

/-- The submission that an accepted `START_DMA` makes in this state. -/
def submission (s : ThreadSys ι) (count : Int32) : Submission :=
  ⟨s.k.fill, (s.k.dmaBuffers s.k.fill).pBase, (s.k.dmaBuffers s.k.fill).uBase, count⟩

/-- `START_DMA` of a thread up to the end of the locked section. -/
def start (s : ThreadSys ι) (i : ι) (count : Int32) : ThreadSys ι :=
  if Kyouko3.startDmaRefuses count then s
  else
    -- the whole section under the spin lock, in which `fill` may or may not be advanced
    let r := s.k.startDmaLocked count
    { s with
      k := r.2
      pcs := Function.update s.pcs i (some (r.1.pc count))
      accepted := s.accepted ++ [s.submission count] }

/-- The next step of a thread inside `start_dma`, if it can take one. -/
def run (s : ThreadSys ι) (i : ι) : Option (ThreadSys ι) :=
  match s.pcs i with
  | none => none
  | some .ret => some { s with
      pcs := Function.update s.pcs i none
      returned := s.returned ++ [(i, (s.k.dmaBuffers s.k.fill).uBase)] }
  | some pc => (s.k.startStep pc).map fun r => { s with
      k := r.1, pcs := Function.update s.pcs i (some r.2) }

/-- The card interrupts, for a completion only when it has completed one more transfer. -/
def intr (s : ThreadSys ι) (iflags : ℕ) : Option (ThreadSys ι) :=
  -- a spurious interrupt can come at any time
  if iflags &&& 0x02 = 0 then some { s with k := (s.k.dmaIntr iflags).2 }
  else if s.card.completed < (transfers s.card.executed).length then some { s with
    k := (s.k.dmaIntr iflags).2, card := { s.card with completed := s.card.completed + 1 } }
  else none

/-- The effect of an action, if it is possible. -/
def step (s : ThreadSys ι) : ThreadAct ι → Option (ThreadSys ι)
  | .start i count => if (s.pcs i).isNone then some (s.start i count) else none
  | .run i => s.run i
  | .exec => (s.card.exec s.k).map fun c => { s with card := c }
  | .intr iflags => s.intr iflags

def Step (s : ThreadSys ι) (a : ThreadAct ι) (t : ThreadSys ι) : Prop := s.step a = some t

end ThreadSys

/-- The threads of a client that has bound its buffers, all outside the driver. -/
def DmaSys.threads (s : DmaSys) (ι : Type) : ThreadSys ι where
  k := s.k
  card := s.card
  pcs _ := none
  accepted := s.accepted
  returned := []

/-! ### What is asked of the driver -/

/-- The submissions that the handler has yet to issue: all in the queue but the first,
which is with the card. -/
def Kyouko3.waiting (k : Kyouko3) : ℕ := (k.queuedCount - 1).toNat

/-- The ring and its count agree, at most one transfer is outstanding, and every accepted
submission has been issued once or waits in the queue. -/
structure Consistent {ι : Type} (s : ThreadSys ι) : Prop where
  queuedCount : 0 ≤ s.k.queuedCount ∧ s.k.queuedCount ≤ (dmaNumBuffs : ℤ)
  fill : ((s.k.fill : ℕ) : ℤ) = ((s.k.drain : ℕ) + s.k.queuedCount) % (dmaNumBuffs : ℤ)
  outstanding : (issued s.k s.card).length ≤ s.card.completed + 1
  issued : (issued s.k s.card).length + s.k.waiting = s.accepted.length

/-- A call is accepted only while no thread has yet to advance `fill` for a buffer that
it issues, and not all buffers are in use. -/
def EntersClear {ι : Type} (s : ThreadSys ι) : ThreadAct ι → Prop
  | .start _ count => Kyouko3.startDmaRefuses count = false →
    (∀ j other, s.pcs j ≠ some (.fill other)) ∧ s.k.queuedCount ≠ (dmaNumBuffs : ℤ)
  | _ => True

/-! ### The correspondence -/

/-- The thread issues a buffer. -/
def StartPc.Issues : StartPc → Prop
  | .fill _ | .address _ | .config _ | .readHead | .writeHead _ => True
  | .wait | .sleep _ | .ret => False

/-- The submission that has come to the front has this byte count. -/
def Front (c : Card) (xs : List Submission) (count : Int32) : Prop :=
  ∃ h : c.completed < xs.length, xs[c.completed].count = count

/-- The correspondence while a thread issues the submission at the front: until it has
advanced `fill` it is alone, afterwards others may follow in the queue. -/
def IssuingAt (base d : ℕ) (k : Kyouko3) (c : Card) (xs : List Submission) : StartPc → Prop
  | .fill count => Queue base d k c xs (2 * c.completed) (2 * c.completed) ∧ Front c xs count ∧
    xs.length = c.completed + 1 ∧ k.fill = bufferAt d c.completed
  | .address count => Queue base d k c xs (2 * c.completed) (2 * c.completed) ∧
    Front c xs count ∧ k.fill = bufferAt d xs.length
  | .config count => Queue base d k c xs (2 * c.completed) (2 * c.completed + 1) ∧
    Front c xs count ∧ k.fill = bufferAt d xs.length
  | .readHead => Queue base d k c xs (2 * c.completed) (2 * c.completed + 2) ∧
    c.completed < xs.length ∧ k.fill = bufferAt d xs.length
  | .writeHead head => Queue base d k c xs (2 * c.completed) (2 * c.completed + 2) ∧
    c.completed < xs.length ∧ k.fill = bufferAt d xs.length ∧ head = k.fifo.head
  | _ => False

section Issuing

variable {base d : ℕ} {k k' : Kyouko3} {c c' : Card} {xs : List Submission} {pc : StartPc}

theorem Front.lt {count : Int32} (h : Front c xs count) : c.completed < xs.length := by
  obtain ⟨hlt, -⟩ := h
  exact hlt

theorem Front.append {count : Int32} (h : Front c xs count) (ys : List Submission) :
    Front c (xs ++ ys) count := by
  obtain ⟨hlt, hcount⟩ := h
  refine ⟨?_, ?_⟩
  · rw [List.length_append]
    exact hlt.trans_le (Nat.le_add_right _ _)
  · rwa [List.getElem_append_left hlt]

namespace IssuingAt

theorem queue (h : IssuingAt base d k c xs pc) :
    ∃ written, Queue base d k c xs (2 * c.completed) written := by
  cases pc with
  | wait | sleep | ret => exact h.elim
  | _ => exact ⟨_, h.1⟩

theorem issues (h : IssuingAt base d k c xs pc) : pc.Issues := by
  cases pc with
  | wait | sleep | ret => exact h.elim
  | _ => trivial

/-- What the thread is doing to the front stays as it is when the queue does. -/
theorem map (h : IssuingAt base d k c xs pc) (hcompleted : c'.completed = c.completed)
    (hfill : k'.fill = k.fill) (hhead : k'.fifo.head = k.fifo.head)
    (hqueue : ∀ written, Queue base d k c xs (2 * c.completed) written →
      Queue base d k' c' xs (2 * c.completed) written) :
    IssuingAt base d k' c' xs pc := by
  cases pc with
  | fill count =>
    simpa only [IssuingAt, Front, hcompleted, hfill] using ⟨hqueue _ h.1, h.2⟩
  | address count =>
    simpa only [IssuingAt, Front, hcompleted, hfill] using ⟨hqueue _ h.1, h.2⟩
  | config count =>
    simpa only [IssuingAt, Front, hcompleted, hfill] using ⟨hqueue _ h.1, h.2⟩
  | readHead => simpa only [IssuingAt, hcompleted, hfill] using ⟨hqueue _ h.1, h.2⟩
  | writeHead head =>
    simpa only [IssuingAt, hcompleted, hfill, hhead] using ⟨hqueue _ h.1, h.2⟩
  | _ => exact h.elim

/-- Once `fill` is advanced, others may queue up behind. -/
theorem start_queued {x : Submission} (h : IssuingAt base d k c xs pc)
    (hpc : ∀ count, pc ≠ .fill count) (hfree : k.queuedCount ≠ (dmaNumBuffs : ℤ))
    (hbuffer : x.buffer = k.fill) (haddress : x.address = (k.dmaBuffers k.fill).pBase) :
    k.fill ≠ k.drain ∧ IssuingAt base d { k with
      queuedCount := k.queuedCount + 1
      dmaBuffers := Function.update k.dmaBuffers k.fill
        { k.dmaBuffers k.fill with storedCount := x.count }
      fill := nextBuffer k.fill } c (xs ++ [x]) pc := by
  obtain ⟨written, hqueue⟩ := h.queue
  have hcount := hqueue.queuedCount
  have hlive := hqueue.live
  -- the buffers in use are those from `drain` on, fewer than the ring has
  have hroom : c.completed < xs.length → xs.length < c.completed + dmaNumBuffs := by omega
  have hne : c.completed < xs.length → k.fill = bufferAt d xs.length → k.fill ≠ k.drain := by
    intro hlt hfill heq
    rw [hfill, hqueue.drain] at heq
    exact absurd (bufferAt_inj hlt.le (hroom hlt) heq.symm) hlt.ne
  have hnext : k.fill = bufferAt d xs.length →
      nextBuffer k.fill = bufferAt d (xs ++ [x]).length := by
    intro hfill
    simp [hfill]
  cases pc with
  | fill count => exact absurd rfl (hpc count)
  | address count =>
    obtain ⟨hq, hfront, hfill⟩ := h
    have hlt := hfront.lt
    exact ⟨hne hlt hfill, hq.start_queued hfill (by omega) (hroom hlt) hbuffer haddress,
      hfront.append _, hnext hfill⟩
  | config count =>
    obtain ⟨hq, hfront, hfill⟩ := h
    have hlt := hfront.lt
    exact ⟨hne hlt hfill, hq.start_queued hfill (by omega) (hroom hlt) hbuffer haddress,
      hfront.append _, hnext hfill⟩
  | readHead =>
    obtain ⟨hq, hlt, hfill⟩ := h
    exact ⟨hne hlt hfill, hq.start_queued hfill (by omega) (hroom hlt) hbuffer haddress,
      by simp; omega, hnext hfill⟩
  | writeHead head =>
    obtain ⟨hq, hlt, hfill, hhead⟩ := h
    exact ⟨hne hlt hfill, hq.start_queued hfill (by omega) (hroom hlt) hbuffer haddress,
      by simp; omega, hnext hfill, hhead⟩
  | _ => exact h.elim

/-- A step of the thread that issues: it goes on issuing, or it has handed its commands
to the card and nobody issues any more. -/
theorem startStep {r : Kyouko3 × StartPc} (h : IssuingAt base d k c xs pc)
    (hr : k.startStep pc = some r) :
    IssuingAt base d r.1 c xs r.2 ∨ r.2 = .ret ∧ Rest base d r.1 c xs := by
  cases pc with
  | fill count =>
    cases hr
    obtain ⟨hqueue, hfront, hsole, hfill⟩ := h
    refine .inl ⟨?_, hfront, ?_⟩
    · exact ⟨hqueue.channel, hqueue.log, hqueue.completed_le, hqueue.live, hqueue.done,
        hqueue.queuedCount, hqueue.drain, hqueue.buffer, hqueue.stored⟩
    · simp [hfill, hsole]
  | address count =>
    cases hr
    obtain ⟨hqueue, ⟨hlt, hcount⟩, hfill⟩ := h
    have haddress : (k.dmaBuffers k.drain).pBase = xs[c.completed].address := by
      rw [hqueue.drain, (hqueue.buffer _ hlt le_rfl).2]
    refine .inl ⟨?_, ⟨hlt, hcount⟩, hfill⟩
    rw [haddress]
    exact hqueue.fifoWrite (commands_take_address hlt) (by simp only [fifoEntries]; omega)
  | config count =>
    cases hr
    obtain ⟨hqueue, ⟨hlt, rfl⟩, hfill⟩ := h
    refine .inl ⟨?_, hlt, hfill⟩
    exact hqueue.fifoWrite (commands_take_config hlt) (by simp only [fifoEntries]; omega)
  | readHead =>
    cases hr
    exact .inl ⟨h.1, h.2.1, h.2.2, rfl⟩
  | writeHead head =>
    cases hr
    obtain ⟨hqueue, hlt, hfill, rfl⟩ := h
    have hsettled : settled c xs = 2 * c.completed + 2 := by
      rw [settled]
      omega
    have hpublished := hqueue.publish (by omega)
    rw [← hsettled] at hpublished
    exact .inr ⟨rfl, hpublished, hfill⟩
  | _ => exact h.elim

end IssuingAt

end Issuing

namespace ThreadSys

variable {ι : Type} [DecidableEq ι] {base d : ℕ} {s t : ThreadSys ι} {a : ThreadAct ι} {i : ι}

/-- Thread `i` is on the way that issues a buffer. -/
def IssuesAt (s : ThreadSys ι) (i : ι) : Prop := ∃ pc, s.pcs i = some pc ∧ pc.Issues

/-- The correspondence, whoever is inside `start_dma`: nobody issues and the queue is at
rest, or one thread issues the submission at the front. -/
def Inv (base d : ℕ) (s : ThreadSys ι) : Prop :=
  (∀ i, ¬s.IssuesAt i) ∧ Rest base d s.k s.card s.accepted ∨
    ∃ i pc, s.pcs i = some pc ∧ IssuingAt base d s.k s.card s.accepted pc ∧
      ∀ j, j ≠ i → ¬s.IssuesAt j

/-- A thread that comes to a point where it does not issue leaves the others as they
are. -/
theorem issuesAt_update {pcs : ι → Option StartPc} {q : Option StartPc} {j : ι}
    (hq : ∀ pc, q = some pc → ¬pc.Issues) {k : Kyouko3} {c : Card} {xs : List Submission}
    {returned : List (ι × ℕ)}
    (h : IssuesAt ⟨k, c, Function.update pcs i q, xs, returned⟩ j) :
    j ≠ i ∧ ∃ pc, pcs j = some pc ∧ pc.Issues := by
  obtain ⟨pc, hpc, hissues⟩ := h
  by_cases hj : j = i
  · subst hj
    simp only [Function.update_self] at hpc
    exact absurd hissues (hq pc hpc)
  · simp only [Function.update_of_ne hj] at hpc
    exact ⟨hj, pc, hpc, hissues⟩

/-- Nothing happens to the queue while a thread that does not issue moves to where it
does not issue. -/
theorem Inv.move {q : Option StartPc} {returned : List (ι × ℕ)} (hs : s.Inv base d)
    (hi : ¬s.IssuesAt i) (hq : ∀ pc, q = some pc → ¬pc.Issues) :
    Inv base d { s with pcs := Function.update s.pcs i q, returned := returned } := by
  rcases hs with ⟨hnone, hrest⟩ | ⟨j, pc, hpc, hissuing, hothers⟩
  · refine .inl ⟨?_, hrest⟩
    intro l hl
    exact hnone l (issuesAt_update hq hl).2
  · have hji : j ≠ i := by
      rintro rfl
      exact hi ⟨pc, hpc, hissuing.issues⟩
    refine .inr ⟨j, pc, ?_, hissuing, ?_⟩
    · simpa [hji] using hpc
    · intro l hlj hl
      exact hothers l hlj (issuesAt_update hq hl).2

/-! The three outcomes of the locked section -/

theorem start_refused {count : Int32} (h : Kyouko3.startDmaRefuses count = true) :
    s.start i count = s := by
  unfold ThreadSys.start
  rw [if_pos h]

theorem start_issue {count : Int32} (h : Kyouko3.startDmaRefuses count = false)
    (hfd : s.k.fill = s.k.drain) :
    s.start i count = { s with
      k := { s.k with queuedCount := s.k.queuedCount + 1 }
      pcs := Function.update s.pcs i (some (.fill count))
      accepted := s.accepted ++ [s.submission count] } := by
  unfold ThreadSys.start
  rw [if_neg (by simp [h]), Kyouko3.startDmaLocked_issue hfd]
  rfl

theorem start_queued {count : Int32} (h : Kyouko3.startDmaRefuses count = false)
    (hfd : s.k.fill ≠ s.k.drain) :
    s.start i count = { s with
      k := { s.k with
        queuedCount := s.k.queuedCount + 1
        dmaBuffers := Function.update s.k.dmaBuffers s.k.fill
          { s.k.dmaBuffers s.k.fill with storedCount := count }
        fill := nextBuffer s.k.fill }
      pcs := Function.update s.pcs i
        (some (if nextBuffer s.k.fill = s.k.drain then .wait else .ret))
      accepted := s.accepted ++ [s.submission count] } := by
  unfold ThreadSys.start
  rw [if_neg (by simp [h]), Kyouko3.startDmaLocked_queued hfd]
  by_cases hfull : nextBuffer s.k.fill = s.k.drain
  · simp [hfull, StartPath.pc]
  · simp [hfull, StartPath.pc]

/-- A thread that has queued its buffer does not issue. -/
theorem queued_not_issues {k : Kyouko3} (pc : StartPc)
    (h : some (if nextBuffer k.fill = k.drain then StartPc.wait else .ret) = some pc) :
    ¬pc.Issues := by
  cases h
  split
  · exact not_false
  · exact not_false

/-- The locked section, entered in the clear. -/
theorem Inv.start {count : Int32} (hs : s.Inv base d) (hi : s.pcs i = none)
    (hclear : EntersClear s (.start i count)) : (s.start i count).Inv base d := by
  by_cases hcount : Kyouko3.startDmaRefuses count = true
  · rw [start_refused hcount]
    exact hs
  have hcount' : Kyouko3.startDmaRefuses count = false := by simpa using hcount
  obtain ⟨hfill, hfree⟩ := hclear hcount'
  rcases hs with ⟨hnone, hrest⟩ | ⟨j, pc, hpc, hissuing, hothers⟩
  · by_cases hfd : s.k.fill = s.k.drain
    · have hn := hrest.length_eq hfree hfd
      rw [start_issue hcount' hfd]
      refine .inr ⟨i, .fill count, Function.update_self .., ⟨?_, ⟨?_, ?_⟩, ?_, ?_⟩, ?_⟩
      · exact hrest.start_issue (x := s.submission count) hn rfl rfl
      · simp [hn]
      · simp [hn.symm, submission]
      · simp [hn]
      · exact hfd.trans hrest.drain
      · rintro j hj ⟨pc, hpc, hissues⟩
        simp only [Function.update_of_ne hj] at hpc
        exact hnone j ⟨pc, hpc, hissues⟩
    · -- there is a transfer before this one, behind which it is queued
      have hqueued := hrest.start_queued (x := s.submission count) (hrest.lt_length hfd)
        (hrest.has_room hfree) rfl rfl
      rw [start_queued hcount' hfd]
      refine .inl ⟨?_, hqueued⟩
      intro l hl
      exact hnone l (issuesAt_update queued_not_issues hl).2
  · have hji : j ≠ i := by
      rintro rfl
      rw [hi] at hpc
      cases hpc
    obtain ⟨hfd, hissuing'⟩ := hissuing.start_queued (x := s.submission count)
      (fun other hpc' => hfill j other (by rw [hpc, hpc'])) hfree rfl rfl
    rw [start_queued hcount' hfd]
    refine .inr ⟨j, pc, ?_, hissuing', ?_⟩
    · simpa [hji] using hpc
    · intro l hlj hl
      exact hothers l hlj (issuesAt_update queued_not_issues hl).2

/-- A thread that does not issue leaves the driver as it is. -/
theorem startStep_of_not_issues {k : Kyouko3} {pc : StartPc} {r : Kyouko3 × StartPc}
    (h : k.startStep pc = some r) (hpc : ¬pc.Issues) : r.1 = k ∧ ¬r.2.Issues := by
  cases pc with
  | wait =>
    simp only [Kyouko3.startStep] at h
    split at h
    · cases h
      exact ⟨rfl, not_false⟩
    · cases h
      exact ⟨rfl, not_false⟩
  | sleep since =>
    simp only [Kyouko3.startStep] at h
    split at h
    · cases h
      exact ⟨rfl, not_false⟩
    · cases h
  | ret => cases h
  | _ => exact absurd trivial hpc

theorem Step.run (h : s.Step (.run i) t) :
    (s.pcs i = some .ret ∧ t = { s with
      pcs := Function.update s.pcs i none
      returned := s.returned ++ [(i, (s.k.dmaBuffers s.k.fill).uBase)] }) ∨
    ∃ pc r, s.pcs i = some pc ∧ s.k.startStep pc = some r ∧
      t = { s with k := r.1, pcs := Function.update s.pcs i (some r.2) } := by
  simp only [Step, step, ThreadSys.run] at h
  split at h
  · cases h
  · cases h
    exact .inl ⟨‹_›, rfl⟩
  · obtain ⟨r, hr, rfl⟩ := Option.map_eq_some_iff.mp h
    exact .inr ⟨_, r, ‹_›, hr, rfl⟩

theorem Inv.run (hs : s.Inv base d) (h : s.Step (.run i) t) : t.Inv base d := by
  rcases h.run with ⟨hpc, rfl⟩ | ⟨pc, r, hpc, hr, rfl⟩
  · refine hs.move ?_ (by simp)
    rintro ⟨pc, hpc', hissues⟩
    rw [hpc] at hpc'
    cases hpc'
    exact hissues
  · by_cases hissues : pc.Issues
    · rcases hs with ⟨hnone, -⟩ | ⟨j, pc', hpc', hissuing, hothers⟩
      · exact absurd ⟨pc, hpc, hissues⟩ (hnone i)
      · have hji : i = j := by
          by_contra hne
          exact hothers i hne ⟨pc, hpc, hissues⟩
        subst hji
        rw [hpc] at hpc'
        cases hpc'
        rcases hissuing.startStep hr with hissuing' | ⟨hret, hrest⟩
        · refine .inr ⟨i, r.2, Function.update_self .., hissuing', ?_⟩
          rintro l hl ⟨pc', hpc', hissues'⟩
          simp only [Function.update_of_ne hl] at hpc'
          exact hothers l hl ⟨pc', hpc', hissues'⟩
        · refine .inl ⟨?_, hrest⟩
          intro l hl
          obtain ⟨hli, hl'⟩ := issuesAt_update (by simp [hret, StartPc.Issues]) hl
          exact hothers l hli hl'
    · obtain ⟨hk, hissues'⟩ := startStep_of_not_issues hr hissues
      rw [hk]
      refine hs.move ?_ (by simpa using hissues')
      rintro ⟨pc', hpc', hissues''⟩
      rw [hpc] at hpc'
      cases hpc'
      exact hissues hissues''

theorem Inv.exec (hs : s.Inv base d) (h : s.Step .exec t) : t.Inv base d := by
  simp only [Step, step, Option.map_eq_some_iff] at h
  obtain ⟨c, hc, rfl⟩ := h
  rcases hs with ⟨hnone, hrest⟩ | ⟨j, pc, hpc, hissuing, hothers⟩
  · exact .inl ⟨hnone, hrest.exec hc⟩
  · obtain ⟨written, hqueue⟩ := hissuing.queue
    have hcompleted := (hqueue.exec hc).2
    exact .inr ⟨j, pc, hpc, hissuing.map hcompleted rfl rfl (fun _ hq => (hq.exec hc).1), hothers⟩

/-- An interrupt reports a completion only when nobody issues. -/
theorem Inv.intr {iflags : ℕ} (hs : s.Inv base d) (h : s.Step (.intr iflags) t) :
    t.Inv base d := by
  simp only [Step, step, ThreadSys.intr] at h
  split at h
  · rename_i hflag
    cases h
    have hsame : SameQueue s.k (s.k.dmaIntr iflags).2 := by
      rw [Kyouko3.dmaIntr_spurious hflag]
      exact DmaSys.sameQueue_kWriteRegister (by decide)
    rcases hs with ⟨hnone, hrest⟩ | ⟨j, pc, hpc, hissuing, hothers⟩
    · exact .inl ⟨hnone, hrest.congr hsame⟩
    · exact .inr ⟨j, pc, hpc, hissuing.map rfl hsame.fill (congrArg Fifo.head hsame.fifo)
        (fun _ hq => hq.congr hsame), hothers⟩
  · rename_i hflag
    split at h
    · rename_i hstarted
      cases h
      rcases hs with ⟨hnone, hrest⟩ | ⟨j, pc, hpc, hissuing, hothers⟩
      · exact .inl ⟨hnone, hrest.completion hflag hstarted⟩
      · obtain ⟨written, hqueue⟩ := hissuing.queue
        have hhanded := (hqueue.of_started hstarted).2.2
        omega
    · cases h

theorem Inv.step (hs : s.Inv base d) (h : s.Step a t) (hclear : EntersClear s a) :
    t.Inv base d := by
  cases a with
  | start i count =>
    simp only [Step, ThreadSys.step, Option.isNone_iff_eq_none] at h
    split at h
    · cases h
      exact hs.start ‹_› hclear
    · cases h
  | run i => exact hs.run h
  | exec => exact hs.exec h
  | intr iflags => exact hs.intr h

omit [DecidableEq ι] in
/-- With no thread inside `start_dma`, the correspondence says what is asked. -/
theorem Inv.consistent (hs : s.Inv base d) (hout : ∀ i, s.pcs i = none) : Consistent s := by
  have hrest : Rest base d s.k s.card s.accepted := by
    rcases hs with ⟨-, hrest⟩ | ⟨j, pc, hpc, -⟩
    · exact hrest
    · rw [hout j] at hpc
      cases hpc
  have hle := hrest.completed_le
  have hcount := hrest.queuedCount
  have hissued : (Driver.issued s.k s.card).length =
      min s.accepted.length (s.card.completed + 1) := by
    rw [hrest.issued_eq le_rfl, List.length_map, List.length_take, settled]
    omega
  refine ⟨hrest.queuedCount_mem, ?_, ?_, ?_⟩
  · rw [hrest.fill, hrest.drain, hcount]
    simp only [bufferAt, dmaNumBuffs]
    omega
  · omega
  · rw [hissued, Kyouko3.waiting]
    omega

end ThreadSys

theorem DmaSys.Bound.threads_inv {ι : Type} [DecidableEq ι] {s : DmaSys} (h : s.Bound) :
    (s.threads ι).Inv s.k.fifo.head 0 := by
  refine .inl ⟨?_, h.inv.rest (by simp [h.pc, AtRest])⟩
  rintro i ⟨pc, hpc, -⟩
  cases hpc

/-- After a successful `BIND_DMA`, whatever the threads of the client submit and however
their steps, the card's and its interrupts are interleaved: if no call is accepted while
another thread has yet to advance `fill`, or while all buffers are in use, then the driver
is consistent whenever no thread is inside `start_dma`. -/
theorem threads_consistent {ι : Type} [DecidableEq ι] {s : DmaSys} (hs : s.Bound)
    {t : ThreadSys ι} {as : List (ThreadAct ι)}
    (h : Along ThreadSys.Step (fun s a _ => EntersClear s a) (s.threads ι) as t)
    (hout : ∀ i, t.pcs i = none) : Consistent t := by
  have hinv := h.invariant (ThreadSys.Inv s.k.fifo.head 0)
    (fun _ _ _ hs hstep hclear => hs.step hstep hclear) hs.threads_inv
  exact hinv.consistent hout

/-- Two threads submit; the second enters when the first has issued its buffer. -/
def inTurn : List (ThreadAct Bool) :=
  [.start false 4, .run false, .run false, .run false, .run false, .run false, .start true 4,
    .run true, .run false]

theorem threads_consistent_two :
    ∃ t, Along ThreadSys.Step (fun s a _ => EntersClear s a) (boundSys.threads Bool) inTurn t ∧
      t.accepted.length = 2 ∧ Consistent t := by
  have hrun : ∃ t, Along ThreadSys.Step (fun s a _ => EntersClear s a) (boundSys.threads Bool)
      inTurn t ∧ t.accepted.length = 2 ∧ ∀ i, t.pcs i = none := by
    refine ⟨_, .cons rfl (fun _ => ⟨?_, ?_⟩) <| .cons rfl trivial <| .cons rfl trivial <|
      .cons rfl trivial <| .cons rfl trivial <| .cons rfl trivial <|
      .cons rfl (fun _ => ⟨?_, ?_⟩) <| .cons rfl trivial <| .cons rfl trivial <| .nil _, rfl, ?_⟩
    · intro j other h
      cases h
    · decide
    · rintro (_ | _) other h
      · cases h
      · cases h
    · decide
    · rintro (_ | _)
      · rfl
      · rfl
  obtain ⟨t, hrun, haccepted, hout⟩ := hrun
  exact ⟨t, hrun, haccepted, threads_consistent boundSys_bound hrun hout⟩

/-- Two threads submit; the second enters before the first has advanced `fill`. -/
def oneAfterTheOther : List (ThreadAct Bool) :=
  [.start false 4, .start true 4, .run false, .run false, .run false, .run false, .run false,
    .run false, .run true, .run true, .run true, .run true, .run true, .run true]

/-- Both take the queue for empty and issue their buffers, so that two transfers are
outstanding when they have returned. -/
theorem two_transfers_outstanding :
    ∃ t, Path ThreadSys.Step (boundSys.threads Bool) oneAfterTheOther t ∧
      (∀ i, t.pcs i = none) ∧ t.card.completed = 0 ∧ (issued t.k t.card).length = 2 ∧
        ¬Consistent t := by
  obtain ⟨t, ht, hout, hcompleted, hissued⟩ : ∃ t,
      oneAfterTheOther.foldlM ThreadSys.step (boundSys.threads Bool) = some t ∧
        (∀ i, t.pcs i = none) ∧ t.card.completed = 0 ∧ (issued t.k t.card).length = 2 :=
    ⟨_, rfl, by rintro (_ | _) <;> rfl, rfl, rfl⟩
  refine ⟨t, Path.of_foldlM ht, hout, hcompleted, hissued, ?_⟩
  intro hconsistent
  have houtstanding := hconsistent.outstanding
  omega

end OsProjects.Driver
