import OsProjects.Driver.SessionInv

/-!
# Delivery of DMA buffers

Between `BIND_DMA` and `UNBIND_DMA` a single client submits buffers and the card
transfers them. When the client waits until its wait is over, the driver is a queue:
what the card is issued is what was submitted, in order, one transfer at a time. A
signal ends the wait of `start_dma` early; then the client is handed back a buffer
that is still in the queue, unless a completion has come in between.

## Main definitions

* `DmaSys.Bound` — the state in which a successful `BIND_DMA` returns
* `Delivers` — the transfers issued to the card are the submissions accepted
* `OwnsBuffer` — the buffer handed to the client is not in use

## Main results

* `dma_delivers` — without signals, in every state the driver is a queue
* `dma_owns_buffer_iff` — along every run the client owns the buffers it is handed
  exactly when no `START_DMA` returns with all eight in use
-/

namespace OsProjects.Driver

open Run

/-! ### The runs considered -/

/-- The client only submits buffers. -/
def DmaAct.Submits : DmaAct → Prop
  | .start _ | .run | .exec | .intr _ => True
  | _ => False

/-- The client submits buffers and may be sent signals. -/
def DmaAct.SubmitsOrSignals : DmaAct → Prop
  | .start _ | .run | .exec | .intr _ | .signal => True
  | _ => False

/-- The byte counts of the accepted calls of `START_DMA` among some actions. -/
def acceptedCounts (as : List DmaAct) : List Int32 :=
  as.filterMap fun
    | .start count => if Kyouko3.startDmaRefuses count then none else some count
    | _ => none

/-- The state in which a successful `BIND_DMA` returns, with the ring of commands
drained. The histories begin here. -/
structure DmaSys.Bound (s : DmaSys) : Prop where
  pc : s.pc = .user
  dmaMapped : s.k.dmaMapped = true
  fill : s.k.fill = 0
  drain : s.k.drain = 0
  queuedCount : s.k.queuedCount = 0
  addresses : ∀ i, (s.k.dmaBuffers i).pBase < 2 ^ 32
  head_lt : s.k.fifo.head < fifoEntries
  fifoHead : s.k.register fifoHead = s.k.fifo.head
  tail : s.card.tail = s.k.fifo.head
  log : s.k.fifo.log = []
  executed : s.card.executed = []
  completed : s.card.completed = 0
  accepted : s.accepted = []
  returned : s.returned = [(s.k.dmaBuffers 0).uBase]

/-! ### What is asked of the driver -/

/-- The transfer a submission asks for: its buffer's bus address and its byte count. -/
def DmaSys.request (s : DmaSys) (x : Submission) : ℕ × ℕ :=
  ((s.k.dmaBuffers x.buffer).pBase, unsigned x.count)

/-- The driver is a queue: the transfers issued are the first of those accepted, all of
them when nothing is queued; at most one is outstanding; `queued_count` counts the
accepted submissions not yet completed; and each submission is of the buffer whose user
address the call before it returned, with a byte count in range. -/
structure Delivers (s : DmaSys) : Prop where
  issued : issued s.k s.card <+: s.accepted.map s.request
  all_issued : s.k.queuedCount = 0 → Driver.issued s.k s.card = s.accepted.map s.request
  outstanding : (Driver.issued s.k s.card).length ≤ s.card.completed + 1
  queuedCount : s.k.queuedCount = s.accepted.length - s.card.completed
  user : ∀ x ∈ s.accepted, x.user = (s.k.dmaBuffers x.buffer).uBase
  returned : s.accepted.map Submission.user <+: s.returned
  count : ∀ x ∈ s.accepted, 1 ≤ x.count ∧ x.count ≤ 126976

/-- If `START_DMA` returns in this step, the buffer it hands to the client is neither
waiting in the queue nor being transferred. -/
def OwnsBuffer (s : DmaSys) (a : DmaAct) : Prop :=
  s.pc = .start .ret → a = .run → ∀ x ∈ s.outstanding, x.buffer ≠ s.k.fill

/-- If `START_DMA` returns in this step, not all eight buffers are in use. -/
def ReturnsNotFull (s : DmaSys) (a : DmaAct) : Prop :=
  s.pc = .start .ret → a = .run → s.k.queuedCount ≠ (dmaNumBuffs : ℤ)

namespace DmaSys

variable {base d : ℕ} {s t : DmaSys}

/-- A successful first `BIND_DMA` after opening the device leads to such a state, when
the kernel grants the buffers. -/
theorem bound_of_bind {k : Kyouko3} {env : OpenEnv} {benv : BindEnv}
    (hstart : env.control (fifoHead >>> 2) = 0)
    (hgrant : ∀ i, ∃ kBase pBase, benv.alloc i = some (kBase, pBase) ∧ pBase < 2 ^ 32)
    (h : (opened k env).Step (.bind benv) t) (hsuccess : t.returned ≠ []) : t.Bound := by
  obtain ⟨-, rfl⟩ := Step.bind h
  rcases (opened k env).k.bindDma_cases benv with hrefused | ⟨hmapped, hmsi, hirq⟩
  · simp only [DmaSys.bind, hrefused] at hsuccess
    exact absurd rfl hsuccess
  · have hk : ((opened k env).bind benv).k = _ := Kyouko3.bindDma_accepted hmapped hmsi hirq
    have hreturned := Kyouko3.bindDma_accepted_fst hmapped hmsi hirq
    obtain ⟨buffers, held, hloop⟩ := Kyouko3.foldl_bindBuffer
      (((opened k env).k.acquire .msi).acquire .irq) benv (List.finRange dmaNumBuffs)
    have hfifo : ((opened k env).bind benv).k.fifo = (opened k env).k.fifo := by
      rw [hk, hloop]
      rfl
    refine ⟨rfl, ?_, ?_, ?_, ?_, ?_, ?_, ?_, ?_, ?_, rfl, rfl, rfl, ?_⟩
    · rw [hk]
      rfl
    · rw [hk]
      rfl
    · rw [hk]
      rfl
    · rw [hk]
      rfl
    · intro i
      obtain ⟨kBase, pBase, halloc, hlt⟩ := hgrant i
      have hbound := Kyouko3.foldl_bindBuffer_boundTo
        (((opened k env).k.acquire .msi).acquire .irq) benv halloc (List.finRange dmaNumBuffs)
        (.inl (List.mem_finRange i))
      rw [hk]
      exact hbound.pBase_eq.trans_lt hlt
    · rw [hfifo]
      exact show 0 < fifoEntries by decide
    · rw [hfifo, hk, hloop, Kyouko3.register_kWriteRegister_of_ne _ (by decide)]
      exact hstart
    · rw [hfifo]
      rfl
    · rw [hfifo]
      rfl
    · unfold DmaSys.bind at hsuccess ⊢
      simp only at hsuccess ⊢
      split at hsuccess
      · exact absurd rfl hsuccess
      · rename_i hne
        rw [if_neg hne, hreturned]
        rfl

theorem Bound.inv (h : s.Bound) : s.Inv s.k.fifo.head 0 := by
  refine Inv.of_rest ⟨⟨?_, ?_, ?_, ?_, ?_, ?_, ?_, ?_, ?_⟩, ?_⟩ (by simp [h.pc, AtRest])
  · have hdrained := Channel.drained s.k.fifo s.card h.head_lt h.tail h.log h.executed
    rw [h.fifoHead]
    simpa [settled, h.accepted] using hdrained
  · simp [h.log, h.accepted]
  · simp [h.completed, h.accepted]
  · simp [h.accepted]
  · simp [h.completed]
  · simp [h.queuedCount, h.completed, h.accepted]
  · simp [h.drain, h.completed, bufferAt]
  · simp [h.accepted]
  · simp [h.accepted]
  · simp [h.fill, h.accepted, bufferAt]

/-! ### Runs without signals -/

/-- What holds while the client only submits and waits to the end: the driver is a
queue that is full only while the client waits; every submission is of the buffer it
was recorded with; and the client holds the buffer at `fill`, unless it has just
submitted it. -/
structure Submitting (base : ℕ) (s : DmaSys) : Prop where
  inv : ∃ d, s.Inv base d
  notFull : NotFull s
  pc : s.pc = .user ∨ ∃ pc, s.pc = .start pc
  addresses : ∀ i, (s.k.dmaBuffers i).pBase < 2 ^ 32
  submitted : ∀ x ∈ s.accepted, x.address = (s.k.dmaBuffers x.buffer).pBase ∧
    x.user = (s.k.dmaBuffers x.buffer).uBase ∧ Kyouko3.startDmaRefuses x.count = false
  returned : s.returned = s.accepted.map Submission.user ++
    match s.pc with | .user => [(s.k.dmaBuffers s.k.fill).uBase] | _ => []

theorem Bound.submitting (h : s.Bound) : Submitting s.k.fifo.head s where
  inv := ⟨0, h.inv⟩
  notFull _ _ := by
    rw [h.queuedCount]
    decide
  pc := .inl h.pc
  addresses := h.addresses
  submitted := by simp [h.accepted]
  returned := by simp [h.returned, h.accepted, h.pc, h.fill]

theorem Submitting.start {count : Int32} (hs : Submitting base s) (hpc : s.pc = .user)
    (hinv : ∃ d, (s.start count).Inv base d) (hfree : NotFull (s.start count)) :
    Submitting base (s.start count) := by
  have hreturned := hs.returned
  simp only [hpc] at hreturned
  rcases s.k.startDma_cases count with hcount | ⟨hcount, hfd⟩ | ⟨hcount, hfd⟩
  · rw [start_refused hcount]
    exact hs
  · rw [start_issue hcount hfd] at hinv hfree ⊢
    refine ⟨hinv, hfree, .inr ⟨_, rfl⟩, hs.addresses, ?_, ?_⟩
    · intro x hx
      rcases List.mem_append.mp hx with hx | hx
      · exact hs.submitted x hx
      · obtain rfl := List.mem_singleton.mp hx
        exact ⟨rfl, rfl, hcount⟩
    · simp [hreturned, submission]
  · rw [start_queued hcount hfd] at hinv hfree ⊢
    have hsame := Kyouko3.update_storedCount s.k.dmaBuffers s.k.fill
    refine ⟨hinv, hfree, .inr ⟨_, rfl⟩, ?_, ?_, ?_⟩
    · intro i
      simp only [(hsame i count).1]
      exact hs.addresses i
    · intro x hx
      simp only [(hsame x.buffer count).1, (hsame x.buffer count).2.2]
      rcases List.mem_append.mp hx with hx | hx
      · exact hs.submitted x hx
      · obtain rfl := List.mem_singleton.mp hx
        exact ⟨rfl, rfl, hcount⟩
    · simp [hreturned, submission]

/-- Every step of a client that only submits. -/
theorem Submitting.step {a : DmaAct} (hs : Submitting base s) (h : s.Step a t)
    (ha : a.Submits) : Submitting base t := by
  obtain ⟨d, hd⟩ := hs.inv
  cases a with
  | start count =>
    have hkeeps : KeepsQueue s (.start count) := by
      obtain ⟨hpc, -⟩ := Step.start h
      exact fun _ => hs.notFull (by simp [hpc, ClientPc.Waiting]) (by simp [hpc, ClientPc.Gone])
    have hinv := hd.step h hkeeps
    have hfree := hd.notFull hs.notFull h (by simp)
    obtain ⟨hpc, rfl⟩ := Step.start h
    exact hs.start hpc hinv hfree
  | run =>
    have hinv := hd.step h trivial
    have hfree := hd.notFull hs.notFull h (by simp)
    rcases h.run with ⟨pc, r, hpc, hr, rfl⟩ | ⟨hpc, rfl⟩ | ⟨caller, pc, pc', hpc, -, rfl⟩ |
      ⟨caller, hpc, rfl⟩ | ⟨hgone, -⟩
    · obtain ⟨-, -, hbuffers, -, -⟩ := Kyouko3.startStep_frame hr
      refine ⟨hinv, hfree, .inr ⟨_, rfl⟩, ?_, ?_, ?_⟩
      · simpa only [hbuffers] using hs.addresses
      · simpa only [hbuffers] using hs.submitted
      · simpa only [hpc] using hs.returned
    · refine ⟨hinv, hfree, .inl rfl, hs.addresses, hs.submitted, ?_⟩
      simpa [hpc] using hs.returned
    · rcases hs.pc with hpc' | ⟨pc', hpc'⟩ <;> simp [hpc] at hpc'
    · rcases hs.pc with hpc' | ⟨pc', hpc'⟩ <;> simp [hpc] at hpc'
    · rcases hs.pc with hpc' | ⟨pc', hpc'⟩ <;> simp [hpc', ClientPc.Gone] at hgone
  | exec =>
    have hinv := hd.step h trivial
    obtain ⟨c, -, rfl⟩ := h.exec
    exact ⟨hinv, hs.notFull, hs.pc, hs.addresses, hs.submitted, hs.returned⟩
  | intr iflags =>
    have hinv := hd.step h trivial
    have hfree := hd.notFull hs.notFull h (by simp)
    obtain ⟨-, ⟨-, rfl⟩ | ⟨-, -, rfl⟩⟩ := h.intr
    · refine ⟨hinv, hfree, hs.pc, ?_, ?_, ?_⟩
      · simpa using hs.addresses
      · simpa using hs.submitted
      · simpa using hs.returned
    · refine ⟨hinv, hfree, hs.pc, ?_, ?_, ?_⟩
      · simpa using hs.addresses
      · simpa using hs.submitted
      · simpa using hs.returned
  | _ => exact ha.elim

/-- While the client only submits, the transfer a submission asks for is the one it
was accepted for. -/
theorem Submitting.transfer_eq (hs : Submitting base s) {x : Submission} (hx : x ∈ s.accepted) :
    x.transfer = s.request x := by
  have haddress := (hs.submitted x hx).1
  rw [Submission.transfer, request, haddress, u32, Nat.mod_eq_of_lt (hs.addresses x.buffer)]

theorem Submitting.delivers (hs : Submitting base s) : Delivers s := by
  obtain ⟨d, hd⟩ := hs.inv
  have hgone : ¬s.pc.Gone := by
    rcases hs.pc with hpc | ⟨pc, hpc⟩ <;> simp [hpc, ClientPc.Gone]
  obtain ⟨handed, written, -, hqueue⟩ := hd.queue hgone
  obtain ⟨m, hissued, hm, hall⟩ := hd.issued hgone
  have hmap : s.accepted.map Submission.transfer = s.accepted.map s.request :=
    List.map_congr_left fun x hx => hs.transfer_eq hx
  have hissued : Driver.issued s.k s.card = (s.accepted.map s.request).take m := by
    rw [hissued, List.map_take, hmap]
  refine ⟨?_, ?_, ?_, hqueue.queuedCount, ?_, ?_, ?_⟩
  · rw [hissued]
    exact List.take_prefix _ _
  · intro hq
    rw [hqueue.queuedCount] at hq
    rw [hissued, List.take_of_length_le]
    rw [List.length_map]
    exact hall (by omega)
  · rw [hissued]
    exact (List.length_take_le _ _).trans hm
  · exact fun x hx => (hs.submitted x hx).2.1
  · rw [hs.returned]
    exact List.prefix_append _ _
  · exact fun x hx => Kyouko3.startDmaRefuses_eq_false_iff.mp (hs.submitted x hx).2.2

/-- Each step records the byte count of the submission it accepts, if it accepts one. -/
theorem Step.accepted {a : DmaAct} (h : s.Step a t) :
    t.accepted.map Submission.count = s.accepted.map Submission.count ++ acceptedCounts [a] := by
  cases a with
  | start count =>
    obtain ⟨-, rfl⟩ := Step.start h
    unfold DmaSys.start
    split <;> simp [acceptedCounts, submission, *]
  | bind env =>
    obtain ⟨-, rfl⟩ := Step.bind h
    simp [acceptedCounts, DmaSys.bind]
  | unbind =>
    obtain ⟨-, ⟨-, rfl⟩ | ⟨-, rfl⟩⟩ := Step.unbind h
    · simp [acceptedCounts]
    · simp [acceptedCounts]
  | release =>
    obtain ⟨-, ⟨-, rfl⟩ | ⟨-, rfl⟩⟩ := Step.release h
    · simp [acceptedCounts]
    · simp [acceptedCounts]
  | run =>
    rcases h.run with ⟨pc, r, -, -, rfl⟩ | ⟨-, rfl⟩ | ⟨caller, pc, pc', -, -, rfl⟩ |
      ⟨caller, -, rfl⟩ | ⟨-, -, haccepted⟩
    · simp [acceptedCounts]
    · simp [acceptedCounts]
    · simp [acceptedCounts]
    · simp [acceptedCounts]
    · simp [acceptedCounts, haccepted]
  | signal =>
    rcases h.signal with ⟨-, rfl⟩ | ⟨caller, -, rfl⟩ <;> simp [acceptedCounts]
  | exec =>
    obtain ⟨c, -, rfl⟩ := h.exec
    simp [acceptedCounts]
  | intr iflags =>
    obtain ⟨-, ⟨-, rfl⟩ | ⟨-, -, rfl⟩⟩ := h.intr <;> simp [acceptedCounts]

theorem accepted_of_path {as : List DmaAct} (h : Path Step s as t) :
    t.accepted.map Submission.count = s.accepted.map Submission.count ++ acceptedCounts as := by
  induction h with
  | nil s => simp [acceptedCounts]
  | cons hstep _ _ ih =>
    rw [ih, Step.accepted hstep, List.append_assoc, acceptedCounts, acceptedCounts, acceptedCounts,
      ← List.filterMap_append, List.singleton_append]

end DmaSys

/-- **The driver is a queue.** From a successful `BIND_DMA` on, in every state that any
sequence of submissions, byte counts in range or not, and of completions can reach, the
submissions accepted are exactly the calls with a byte count in range, in call order,
and the card is issued them in that order, one at a time, each from the buffer the
client was handed for it. -/
theorem dma_delivers (s t : DmaSys) (as : List DmaAct) (hs : s.Bound)
    (h : Along DmaSys.Step (fun _ a _ => a.Submits) s as t) :
    Delivers t ∧ t.accepted.map Submission.count = acceptedCounts as := by
  have hsubmitting := h.invariant (DmaSys.Submitting s.k.fifo.head)
    (fun _ _ _ hs hstep ha => hs.step hstep ha) hs.submitting
  refine ⟨hsubmitting.delivers, ?_⟩
  have haccepted := DmaSys.accepted_of_path h.path
  rwa [hs.accepted, List.map_nil, List.nil_append] at haccepted

/-- A card with buffers of 128 KiB bound and nothing submitted. -/
def boundSys : DmaSys where
  k := { Kyouko3.zero with
    dmaMapped := true
    dmaBuffers := fun i => ⟨i * 0x20000, 0, (i + 1) * 0x1000, 0⟩
    held := [.irq] }
  card := ⟨0, [], 0⟩
  pc := .user
  accepted := []
  returned := [0x1000]

theorem boundSys_bound : boundSys.Bound where
  pc := rfl
  dmaMapped := rfl
  fill := rfl
  drain := rfl
  queuedCount := rfl
  addresses := by decide
  head_lt := by decide
  fifoHead := rfl
  tail := rfl
  log := rfl
  executed := rfl
  completed := rfl
  accepted := rfl
  returned := rfl

/-- The way of one submission to an idle card, up to its completion. -/
def oneTransfer : List DmaAct :=
  [.start 4, .run, .run, .run, .run, .run, .run, .exec, .exec, .intr 2]

theorem dma_delivers_one :
    ∃ t, Along DmaSys.Step (fun _ a _ => a.Submits) boundSys oneTransfer t ∧ Delivers t ∧
      t.accepted.map Submission.count = [4] := by
  obtain ⟨t, ht⟩ : ∃ t, oneTransfer.foldlM DmaSys.step boundSys = some t := ⟨_, rfl⟩
  have hsubmits : ∀ a ∈ oneTransfer, a.Submits := by simp [oneTransfer, DmaAct.Submits]
  have hrun := (Path.of_foldlM ht).along hsubmits
  exact ⟨t, hrun, dma_delivers boundSys t oneTransfer boundSys_bound hrun⟩

/-! ### Runs with signals -/

namespace DmaSys

variable {base d : ℕ} {s t : DmaSys}

/-- What holds while the client submits and no `START_DMA` returns with all buffers in
use: outside the driver the client always finds a buffer free. -/
structure Serving (base : ℕ) (s : DmaSys) : Prop where
  inv : ∃ d, s.Inv base d
  pc : s.pc = .user ∨ ∃ pc, s.pc = .start pc
  free : s.pc = .user → s.k.queuedCount ≠ (dmaNumBuffs : ℤ)

theorem Bound.serving (h : s.Bound) : Serving s.k.fifo.head s :=
  ⟨⟨0, h.inv⟩, .inl h.pc, fun _ => by rw [h.queuedCount]; decide⟩

/-- A step of a client that submits, signals included, keeps the queue. -/
theorem Serving.inv_step {a : DmaAct} (hs : Serving base s) (h : s.Step a t)
    (ha : a.SubmitsOrSignals) : ∃ d, t.Inv base d := by
  obtain ⟨d, hd⟩ := hs.inv
  apply hd.step h
  cases a with
  | start count =>
    obtain ⟨hpc, -⟩ := Step.start h
    exact fun _ => hs.free hpc
  | bind env => exact ha.elim
  | _ => trivial

theorem Serving.step {a : DmaAct} (hs : Serving base s) (h : s.Step a t)
    (ha : a.SubmitsOrSignals) (hreturn : ReturnsNotFull s a) : Serving base t := by
  have hinv := hs.inv_step h ha
  cases a with
  | start count =>
    obtain ⟨hpc, rfl⟩ := Step.start h
    rcases s.k.startDma_cases count with hcount | ⟨hcount, hfd⟩ | ⟨hcount, hfd⟩
    · rw [start_refused hcount]
      exact hs
    · rw [start_issue hcount hfd] at hinv ⊢
      exact ⟨hinv, .inr ⟨_, rfl⟩, by simp⟩
    · rw [start_queued hcount hfd] at hinv ⊢
      exact ⟨hinv, .inr ⟨_, rfl⟩, by simp⟩
  | run =>
    rcases h.run with ⟨pc, r, hpc, hr, rfl⟩ | ⟨hpc, rfl⟩ | ⟨caller, pc, pc', hpc, -, rfl⟩ |
      ⟨caller, hpc, rfl⟩ | ⟨hgone, -⟩
    · exact ⟨hinv, .inr ⟨_, rfl⟩, by simp⟩
    · exact ⟨hinv, .inl rfl, fun _ => hreturn hpc rfl⟩
    · rcases hs.pc with hpc' | ⟨pc', hpc'⟩ <;> simp [hpc] at hpc'
    · rcases hs.pc with hpc' | ⟨pc', hpc'⟩ <;> simp [hpc] at hpc'
    · rcases hs.pc with hpc' | ⟨pc', hpc'⟩ <;> simp [hpc', ClientPc.Gone] at hgone
  | signal =>
    rcases h.signal with ⟨-, rfl⟩ | ⟨caller, hpc | ⟨since, hpc⟩, -⟩
    · exact ⟨hinv, .inr ⟨_, rfl⟩, by simp⟩
    · rcases hs.pc with hpc' | ⟨pc', hpc'⟩ <;> simp [hpc] at hpc'
    · rcases hs.pc with hpc' | ⟨pc', hpc'⟩ <;> simp [hpc] at hpc'
  | exec =>
    obtain ⟨c, -, rfl⟩ := h.exec
    exact ⟨hinv, hs.pc, hs.free⟩
  | intr iflags =>
    obtain ⟨d, hd⟩ := hs.inv
    obtain ⟨-, ⟨hflag, rfl⟩ | ⟨hflag, hstarted, rfl⟩⟩ := h.intr
    · refine ⟨hinv, hs.pc, ?_⟩
      rw [Kyouko3.dmaIntr_spurious hflag]
      exact hs.free
    · refine ⟨hinv, hs.pc, fun hpc => ?_⟩
      have huser : s.pc = .user := hpc
      -- a completion only takes from the queue, which then cannot be full
      have hmem := (hd.rest (by simp [huser, AtRest])).queuedCount_mem
      simp only [Kyouko3.dmaIntr_queuedCount hflag]
      omega
  | _ => exact ha.elim

/-- At the return of `START_DMA` the buffer handed to the client is its own exactly when
not all eight are in use. -/
theorem Serving.ownsBuffer_iff {a : DmaAct} (hs : Serving base s) :
    OwnsBuffer s a ↔ ReturnsNotFull s a := by
  obtain ⟨d, hd⟩ := hs.inv
  refine forall_congr' fun hpc => forall_congr' fun _ => ?_
  have hrest : Rest base d s.k s.card s.accepted := hd.rest (by simp [hpc, AtRest])
  have hiff := hrest.outstanding_iff
  rw [← hrest.fill] at hiff
  rw [← not_iff_not, not_not, ← hiff]
  simp [outstanding]

end DmaSys

/-- The number of queued submissions is between zero and eight. -/
def QueueInBounds (s : DmaSys) : Prop :=
  0 ≤ s.k.queuedCount ∧ s.k.queuedCount ≤ (dmaNumBuffs : ℤ)

/-- **Back-pressure holds exactly while no call returns from a full queue.** Along any
run of submissions, completions and signals after a successful `BIND_DMA`, the queue
stays within its bounds and every `START_DMA` hands the client a buffer that is not in
use, if and only if no `START_DMA` returns with all eight buffers in use. -/
theorem dma_owns_buffer_iff (s t : DmaSys) (as : List DmaAct) (hs : s.Bound) :
    Along DmaSys.Step
        (fun s a t => a.SubmitsOrSignals ∧ QueueInBounds t ∧ OwnsBuffer s a) s as t ↔
      Along DmaSys.Step (fun s a _ => a.SubmitsOrSignals ∧ ReturnsNotFull s a) s as t := by
  refine (along_iff_of_invariant (DmaSys.Serving s.k.fifo.head) ?_ ?_ hs.serving).symm
  · exact fun _ _ _ hs h hP => hs.step h hP.1 hP.2
  · intro s a t hs h
    constructor
    · rintro ⟨ha, hreturn⟩
      refine ⟨ha, ?_, hs.ownsBuffer_iff.mpr hreturn⟩
      obtain ⟨⟨d, hd⟩, hpc, -⟩ := hs.step h ha hreturn
      have hgone : ¬t.pc.Gone := by
        rcases hpc with hpc | ⟨pc, hpc⟩ <;> simp [hpc, ClientPc.Gone]
      obtain ⟨handed, written, -, hqueue⟩ := hd.queue hgone
      exact hqueue.queuedCount_mem
    · rintro ⟨ha, -, howns⟩
      exact ⟨ha, hs.ownsBuffer_iff.mp howns⟩

theorem dma_owns_buffer_iff_one :
    ∃ t, Along DmaSys.Step
      (fun s a t => a.SubmitsOrSignals ∧ QueueInBounds t ∧ OwnsBuffer s a) boundSys
        oneTransfer t := by
  refine ⟨_, (dma_owns_buffer_iff boundSys _ oneTransfer boundSys_bound).mpr <|
    .cons rfl ⟨trivial, nofun⟩ <| .cons rfl ⟨trivial, nofun⟩ <| .cons rfl ⟨trivial, nofun⟩ <|
    .cons rfl ⟨trivial, nofun⟩ <| .cons rfl ⟨trivial, nofun⟩ <| .cons rfl ⟨trivial, nofun⟩ <|
    .cons rfl ⟨trivial, fun _ _ => ?_⟩ <| .cons rfl ⟨trivial, nofun⟩ <|
    .cons rfl ⟨trivial, nofun⟩ <| .cons rfl ⟨trivial, nofun⟩ <| .nil _⟩
  decide

/-- Eight submissions, the last of them waiting for a free buffer until a signal. -/
def fillAndSignal : List DmaAct :=
  [.start 4, .run, .run, .run, .run, .run, .run, .start 4, .run, .start 4, .run, .start 4, .run,
    .start 4, .run, .start 4, .run, .start 4, .run, .start 4, .run, .signal]

/-- The signal ends the wait of the eighth `START_DMA`; it hands the client the first
buffer, which the card has not begun to transfer. -/
theorem signal_hands_out_busy_buffer :
    ∃ s t, Along DmaSys.Step (fun _ a _ => a.SubmitsOrSignals) boundSys fillAndSignal s ∧
      s.Step .run t ∧ ¬OwnsBuffer s .run := by
  obtain ⟨s, hs, hpc, hfill, hbusy, t, ht⟩ : ∃ s,
      fillAndSignal.foldlM DmaSys.step boundSys = some s ∧ s.pc = .start .ret ∧ s.k.fill = 0 ∧
        ⟨0, 0, 0x1000, 4⟩ ∈ s.outstanding ∧ ∃ t, s.Step .run t :=
    ⟨_, rfl, rfl, rfl, .head _, _, rfl⟩
  have hactions : ∀ a ∈ fillAndSignal, a.SubmitsOrSignals := by
    simp [fillAndSignal, DmaAct.SubmitsOrSignals]
  refine ⟨s, t, (Path.of_foldlM hs).along hactions, ht, fun howns => ?_⟩
  exact howns hpc rfl _ hbusy hfill.symm

end OsProjects.Driver
