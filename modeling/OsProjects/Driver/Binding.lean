import OsProjects.Driver.Teardown

/-!
# Issuing from bound buffers

`bind_dma` and `on_time_unbind_dma` look at `dma_mapped`; `start_dma` does not. While
DMA is bound the queue only holds buffers of the current binding, and unbinding drains
it first, so every address issued is that of an allocated buffer, provided that
`pci_alloc_consistent` granted it: `bind_dma` does not look at what it returns. A
`START_DMA` in between, however, finds `fill == drain` and issues whatever address the
first buffer has left over.

## Main definitions

* `DmaAct.Binds` — the calls considered, with what the kernel answers
* `IssuesBound`, `SucceedsBound` — addresses put in the FIFO are of allocated buffers,
  and `START_DMA` succeeds only while DMA is bound
* `StartsBound`, `StartsGranted` — an accepted `START_DMA` finds DMA bound, and submits a
  buffer that was granted

## Main results

* `DmaSys.Step.sameBuffers` — what leaves the buffers where they are
* `issues_bound` — along every run the addresses issued are those of allocated buffers if
  submissions are made while bound, and to buffers that were granted
-/

namespace OsProjects.Driver

open Run

/-- The client binds, submits and unbinds in any order. The kernel may refuse `bind_dma`
any buffer; one that it grants is not at a null address, and at a bus address the card can
be given. -/
def DmaAct.Binds : DmaAct → Prop
  | .bind env => ∀ i kBase pBase, env.alloc i = some (kBase, pBase) → kBase ≠ 0 ∧ pBase < 2 ^ 32
  | .start _ | .unbind | .run | .exec | .intr _ => True
  | _ => False

theorem DmaAct.Binds.ne {a : DmaAct} (ha : a.Binds) : a ≠ .release ∧ a ≠ .signal := by
  constructor
  · rintro rfl
    exact ha
  · rintro rfl
    exact ha

/-- The driver holds the memory of buffer `i`, at an address the card can be given. -/
def Kyouko3.Allocated (k : Kyouko3) (i : Fin dmaNumBuffs) : Prop :=
  (k.dmaBuffers i).pBase < 2 ^ 32 ∧
    .coherent dmaBuffSize (k.dmaBuffers i).kBase (k.dmaBuffers i).pBase ∈ k.held

/-- Whenever this step puts a `BufferAAddress` command in the FIFO, DMA is bound and
the address is that of an allocated buffer. -/
def IssuesBound (s t : DmaSys) : Prop :=
  ∀ e ∈ t.k.fifo.log.drop s.k.fifo.log.length, e.command = bufferAAddress →
    t.k.dmaMapped = true ∧ ∃ i, e.value = (t.k.dmaBuffers i).pBase ∧ t.k.Allocated i

/-- If `START_DMA` reports success in this step, DMA is bound. -/
def SucceedsBound (s : DmaSys) (a : DmaAct) : Prop :=
  s.pc = .start .ret → a = .run → (s.k.dmaBuffers s.k.fill).uBase ≠ 0 → s.k.dmaMapped = true

/-- If this step is an accepted `START_DMA`, DMA is bound. -/
def StartsBound (s : DmaSys) (a : DmaAct) : Prop :=
  ∀ count, a = .start count → Kyouko3.startDmaRefuses count = false → s.k.dmaMapped = true

/-- If this step is an accepted `START_DMA`, the `k_base` of the buffer it submits is not
null. -/
def StartsGranted (s : DmaSys) (a : DmaAct) : Prop :=
  ∀ count, a = .start count → Kyouko3.startDmaRefuses count = false →
    (s.k.dmaBuffers s.k.fill).kBase ≠ 0

/-- Two driver states with the same buffers at the same addresses. -/
structure SameBuffers (k k' : Kyouko3) : Prop where
  dmaMapped : k'.dmaMapped = k.dmaMapped
  held : k'.held = k.held
  pBase : ∀ i, (k'.dmaBuffers i).pBase = (k.dmaBuffers i).pBase
  kBase : ∀ i, (k'.dmaBuffers i).kBase = (k.dmaBuffers i).kBase
  uBase : ∀ i, (k'.dmaBuffers i).uBase = (k.dmaBuffers i).uBase

theorem SameBuffers.of_eq {k k' : Kyouko3} (hmapped : k'.dmaMapped = k.dmaMapped)
    (hheld : k'.held = k.held) (hbuffers : k'.dmaBuffers = k.dmaBuffers) : SameBuffers k k' :=
  ⟨hmapped, hheld, fun _ => by rw [hbuffers], fun _ => by rw [hbuffers], fun _ => by rw [hbuffers]⟩

theorem SameBuffers.allocated {k k' : Kyouko3} (h : SameBuffers k k') {i : Fin dmaNumBuffs}
    (hi : k.Allocated i) : k'.Allocated i := by
  rw [Kyouko3.Allocated, h.pBase, h.kBase, h.held]
  exact hi

/-- A `bind_dma` that is not refused allocates every buffer whose `k_base` it leaves
other than null. -/
theorem Kyouko3.allocated_bindDma {k : Kyouko3} {env : BindEnv} (henv : (DmaAct.bind env).Binds)
    (hmapped : k.dmaMapped = false) (hmsi : env.enableMsi = 0) (hirq : env.requestIrq = 0)
    {i : Fin dmaNumBuffs} (hi : ((k.bindDma env).2.dmaBuffers i).kBase ≠ 0) :
    (k.bindDma env).2.Allocated i := by
  rw [bindDma_accepted hmapped hmsi hirq] at hi ⊢
  cases halloc : env.alloc i with
  | none =>
    exact absurd (foldl_bindBuffer_refused ((k.acquire .msi).acquire .irq) env halloc
      (List.finRange dmaNumBuffs) (.inl (List.mem_finRange i))) hi
  | some bases =>
    obtain ⟨kBase, pBase⟩ := bases
    have hbound := foldl_bindBuffer_boundTo ((k.acquire .msi).acquire .irq) env halloc
      (List.finRange dmaNumBuffs) (.inl (List.mem_finRange i))
    simp only [Allocated, kWriteRegister_dmaBuffers, kWriteRegister_held, hbound.kBase_eq,
      hbound.pBase_eq]
    exact ⟨(henv i kBase pBase halloc).2, hbound.held⟩

/-! ### The runs considered -/

namespace DmaSys

variable {s t : DmaSys}

/-- The client has not begun to release the device. -/
def Open (s : DmaSys) : Prop :=
  match s.pc with
  | .late .release _ | .graphics | .flush | .closed => False
  | _ => True

theorem Open.not_gone (h : s.Open) : ¬s.pc.Gone := by
  intro hgone
  unfold ClientPc.Gone at hgone
  unfold Open at h
  split at hgone <;> simp_all

/-- Nothing but a release closes the device. -/
theorem Open.step {a : DmaAct} (hopen : s.Open) (h : s.Step a t) (hrelease : a ≠ .release) :
    t.Open := by
  cases a with
  | bind env =>
    obtain ⟨hpc, rfl⟩ := Step.bind h
    simp [Open, DmaSys.bind, hpc]
  | start count =>
    obtain ⟨hpc, rfl⟩ := Step.start h
    unfold DmaSys.start
    split
    · exact hopen
    · trivial
  | unbind =>
    obtain ⟨-, ⟨-, rfl⟩ | ⟨-, rfl⟩⟩ := Step.unbind h
    · trivial
    · exact hopen
  | release => exact absurd rfl hrelease
  | run =>
    rcases h.run with ⟨pc, r, hpc, hr, rfl⟩ | ⟨hpc, rfl⟩ | ⟨caller, pc, pc', hpc, -, rfl⟩ |
      ⟨caller, hpc, rfl⟩ | ⟨hgone, -⟩
    · trivial
    · trivial
    · cases caller with
      | unbind => trivial
      | release => simp [Open, hpc] at hopen
    · cases caller with
      | unbind => trivial
      | release => simp [Open, hpc] at hopen
    · exact absurd hgone hopen.not_gone
  | signal =>
    rcases h.signal with ⟨-, rfl⟩ | ⟨caller, hpc, rfl⟩
    · trivial
    · cases caller with
      | unbind => trivial
      | release => rcases hpc with hpc | ⟨since, hpc⟩ <;> simp [Open, hpc] at hopen
  | exec =>
    obtain ⟨c, -, rfl⟩ := h.exec
    exact hopen
  | intr iflags =>
    obtain ⟨-, ⟨-, rfl⟩ | ⟨-, -, rfl⟩⟩ := h.intr <;> exact hopen

/-- Only `BIND_DMA` and the end of `late_unbind_dma` change which buffers there are, and
when that one has freed them DMA is unbound. -/
theorem Step.sameBuffers {a : DmaAct} (h : s.Step a t) (hopen : s.Open) (ha : ∀ env, a ≠ .bind env)
    (hrelease : a ≠ .release) (hmapped : t.k.dmaMapped = true) : SameBuffers s.k t.k := by
  cases a with
  | bind env => exact absurd rfl (ha env)
  | start count =>
    obtain ⟨-, rfl⟩ := Step.start h
    rcases s.k.startDma_cases count with hcount | ⟨hcount, hfd⟩ | ⟨hcount, hfd⟩
    · rw [start_refused hcount]
      exact .of_eq rfl rfl rfl
    · rw [start_issue hcount hfd]
      exact .of_eq rfl rfl rfl
    · have hsame := Kyouko3.update_storedCount s.k.dmaBuffers s.k.fill
      rw [start_queued hcount hfd]
      exact ⟨rfl, rfl, fun i => (hsame i count).1, fun i => (hsame i count).2.1,
        fun i => (hsame i count).2.2⟩
  | unbind =>
    obtain ⟨-, ⟨-, rfl⟩ | ⟨-, rfl⟩⟩ := Step.unbind h
    · exact .of_eq rfl rfl rfl
    · exact .of_eq rfl rfl rfl
  | release => exact absurd rfl hrelease
  | run =>
    rcases h.run with ⟨pc, r, -, hr, rfl⟩ | ⟨-, rfl⟩ | ⟨caller, pc, pc', -, -, rfl⟩ |
      ⟨caller, -, rfl⟩ | ⟨hgone, -⟩
    · obtain ⟨-, -, hbuffers, hm, hheld⟩ := Kyouko3.startStep_frame hr
      exact .of_eq hm hheld hbuffers
    · exact .of_eq rfl rfl rfl
    · exact .of_eq rfl rfl rfl
    · obtain ⟨held, hlate⟩ := s.k.lateUnbindDma_eq
      rw [hlate] at hmapped
      cases hmapped
    · exact absurd hgone hopen.not_gone
  | signal =>
    rcases h.signal with ⟨-, rfl⟩ | ⟨caller, -, rfl⟩
    · exact .of_eq rfl rfl rfl
    · exact .of_eq rfl rfl rfl
  | exec =>
    obtain ⟨c, -, rfl⟩ := h.exec
    exact .of_eq rfl rfl rfl
  | intr iflags =>
    obtain ⟨-, ⟨-, rfl⟩ | ⟨-, -, rfl⟩⟩ := h.intr
    · exact .of_eq (by simp) (by simp) (by simp)
    · exact .of_eq (by simp) (by simp) (by simp)

/-- An accepted `START_DMA` takes the client into the driver. -/
theorem Step.start_accepted {count : Int32} (h : s.Step (.start count) t)
    (hcount : Kyouko3.startDmaRefuses count = false) :
    s.pc = .user ∧ t.accepted = s.accepted ++ [s.submission count] ∧ t.card = s.card ∧
      t.k.dmaMapped = s.k.dmaMapped ∧ t.pc ≠ .user := by
  obtain ⟨hpc, rfl⟩ := Step.start h
  rcases s.k.startDma_cases count with hrefused | ⟨-, hfd⟩ | ⟨-, hfd⟩
  · rw [hcount] at hrefused
    cases hrefused
  · rw [start_issue hcount hfd]
    exact ⟨hpc, rfl, rfl, rfl, nofun⟩
  · rw [start_queued hcount hfd]
    exact ⟨hpc, rfl, rfl, rfl, nofun⟩

/-- No other step submits anything or takes back a completion. -/
theorem Step.accepted_eq {a : DmaAct} (h : s.Step a t) (hopen : s.Open)
    (ha : ∀ count, a = .start count → Kyouko3.startDmaRefuses count = true) :
    t.accepted = s.accepted ∧ s.card.completed ≤ t.card.completed := by
  cases a with
  | bind env =>
    obtain ⟨-, rfl⟩ := Step.bind h
    exact ⟨rfl, le_rfl⟩
  | start count =>
    obtain ⟨-, rfl⟩ := Step.start h
    rw [start_refused (ha count rfl)]
    exact ⟨rfl, le_rfl⟩
  | unbind =>
    obtain ⟨-, ⟨-, rfl⟩ | ⟨-, rfl⟩⟩ := Step.unbind h
    · exact ⟨rfl, le_rfl⟩
    · exact ⟨rfl, le_rfl⟩
  | release =>
    obtain ⟨-, ⟨-, rfl⟩ | ⟨-, rfl⟩⟩ := Step.release h
    · exact ⟨rfl, le_rfl⟩
    · exact ⟨rfl, le_rfl⟩
  | run =>
    rcases h.run with ⟨pc, r, -, -, rfl⟩ | ⟨-, rfl⟩ | ⟨caller, pc, pc', -, -, rfl⟩ |
      ⟨caller, -, rfl⟩ | ⟨hgone, -⟩
    · exact ⟨rfl, le_rfl⟩
    · exact ⟨rfl, le_rfl⟩
    · exact ⟨rfl, le_rfl⟩
    · exact ⟨rfl, le_rfl⟩
    · exact absurd hgone hopen.not_gone
  | signal =>
    rcases h.signal with ⟨-, rfl⟩ | ⟨caller, -, rfl⟩
    · exact ⟨rfl, le_rfl⟩
    · exact ⟨rfl, le_rfl⟩
  | exec =>
    obtain ⟨c, hc, rfl⟩ := h.exec
    obtain ⟨-, rfl⟩ := Card.exec_eq_some_iff.mp hc
    exact ⟨rfl, le_rfl⟩
  | intr iflags =>
    obtain ⟨-, ⟨-, rfl⟩ | ⟨-, -, rfl⟩⟩ := h.intr
    · exact ⟨rfl, le_rfl⟩
    · exact ⟨rfl, Nat.le_succ _⟩

/-- What is outstanding after a step was so before, or is what the step submits. -/
theorem Step.outstanding_cases {a : DmaAct} (h : s.Step a t) (hopen : s.Open) {x : Submission}
    (hx : x ∈ t.outstanding) : x ∈ s.outstanding ∨
      ∃ count, a = .start count ∧ Kyouko3.startDmaRefuses count = false ∧
        x = s.submission count := by
  by_cases hstart : ∃ count, a = .start count ∧ Kyouko3.startDmaRefuses count = false
  · obtain ⟨count, rfl, hcount⟩ := hstart
    obtain ⟨-, haccepted, hcard, -, -⟩ := h.start_accepted hcount
    rw [outstanding, haccepted, hcard, List.drop_append] at hx
    rcases List.mem_append.mp hx with hx | hx
    · exact .inl hx
    · exact .inr ⟨count, rfl, hcount, List.mem_singleton.mp (List.mem_of_mem_drop hx)⟩
  · push Not at hstart
    obtain ⟨haccepted, hle⟩ := h.accepted_eq hopen fun count heq => by simpa using hstart count heq
    rw [outstanding, haccepted] at hx
    exact .inl (List.drop_subset_drop_left _ hle hx)

/-! ### While DMA is bound -/

/-- What holds as long as submissions are only made while DMA is bound. -/
structure Binding (s : DmaSys) : Prop where
  tidy : Tidy 0 s
  notFull : NotFull s
  isOpen : s.Open

/-- What holds if, moreover, they are only made of buffers that were granted: what is
outstanding is in allocated buffers. -/
structure Supplied (s : DmaSys) : Prop extends Binding s where
  granted : s.k.dmaMapped = true → ∀ i, (s.k.dmaBuffers i).kBase ≠ 0 → s.k.Allocated i
  queued : s.k.dmaMapped = true → ∀ x ∈ s.outstanding, s.k.Allocated x.buffer

theorem supplied_opened {k : Kyouko3} {env : OpenEnv} (hk : k.Idle)
    (hstart : env.control (fifoHead >>> 2) = 0) : Supplied (opened k env) where
  tidy := tidy_opened hk hstart
  notFull _ _ := by
    have hq : (opened k env).k.queuedCount = 0 := hk.queuedCount
    rw [hq]
    decide
  isOpen := trivial
  granted := nofun
  queued := nofun

theorem Binding.orderly {a : DmaAct} (hs : Binding s) (h : s.Step a t) (ha : a.Binds)
    (hstart : StartsBound s a) : Orderly s a := by
  cases a with
  | start count =>
    obtain ⟨hpc, -⟩ := Step.start h
    intro hcount
    exact ⟨hstart count rfl hcount,
      hs.notFull (by simp [hpc, ClientPc.Waiting]) (by simp [hpc, ClientPc.Gone])⟩
  | signal => exact ha.elim
  | release => exact ha.elim
  | _ => trivial

/-- Every step with submissions to a bound queue only. -/
theorem Binding.step {a : DmaAct} (hs : Binding s) (h : s.Step a t) (ha : a.Binds)
    (hstart : StartsBound s a) : Binding t := by
  obtain ⟨d, hd⟩ := hs.tidy.inv
  exact ⟨hs.tidy.step h (hs.orderly h ha hstart), hd.notFull hs.notFull h ha.ne.2,
    hs.isOpen.step h ha.ne.1⟩

/-- While DMA is bound, a buffer that was granted is allocated. -/
theorem Supplied.granted_step {a : DmaAct} (hs : Supplied s) (h : s.Step a t) (ha : a.Binds)
    (hmapped : t.k.dmaMapped = true) {i : Fin dmaNumBuffs}
    (hi : (t.k.dmaBuffers i).kBase ≠ 0) : t.k.Allocated i := by
  by_cases hbind : ∃ env, a = .bind env
  · obtain ⟨env, rfl⟩ := hbind
    obtain ⟨-, rfl⟩ := Step.bind h
    rcases s.k.bindDma_cases env with hrefused | ⟨hunmapped, hmsi, hirq⟩
    · simp only [DmaSys.bind, hrefused] at hmapped hi ⊢
      exact hs.granted hmapped i hi
    · exact Kyouko3.allocated_bindDma ha hunmapped hmsi hirq hi
  · have hsame := h.sameBuffers hs.isOpen (not_exists.mp hbind) ha.ne.1 hmapped
    rw [hsame.kBase] at hi
    exact hsame.allocated (hs.granted (hsame.dmaMapped.symm.trans hmapped) i hi)

/-- While DMA is bound, what is outstanding is in allocated buffers: a binding begins with
nothing outstanding. -/
theorem Supplied.queued_step {a : DmaAct} (hs : Supplied s) (h : s.Step a t) (ha : a.Binds)
    (hgranted : StartsGranted s a) (hmapped : t.k.dmaMapped = true) {x : Submission}
    (hx : x ∈ t.outstanding) : t.k.Allocated x.buffer := by
  have hbefore := h.outstanding_cases hs.isOpen hx
  by_cases hbind : ∃ env, a = .bind env
  · obtain ⟨env, rfl⟩ := hbind
    have hx' : x ∈ s.outstanding := hbefore.resolve_right (by rintro ⟨count, heq, -⟩; cases heq)
    obtain ⟨hpc, rfl⟩ := Step.bind h
    rcases s.k.bindDma_cases env with hrefused | ⟨hunmapped, -, -⟩
    · simp only [DmaSys.bind, hrefused] at hmapped ⊢
      exact hs.queued hmapped x hx'
    · have hsettled := hs.tidy.settled
      rw [Settled, hpc] at hsettled
      rw [outstanding, ← hsettled hunmapped, List.drop_length] at hx'
      cases hx'
  · have hsame := h.sameBuffers hs.isOpen (not_exists.mp hbind) ha.ne.1 hmapped
    have hsmapped := hsame.dmaMapped.symm.trans hmapped
    apply hsame.allocated
    rcases hbefore with hx' | ⟨count, heq, hcount, rfl⟩
    · exact hs.queued hsmapped x hx'
    · exact hs.granted hsmapped s.k.fill (hgranted count heq hcount)

/-- Every step with submissions of granted buffers to a bound queue only. -/
theorem Supplied.step {a : DmaAct} (hs : Supplied s) (h : s.Step a t) (ha : a.Binds)
    (hstart : StartsBound s a) (hgranted : StartsGranted s a) : Supplied t :=
  ⟨hs.toBinding.step h ha hstart, fun hmapped _ hi => hs.granted_step h ha hmapped hi,
    fun hmapped _ hx => hs.queued_step h ha hgranted hmapped hx⟩

/-! ### What is put in the FIFO -/

theorem issuesBound_of_log (h : t.k.fifo.log = s.k.fifo.log) : IssuesBound s t := by
  intro e he
  rw [h, List.drop_length] at he
  cases he

/-- The new entries, one by one. -/
theorem issuesBound_of_append {es : List FifoEntry} (h : t.k.fifo.log = s.k.fifo.log ++ es)
    (hes : ∀ e ∈ es, e.command = bufferAAddress →
      t.k.dmaMapped = true ∧ ∃ i, e.value = (t.k.dmaBuffers i).pBase ∧ t.k.Allocated i) :
    IssuesBound s t := by
  intro e he
  rw [h, List.drop_left] at he
  exact hes e he

/-- A bus address of an allocated buffer, as put in the FIFO. -/
theorem issuesBound_address (hmapped : t.k.dmaMapped = true) {i : Fin dmaNumBuffs} {value : ℕ}
    (hvalue : value = u32 (t.k.dmaBuffers i).pBase) (halloc : t.k.Allocated i) :
    t.k.dmaMapped = true ∧ ∃ i, value = (t.k.dmaBuffers i).pBase ∧ t.k.Allocated i :=
  ⟨hmapped, i, by rw [hvalue, u32, Nat.mod_eq_of_lt halloc.1], halloc⟩

/-- What is accepted and not completed is outstanding. -/
theorem mem_outstanding {i : ℕ} {x : Submission} (hi : s.card.completed ≤ i)
    (hx : s.accepted[i]? = some x) : x ∈ s.outstanding := by
  rw [outstanding, List.mem_iff_getElem?]
  exact ⟨i - s.card.completed, by rw [List.getElem?_drop, Nat.add_sub_cancel' hi, hx]⟩

/-- The buffer of an outstanding submission is allocated. -/
theorem Supplied.allocated (hs : Supplied s) (hmapped : s.k.dmaMapped = true)
    {d handed written i : ℕ} (hqueue : Queue 0 d s.k s.card s.accepted handed written)
    (hle : s.card.completed ≤ i) (hlt : i < s.accepted.length) :
    s.k.Allocated (bufferAt d i) := by
  rw [← (hqueue.buffer i hlt hle).1]
  exact hs.queued hmapped _ (mem_outstanding hle (List.getElem?_eq_getElem hlt))

theorem Supplied.issuesBound_run (hs : Supplied s) (h : s.Step .run t) : IssuesBound s t := by
  have hsettled := hs.tidy.settled
  obtain ⟨d, hd⟩ := hs.tidy.inv
  rcases h.run with ⟨pc, r, hpc, hr, rfl⟩ | ⟨-, rfl⟩ | ⟨caller, pc, pc', -, -, rfl⟩ |
    ⟨caller, -, rfl⟩ | ⟨hgone, -⟩
  · simp only [Settled, hpc] at hsettled
    cases pc with
    | address count =>
      simp only [Inv, hpc] at hd
      obtain ⟨hissuing, ⟨hsole, -⟩, -⟩ := hd
      have halloc : s.k.Allocated s.k.drain := by
        rw [hissuing.drain]
        refine hs.allocated hsettled hissuing le_rfl ?_
        rw [Sole] at hsole
        omega
      cases hr
      apply issuesBound_of_append (Fifo.write_log _ _ _)
      intro e he _
      obtain rfl := List.mem_singleton.mp he
      exact issuesBound_address hsettled rfl halloc
    | config count =>
      cases hr
      apply issuesBound_of_append (Fifo.write_log _ _ _)
      intro e he haddress
      obtain rfl := List.mem_singleton.mp he
      exact absurd haddress (show bufferAConfig ≠ bufferAAddress by decide)
    | wait =>
      simp only [Kyouko3.startStep] at hr
      split at hr <;> cases hr <;> exact issuesBound_of_log rfl
    | sleep since =>
      simp only [Kyouko3.startStep] at hr
      split at hr <;> cases hr
      exact issuesBound_of_log rfl
    | ret => cases hr
    | _ =>
      cases hr
      exact issuesBound_of_log rfl
  · exact issuesBound_of_log rfl
  · exact issuesBound_of_log rfl
  · obtain ⟨held, hlate⟩ := s.k.lateUnbindDma_eq
    apply issuesBound_of_log
    simp only [hlate, Kyouko3.kWriteRegister_fifo]
  · exact absurd hgone hs.isOpen.not_gone

theorem Supplied.issuesBound_intr {iflags : ℕ} (hs : Supplied s) (h : s.Step (.intr iflags) t) :
    IssuesBound s t := by
  obtain ⟨-, ⟨hflag, rfl⟩ | ⟨hflag, hstarted, rfl⟩⟩ := h.intr
  · apply issuesBound_of_log
    simp only [(Kyouko3.dmaIntr_fifo_of_last (.inl hflag)).1]
  · by_cases hlast : iflags &&& 0x02 = 0 ∨ s.k.queuedCount = 1
    · apply issuesBound_of_log
      simp only [(Kyouko3.dmaIntr_fifo_of_last hlast).1]
    · have hmapped := (hs.tidy.mapped_of_started hs.isOpen.not_gone hstarted).1
      obtain ⟨d, hd⟩ := hs.tidy.inv
      obtain ⟨handed, written, -, hqueue⟩ := hd.queue hs.isOpen.not_gone
      have hlt := (hqueue.of_started hstarted).1
      have hcount := hqueue.queuedCount
      have halloc : s.k.Allocated (nextBuffer s.k.drain) := by
        rw [hqueue.drain, nextBuffer_bufferAt]
        exact hs.allocated hmapped hqueue (Nat.le_succ _) (by omega)
      have hlog : (s.k.dmaIntr iflags).2.fifo.log = s.k.fifo.log ++ [
          ⟨bufferAAddress, u32 (s.k.dmaBuffers (nextBuffer s.k.drain)).pBase⟩,
          ⟨bufferAConfig, unsigned (s.k.dmaBuffers (nextBuffer s.k.drain)).storedCount⟩] := by
        simp only [(Kyouko3.dmaIntr_fifo_of_more hlast).1, Fifo.write_log, List.append_assoc,
          List.singleton_append]
      apply issuesBound_of_append hlog
      intro e he haddress
      rcases List.mem_cons.mp he with rfl | he
      · refine issuesBound_address (i := nextBuffer s.k.drain) ?_ ?_ ?_
        · simpa using hmapped
        · simp
        · simpa [Kyouko3.Allocated] using halloc
      · obtain rfl := List.mem_singleton.mp he
        exact absurd haddress (show bufferAConfig ≠ bufferAAddress by decide)

/-- In a supplied state every step issues from bound buffers, and a success is one of a
bound client. -/
theorem Supplied.issuesBound {a : DmaAct} (hs : Supplied s) (h : s.Step a t) (ha : a.Binds) :
    IssuesBound s t ∧ SucceedsBound s a := by
  constructor
  · cases a with
    | bind env =>
      obtain ⟨-, rfl⟩ := Step.bind h
      apply issuesBound_of_log
      rcases s.k.bindDma_cases env with hrefused | ⟨hmapped, hmsi, hirq⟩
      · simp only [DmaSys.bind, hrefused]
      · obtain ⟨buffers, held, hloop⟩ := Kyouko3.foldl_bindBuffer
          ((s.k.acquire .msi).acquire .irq) env (List.finRange dmaNumBuffs)
        simp only [DmaSys.bind, Kyouko3.bindDma_accepted hmapped hmsi hirq,
          hloop, Kyouko3.kWriteRegister_fifo, Kyouko3.acquire_fifo]
    | start count =>
      obtain ⟨-, rfl⟩ := Step.start h
      apply issuesBound_of_log
      rcases s.k.startDma_cases count with hcount | ⟨hcount, hfd⟩ | ⟨hcount, hfd⟩
      · rw [start_refused hcount]
      · rw [start_issue hcount hfd]
      · rw [start_queued hcount hfd]
    | unbind =>
      obtain ⟨-, ⟨-, rfl⟩ | ⟨-, rfl⟩⟩ := Step.unbind h
      · exact issuesBound_of_log rfl
      · exact issuesBound_of_log rfl
    | run => exact hs.issuesBound_run h
    | exec =>
      obtain ⟨c, -, rfl⟩ := h.exec
      exact issuesBound_of_log rfl
    | intr iflags => exact hs.issuesBound_intr h
    | _ => exact ha.elim
  · intro hpc _ _
    have hsettled := hs.tidy.settled
    rwa [Settled, hpc] at hsettled

/-! ### A submission to unbound buffers -/

/-- DMA is unbound and the client is about to issue a buffer. -/
def Stray (s : DmaSys) : Prop :=
  s.k.dmaMapped = false ∧
    ((∃ count, s.pc = .start (.fill count)) ∨ ∃ count, s.pc = .start (.address count))

/-- An accepted `START_DMA` while DMA is unbound finds `fill == drain`. -/
theorem Binding.stray {a : DmaAct} (hs : Binding s) (h : s.Step a t)
    (hstart : ¬StartsBound s a) : Stray t := by
  simp only [StartsBound, not_forall] at hstart
  obtain ⟨count, rfl, hcount, hmapped⟩ := hstart
  obtain ⟨hpc, rfl⟩ := Step.start h
  have hmapped' : s.k.dmaMapped = false := by simpa using hmapped
  obtain ⟨d, hd⟩ := hs.tidy.inv
  have hrest : Rest 0 d s.k s.card s.accepted := hd.rest (by simp [hpc, AtRest])
  have hsettled := hs.tidy.settled
  rw [Settled, hpc] at hsettled
  have hfd : s.k.fill = s.k.drain := by rw [hrest.fill, hrest.drain, hsettled hmapped']
  rw [start_issue hcount hfd]
  exact ⟨hmapped', .inl ⟨count, rfl⟩⟩

/-- It is stuck there until it puts an address in the FIFO. -/
theorem Stray.step {a : DmaAct} (hs : Stray s) (h : s.Step a t) (ha : a.Binds)
    (hissues : IssuesBound s t) : Stray t := by
  obtain ⟨hmapped, hpc⟩ := hs
  have huser : s.pc ≠ .user := by
    rintro huser
    rcases hpc with ⟨count, hpc⟩ | ⟨count, hpc⟩ <;> simp [huser] at hpc
  cases a with
  | bind env => exact absurd (Step.bind h).1 huser
  | start count => exact absurd (Step.start h).1 huser
  | unbind => exact absurd (Step.unbind h).1 huser
  | run =>
    rcases hpc with ⟨count, hpc⟩ | ⟨count, hpc⟩
    · simp only [Step, DmaSys.step, DmaSys.run, hpc, Kyouko3.startStep, Option.map_some] at h
      cases h
      exact ⟨hmapped, .inr ⟨count, rfl⟩⟩
    · simp only [Step, DmaSys.step, DmaSys.run, hpc, Kyouko3.startStep, Option.map_some] at h
      cases h
      have hbad := hissues ⟨bufferAAddress, u32 (s.k.dmaBuffers s.k.drain).pBase⟩ (by simp) rfl
      exact absurd (hmapped.symm.trans hbad.1) (by decide)
  | exec =>
    obtain ⟨c, -, rfl⟩ := h.exec
    exact ⟨hmapped, hpc⟩
  | intr iflags =>
    obtain ⟨-, ⟨-, rfl⟩ | ⟨-, -, rfl⟩⟩ := h.intr
    · exact ⟨by simpa using hmapped, hpc⟩
    · exact ⟨by simpa using hmapped, hpc⟩
  | _ => exact ha.elim

end DmaSys

/-- A step of the runs considered that starts DMA only while it is bound. -/
def StepsBound (s : DmaSys) (a : DmaAct) (_ : DmaSys) : Prop := a.Binds ∧ StartsBound s a

/-- A step that, moreover, starts DMA only with a buffer that was granted. -/
def StepsGranted (s : DmaSys) (a : DmaAct) (t : DmaSys) : Prop :=
  StepsBound s a t ∧ StartsGranted s a

/-- A step of the runs considered that issues, and succeeds, only while DMA is bound. -/
def StepsIssueBound (s : DmaSys) (a : DmaAct) (t : DmaSys) : Prop :=
  a.Binds ∧ IssuesBound s t ∧ SucceedsBound s a

namespace DmaSys

variable {s t : DmaSys}

/-- A run that puts no address of an unbound buffer in the FIFO, and has left the
driver, made no submission while DMA was unbound. -/
theorem Binding.startsBound_of_issues {as : List DmaAct} (hs : Binding s)
    (h : Along Step StepsIssueBound s as t) (hpc : t.pc = .user) :
    Along Step StepsBound s as t := by
  induction h with
  | nil s => exact Along.nil s
  | @cons s m t a as hstep hQ hrest ih =>
    by_cases hstart : StartsBound s a
    · exact Along.cons hstep ⟨hQ.1, hstart⟩ (ih (hs.step hstep hQ.1 hstart) hpc)
    · have hstray : Stray t := hrest.invariant Stray
        (fun _ _ _ hs h hQ => hs.step h hQ.1 hQ.2.1) (hs.stray hstep hstart)
      rcases hstray.2 with ⟨count, hpc'⟩ | ⟨count, hpc'⟩ <;> simp [hpc] at hpc'

end DmaSys

/-- **Addresses of bound buffers only, when submissions are made while bound.** Along every
run from the opening of the device, whatever the kernel grants: if every accepted
`START_DMA` finds DMA bound and submits a buffer that was granted, then every address put
in the FIFO is that of an allocated buffer while DMA is bound, and `START_DMA` succeeds
only then; and in a run that ends outside the driver it is necessary that every accepted
`START_DMA` finds DMA bound. -/
theorem issues_bound (k : Kyouko3) (env : OpenEnv) (hk : k.Idle)
    (hstart : env.control (fifoHead >>> 2) = 0) (as : List DmaAct) (t : DmaSys) :
    (Along DmaSys.Step StepsGranted (DmaSys.opened k env) as t →
        Along DmaSys.Step StepsIssueBound (DmaSys.opened k env) as t) ∧
      (t.pc = .user → Along DmaSys.Step StepsIssueBound (DmaSys.opened k env) as t →
        Along DmaSys.Step StepsBound (DmaSys.opened k env) as t) := by
  have hs := DmaSys.supplied_opened hk hstart
  constructor
  · intro h
    refine h.imp_of_invariant DmaSys.Supplied ?_ ?_ hs
    · exact fun _ _ _ hs h hP => hs.step h hP.1.1 hP.1.2 hP.2
    · exact fun _ _ _ hs h hP => ⟨hP.1.1, hs.issuesBound h hP.1.1⟩
  · intro hpc h
    exact hs.toBinding.startsBound_of_issues h hpc

/-- One buffer bound, submitted, waited for and unbound. -/
def bindAndUnbind : List DmaAct :=
  [.bind grantingBindEnv, .start 4, .run, .run, .run, .run, .run, .run, .exec, .exec, .intr 2,
    .unbind, .run, .run]

theorem issues_bound_one :
    ∃ t, t.pc = .user ∧
      Along DmaSys.Step StepsIssueBound (DmaSys.opened .zero zeroOpenEnv) bindAndUnbind t ∧
      Along DmaSys.Step StepsBound (DmaSys.opened .zero zeroOpenEnv) bindAndUnbind t := by
  have hgrant : (DmaAct.bind grantingBindEnv).Binds := by
    intro i kBase pBase halloc
    have hi : (i : ℕ) < 8 := i.isLt
    simp only [grantingBindEnv, Option.some.injEq, Prod.mk.injEq] at halloc
    omega
  have hother : ∀ {s t : DmaSys} {a : DmaAct}, a.Binds → (∀ count, a ≠ .start count) →
      StepsGranted s a t := fun ha hne =>
    ⟨⟨ha, fun count heq => absurd heq (hne count)⟩, fun count heq => absurd heq (hne count)⟩
  obtain ⟨t, hpc, hbound⟩ : ∃ t, t.pc = .user ∧
      Along DmaSys.Step StepsGranted (DmaSys.opened .zero zeroOpenEnv) bindAndUnbind t := by
    refine ⟨_, rfl, .cons rfl (hother hgrant nofun) <|
      .cons rfl ⟨⟨trivial, fun _ _ _ => rfl⟩, fun _ _ _ => ?_⟩ <|
      .cons rfl (hother trivial nofun) <| .cons rfl (hother trivial nofun) <|
      .cons rfl (hother trivial nofun) <| .cons rfl (hother trivial nofun) <|
      .cons rfl (hother trivial nofun) <| .cons rfl (hother trivial nofun) <|
      .cons rfl (hother trivial nofun) <| .cons rfl (hother trivial nofun) <|
      .cons rfl (hother trivial nofun) <| .cons rfl (hother trivial nofun) <|
      .cons rfl (hother trivial nofun) <| .cons rfl (hother trivial nofun) <| .nil _⟩
    decide
  have hboth := issues_bound .zero zeroOpenEnv Kyouko3.zero_idle rfl bindAndUnbind t
  exact ⟨t, hpc, hboth.1 hbound, hboth.2 hpc (hboth.1 hbound)⟩

/-- `START_DMA` right after `open` puts an address in the FIFO while DMA is unbound. -/
theorem unbound_start_issues :
    ∃ s t, Along DmaSys.Step (fun _ a _ => a.Binds) (DmaSys.opened .zero zeroOpenEnv)
        [.start 4, .run] s ∧ s.Step .run t ∧ ¬IssuesBound s t := by
  refine ⟨_, _, .cons rfl trivial <| .cons rfl trivial <| .nil _, rfl, fun h => ?_⟩
  exact absurd (h ⟨bufferAAddress, 0⟩ (.head _) rfl).1 (by decide)

/-- A kernel that grants `bind_dma` its interrupt and no buffer. -/
def refusingBindEnv : BindEnv := { grantingBindEnv with alloc := fun _ => none }

/-- `START_DMA` of a buffer that was not granted puts an address in the FIFO that is of no
allocated buffer. -/
theorem ungranted_start_issues :
    ∃ s t, Along DmaSys.Step StepsBound (DmaSys.opened .zero zeroOpenEnv)
        [.bind refusingBindEnv, .start 4, .run] s ∧ s.Step .run t ∧ ¬IssuesBound s t := by
  refine ⟨_, _, .cons rfl ⟨nofun, nofun⟩ <| .cons rfl ⟨trivial, fun _ _ _ => rfl⟩ <|
    .cons rfl ⟨trivial, nofun⟩ <| .nil _, rfl, fun h => ?_⟩
  obtain ⟨-, i, -, -, hheld⟩ := h ⟨bufferAAddress, 0⟩ (.head _) rfl
  revert hheld
  revert i
  decide

end OsProjects.Driver
