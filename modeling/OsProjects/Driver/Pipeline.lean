import OsProjects.Driver.Binding
import OsProjects.Driver.Wakeup

/-!
# What the card reads

The transfers of a session are of memory that the client fills through its mapping of
the buffer it was last handed, and that goes back to the kernel when DMA is unbound.
Here the session is joined by that memory: the client writes to its buffer between two
calls, the rest of the machine writes to whatever the driver does not hold, and the
card reads, word by word, the buffer of the transfer it is at. What it reads must be
what the client had written there when it submitted the buffer.

## Main definitions

* `PipeSys`, `PipeSys.step` — a session with the memory of its buffers
* `DmaSys.Careful` — submissions go to a bound queue, and no wait is left too early

## Main results

* `DmaSys.Carrying.step` — the client's pointer is to a buffer that is not in use
* `PipeSys.Intact.step` — the buffers in use hold what was submitted
* `data_intact` — along every careful run the card reads what was submitted
* `data_intact_without_signals` — and runs without signals need no care but in binding
* `data_exposed` — a `START_DMA` that returns with all buffers in use exposes one of them
-/

namespace OsProjects.Driver

open Run

/-! ### Memory -/

/-- The memory of this resource includes the address. -/
def Resource.covers (address : ℕ) : Resource → Bool
  | .coherent size _ pBase => pBase ≤ address && address < pBase + size
  | _ => false

/-- The driver holds the memory at this bus address. -/
def Kyouko3.holdsAddress (k : Kyouko3) (address : ℕ) : Bool := k.held.any (·.covers address)

/-- The buffer that the client reaches through the address it was last handed, while the
mappings of `bind_dma` are in place. -/
def DmaSys.clientBuffer (s : DmaSys) : Option (Fin dmaNumBuffs) :=
  if s.k.dmaMapped then
    s.returned.getLast?.bind fun user =>
      (List.finRange dmaNumBuffs).find? fun i => (s.k.dmaBuffers i).uBase = user
  else none

/-- A word the card reads: the number of the transfer it is for, counted from the opening
of the device, the offset in the buffer, and the word. -/
structure Fetch (ω : Type*) where
  transfer : ℕ
  offset : ℕ
  value : ω

/-- A session with the memory of its buffers, by bus address. `submitted` and `fetched`
are history: what the client saw in its buffer at each accepted `START_DMA`, and what the
card has read. -/
structure PipeSys (ω : Type*) where
  dma : DmaSys
  memory : ℕ → ω
  submitted : List (ℕ → Option ω)
  fetched : List (Fetch ω)

/-- What can happen: an action of the session, a word written by the client to its
buffer or by someone else to other memory, a word read by the card. -/
inductive PipeAct (ω : Type*)
  | dma (a : DmaAct)
  | write (offset : ℕ) (value : ω)
  | other (address : ℕ) (value : ω)
  | fetch (offset : ℕ)

namespace PipeSys

variable {ω : Type*}

/-- The word that the client sees at this offset of its buffer. -/
def view (s : PipeSys ω) (offset : ℕ) : Option ω :=
  if offset < dmaBuffSize then
    s.dma.clientBuffer.map fun i => s.memory ((s.dma.k.dmaBuffers i).pBase + offset)
  else none

/-- The contents submitted once this action is done. -/
def submissions (s : PipeSys ω) : DmaAct → List (ℕ → Option ω)
  | .start count =>
    if Kyouko3.startDmaRefuses count then s.submitted else s.submitted ++ [s.view]
  | _ => s.submitted

/-- The effect of an action, if it is possible. -/
def step (s : PipeSys ω) : PipeAct ω → Option (PipeSys ω)
  | .dma a => (s.dma.step a).map fun d => { s with dma := d, submitted := s.submissions a }
  | .write offset value =>
    match s.dma.pc, s.dma.clientBuffer with
    | .user, some i =>
      if offset < dmaBuffSize then some { s with
        memory := Function.update s.memory ((s.dma.k.dmaBuffers i).pBase + offset) value }
      else none
    | _, _ => none
  | .other address value =>
    if s.dma.k.holdsAddress address then none
    else some { s with memory := Function.update s.memory address value }
  -- the card is at the first transfer it has started and not completed
  | .fetch offset =>
    match (transfers s.dma.card.executed)[s.dma.card.completed]? with
    | some (address, count) =>
      if offset < count then some { s with
        fetched := s.fetched ++ [⟨s.dma.card.completed, offset, s.memory (address + offset)⟩] }
      else none
    | none => none

def Step (s : PipeSys ω) (a : PipeAct ω) (t : PipeSys ω) : Prop := s.step a = some t

/-- The state right after `kyouko3_open`. -/
def opened (k : Kyouko3) (env : OpenEnv) (memory : ℕ → ω) : PipeSys ω :=
  ⟨DmaSys.opened k env, memory, [], []⟩

end PipeSys

/-! ### The runs considered -/

/-- The kernel grants `bind_dma` eight buffers that do not overlap, at addresses the card
can be given, and maps them at different addresses of the client. -/
structure BindEnv.Grants (env : BindEnv) : Prop where
  alloc : ∀ i, ∃ kBase pBase, env.alloc i = some (kBase, pBase) ∧ pBase < 2 ^ 32
  apart : ∀ i j kBase pBase kBase' pBase', i ≠ j → env.alloc i = some (kBase, pBase) →
    env.alloc j = some (kBase', pBase') →
      pBase + dmaBuffSize ≤ pBase' ∨ pBase' + dmaBuffSize ≤ pBase
  user : Function.Injective env.vmMmap
  user_ne : ∀ i, env.vmMmap i ≠ 0

namespace DmaSys

/-- The kernel grants a `BIND_DMA`, an accepted `START_DMA` finds DMA bound, no
`START_DMA` returns with all eight buffers in use, a signal ends the wait of
`late_unbind_dma` only when the queue is empty, and the device stays open. -/
def Careful (s : DmaSys) : DmaAct → Prop
  | .bind env => env.Grants
  | .start count => Kyouko3.startDmaRefuses count = false → s.k.dmaMapped = true
  | .run => s.pc = .start .ret → s.k.queuedCount ≠ (dmaNumBuffs : ℤ)
  | .signal => (∃ caller pc, s.pc = .late caller pc) → s.k.queuedCount = 0
  | .release => False
  | _ => True

end DmaSys

/-- The buffers are allocated, do not overlap and are mapped at different addresses. -/
structure Kyouko3.LaidOut (k : Kyouko3) : Prop where
  allocated : ∀ i, k.Allocated i
  apart : ∀ i j, i ≠ j → (k.dmaBuffers i).pBase + dmaBuffSize ≤ (k.dmaBuffers j).pBase ∨
    (k.dmaBuffers j).pBase + dmaBuffSize ≤ (k.dmaBuffers i).pBase
  user : ∀ i j, (k.dmaBuffers i).uBase = (k.dmaBuffers j).uBase → i = j

theorem SameBuffers.laidOut {k k' : Kyouko3} (h : SameBuffers k k') (hk : k.LaidOut) :
    k'.LaidOut where
  allocated i := h.allocated (hk.allocated i)
  apart i j hij := by
    rw [h.pBase, h.pBase]
    exact hk.apart i j hij
  user i j hij := by
    rw [h.uBase, h.uBase] at hij
    exact hk.user i j hij

/-- A `bind_dma` that the kernel grants lays the buffers out. -/
theorem Kyouko3.laidOut_bindDma {k : Kyouko3} {env : BindEnv} (hgrants : env.Grants)
    (hmapped : k.dmaMapped = false) (hmsi : env.enableMsi = 0) (hirq : env.requestIrq = 0) :
    (k.bindDma env).2.LaidOut := by
  have hbound : ∀ i kBase pBase, env.alloc i = some (kBase, pBase) →
      BoundTo ((List.finRange dmaNumBuffs).foldl (bindBuffer env) ((k.acquire .msi).acquire .irq))
        env i kBase pBase := fun i kBase pBase halloc =>
    foldl_bindBuffer_boundTo _ env halloc _ (.inl (List.mem_finRange i))
  rw [bindDma_accepted hmapped hmsi hirq]
  refine ⟨fun i => ?_, fun i j hij => ?_, fun i j hij => ?_⟩
  · obtain ⟨kBase, pBase, halloc, hlt⟩ := hgrants.alloc i
    obtain ⟨hk, hp, -, hheld⟩ := hbound i kBase pBase halloc
    simp only [Allocated, kWriteRegister_dmaBuffers, kWriteRegister_held, hk, hp]
    exact ⟨hlt, hheld⟩
  · obtain ⟨kBase, pBase, halloc, -⟩ := hgrants.alloc i
    obtain ⟨kBase', pBase', halloc', -⟩ := hgrants.alloc j
    simp only [kWriteRegister_dmaBuffers, (hbound i _ _ halloc).pBase_eq,
      (hbound j _ _ halloc').pBase_eq]
    exact hgrants.apart i j _ _ _ _ hij halloc halloc'
  · obtain ⟨kBase, pBase, halloc, -⟩ := hgrants.alloc i
    obtain ⟨kBase', pBase', halloc', -⟩ := hgrants.alloc j
    simp only [kWriteRegister_dmaBuffers, (hbound i _ _ halloc).uBase_eq,
      (hbound j _ _ halloc').uBase_eq] at hij
    exact hgrants.user hij

/-! ### The client's buffer -/

namespace DmaSys

variable {s t : DmaSys}

/-- What holds along a careful run: DMA is bound to buffers that are laid out, every
submission has a byte count in range, and a client outside the driver finds a buffer free
and points to it. -/
structure Carrying (s : DmaSys) : Prop where
  tidy : Tidy 0 s
  isOpen : s.Open
  laidOut : s.k.dmaMapped = true → s.k.LaidOut
  counts : ∀ x ∈ s.accepted, Kyouko3.startDmaRefuses x.count = false
  free : s.pc = .user → s.k.queuedCount ≠ (dmaNumBuffs : ℤ)
  pointer : s.pc = .user → s.k.dmaMapped = true →
    s.returned.getLast? = some (s.k.dmaBuffers s.k.fill).uBase

theorem carrying_opened {k : Kyouko3} {env : OpenEnv} (hk : k.Idle)
    (hstart : env.control (fifoHead >>> 2) = 0) : Carrying (opened k env) where
  tidy := tidy_opened hk hstart
  isOpen := trivial
  laidOut := nofun
  counts := nofun
  free _ := by
    have hq : (opened k env).k.queuedCount = 0 := hk.queuedCount
    rw [hq]
    decide
  pointer _ := nofun

theorem Careful.orderly {a : DmaAct} (hs : Carrying s) (h : s.Step a t) (ha : s.Careful a) :
    Orderly s a := by
  cases a with
  | start count =>
    obtain ⟨hpc, -⟩ := Step.start h
    exact fun hcount => ⟨ha hcount, hs.free hpc⟩
  | signal => exact ha
  | _ => trivial

theorem Careful.isOpen {a : DmaAct} (hopen : s.Open) (h : s.Step a t) (ha : s.Careful a) :
    t.Open :=
  hopen.step h (by rintro rfl; exact ha)

theorem Carrying.laidOut_step {a : DmaAct} (hs : Carrying s) (h : s.Step a t) (ha : s.Careful a)
    (hmapped : t.k.dmaMapped = true) : t.k.LaidOut := by
  cases a with
  | bind env =>
    obtain ⟨-, rfl⟩ := Step.bind h
    rcases s.k.bindDma_cases env with hrefused | ⟨hunmapped, hmsi, hirq⟩
    · simp only [DmaSys.bind, hrefused] at hmapped ⊢
      exact hs.laidOut hmapped
    · exact Kyouko3.laidOut_bindDma ha hunmapped hmsi hirq
  | release => exact ha.elim
  | _ =>
    have hsame := h.sameBuffers hs.isOpen (by simp) (by simp) hmapped
    exact hsame.laidOut (hs.laidOut (hsame.dmaMapped.symm.trans hmapped))

end DmaSys

/-! ### Submissions -/

namespace DmaSys

variable {s t : DmaSys}

theorem Carrying.counts_step {a : DmaAct} (hs : Carrying s) (h : s.Step a t) :
    ∀ x ∈ t.accepted, Kyouko3.startDmaRefuses x.count = false := by
  by_cases ha : ∃ count, a = .start count ∧ Kyouko3.startDmaRefuses count = false
  · obtain ⟨count, rfl, hcount⟩ := ha
    rw [(h.start_accepted hcount).2.1]
    intro x hx
    rcases List.mem_append.mp hx with hx | hx
    · exact hs.counts x hx
    · obtain rfl := List.mem_singleton.mp hx
      exact hcount
  · push Not at ha
    rw [(h.accepted_eq hs.isOpen fun count heq => by simpa using ha count heq).1]
    exact hs.counts

end DmaSys

/-! ### The client outside the driver -/

namespace DmaSys

variable {s t : DmaSys}

/-- Outside the driver the client finds a buffer free and points to it. -/
def AtUser (s : DmaSys) : Prop :=
  s.pc = .user → s.k.queuedCount ≠ (dmaNumBuffs : ℤ) ∧
    (s.k.dmaMapped = true → s.returned.getLast? = some (s.k.dmaBuffers s.k.fill).uBase)

theorem Carrying.atUser_run (hs : Carrying s) (h : s.Step .run t) (ha : s.Careful .run) :
    t.AtUser := by
  rcases h.run with ⟨pc, r, -, -, rfl⟩ | ⟨hpc, rfl⟩ | ⟨caller, pc, pc', -, -, rfl⟩ |
    ⟨caller, hpc, rfl⟩ | ⟨hgone, -⟩
  · intro hpc
    cases hpc
  · exact fun _ => ⟨ha hpc, fun _ => by simp⟩
  · intro hpc
    cases hpc
  · obtain ⟨d, hd⟩ := hs.tidy.inv
    have hq := (hd.rest (by simp [hpc, AtRest])).queuedCount
    have hsettled := hs.tidy.settled
    rw [Settled, hpc] at hsettled
    obtain ⟨held, hlate⟩ := s.k.lateUnbindDma_eq
    intro _
    simp only [hlate, Kyouko3.kWriteRegister_queuedCount, hq, hsettled.2, sub_self]
    exact ⟨by decide, fun hmapped => by cases hmapped⟩
  · exact absurd hgone hs.isOpen.not_gone

theorem Carrying.atUser_bind {env : BindEnv} (hs : Carrying s) (h : s.Step (.bind env) t)
    (hgrants : env.Grants) : t.AtUser := by
  obtain ⟨hpc, rfl⟩ := Step.bind h
  rcases s.k.bindDma_cases env with hrefused | ⟨hmapped, hmsi, hirq⟩
  · unfold DmaSys.bind
    rw [hrefused]
    exact fun _ => ⟨hs.free hpc, hs.pointer hpc⟩
  · obtain ⟨kBase, pBase, halloc, -⟩ := hgrants.alloc 0
    have hbound := Kyouko3.foldl_bindBuffer_boundTo ((s.k.acquire .msi).acquire .irq) env halloc
      (List.finRange dmaNumBuffs) (.inl (List.mem_finRange 0))
    have hbuffer : ((s.k.bindDma env).2.dmaBuffers 0).uBase = env.vmMmap 0 := by
      rw [Kyouko3.bindDma_accepted hmapped hmsi hirq]
      exact hbound.uBase_eq
    have hret := Kyouko3.bindDma_accepted_fst hmapped hmsi hirq
    have hfill : (s.k.bindDma env).2.fill = 0 := by
      rw [Kyouko3.bindDma_accepted hmapped hmsi hirq]
      rfl
    have hq : (s.k.bindDma env).2.queuedCount = 0 := by
      rw [Kyouko3.bindDma_accepted hmapped hmsi hirq]
      rfl
    have hne : (s.k.bindDma env).1 ≠ 0 := by
      rw [hret, hbuffer]
      exact hgrants.user_ne 0
    have hreturned : (s.bind env).returned = s.returned ++ [(s.k.bindDma env).1] := if_neg hne
    intro _
    rw [hreturned, List.getLast?_concat, hret]
    simp only [DmaSys.bind, hfill, hq]
    exact ⟨by decide, fun _ => trivial⟩

theorem Carrying.atUser_intr {iflags : ℕ} (hs : Carrying s) (h : s.Step (.intr iflags) t) :
    t.AtUser := by
  obtain ⟨-, ⟨hflag, rfl⟩ | ⟨hflag, -, rfl⟩⟩ := h.intr
  · intro hpc
    simp only [Kyouko3.dmaIntr_spurious hflag]
    exact ⟨hs.free hpc, hs.pointer hpc⟩
  · -- a completion only takes from the queue, which then cannot be full
    intro hpc
    have huser : s.pc = .user := hpc
    obtain ⟨d, hd⟩ := hs.tidy.inv
    have hmem := (hd.rest (by simp [huser, AtRest])).queuedCount_mem
    refine ⟨?_, ?_⟩
    · simp only [Kyouko3.dmaIntr_queuedCount hflag]
      omega
    · simpa using hs.pointer huser

theorem Carrying.atUser_step {a : DmaAct} (hs : Carrying s) (h : s.Step a t)
    (ha : s.Careful a) : t.AtUser := by
  cases a with
  | bind env => exact hs.atUser_bind h ha
  | start count =>
    by_cases hcount : Kyouko3.startDmaRefuses count = true
    · obtain ⟨-, rfl⟩ := Step.start h
      rw [start_refused hcount]
      exact fun hpc => ⟨hs.free hpc, hs.pointer hpc⟩
    · exact fun hpc => absurd hpc (h.start_accepted (by simpa using hcount)).2.2.2.2
  | unbind =>
    obtain ⟨-, ⟨-, rfl⟩ | ⟨-, rfl⟩⟩ := Step.unbind h
    · exact nofun
    · exact fun hpc => ⟨hs.free hpc, hs.pointer hpc⟩
  | release => exact ha.elim
  | run => exact hs.atUser_run h ha
  | signal =>
    rcases h.signal with ⟨-, rfl⟩ | ⟨caller, -, rfl⟩
    · exact nofun
    · exact nofun
  | exec =>
    obtain ⟨c, -, rfl⟩ := h.exec
    exact fun hpc => ⟨hs.free hpc, hs.pointer hpc⟩
  | intr iflags => exact hs.atUser_intr h

/-- Every careful step of the session. -/
theorem Carrying.step {a : DmaAct} (hs : Carrying s) (h : s.Step a t) (ha : s.Careful a) :
    Carrying t where
  tidy := hs.tidy.step h (ha.orderly hs h)
  isOpen := ha.isOpen hs.isOpen h
  laidOut := hs.laidOut_step h ha
  counts := hs.counts_step h
  free hpc := (hs.atUser_step h ha hpc).1
  pointer hpc := (hs.atUser_step h ha hpc).2

/-- The client reaches the one buffer that is mapped at the address it was last handed. -/
theorem clientBuffer_eq {i : Fin dmaNumBuffs} (hmapped : s.k.dmaMapped = true)
    (hlaid : s.k.LaidOut) (hpointer : s.returned.getLast? = some (s.k.dmaBuffers i).uBase) :
    s.clientBuffer = some i := by
  unfold DmaSys.clientBuffer
  rw [if_pos hmapped, hpointer, Option.bind_some, List.find?_eq_some_iff_append]
  obtain ⟨as, bs, hsplit⟩ := List.append_of_mem (List.mem_finRange i)
  refine ⟨by simp, as, bs, hsplit, fun j hj => ?_⟩
  have hnodup := List.nodup_finRange dmaNumBuffs
  rw [hsplit] at hnodup
  have hne : j ≠ i := fun heq =>
    List.disjoint_of_nodup_append hnodup hj (heq ▸ List.mem_cons_self)
  simpa using fun heq => hne (hlaid.user j i heq)

theorem Carrying.clientBuffer (hs : Carrying s) (hpc : s.pc = .user)
    (hmapped : s.k.dmaMapped = true) : s.clientBuffer = some s.k.fill :=
  clientBuffer_eq hmapped (hs.laidOut hmapped) (hs.pointer hpc hmapped)

/-- That buffer is not in use. -/
theorem Carrying.fill_not_outstanding (hs : Carrying s) (hpc : s.pc = .user) :
    ∀ x ∈ s.outstanding, x.buffer ≠ s.k.fill := by
  obtain ⟨d, hd⟩ := hs.tidy.inv
  have hrest : Rest 0 d s.k s.card s.accepted := hd.rest (by simp [hpc, AtRest])
  intro x hx heq
  rw [hrest.fill] at heq
  exact hs.free hpc (hrest.outstanding_iff.mp ⟨x, hx, heq⟩)

/-- While something is outstanding, DMA is bound. -/
theorem Carrying.mapped_of_outstanding (hs : Carrying s) (h : s.outstanding ≠ []) :
    s.k.dmaMapped = true := by
  have hsettled := hs.tidy.settled
  have hopen := hs.isOpen.not_gone
  have hn : s.accepted.length ≠ s.card.completed := fun hn => h (by
    rw [outstanding, ← hn, List.drop_length])
  unfold Settled at hsettled
  split at hsettled
  · by_contra hmapped
    exact hn (hsettled (by simpa using hmapped))
  · exact hsettled
  · exact hsettled.1
  · exact hsettled
  · exact absurd (by simp [*, ClientPc.Gone]) hopen
  · exact absurd (by simp [*, ClientPc.Gone]) hopen
  · exact absurd (by simp [*, ClientPc.Gone]) hopen

/-- What is outstanding uses the buffer it was submitted for. -/
theorem Carrying.address_eq (hs : Carrying s) {i : ℕ} {x : Submission}
    (hx : s.accepted[i]? = some x) (hi : s.card.completed ≤ i) :
    x.address = (s.k.dmaBuffers x.buffer).pBase := by
  obtain ⟨d, hd⟩ := hs.tidy.inv
  obtain ⟨handed, written, -, hqueue⟩ := hd.queue hs.isOpen.not_gone
  obtain ⟨hlt, rfl⟩ := List.getElem?_eq_some_iff.mp hx
  obtain ⟨hbuffer, haddress⟩ := hqueue.buffer i hlt hi
  rw [hbuffer, haddress]

/-- The transfer the card is at is that of the first outstanding submission. -/
theorem Carrying.started (hs : Carrying s) {address count : ℕ}
    (h : (transfers s.card.executed)[s.card.completed]? = some (address, count)) :
    ∃ x, s.accepted[s.card.completed]? = some x ∧ address = u32 x.address ∧
      count = unsigned x.count := by
  obtain ⟨d, hd⟩ := hs.tidy.inv
  obtain ⟨handed, written, -, hqueue⟩ := hd.queue hs.isOpen.not_gone
  rw [hqueue.transfers_executed, List.getElem?_map] at h
  obtain ⟨x, hx, htransfer⟩ := Option.map_eq_some_iff.mp h
  refine ⟨x, ?_, (congrArg Prod.fst htransfer).symm, (congrArg Prod.snd htransfer).symm⟩
  rw [List.getElem?_take] at hx
  split at hx
  · exact hx
  · cases hx

end DmaSys

/-! ### The contents of the buffers -/

theorem Kyouko3.LaidOut.ne_of_ne {k : Kyouko3} (h : k.LaidOut) {i j : Fin dmaNumBuffs}
    {offset offset' : ℕ} (hij : i ≠ j) (hi : offset < dmaBuffSize) (hj : offset' < dmaBuffSize) :
    (k.dmaBuffers i).pBase + offset ≠ (k.dmaBuffers j).pBase + offset' := by
  rcases h.apart i j hij with hle | hle
  · omega
  · omega

/-- No more bytes are accepted than a buffer has. -/
theorem Kyouko3.unsigned_le_of_accepted {count : Int32} (h : startDmaRefuses count = false) :
    unsigned count ≤ dmaBuffSize := by
  simp only [startDmaRefuses, Bool.or_eq_false_iff, decide_eq_false_iff_not, not_lt] at h
  exact h.2

theorem Kyouko3.unsigned_pos_of_accepted {count : Int32} (h : startDmaRefuses count = false) :
    0 < unsigned count := by
  simp only [startDmaRefuses, Bool.or_eq_false_iff, decide_eq_false_iff_not] at h
  rw [Nat.pos_iff_ne_zero]
  intro hzero
  apply h.1
  rw [← Int32.toBitVec_inj, ← BitVec.toNat_inj]
  exact hzero

/-- The driver holds the memory of its buffers. -/
theorem Kyouko3.LaidOut.holdsAddress {k : Kyouko3} (h : k.LaidOut) (i : Fin dmaNumBuffs)
    {offset : ℕ} (hi : offset < dmaBuffSize) :
    k.holdsAddress ((k.dmaBuffers i).pBase + offset) = true := by
  unfold Kyouko3.holdsAddress
  rw [List.any_eq_true]
  exact ⟨_, (h.allocated i).2, by simp [Resource.covers, hi]⟩

/-- The word is the one the client saw at its place when it submitted the buffer, and lies
within the byte count submitted. -/
def PipeSys.ReadAsSubmitted {ω : Type*} (s : PipeSys ω) (f : Fetch ω) : Prop :=
  ∃ x data, s.dma.accepted[f.transfer]? = some x ∧ s.submitted[f.transfer]? = some data ∧
    f.offset < unsigned x.count ∧ data f.offset = some f.value

namespace PipeSys

variable {ω : Type*} {s t : PipeSys ω}

/-- What the client has to take care of in its part of the session. -/
def Careful (s : PipeSys ω) : PipeAct ω → Prop
  | .dma a => s.dma.Careful a
  | _ => True

/-- What holds along a careful run: a buffer in use holds what was submitted, and all that
the card has read is what was submitted. -/
structure Intact (s : PipeSys ω) : Prop where
  carrying : s.dma.Carrying
  length : s.submitted.length = s.dma.accepted.length
  contents : ∀ i x data, s.dma.card.completed ≤ i → s.dma.accepted[i]? = some x →
    s.submitted[i]? = some data → ∀ offset < dmaBuffSize,
      data offset = some (s.memory ((s.dma.k.dmaBuffers x.buffer).pBase + offset))
  fetched : ∀ f ∈ s.fetched, s.ReadAsSubmitted f

theorem intact_opened {k : Kyouko3} {env : OpenEnv} (memory : ℕ → ω) (hk : k.Idle)
    (hstart : env.control (fifoHead >>> 2) = 0) : Intact (opened k env memory) :=
  ⟨DmaSys.carrying_opened hk hstart, rfl, nofun, nofun⟩

/-- What the card has read stays as submitted when more is submitted. -/
theorem ReadAsSubmitted.mono {f : Fetch ω} (h : s.ReadAsSubmitted f)
    (haccepted : s.dma.accepted <+: t.dma.accepted) (hsubmitted : s.submitted <+: t.submitted) :
    t.ReadAsSubmitted f := by
  obtain ⟨x, data, hx, hdata, hlt, hvalue⟩ := h
  obtain ⟨xs, hxs⟩ := haccepted
  obtain ⟨ds, hds⟩ := hsubmitted
  refine ⟨x, data, ?_, ?_, hlt, hvalue⟩
  · rw [← hxs, List.getElem?_append_left (List.getElem?_eq_some_iff.mp hx).1, hx]
  · rw [← hds, List.getElem?_append_left (List.getElem?_eq_some_iff.mp hdata).1, hdata]

/-- Memory is written and read beside the session. -/
theorem dma_eq {a : PipeAct ω} (h : s.Step a t) (ha : ∀ b, a ≠ .dma b) : t.dma = s.dma := by
  cases a with
  | dma b => exact absurd rfl (ha b)
  | other address value =>
    simp only [Step, step] at h
    split at h
    · cases h
    · cases h
      rfl
  | _ =>
    simp only [Step, step] at h
    split at h
    · split at h
      · cases h
        rfl
      · cases h
    · cases h

/-- In its own buffer the client sees what the card would read. -/
theorem Intact.view_eq (hs : s.Intact) (hpc : s.dma.pc = .user)
    (hmapped : s.dma.k.dmaMapped = true) {offset : ℕ} (h : offset < dmaBuffSize) :
    s.view offset = some (s.memory ((s.dma.k.dmaBuffers s.dma.k.fill).pBase + offset)) := by
  rw [view, if_pos h, hs.carrying.clientBuffer hpc hmapped, Option.map_some]

/-- While something is outstanding before and after a step, the buffers are the same. -/
theorem sameBuffers_of_outstanding {d e : DmaSys} {a : DmaAct} (hd : d.Carrying)
    (h : d.Step a e) (ha : d.Careful a) (hdout : d.outstanding ≠ []) (he : e.Carrying)
    (heout : e.outstanding ≠ []) : SameBuffers d.k e.k := by
  have hmapped := hd.mapped_of_outstanding hdout
  cases a with
  | bind env =>
    obtain ⟨-, rfl⟩ := DmaSys.Step.bind h
    have hrefused : d.k.bindDma env = (0, d.k) := Kyouko3.bindDma_refused (.inl hmapped)
    unfold DmaSys.bind
    rw [hrefused]
    exact .of_eq rfl rfl rfl
  | release => exact ha.elim
  | _ => exact h.sameBuffers hd.isOpen (by simp) (by simp) (he.mapped_of_outstanding heout)

/-- An accepted `START_DMA` submits the buffer that the client sees. -/
theorem Intact.submit {count : Int32} {d : DmaSys} (hs : s.Intact)
    (h : s.dma.Step (.start count) d) (ha : s.dma.Careful (.start count))
    (hcount : Kyouko3.startDmaRefuses count = false) :
    Intact { s with dma := d, submitted := s.submitted ++ [s.view] } := by
  obtain ⟨hpc, haccepted, hcard, hmapped, -⟩ := h.start_accepted hcount
  have hbound := ha hcount
  have hsame := h.sameBuffers hs.carrying.isOpen (by simp) (by simp) (hmapped.trans hbound)
  refine ⟨hs.carrying.step h ha, ?_, ?_, ?_⟩
  · simp [haccepted, hs.length]
  · intro i x data hi hx hdata offset hoffset
    simp only [haccepted, hcard, hsame.pBase] at hi hx hdata ⊢
    rcases lt_trichotomy i s.dma.accepted.length with hlt | rfl | hgt
    · rw [List.getElem?_append_left hlt] at hx
      rw [List.getElem?_append_left (hs.length ▸ hlt)] at hdata
      exact hs.contents i x data hi hx hdata offset hoffset
    · rw [List.getElem?_concat_length] at hx
      rw [← hs.length, List.getElem?_concat_length] at hdata
      obtain rfl := Option.some_inj.mp hx
      obtain rfl := Option.some_inj.mp hdata
      exact hs.view_eq hpc hbound hoffset
    · rw [List.getElem?_eq_none (by simpa using Nat.succ_le_of_lt hgt)] at hx
      cases hx
  · intro f hf
    refine (hs.fetched f hf).mono ?_ (List.prefix_append _ _)
    simp only [haccepted, List.prefix_append]

/-- Any other action of the session leaves the buffers in use as they are. -/
theorem Intact.keep {a : DmaAct} {d : DmaSys} (hs : s.Intact) (h : s.dma.Step a d)
    (ha : s.dma.Careful a)
    (hstart : ∀ count, a = .start count → Kyouko3.startDmaRefuses count = true) :
    Intact { s with dma := d } := by
  have hcarrying := hs.carrying.step h ha
  obtain ⟨haccepted, hcompleted⟩ := h.accepted_eq hs.carrying.isOpen hstart
  refine ⟨hcarrying, ?_, ?_, ?_⟩
  · simp only [haccepted, hs.length]
  · intro i x data hi hx hdata offset hoffset
    have hx' : s.dma.accepted[i]? = some x := haccepted ▸ hx
    have hsame := sameBuffers_of_outstanding hs.carrying h ha
      (List.ne_nil_of_mem (DmaSys.mem_outstanding (hcompleted.trans hi) hx'))
      hcarrying (List.ne_nil_of_mem (DmaSys.mem_outstanding hi hx))
    simp only [hsame.pBase]
    exact hs.contents i x data (hcompleted.trans hi) hx' hdata offset hoffset
  · intro f hf
    refine (hs.fetched f hf).mono ?_ List.prefix_rfl
    simp only [haccepted, List.prefix_rfl]

/-- Memory written outside the buffers in use changes none of what was submitted. -/
theorem Intact.store {address : ℕ} {value : ω} (hs : s.Intact)
    (haddress : ∀ x ∈ s.dma.outstanding, ∀ offset < dmaBuffSize,
      (s.dma.k.dmaBuffers x.buffer).pBase + offset ≠ address) :
    Intact { s with memory := Function.update s.memory address value } := by
  refine ⟨hs.carrying, hs.length, ?_, hs.fetched⟩
  intro i x data hi hx hdata offset hoffset
  simp only [Function.update_of_ne (haddress x (DmaSys.mem_outstanding hi hx) offset hoffset)]
  exact hs.contents i x data hi hx hdata offset hoffset

/-- The client writes to a buffer that is not in use. -/
theorem Intact.write {offset : ℕ} {value : ω} (hs : s.Intact) (h : s.Step (.write offset value) t) :
    t.Intact := by
  simp only [Step, step] at h
  split at h
  · rename_i i hpc hbuffer
    split at h
    · cases h
      have hmapped : s.dma.k.dmaMapped = true := by
        by_contra hunmapped
        simp [DmaSys.clientBuffer, hunmapped] at hbuffer
      rw [hs.carrying.clientBuffer hpc hmapped] at hbuffer
      obtain rfl := Option.some_inj.mp hbuffer
      apply hs.store
      intro x hx offset' hoffset'
      exact (hs.carrying.laidOut hmapped).ne_of_ne (hs.carrying.fill_not_outstanding hpc x hx)
        hoffset' ‹offset < dmaBuffSize›
    · cases h
  · cases h

/-- Nobody else writes to memory the driver holds. -/
theorem Intact.other {address : ℕ} {value : ω} (hs : s.Intact)
    (h : s.Step (.other address value) t) : t.Intact := by
  simp only [Step, step] at h
  split at h
  · cases h
  · rename_i hfree
    cases h
    apply hs.store
    rintro x hx offset hoffset rfl
    have hmapped := hs.carrying.mapped_of_outstanding (List.ne_nil_of_mem hx)
    exact hfree ((hs.carrying.laidOut hmapped).holdsAddress x.buffer hoffset)

/-- The card reads a buffer in use. -/
theorem Intact.fetch {offset : ℕ} (hs : s.Intact) (h : s.Step (.fetch offset) t) : t.Intact := by
  simp only [Step, step] at h
  split at h
  · rename_i address count hstarted
    split at h
    · rename_i hoffset
      cases h
      obtain ⟨x, hx, rfl, rfl⟩ := hs.carrying.started hstarted
      have hlt := (List.getElem?_eq_some_iff.mp hx).1
      have hdata := List.getElem?_eq_getElem (hs.length.symm ▸ hlt)
      refine ⟨hs.carrying, hs.length, hs.contents, ?_⟩
      intro f hf
      rcases List.mem_append.mp hf with hf | hf
      · exact hs.fetched f hf
      · obtain rfl := List.mem_singleton.mp hf
        have hmapped := hs.carrying.mapped_of_outstanding
          (List.ne_nil_of_mem (DmaSys.mem_outstanding le_rfl hx))
        have hsize := Kyouko3.unsigned_le_of_accepted
          (hs.carrying.counts x (List.mem_of_getElem? hx))
        refine ⟨x, _, hx, hdata, hoffset, ?_⟩
        rw [hs.contents _ x _ le_rfl hx hdata offset (hoffset.trans_le hsize),
          hs.carrying.address_eq hx le_rfl, u32,
          Nat.mod_eq_of_lt ((hs.carrying.laidOut hmapped).allocated x.buffer).1]
    · cases h
  · cases h

/-- Every step of a careful client. -/
theorem Intact.step {a : PipeAct ω} (hs : s.Intact) (h : s.Step a t)
    (ha : s.Careful a) : t.Intact := by
  cases a with
  | dma a =>
    obtain ⟨d, hd, rfl⟩ := Option.map_eq_some_iff.mp h
    by_cases hstart : ∃ count, a = .start count ∧ Kyouko3.startDmaRefuses count = false
    · obtain ⟨count, rfl, hcount⟩ := hstart
      have hsubmitted : s.submissions (.start count) = s.submitted ++ [s.view] :=
        if_neg (by simp [hcount])
      rw [hsubmitted]
      exact hs.submit hd ha hcount
    · push Not at hstart
      have hrefused : ∀ count, a = .start count → Kyouko3.startDmaRefuses count = true :=
        fun count heq => by simpa using hstart count heq
      have hsubmitted : s.submissions a = s.submitted := by
        cases a with
        | start count => exact if_pos (hrefused count rfl)
        | _ => rfl
      rw [hsubmitted]
      exact hs.keep hd ha hrefused
  | write offset value => exact hs.write h
  | other address value => exact hs.other h
  | fetch offset => exact hs.fetch h

end PipeSys

/-- **The card reads what was submitted.** Along every run from the opening of the device,
any number of sessions of binding, submitting and unbinding, with the client filling its
buffer between the calls, the rest of the machine writing to all memory that the driver
does not hold, and completions and signals at any time: if submissions are made only while
DMA is bound, no `START_DMA` returns with all eight buffers in use and no signal makes
`late_unbind_dma` free buffers in use, then every word that the card reads for a transfer is
the one the client saw there when it submitted it. -/
theorem data_intact {ω : Type*} (k : Kyouko3) (env : OpenEnv) (memory : ℕ → ω) (hk : k.Idle)
    (hstart : env.control (fifoHead >>> 2) = 0) (as : List (PipeAct ω)) (t : PipeSys ω)
    (h : Along PipeSys.Step (fun s a _ => s.Careful a) (PipeSys.opened k env memory) as t) :
    ∀ f ∈ t.fetched, t.ReadAsSubmitted f :=
  (h.invariant PipeSys.Intact (fun _ _ _ hs hstep ha => hs.step hstep ha)
    (PipeSys.intact_opened memory hk hstart)).fetched

theorem grantingBindEnv_grants : grantingBindEnv.Grants where
  alloc i := by
    have hi : (i : ℕ) < 8 := i.isLt
    exact ⟨(i + 1) * 0x20000, i * 0x20000, rfl, by omega⟩
  apart i j kBase pBase kBase' pBase' hij hi hj := by
    simp only [grantingBindEnv, Option.some.injEq, Prod.mk.injEq] at hi hj
    obtain ⟨-, rfl⟩ := hi
    obtain ⟨-, rfl⟩ := hj
    have hne : (i : ℕ) ≠ j := fun heq => hij (Fin.ext heq)
    simp only [dmaBuffSize]
    omega
  user i j hij := by
    simp only [grantingBindEnv] at hij
    omega
  user_ne i := by
    simp only [grantingBindEnv]
    omega

/-- The client fills the first word of its buffer, submits it and fills the next buffer
while the card reads the first. -/
def oneRead : List (PipeAct ℕ) :=
  [.dma (.bind grantingBindEnv), .write 0 7, .dma (.start 4), .dma .run, .dma .run, .dma .run,
    .dma .run, .dma .run, .dma .run, .dma .exec, .dma .exec, .write 0 8, .fetch 0]

theorem data_intact_one :
    ∃ t, Along PipeSys.Step (fun s a _ => s.Careful a)
        (PipeSys.opened .zero zeroOpenEnv fun _ => 0) oneRead t ∧
      t.fetched.length = 1 ∧ ∀ f ∈ t.fetched, t.ReadAsSubmitted f := by
  have hrun : ∃ t, Along PipeSys.Step (fun s a _ => s.Careful a)
      (PipeSys.opened .zero zeroOpenEnv fun _ => 0) oneRead t ∧ t.fetched.length = 1 := by
    refine ⟨_, .cons rfl grantingBindEnv_grants <| .cons rfl trivial <|
      .cons rfl (fun _ => rfl) <| .cons rfl nofun <| .cons rfl nofun <| .cons rfl nofun <|
      .cons rfl nofun <| .cons rfl nofun <| .cons rfl (fun _ => ?_) <| .cons rfl trivial <|
      .cons rfl trivial <| .cons rfl trivial <| .cons rfl trivial <| .nil _, rfl⟩
    decide
  obtain ⟨t, ht, hlength⟩ := hrun
  exact ⟨t, ht, hlength, data_intact .zero zeroOpenEnv _ Kyouko3.zero_idle rfl oneRead t ht⟩

/-! ### Runs without signals -/

/-- The kernel grants a `BIND_DMA`, an accepted `START_DMA` finds DMA bound, the device
stays open, and there are no signals. -/
def PipeSys.Unsignalled {ω : Type*} (s : PipeSys ω) : PipeAct ω → Prop
  | .dma (.bind env) => env.Grants
  | .dma (.start count) => Kyouko3.startDmaRefuses count = false → s.dma.k.dmaMapped = true
  | .dma .signal | .dma .release => False
  | _ => True

/-- Without signals no wait is left too early. -/
theorem PipeSys.Unsignalled.careful {ω : Type*} {s : PipeSys ω} {a : PipeAct ω}
    (hfree : NotFull s.dma) (ha : s.Unsignalled a) : s.Careful a := by
  cases a with
  | dma a =>
    cases a with
    | run =>
      intro hpc
      exact hfree (by simp [hpc, ClientPc.Waiting]) (by simp [hpc, ClientPc.Gone])
    | signal => exact ha.elim
    | _ => exact ha
  | _ => trivial

/-- **Waits that end on their condition suffice.** Along every run without signals in which
submissions are made only while DMA is bound, every word that the card reads for a transfer
is the one the client saw there when it submitted it. -/
theorem data_intact_without_signals {ω : Type*} (k : Kyouko3) (env : OpenEnv) (memory : ℕ → ω)
    (hk : k.Idle) (hstart : env.control (fifoHead >>> 2) = 0) (as : List (PipeAct ω))
    (t : PipeSys ω)
    (h : Along PipeSys.Step (fun s a _ => s.Unsignalled a) (PipeSys.opened k env memory) as t) :
    ∀ f ∈ t.fetched, t.ReadAsSubmitted f := by
  have hfree : NotFull (PipeSys.opened k env memory).dma := by
    intro _ _
    have hq : (PipeSys.opened k env memory).dma.k.queuedCount = 0 := hk.queuedCount
    rw [hq]
    decide
  refine (h.invariant (fun s : PipeSys ω => s.Intact ∧ NotFull s.dma) ?_
    ⟨PipeSys.intact_opened memory hk hstart, hfree⟩).1.fetched
  rintro s a t ⟨hs, hfree⟩ hstep ha
  refine ⟨hs.step hstep (ha.careful hfree), ?_⟩
  obtain ⟨d, hd⟩ := hs.carrying.tidy.inv
  cases a with
  | dma a =>
    obtain ⟨e, he, rfl⟩ := Option.map_eq_some_iff.mp hstep
    apply hd.notFull hfree he
    rintro rfl
    exact ha.elim
  | _ =>
    rw [PipeSys.dma_eq hstep (by simp)]
    exact hfree

theorem data_intact_without_signals_one :
    ∃ t, Along PipeSys.Step (fun s a _ => s.Unsignalled a)
        (PipeSys.opened .zero zeroOpenEnv fun _ => 0) oneRead t ∧
      t.fetched.length = 1 ∧ ∀ f ∈ t.fetched, t.ReadAsSubmitted f := by
  have hrun : ∃ t, Along PipeSys.Step (fun s a _ => s.Unsignalled a)
      (PipeSys.opened .zero zeroOpenEnv fun _ => 0) oneRead t ∧ t.fetched.length = 1 :=
    ⟨_, .cons rfl grantingBindEnv_grants <| .cons rfl trivial <| .cons rfl (fun _ => rfl) <|
      .cons rfl trivial <| .cons rfl trivial <| .cons rfl trivial <| .cons rfl trivial <|
      .cons rfl trivial <| .cons rfl trivial <| .cons rfl trivial <| .cons rfl trivial <|
      .cons rfl trivial <| .cons rfl trivial <| .nil _, rfl⟩
  obtain ⟨t, ht, hlength⟩ := hrun
  exact ⟨t, ht, hlength,
    data_intact_without_signals .zero zeroOpenEnv _ Kyouko3.zero_idle rfl oneRead t ht⟩

/-! ### A wait left too early -/

namespace PipeSys

variable {ω : Type*} {s : PipeSys ω}

/-- The card runs beside the memory. -/
theorem path_exec {as : List DmaAct} {d m : DmaSys} (hd : s.dma = d)
    (h : Along DmaSys.Step (fun _ a _ => a = .exec) d as m) :
    Path Step s (List.replicate as.length (.dma .exec)) { s with dma := m } := by
  induction h generalizing s with
  | nil d =>
    subst hd
    exact Path.nil s
  | cons hstep ha _ ih =>
    subst hd ha
    exact Path.cons (Option.map_eq_some_iff.mpr ⟨_, hstep, rfl⟩) (ih rfl)

/-- At the return of a `START_DMA` with all eight buffers in use, the client is handed the
buffer of the oldest submission outstanding, and the card can come to its transfer. -/
theorem Intact.full_return (hs : s.Intact) (hpc : s.dma.pc = .start .ret)
    (hfull : s.dma.k.queuedCount = (dmaNumBuffs : ℤ)) :
    s.dma.k.dmaMapped = true ∧
      ∃ x, s.dma.accepted[s.dma.card.completed]? = some x ∧ x.buffer = s.dma.k.fill ∧
        ∀ d : DmaSys, d.k = s.dma.k → d.card = s.dma.card → d.accepted = s.dma.accepted →
          ∃ as m, Along DmaSys.Step (fun _ a _ => a = .exec) d as m ∧
            m.card.completed = s.dma.card.completed ∧
              (transfers m.card.executed)[s.dma.card.completed]? = some x.transfer := by
  obtain ⟨d, hd⟩ := hs.carrying.tidy.inv
  have hrest : Rest 0 d s.dma.k s.dma.card s.dma.accepted := hd.rest (by simp [hpc, DmaSys.AtRest])
  have hsettled := hs.carrying.tidy.settled
  rw [DmaSys.Settled, hpc] at hsettled
  have hn : s.dma.accepted.length = s.dma.card.completed + dmaNumBuffs := by
    have hq := hrest.queuedCount
    omega
  have hlt : s.dma.card.completed < s.dma.accepted.length := by
    rw [hn]
    exact Nat.lt_add_of_pos_right (by decide)
  refine ⟨hsettled, _, List.getElem?_eq_getElem hlt, ?_, ?_⟩
  · rw [(hrest.buffer _ hlt le_rfl).1, hrest.fill, hn, bufferAt_add]
  · intro e hk hcard haccepted
    have hrest' : Rest 0 d e.k e.card e.accepted := by rwa [hk, hcard, haccepted]
    obtain ⟨as, m, hrun, -, hm, hcompleted, hmrest, hdone⟩ := hrest'.exists_exec
    rw [hcard] at hcompleted
    rw [haccepted] at hm
    refine ⟨as, m, hrun, hcompleted, ?_⟩
    rw [hm] at hdone hmrest
    have hlen : s.dma.card.completed < m.card.executed.length / 2 := by
      rw [hdone, settled, hcompleted]
      omega
    rw [hmrest.transfers_executed, List.getElem?_map, List.getElem?_take, if_pos hlen,
      List.getElem?_eq_getElem hlt, Option.map_some]

end PipeSys

/-- **The wait for a free buffer is needed.** Wherever a run comes to the return of a
`START_DMA` with all eight buffers in use, the client is handed the buffer of a submission
whose transfer is not completed, and of which the card can still read every word: at each
offset below the byte count submitted there is a word that the client can write before its
next call and that the card then reads, though it is not the one submitted. -/
theorem data_exposed {ω : Type*} [Nontrivial ω] (k : Kyouko3) (env : OpenEnv) (memory : ℕ → ω)
    (hk : k.Idle) (hstart : env.control (fifoHead >>> 2) = 0) (as : List (PipeAct ω))
    (s : PipeSys ω)
    (h : Along PipeSys.Step (fun s a _ => s.Careful a) (PipeSys.opened k env memory) as s)
    (hpc : s.dma.pc = .start .ret) (hfull : s.dma.k.queuedCount = (dmaNumBuffs : ℤ)) :
    ∃ x, s.dma.accepted[s.dma.card.completed]? = some x ∧ x.buffer = s.dma.k.fill ∧
      0 < unsigned x.count ∧ ∀ offset < unsigned x.count, ∃ value n t,
        Path PipeSys.Step s (.dma .run :: .write offset value ::
          (List.replicate n (.dma .exec) ++ [.fetch offset])) t ∧
        t.fetched = s.fetched ++ [⟨s.dma.card.completed, offset, value⟩] ∧
        ¬t.ReadAsSubmitted ⟨s.dma.card.completed, offset, value⟩ := by
  have hs := h.invariant PipeSys.Intact (fun _ _ _ hs hstep ha => hs.step hstep ha)
    (PipeSys.intact_opened memory hk hstart)
  obtain ⟨hmapped, x, hx, hbuffer, hexec⟩ := hs.full_return hpc hfull
  have hlaid := hs.carrying.laidOut hmapped
  have haccepted := hs.carrying.counts x (List.mem_of_getElem? hx)
  refine ⟨x, hx, hbuffer, Kyouko3.unsigned_pos_of_accepted haccepted, ?_⟩
  intro offset hoffset
  have hsize : offset < dmaBuffSize :=
    hoffset.trans_le (Kyouko3.unsigned_le_of_accepted haccepted)
  have haddress : u32 x.address = (s.dma.k.dmaBuffers s.dma.k.fill).pBase := by
    rw [hs.carrying.address_eq hx le_rfl, hbuffer, u32, Nat.mod_eq_of_lt (hlaid.allocated _).1]
  obtain ⟨data, hdata⟩ : ∃ data, s.submitted[s.dma.card.completed]? = some data :=
    ⟨_, List.getElem?_eq_getElem (hs.length ▸ (List.getElem?_eq_some_iff.mp hx).1)⟩
  have hsubmitted := hs.contents _ x data le_rfl hx hdata offset hsize
  rw [hbuffer] at hsubmitted
  obtain ⟨value, hvalue⟩ := exists_ne (s.memory ((s.dma.k.dmaBuffers s.dma.k.fill).pBase + offset))
  -- the call returns, the client writes, the card comes to the transfer and reads
  let returned : DmaSys := { s.dma with
    pc := .user
    returned := s.dma.returned ++ [(s.dma.k.dmaBuffers s.dma.k.fill).uBase] }
  let written := Function.update s.memory
    ((s.dma.k.dmaBuffers s.dma.k.fill).pBase + offset) value
  obtain ⟨execs, m, hrun, hcompleted, hstarted⟩ := hexec returned rfl rfl rfl
  have hclient : returned.clientBuffer = some s.dma.k.fill :=
    DmaSys.clientBuffer_eq hmapped hlaid (List.getLast?_concat ..)
  have hreturn : s.Step (.dma .run) { s with dma := returned } := by
    refine Option.map_eq_some_iff.mpr ⟨returned, ?_, rfl⟩
    simp [DmaSys.step, DmaSys.run, hpc, returned]
  have hwrite : PipeSys.Step { s with dma := returned } (.write offset value)
      { s with dma := returned, memory := written } := by
    simp only [PipeSys.Step, PipeSys.step, hclient, if_pos hsize]
    rfl
  have hfetch : PipeSys.Step { s with dma := m, memory := written } (.fetch offset) { s with
      dma := m
      memory := written
      fetched := s.fetched ++ [⟨s.dma.card.completed, offset, value⟩] } := by
    simp only [PipeSys.Step, PipeSys.step, hcompleted, hstarted, Submission.transfer,
      if_pos hoffset, haddress, written, Function.update_self]
  refine ⟨value, execs.length, _, .cons hreturn (.cons hwrite
    ((PipeSys.path_exec rfl hrun).append (Along.single hfetch trivial))), rfl, ?_⟩
  rintro ⟨y, data', -, hdata', -, hread⟩
  rw [hdata] at hdata'
  obtain rfl := Option.some_inj.mp hdata'
  rw [hsubmitted] at hread
  exact hvalue (Option.some_inj.mp hread).symm

/-- All eight buffers are submitted, and a signal ends the wait of the last call. -/
theorem data_exposed_one :
    ∃ (s : PipeSys Bool) (x : Submission),
      s.dma.accepted[s.dma.card.completed]? = some x ∧ x.buffer = s.dma.k.fill ∧
        0 < unsigned x.count ∧ ∀ offset < unsigned x.count, ∃ value n t,
          Path PipeSys.Step s (.dma .run :: .write offset value ::
            (List.replicate n (.dma .exec) ++ [.fetch offset])) t ∧
          t.fetched = s.fetched ++ [⟨s.dma.card.completed, offset, value⟩] ∧
          ¬t.ReadAsSubmitted ⟨s.dma.card.completed, offset, value⟩ := by
  have hrun : ∃ s, Along (@PipeSys.Step Bool) (fun s a _ => s.Careful a)
      (PipeSys.opened .zero zeroOpenEnv fun _ => false)
        (.dma (.bind grantingBindEnv) :: fillAndSignal.map .dma) s ∧
      s.dma.pc = .start .ret ∧ s.dma.k.queuedCount = (dmaNumBuffs : ℤ) := by
    have hret : ∀ {q : ℤ}, q ≠ (dmaNumBuffs : ℤ) → (ClientPc.start .ret = .start .ret →
      q ≠ (dmaNumBuffs : ℤ)) := fun h _ => h
    refine ⟨_, .cons rfl grantingBindEnv_grants <|
      .cons rfl (fun _ => rfl) <| .cons rfl nofun <| .cons rfl nofun <| .cons rfl nofun <|
      .cons rfl nofun <| .cons rfl nofun <| .cons rfl (hret (by decide)) <|
      .cons rfl (fun _ => rfl) <| .cons rfl (hret (by decide)) <|
      .cons rfl (fun _ => rfl) <| .cons rfl (hret (by decide)) <|
      .cons rfl (fun _ => rfl) <| .cons rfl (hret (by decide)) <|
      .cons rfl (fun _ => rfl) <| .cons rfl (hret (by decide)) <|
      .cons rfl (fun _ => rfl) <| .cons rfl (hret (by decide)) <|
      .cons rfl (fun _ => rfl) <| .cons rfl (hret (by decide)) <|
      .cons rfl (fun _ => rfl) <| .cons rfl nofun <| .cons rfl ?_ <| .nil _, rfl, rfl⟩
    rintro ⟨caller, pc, hpc⟩
    cases hpc
  obtain ⟨s, hs, hpc, hfull⟩ := hrun
  exact ⟨s, data_exposed .zero zeroOpenEnv _ Kyouko3.zero_idle rfl _ s hs hpc hfull⟩

end OsProjects.Driver
