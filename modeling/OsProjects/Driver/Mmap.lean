import OsProjects.Driver.Kyouko3

/-!
# Mapping device memory

`kyouko3_mmap` lets the client map the control region, the memory of the card and the DMA
buffers into its address space; which of them is told by the offset. The page offset of
the mapping has 64 bits. The driver shifts it to a byte offset of which it keeps 32 bits,
reads these as a signed number, compares it with the two offsets that name a region, and
otherwise shifts it back to index the array of buffers. The length of the mapping is taken
from the client.

## Main definitions

* `Kyouko3.kyouko3Mmap`
* `Named` — the memory that an offset is meant to name
* `Contained` — what is asked of a mapping
* `Fits` — the page offset and the length are those of a mapping that is meant

## Main results

* `mmap_contained_iff` — exactly the mappings that fit are contained
* `bound_buffers_contained` — among them are those that `bind_dma` asks for
-/

namespace OsProjects.Driver

/-! ### The function -/

/-- `DeviceVRAM` -/
def deviceVram : ℕ := 0x0020

/-- `CONTROL_SIZE` -/
def controlSize : ℕ := 65536

def pageShift : ℕ := 12

/-- The fields of `struct vm_area_struct` that are read. -/
structure VmArea where
  vmStart : BitVec 64
  vmEnd : BitVec 64
  vmPgoff : BitVec 64
  vmPageProt : BitVec 64

/-- A call of `io_remap_pfn_range`. -/
structure RemapCall where
  start : BitVec 64
  pfn : ℕ
  size : BitVec 64
  prot : BitVec 64

/-- The call that maps the memory from `base` on over the whole area. -/
def VmArea.remap (vma : VmArea) (base : ℕ) : RemapCall where
  start := vma.vmStart
  pfn := base >>> pageShift
  size := vma.vmEnd - vma.vmStart
  prot := vma.vmPageProt

/-- The `offset` of `kyouko3_mmap`: the byte offset, converted to an `int`. -/
def VmArea.offset (vma : VmArea) : BitVec 32 := (vma.vmPgoff <<< pageShift).setWidth 32

/-- What `kyouko3_probe` finds out about the card: where its two regions are. -/
structure Probe where
  pControlBase : ℕ
  pRamCardBase : ℕ

/-- The `ram_size` that `kyouko3_open` maps, an `unsigned int`. -/
def OpenEnv.ramSize (env : OpenEnv) : ℕ :=
  u32 (u32 (env.control (deviceVram >>> 2)) * (1024 * 1024))

/-- What a call of `kyouko3_mmap` has done: its result, the index at which it has read
`dma_buffers`, and its call of `io_remap_pfn_range`. -/
structure MmapCall where
  ret : ℤ
  index : Option ℤ
  remap : Option RemapCall

namespace Kyouko3

/-- `dma_buffers[index].p_base`. Outside the array C reads whatever memory is there. -/
def pBaseAt (k : Kyouko3) (memory : ℤ → ℕ) (index : ℤ) : ℕ :=
  if h : 0 ≤ index ∧ index < (dmaNumBuffs : ℤ) then
    (k.dmaBuffers ⟨index.toNat, by omega⟩).pBase
  else memory index

/-- `kyouko3_mmap`, called by the user `uid`; `ioRemap` is the result of
`io_remap_pfn_range`. -/
def kyouko3Mmap (k : Kyouko3) (probe : Probe) (memory : ℤ → ℕ) (uid : ℕ) (vma : VmArea)
    (ioRemap : ℤ) : MmapCall :=
  -- the call is ignored for everybody else, with success as its result
  if uid ≠ 0 then ⟨0, none, none⟩
  else
    if vma.offset = 0 then ⟨ioRemap, none, some (vma.remap probe.pControlBase)⟩
    else if vma.offset = 0x80000000 then ⟨ioRemap, none, some (vma.remap probe.pRamCardBase)⟩
    else
      -- default: the index is not checked
      let index := (vma.offset.toInt >>> pageShift) - 1
      ⟨ioRemap, some index, some (vma.remap (k.pBaseAt memory index))⟩

/-- The memory of buffer `i` is allocated. -/
def BufferAllocated (k : Kyouko3) (i : Fin dmaNumBuffs) : Prop :=
  .coherent dmaBuffSize (k.dmaBuffers i).kBase (k.dmaBuffers i).pBase ∈ k.held

end Kyouko3

/-! ### What is asked of it -/

/-- The byte offset names the memory from `base` on, of `size` bytes: the control region,
the memory of the card, or an allocated DMA buffer at the offset that `bind_dma` uses. -/
def Named (k : Kyouko3) (probe : Probe) (env : OpenEnv) (offset base size : ℕ) : Prop :=
  offset = 0 ∧ base = probe.pControlBase ∧ size = controlSize ∨
    offset = 0x80000000 ∧ base = probe.pRamCardBase ∧ size = env.ramSize ∨
      ∃ i : Fin dmaNumBuffs, offset = ((i : ℕ) + 1) <<< pageShift ∧ k.BufferAllocated i ∧
        base = (k.dmaBuffers i).pBase ∧ size = dmaBuffSize

/-- The mapping lies within the memory. -/
def RemapCall.Within (r : RemapCall) (base size : ℕ) : Prop :=
  base ≤ r.pfn <<< pageShift ∧ r.pfn <<< pageShift + r.size.toNat ≤ base + size

/-- No buffer outside the array is read; and a mapping that is installed lies within the
memory that its offset names, so that at an offset that names none the call is refused. -/
structure Contained (k : Kyouko3) (probe : Probe) (env : OpenEnv) (vma : VmArea)
    (call : MmapCall) : Prop where
  index : ∀ i, call.index = some i → 0 ≤ i ∧ i < (dmaNumBuffs : ℤ)
  within : ∀ r, call.remap = some r → call.ret = 0 →
    ∃ base size, Named k probe env (vma.vmPgoff.toNat <<< pageShift) base size ∧
      r.Within base size

/-- The page offset that is left of one of 64 bits in the byte offset of 32. -/
def keptPgoff (vma : VmArea) : ℕ := vma.vmPgoff.toNat % 2 ^ 20

/-- The memory starts on a page, and the mapping is no longer than it. -/
def VmArea.FitsIn (vma : VmArea) (base size : ℕ) : Prop :=
  base % 2 ^ pageShift = 0 ∧ (vma.vmEnd - vma.vmStart).toNat ≤ size

/-- What is left of the page offset is that of a region or of a buffer; and unless
`io_remap_pfn_range` fails, nothing is lost of it, a buffer is allocated, and the mapping
is no longer than the memory. -/
def Fits (k : Kyouko3) (probe : Probe) (env : OpenEnv) (vma : VmArea) (ioRemap : ℤ) : Prop :=
  (keptPgoff vma ≤ dmaNumBuffs ∨ keptPgoff vma = 2 ^ 19) ∧
    (ioRemap = 0 → vma.vmPgoff.toNat = keptPgoff vma ∧
      (keptPgoff vma = 0 → vma.FitsIn probe.pControlBase controlSize) ∧
      (keptPgoff vma = 2 ^ 19 → vma.FitsIn probe.pRamCardBase env.ramSize) ∧
      ∀ i : Fin dmaNumBuffs, keptPgoff vma = i + 1 →
        k.BufferAllocated i ∧ vma.FitsIn (k.dmaBuffers i).pBase dmaBuffSize)

/-! ### The offset -/

section Offset

variable {vma : VmArea}

theorem keptPgoff_lt : keptPgoff vma < 2 ^ 20 := Nat.mod_lt _ (by decide)

theorem offset_toNat : vma.offset.toNat = keptPgoff vma * 4096 := by
  have hlt := vma.vmPgoff.isLt
  simp only [VmArea.offset, BitVec.toNat_setWidth, BitVec.toNat_shiftLeft, Nat.shiftLeft_eq,
    pageShift, keptPgoff]
  omega

theorem offset_eq_zero : vma.offset = 0 ↔ keptPgoff vma = 0 := by
  rw [← BitVec.toNat_inj, offset_toNat]
  show keptPgoff vma * 4096 = 0 ↔ _
  omega

theorem offset_eq_ram : vma.offset = 0x80000000 ↔ keptPgoff vma = 2 ^ 19 := by
  rw [← BitVec.toNat_inj, offset_toNat]
  show keptPgoff vma * 4096 = 0x80000000 ↔ _
  omega

/-- The upper half of the kept page offsets comes out negative. -/
theorem index_eq :
    (vma.offset.toInt >>> pageShift) - 1 =
      if keptPgoff vma < 2 ^ 19 then (keptPgoff vma : ℤ) - 1
      else (keptPgoff vma : ℤ) - (2 ^ 20 : ℕ) - 1 := by
  have hlt : keptPgoff vma < 2 ^ 20 := keptPgoff_lt
  rw [BitVec.toInt_eq_toNat_cond, offset_toNat, Int.shiftRight_eq_div_pow, pageShift]
  split <;> split <;> omega

end Offset

/-! ### The three cases of the switch -/

section Cases

variable {k : Kyouko3} {probe : Probe} {env : OpenEnv} {memory : ℤ → ℕ} {vma : VmArea}
  {ioRemap : ℤ}

theorem kyouko3Mmap_control (h : keptPgoff vma = 0) :
    k.kyouko3Mmap probe memory 0 vma ioRemap =
      ⟨ioRemap, none, some (vma.remap probe.pControlBase)⟩ := by
  simp only [Kyouko3.kyouko3Mmap, ne_eq, not_true_eq_false, if_false]
  rw [if_pos (offset_eq_zero.mpr h)]

theorem kyouko3Mmap_ram (h : keptPgoff vma = 2 ^ 19) :
    k.kyouko3Mmap probe memory 0 vma ioRemap =
      ⟨ioRemap, none, some (vma.remap probe.pRamCardBase)⟩ := by
  have hzero : keptPgoff vma ≠ 0 := by omega
  simp only [Kyouko3.kyouko3Mmap, ne_eq, not_true_eq_false, if_false]
  rw [if_neg (fun heq => hzero (offset_eq_zero.mp heq)), if_pos (offset_eq_ram.mpr h)]

theorem kyouko3Mmap_default (h : keptPgoff vma ≠ 0) (h' : keptPgoff vma ≠ 2 ^ 19) :
    k.kyouko3Mmap probe memory 0 vma ioRemap =
      ⟨ioRemap, some ((vma.offset.toInt >>> pageShift) - 1),
        some (vma.remap (k.pBaseAt memory ((vma.offset.toInt >>> pageShift) - 1)))⟩ := by
  simp only [Kyouko3.kyouko3Mmap, ne_eq, not_true_eq_false, if_false]
  rw [if_neg (fun heq => h (offset_eq_zero.mp heq)), if_neg (fun heq => h' (offset_eq_ram.mp heq))]

/-- The default case reads the buffer before the kept page offset. -/
theorem kyouko3Mmap_buffer {i : Fin dmaNumBuffs} (h : keptPgoff vma = i + 1) :
    k.kyouko3Mmap probe memory 0 vma ioRemap =
      ⟨ioRemap, some ((i : ℕ) : ℤ), some (vma.remap (k.dmaBuffers i).pBase)⟩ := by
  have hi : (i : ℕ) < 8 := i.isLt
  have hindex : (vma.offset.toInt >>> pageShift) - 1 =
      ((i : ℕ) : ℤ) := by
    rw [index_eq, if_pos (by omega)]
    omega
  have hread : k.pBaseAt memory ((i : ℕ) : ℤ) = (k.dmaBuffers i).pBase := by
    rw [Kyouko3.pBaseAt, dif_pos (by simp only [dmaNumBuffs]; omega)]
    rfl
  rw [kyouko3Mmap_default (by omega) (by omega), hindex, hread]

theorem within_iff {base size : ℕ} :
    (vma.remap base).Within base size ↔ vma.FitsIn base size := by
  simp only [RemapCall.Within, VmArea.remap, VmArea.FitsIn, Nat.shiftRight_eq_div_pow,
    Nat.shiftLeft_eq, pageShift]
  omega

/-- With a permitted index, the call is contained when a mapping that is installed is of
the memory that its offset names. -/
theorem contained_iff_named {index : Option ℤ} {base size : ℕ} {valid : Prop}
    (hindex : ∀ i, index = some i → 0 ≤ i ∧ i < (dmaNumBuffs : ℤ))
    (hnamed : ∀ base' size', Named k probe env (vma.vmPgoff.toNat <<< pageShift) base' size' ↔
      vma.vmPgoff.toNat = keptPgoff vma ∧ valid ∧ base' = base ∧ size' = size) :
    Contained k probe env vma ⟨ioRemap, index, some (vma.remap base)⟩ ↔
      (ioRemap = 0 → vma.vmPgoff.toNat = keptPgoff vma ∧ valid ∧ vma.FitsIn base size) := by
  constructor
  · intro h hinstalled
    -- an offset names at most one piece of memory, so it is the one that is mapped
    obtain ⟨base', size', hname, hwithin⟩ := h.within _ rfl hinstalled
    obtain ⟨hpgoff, hvalid, rfl, rfl⟩ := (hnamed base' size').mp hname
    exact ⟨hpgoff, hvalid, within_iff.mp hwithin⟩
  · intro h
    refine ⟨hindex, ?_⟩
    intro r hr hinstalled
    cases hr
    obtain ⟨hpgoff, hvalid, hfits⟩ := h hinstalled
    exact ⟨base, size, (hnamed base size).mpr ⟨hpgoff, hvalid, rfl, rfl⟩, within_iff.mpr hfits⟩

end Cases

/-! ### Which mappings are contained -/

section Contained

variable {k : Kyouko3} {probe : Probe} {env : OpenEnv} {vma : VmArea}

/-- What an offset names, by the page offset: all three kinds of offset are below
`2 ^ 20` pages. -/
theorem named_iff {base size : ℕ} :
    Named k probe env (vma.vmPgoff.toNat <<< pageShift) base size ↔
      vma.vmPgoff.toNat = 0 ∧ base = probe.pControlBase ∧ size = controlSize ∨
        vma.vmPgoff.toNat = 2 ^ 19 ∧ base = probe.pRamCardBase ∧ size = env.ramSize ∨
          ∃ i : Fin dmaNumBuffs, vma.vmPgoff.toNat = i + 1 ∧ k.BufferAllocated i ∧
            base = (k.dmaBuffers i).pBase ∧ size = dmaBuffSize := by
  have hzero : vma.vmPgoff.toNat <<< pageShift = 0 ↔ vma.vmPgoff.toNat = 0 := by
    simp only [Nat.shiftLeft_eq, pageShift]
    omega
  have hram : vma.vmPgoff.toNat <<< pageShift = 0x80000000 ↔ vma.vmPgoff.toNat = 2 ^ 19 := by
    simp only [Nat.shiftLeft_eq, pageShift]
    omega
  have hbuffer : ∀ i : ℕ, vma.vmPgoff.toNat <<< pageShift = (i + 1) <<< pageShift ↔
      vma.vmPgoff.toNat = i + 1 := by
    intro i
    simp only [Nat.shiftLeft_eq, pageShift]
    omega
  simp only [Named, hzero, hram, hbuffer]

theorem named_control (h : keptPgoff vma = 0) (base size : ℕ) :
    Named k probe env (vma.vmPgoff.toNat <<< pageShift) base size ↔
      vma.vmPgoff.toNat = keptPgoff vma ∧ True ∧ base = probe.pControlBase ∧
        size = controlSize := by
  rw [named_iff, h]
  constructor
  · rintro (⟨hpgoff, hname⟩ | ⟨hpgoff, -⟩ | ⟨i, hpgoff, -⟩)
    · exact ⟨hpgoff, trivial, hname⟩
    · rw [keptPgoff, hpgoff] at h
      cases h
    · have hi : (i : ℕ) < 8 := i.isLt
      rw [keptPgoff] at h
      omega
  · rintro ⟨hpgoff, -, hname⟩
    exact .inl ⟨hpgoff, hname⟩

theorem named_ram (h : keptPgoff vma = 2 ^ 19) (base size : ℕ) :
    Named k probe env (vma.vmPgoff.toNat <<< pageShift) base size ↔
      vma.vmPgoff.toNat = keptPgoff vma ∧ True ∧ base = probe.pRamCardBase ∧
        size = env.ramSize := by
  rw [named_iff, h]
  constructor
  · rintro (⟨hpgoff, -⟩ | ⟨hpgoff, hname⟩ | ⟨i, hpgoff, -⟩)
    · rw [keptPgoff, hpgoff] at h
      cases h
    · exact ⟨hpgoff, trivial, hname⟩
    · have hi : (i : ℕ) < 8 := i.isLt
      rw [keptPgoff] at h
      omega
  · rintro ⟨hpgoff, -, hname⟩
    exact .inr (.inl ⟨hpgoff, hname⟩)

theorem named_buffer {i : Fin dmaNumBuffs} (h : keptPgoff vma = i + 1) (base size : ℕ) :
    Named k probe env (vma.vmPgoff.toNat <<< pageShift) base size ↔
      vma.vmPgoff.toNat = keptPgoff vma ∧ k.BufferAllocated i ∧ base = (k.dmaBuffers i).pBase ∧
        size = dmaBuffSize := by
  have hi : (i : ℕ) < 8 := i.isLt
  rw [named_iff, h]
  constructor
  · rintro (⟨hpgoff, -⟩ | ⟨hpgoff, -⟩ | ⟨j, hpgoff, hname⟩)
    · rw [keptPgoff] at h
      omega
    · rw [keptPgoff] at h
      omega
    · have hj : (j : ℕ) < 8 := j.isLt
      have hij : j = i := by
        rw [keptPgoff] at h
        apply Fin.ext
        omega
      subst hij
      exact ⟨hpgoff, hname⟩
  · rintro ⟨hpgoff, hname⟩
    exact .inr (.inr ⟨i, hpgoff, hname⟩)

/-! The condition in each case -/

variable {ioRemap : ℤ}

theorem fits_control (h : keptPgoff vma = 0) :
    Fits k probe env vma ioRemap ↔ (ioRemap = 0 → vma.vmPgoff.toNat = keptPgoff vma ∧ True ∧
      vma.FitsIn probe.pControlBase controlSize) := by
  rw [Fits]
  simp [h]

theorem fits_ram (h : keptPgoff vma = 2 ^ 19) :
    Fits k probe env vma ioRemap ↔ (ioRemap = 0 → vma.vmPgoff.toNat = keptPgoff vma ∧ True ∧
      vma.FitsIn probe.pRamCardBase env.ramSize) := by
  have hbuffer : ∀ i : Fin dmaNumBuffs, ¬2 ^ 19 = (i : ℕ) + 1 := by
    intro i
    have hi : (i : ℕ) < 8 := i.isLt
    omega
  have hcontrol : ¬2 ^ 19 = 0 := by omega
  simp only [Fits, h, hbuffer, hcontrol, or_true, true_and, false_implies, implies_true,
    and_true, true_implies]

theorem fits_buffer {i : Fin dmaNumBuffs} (h : keptPgoff vma = i + 1) :
    Fits k probe env vma ioRemap ↔ (ioRemap = 0 → vma.vmPgoff.toNat = keptPgoff vma ∧
      k.BufferAllocated i ∧ vma.FitsIn (k.dmaBuffers i).pBase dmaBuffSize) := by
  have hi : (i : ℕ) < 8 := i.isLt
  have hcontrol : keptPgoff vma ≠ 0 := by omega
  have hram : keptPgoff vma ≠ 2 ^ 19 := by omega
  have hin : keptPgoff vma ≤ dmaNumBuffs := by simp only [dmaNumBuffs]; omega
  have hother : ∀ j : Fin dmaNumBuffs, keptPgoff vma = j + 1 ↔ j = i := by
    intro j
    rw [h]
    constructor
    · intro hij
      apply Fin.ext
      omega
    · rintro rfl
      rfl
  simp only [Fits, hcontrol, hram, hin, hother, true_or, true_and, false_implies, forall_eq]

end Contained

/-- A mapping that the superuser asks for is contained exactly when it fits. -/
theorem mmap_contained_iff (k : Kyouko3) (probe : Probe) (env : OpenEnv) (memory : ℤ → ℕ)
    (vma : VmArea) (ioRemap : ℤ) :
    Contained k probe env vma (k.kyouko3Mmap probe memory 0 vma ioRemap) ↔
      Fits k probe env vma ioRemap := by
  by_cases hcontrol : keptPgoff vma = 0
  · rw [kyouko3Mmap_control hcontrol, contained_iff_named (by simp) (named_control hcontrol),
      fits_control hcontrol]
  by_cases hram : keptPgoff vma = 2 ^ 19
  · rw [kyouko3Mmap_ram hram, contained_iff_named (by simp) (named_ram hram), fits_ram hram]
  have hlt : keptPgoff vma < 2 ^ 20 := keptPgoff_lt
  by_cases hin : keptPgoff vma ≤ 8
  · obtain ⟨i, hi⟩ : ∃ i : Fin dmaNumBuffs, keptPgoff vma = i + 1 :=
      ⟨⟨keptPgoff vma - 1, by simp only [dmaNumBuffs]; omega⟩, by simp only; omega⟩
    have hpermitted : ∀ j, some ((i : ℕ) : ℤ) = some j → 0 ≤ j ∧ j < (dmaNumBuffs : ℤ) := by
      intro j hj
      cases hj
      omega
    rw [kyouko3Mmap_buffer hi, contained_iff_named hpermitted (named_buffer hi), fits_buffer hi]
  · rw [kyouko3Mmap_default hcontrol hram]
    constructor
    · intro h
      have hindex := h.index _ rfl
      rw [index_eq] at hindex
      simp only [dmaNumBuffs] at hindex
      split at hindex <;> omega
    · intro h
      have hkept := h.1
      simp only [dmaNumBuffs] at hkept
      omega

/-- After the loop of `bind_dma`, the mapping it has asked for of each buffer is
contained, when the buffer has been allocated, on a page of its own. -/
theorem bound_buffers_contained {k : Kyouko3} {benv : BindEnv} {i : Fin dmaNumBuffs}
    {kBase pBase : ℕ} (hbound : k.BoundTo benv i kBase pBase) (hpage : pBase % 4096 = 0)
    {vma : VmArea} (hpgoff : vma.vmPgoff.toNat = i + 1)
    (hsize : (vma.vmEnd - vma.vmStart).toNat = dmaBuffSize) (probe : Probe) (env : OpenEnv)
    (memory : ℤ → ℕ) (ioRemap : ℤ) :
    Contained k probe env vma (k.kyouko3Mmap probe memory 0 vma ioRemap) := by
  have hi : (i : ℕ) < 8 := i.isLt
  have hkept : keptPgoff vma = i + 1 := by
    rw [keptPgoff]
    omega
  rw [mmap_contained_iff, fits_buffer hkept]
  intro _
  refine ⟨hpgoff.trans hkept.symm, ?_, ?_, hsize.le⟩
  · rw [Kyouko3.BufferAllocated, hbound.kBase_eq, hbound.pBase_eq]
    exact hbound.held
  · rw [hbound.pBase_eq]
    exact hpage

/-- One page at the page offset after the last buffer's. -/
def ninthPage : VmArea where
  vmStart := 0
  vmEnd := 0x1000
  vmPgoff := 9
  vmPageProt := 0

/-- After opening the device, the page offset after the last buffer's makes `kyouko3_mmap`
read behind the array and map what it finds there. -/
theorem ninth_buffer_read :
    let k := Kyouko3.zero.kyouko3Open zeroOpenEnv
    let probe : Probe := ⟨0x10000000, 0x20000000⟩
    let call := k.kyouko3Mmap probe (fun _ => 0x30000000) 0 ninthPage 0
    call.index = some 8 ∧ call.remap = some (ninthPage.remap 0x30000000) ∧
      ¬Contained k probe zeroOpenEnv ninthPage call := by
  intro k probe call
  have hindex : call.index = some 8 := by decide
  refine ⟨hindex, rfl, ?_⟩
  intro h
  exact absurd (h.index 8 hindex).2 (by decide)

end OsProjects.Driver
