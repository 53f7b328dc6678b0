import Mathlib.Data.BitVec
import Mathlib.Data.List.FinRange
import Mathlib.Data.List.Induction
import OsProjects.Driver.Kyouko3

/-!
# The DMA buffers of the user program

`dma_commands` fills each DMA buffer with the colours and coordinates of a number of
triangles, counting the vertices in a bit-field of the header and the bytes in
`byte_count`, then puts the header in front and hands the byte count to `START_DMA`.
The bit-field is ten bits wide, and `byte_count` does not include the header: the
header announces the right number of vertices only for up to 341 triangles, and the
last four bytes of every buffer are not announced to the driver.

Floating-point numbers are represented by the words that the program stores for them.

## Main definitions

* `UDmaHeader` — the header, and the word it is packed into
* `fillBuffer`, `dmaCommands` — the loops of `dma_commands`
* `readTriangles` — what a reader makes of a buffer, given its number of bytes
* `Describes` — the header and the byte count describe what was written

## Main results

* `encoded_fillBuffer` — what stands in a buffer after the loops
* `startDma_accepts` — the driver accepts the byte count
* `fillBuffer_misdescribes` — which parts of the description are right, and when
-/

namespace OsProjects.User

open Driver (dmaBuffSize unsigned)

/-! ### The header -/

/-- `struct u_dma_header`: bit-fields of one word, the first in the lowest bits. -/
structure UDmaHeader where
  address : BitVec 14
  count : BitVec 10
  opcode : BitVec 8
  deriving DecidableEq, Repr

namespace UDmaHeader

/-- `*(unsigned int *)&dma_header` -/
def word (h : UDmaHeader) : BitVec 32 := h.opcode ++ h.count ++ h.address

/-- The header in a word. -/
def ofWord (w : BitVec 32) : UDmaHeader :=
  ⟨w.extractLsb' 0 14, w.extractLsb' 14 10, w.extractLsb' 24 8⟩

/-- Packing a header loses nothing. -/
@[simp] theorem ofWord_word (h : UDmaHeader) : ofWord h.word = h := by
  have haddress : h.word.extractLsb' 0 14 = h.address := BitVec.extractLsb'_append_eq_right
  have hcount : h.word.extractLsb' 14 10 = h.count :=
    (BitVec.extractLsb'_append_eq_of_le (by decide)).trans BitVec.extractLsb'_append_eq_right
  have hopcode : h.word.extractLsb' 24 8 = h.opcode :=
    (BitVec.extractLsb'_append_eq_of_le (by decide)).trans BitVec.extractLsb'_append_eq_left
  rw [ofWord, haddress, hcount, hopcode]

end UDmaHeader

/-! ### The loops -/

/-- The words of `colors` and `coords` for one triangle. -/
@[ext]
structure Triangle where
  colors : Fin 9 → BitVec 32
  coords : Fin 9 → BitVec 32

/-- The variables of `dma_commands` while it fills a buffer: the words from `u_buff_base`
on, how many words from there `u_buff_curr` points, `dma_header` and `byte_count`. -/
structure Filling where
  uBuff : ℕ → BitVec 32
  uBuffCurr : ℕ
  dmaHeader : UDmaHeader
  byteCount : ℕ

namespace Filling

/-- `*(u_buff_curr++) = w` -/
def put (s : Filling) (w : BitVec 32) : Filling :=
  { s with uBuff := Function.update s.uBuff s.uBuffCurr w, uBuffCurr := s.uBuffCurr + 1 }

/-- The body of the loops over `k`, for either array. -/
def putVertex (s : Filling) (words : Fin 9 → BitVec 32) (k : Fin 3) : Filling :=
  ((s.put (words ⟨k * 3 + 0, by omega⟩)).put (words ⟨k * 3 + 1, by omega⟩)).put
    (words ⟨k * 3 + 2, by omega⟩)

/-- `for(k = 0; k < 3; ++k)` -/
def putVertices (s : Filling) (words : Fin 9 → BitVec 32) : Filling :=
  (List.finRange 3).foldl (fun s k => s.putVertex words k) s

/-- The body of the loop over the triangles; `byte_count` is an `unsigned long`. -/
def triangle (s : Filling) (t : Triangle) : Filling :=
  let s := (s.putVertices t.colors).putVertices t.coords
  { s with
    -- the bit-field wraps around at 1024 vertices
    dmaHeader := { s.dmaHeader with count := s.dmaHeader.count + 3 }
    byteCount := (s.byteCount + 72) % 2 ^ 64 }

/-- The number of bytes from `u_buff_base` up to `u_buff_curr`. -/
def bytesWritten (s : Filling) : ℕ := 4 * s.uBuffCurr

/-- The byte count that `START_DMA` reads: the `int` in the low half of `byte_count`. -/
def handed (s : Filling) : Int32 := Int32.ofNat s.byteCount

end Filling

/-- The state of `dma_commands` before the loop over the triangles. -/
def startBuffer (dmaHeader : UDmaHeader) (uBuff : ℕ → BitVec 32) : Filling where
  uBuff := uBuff
  uBuffCurr := 1
  dmaHeader := { dmaHeader with count := 0 }
  byteCount := 0

/-- One buffer: the loop over the triangles, then the header in front. -/
def fillBuffer (dmaHeader : UDmaHeader) (uBuff : ℕ → BitVec 32) (ts : List Triangle) : Filling :=
  let s := ts.foldl Filling.triangle (startBuffer dmaHeader uBuff)
  { s with uBuff := Function.update s.uBuff 0 s.dmaHeader.word }

/-- `dma_header` as it is initialised. -/
def initialHeader : UDmaHeader := ⟨0x1045, 0, 0x14⟩

/-- `U_NUM_TRIANGLES` -/
def uNumTriangles : ℕ := 1000

/-- `dma_commands`, as the buffers it hands over, given the memory of each and the
triangles drawn for it. -/
def dmaCommands (dmaHeader : UDmaHeader) :
    List ((ℕ → BitVec 32) × List Triangle) → List Filling
  | [] => []
  | (uBuff, ts) :: rest =>
    let s := fillBuffer dmaHeader uBuff ts
    s :: dmaCommands s.dmaHeader rest

/-! ### Reading a buffer -/

/-- The triangle in the eighteen words from `start` on. -/
def readTriangle (uBuff : ℕ → BitVec 32) (start : ℕ) : Triangle where
  colors i := uBuff (start + i)
  coords i := uBuff (start + 9 + i)

/-- The triangles in a buffer of so many bytes, if its header announces as many as the
bytes after it hold. -/
def readTriangles (uBuff : ℕ → BitVec 32) (byteCount : ℕ) : Option (List Triangle) :=
  let n := (UDmaHeader.ofWord (uBuff 0)).count.toNat / 3
  if byteCount = 4 + 72 * n then
    some ((List.range n).map fun j => readTriangle uBuff (1 + 18 * j))
  else none

/-- The header announces the vertices of the triangles, its other fields are as they were,
the byte count handed over is the number of bytes written, and a reader who goes by both
finds the triangles. -/
structure Describes (dmaHeader : UDmaHeader) (ts : List Triangle) (s : Filling) : Prop where
  count : (UDmaHeader.ofWord (s.uBuff 0)).count.toNat = 3 * ts.length
  address : (UDmaHeader.ofWord (s.uBuff 0)).address = dmaHeader.address
  opcode : (UDmaHeader.ofWord (s.uBuff 0)).opcode = dmaHeader.opcode
  byteCount : unsigned s.handed = s.bytesWritten
  triangles : readTriangles s.uBuff (unsigned s.handed) = some ts

/-! ### Writing words -/

namespace Filling

/-- One word after another. -/
def puts (s : Filling) (ws : List (BitVec 32)) : Filling := ws.foldl put s

variable {s : Filling} {ws : List (BitVec 32)} {i : ℕ}

@[simp] theorem put_uBuffCurr (s : Filling) (w : BitVec 32) :
    (s.put w).uBuffCurr = s.uBuffCurr + 1 := rfl

@[simp] theorem puts_uBuffCurr (s : Filling) (ws : List (BitVec 32)) :
    (s.puts ws).uBuffCurr = s.uBuffCurr + ws.length := by
  induction ws generalizing s with
  | nil => rfl
  | cons w ws ih =>
    have hcons : s.puts (w :: ws) = (s.put w).puts ws := rfl
    rw [hcons, ih, List.length_cons, put_uBuffCurr]
    omega

@[simp] theorem puts_dmaHeader (s : Filling) (ws : List (BitVec 32)) :
    (s.puts ws).dmaHeader = s.dmaHeader := by
  induction ws generalizing s with
  | nil => rfl
  | cons w ws ih => exact ih (s.put w)

@[simp] theorem puts_byteCount (s : Filling) (ws : List (BitVec 32)) :
    (s.puts ws).byteCount = s.byteCount := by
  induction ws generalizing s with
  | nil => rfl
  | cons w ws ih => exact ih (s.put w)

/-- What is behind the pointer, or past the words, stays. -/
theorem puts_uBuff_of_outside (h : i < s.uBuffCurr ∨ s.uBuffCurr + ws.length ≤ i) :
    (s.puts ws).uBuff i = s.uBuff i := by
  induction ws generalizing s with
  | nil => rfl
  | cons w ws ih =>
    have hcons : s.puts (w :: ws) = (s.put w).puts ws := rfl
    rw [List.length_cons] at h
    have hne : i ≠ s.uBuffCurr := by omega
    rw [hcons, ih (by rw [put_uBuffCurr]; omega)]
    exact Function.update_of_ne hne _ _

/-- The words stand where the pointer was, in order. -/
theorem puts_uBuff {w : BitVec 32} (h : ws[i]? = some w) :
    (s.puts ws).uBuff (s.uBuffCurr + i) = w := by
  induction ws generalizing s i with
  | nil => cases h
  | cons w' ws ih =>
    have hcons : s.puts (w' :: ws) = (s.put w').puts ws := rfl
    rw [hcons]
    cases i with
    | zero =>
      rw [puts_uBuff_of_outside (.inl (Nat.lt_succ_self _))]
      obtain rfl := Option.some_inj.mp h
      exact Function.update_self _ _ _
    | succ i =>
      have hnext : s.uBuffCurr + (i + 1) = (s.put w').uBuffCurr + i := by
        rw [put_uBuffCurr]
        omega
      rw [hnext]
      exact ih h

end Filling

/-- The words of a triangle in the order in which they are stored. -/
def Triangle.words (t : Triangle) : List (BitVec 32) := List.ofFn t.colors ++ List.ofFn t.coords

@[simp] theorem Triangle.length_words (t : Triangle) : t.words.length = 18 := by
  simp [words]

theorem Triangle.words_colors (t : Triangle) (i : Fin 9) :
    t.words[(i : ℕ)]? = some (t.colors i) := by
  rw [words, List.getElem?_append_left (by simp), List.getElem?_ofFn]
  simp

theorem Triangle.words_coords (t : Triangle) (i : Fin 9) :
    t.words[9 + (i : ℕ)]? = some (t.coords i) := by
  rw [words, List.getElem?_append_right (by simp), List.getElem?_ofFn]
  simp

theorem Filling.putVertices_eq (s : Filling) (words : Fin 9 → BitVec 32) :
    s.putVertices words = s.puts (List.ofFn words) := rfl

/-- The loops over `k` store the eighteen words of the triangle. -/
theorem Filling.triangle_eq (s : Filling) (t : Triangle) :
    s.triangle t = { s.puts t.words with
      dmaHeader := { s.dmaHeader with count := s.dmaHeader.count + 3 }
      byteCount := (s.byteCount + 72) % 2 ^ 64 } := by
  have hputs : (s.putVertices t.colors).putVertices t.coords = s.puts t.words := by
    rw [putVertices_eq, putVertices_eq, puts, puts, puts, Triangle.words, List.foldl_append]
  rw [triangle, hputs, puts_dmaHeader, puts_byteCount]

/-- A triangle is read from its own words. -/
theorem readTriangle_congr {uBuff uBuff' : ℕ → BitVec 32} {start : ℕ}
    (h : ∀ i, start ≤ i → i < start + 18 → uBuff i = uBuff' i) :
    readTriangle uBuff start = readTriangle uBuff' start := by
  ext i : 2
  · exact h _ (by omega) (by omega)
  · exact h _ (by omega) (by omega)

/-- Reading where the words of a triangle have been stored. -/
theorem readTriangle_puts (s : Filling) (t : Triangle) :
    readTriangle (s.puts t.words).uBuff s.uBuffCurr = t := by
  ext i : 2
  · exact Filling.puts_uBuff (t.words_colors i)
  · have hsum : s.uBuffCurr + 9 + i = s.uBuffCurr + (9 + i) := Nat.add_assoc _ _ _
    exact (congrArg _ hsum).trans (Filling.puts_uBuff (t.words_coords i))

/-! ### What stands in a buffer -/

/-- What is counted and what is stored when the triangles `ts` have been drawn into a
buffer that held `uBuff`. -/
structure Encoded (dmaHeader : UDmaHeader) (uBuff : ℕ → BitVec 32) (ts : List Triangle)
    (s : Filling) : Prop where
  curr : s.uBuffCurr = 1 + 18 * ts.length
  count : s.dmaHeader.count = BitVec.ofNat 10 (3 * ts.length)
  address : s.dmaHeader.address = dmaHeader.address
  opcode : s.dmaHeader.opcode = dmaHeader.opcode
  byteCount : s.byteCount = 72 * ts.length % 2 ^ 64
  triangles : ∀ j (hj : j < ts.length), readTriangle s.uBuff (1 + 18 * j) = ts[j]
  untouched : ∀ i, s.uBuffCurr ≤ i → s.uBuff i = uBuff i

namespace Encoded

variable {dmaHeader : UDmaHeader} {uBuff : ℕ → BitVec 32} {ts : List Triangle} {s : Filling}

theorem start (dmaHeader : UDmaHeader) (uBuff : ℕ → BitVec 32) :
    Encoded dmaHeader uBuff [] (startBuffer dmaHeader uBuff) where
  curr := rfl
  count := rfl
  address := rfl
  opcode := rfl
  byteCount := rfl
  triangles j hj := absurd hj (Nat.not_lt_zero j)
  untouched _ _ := rfl

/-- What one triangle preserves. -/
theorem triangle (h : Encoded dmaHeader uBuff ts s) (t : Triangle) :
    Encoded dmaHeader uBuff (ts ++ [t]) (s.triangle t) := by
  rw [Filling.triangle_eq]
  refine ⟨?_, ?_, h.address, h.opcode, ?_, ?_, ?_⟩
  · simp only [Filling.puts_uBuffCurr, h.curr, Triangle.length_words, List.length_append,
      List.length_singleton]
    omega
  · rw [List.length_append, List.length_singleton, Nat.mul_add_one, BitVec.ofNat_add, ← h.count]
    rfl
  · rw [List.length_append, List.length_singleton, Nat.mul_add_one]
    simp only [h.byteCount]
    omega
  · intro j hj
    rw [List.length_append, List.length_singleton] at hj
    rcases Nat.lt_succ_iff_lt_or_eq.mp hj with hlt | rfl
    · rw [List.getElem_append_left hlt, ← h.triangles j hlt]
      refine readTriangle_congr fun i _ hi => ?_
      have hbehind : i < s.uBuffCurr := by
        rw [h.curr]
        omega
      show (s.puts t.words).uBuff i = s.uBuff i
      exact Filling.puts_uBuff_of_outside (.inl hbehind)
    · rw [List.getElem_concat_length rfl, ← h.curr]
      exact readTriangle_puts s t
  · intro i hi
    have hpast : s.uBuffCurr + t.words.length ≤ i := by simpa using hi
    refine (Filling.puts_uBuff_of_outside (.inr hpast)).trans (h.untouched i ?_)
    omega

/-- What any number of triangles preserve. -/
theorem foldl (dmaHeader : UDmaHeader) (uBuff : ℕ → BitVec 32) (ts : List Triangle) :
    Encoded dmaHeader uBuff ts
      (ts.foldl Filling.triangle (startBuffer dmaHeader uBuff)) := by
  induction ts using List.reverseRecOn with
  | nil => exact start dmaHeader uBuff
  | append_singleton ts t ih =>
    rw [List.foldl_append]
    exact ih.triangle t

end Encoded

section Buffer

variable {dmaHeader : UDmaHeader} {uBuff : ℕ → BitVec 32} {ts : List Triangle} {s : Filling}

/-- The header goes in front of the triangles. -/
theorem encoded_fillBuffer (dmaHeader : UDmaHeader) (uBuff : ℕ → BitVec 32)
    (ts : List Triangle) : Encoded dmaHeader uBuff ts (fillBuffer dmaHeader uBuff ts) := by
  have h := Encoded.foldl dmaHeader uBuff ts
  refine ⟨h.curr, h.count, h.address, h.opcode, h.byteCount, ?_, ?_⟩
  · intro j hj
    rw [← h.triangles j hj]
    refine readTriangle_congr fun i hle _ => ?_
    exact Function.update_of_ne (by omega) _ _
  · intro i hi
    have hcurr := h.curr
    have hpos : i ≠ 0 := by
      rintro rfl
      exact absurd (hcurr ▸ hi) (by omega)
    exact (Function.update_of_ne hpos _ _).trans (h.untouched i hi)

theorem header_fillBuffer :
    UDmaHeader.ofWord ((fillBuffer dmaHeader uBuff ts).uBuff 0) =
      ⟨dmaHeader.address, BitVec.ofNat 10 (3 * ts.length), dmaHeader.opcode⟩ := by
  have h := encoded_fillBuffer dmaHeader uBuff ts
  have hword : (fillBuffer dmaHeader uBuff ts).uBuff 0 =
      (fillBuffer dmaHeader uBuff ts).dmaHeader.word := by
    simp only [fillBuffer, Function.update_self]
  rw [hword, UDmaHeader.ofWord_word, ← h.count, ← h.address, ← h.opcode]

theorem bytesWritten_fillBuffer :
    (fillBuffer dmaHeader uBuff ts).bytesWritten = 4 + 72 * ts.length := by
  rw [Filling.bytesWritten, (encoded_fillBuffer dmaHeader uBuff ts).curr]
  omega

/-- In a buffer that fits, neither `byte_count` nor the `int` read from it overflows. -/
theorem unsigned_handed_fillBuffer (hfits : 4 + 72 * ts.length ≤ dmaBuffSize) :
    unsigned (fillBuffer dmaHeader uBuff ts).handed = 72 * ts.length := by
  rw [unsigned, Filling.handed, Int32.toUInt32_ofNat', UInt32.toNat_ofNat',
    (encoded_fillBuffer dmaHeader uBuff ts).byteCount]
  simp only [dmaBuffSize] at hfits
  omega

/-- Ten bits hold the number of vertices of up to 341 triangles. -/
theorem count_fillBuffer_iff :
    (UDmaHeader.ofWord ((fillBuffer dmaHeader uBuff ts).uBuff 0)).count.toNat = 3 * ts.length ↔
      ts.length ≤ 341 := by
  rw [header_fillBuffer, BitVec.toNat_ofNat]
  omega

/-- The bytes after the header, as `byte_count` has them, are no whole number of
triangles with a header before them. -/
theorem readTriangles_without_header (uBuff : ℕ → BitVec 32) (n : ℕ) :
    readTriangles uBuff (72 * n) = none := by
  rw [readTriangles]
  exact if_neg (by omega)

/-- A reader that is told of every byte finds the triangles exactly when the header
announces as many. -/
theorem readTriangles_fillBuffer_iff :
    readTriangles (fillBuffer dmaHeader uBuff ts).uBuff (4 + 72 * ts.length) = some ts ↔
      ts.length ≤ 341 := by
  have h := encoded_fillBuffer dmaHeader uBuff ts
  rw [readTriangles, header_fillBuffer, BitVec.toNat_ofNat]
  constructor
  · intro hread
    split at hread
    · -- the number announced is the one that the bytes have room for
      omega
    · cases hread
  · intro hle
    have hcount : 3 * ts.length % 2 ^ 10 / 3 = ts.length := by omega
    rw [hcount, if_pos rfl]
    refine congrArg some (List.ext_getElem (by simp) fun j hj hj' => ?_)
    rw [List.getElem_map, List.getElem_range]
    exact h.triangles j hj'

end Buffer

/-- The driver accepts the byte count of every buffer that fits, and hands it to the card as
it is. -/
theorem startDma_accepts (dmaHeader : UDmaHeader) (uBuff : ℕ → BitVec 32) (ts : List Triangle)
    (hne : ts ≠ []) (hfits : 4 + 72 * ts.length ≤ dmaBuffSize) :
    Driver.Kyouko3.startDmaRefuses (fillBuffer dmaHeader uBuff ts).handed = false ∧
      unsigned (fillBuffer dmaHeader uBuff ts).handed = 72 * ts.length := by
  have hpos := List.length_pos_iff.mpr hne
  have hunsigned : unsigned (fillBuffer dmaHeader uBuff ts).handed = 72 * ts.length :=
    unsigned_handed_fillBuffer hfits
  refine ⟨?_, hunsigned⟩
  have hzero : (fillBuffer dmaHeader uBuff ts).handed ≠ 0 := by
    intro h
    rw [h] at hunsigned
    have hnone : unsigned 0 = 0 := rfl
    omega
  simp only [Driver.Kyouko3.startDmaRefuses, hunsigned, hzero, decide_false, Bool.false_or,
    decide_eq_false_iff_not]
  omega

/-- Every buffer that `dma_commands` hands over is filled with its triangles behind a header
with the address and the opcode that it started with. -/
theorem mem_dmaCommands {dmaHeader : UDmaHeader}
    {buffs : List ((ℕ → BitVec 32) × List Triangle)} {s : Filling}
    (h : s ∈ dmaCommands dmaHeader buffs) :
    ∃ buff ∈ buffs, ∃ header : UDmaHeader, header.address = dmaHeader.address ∧
      header.opcode = dmaHeader.opcode ∧ s = fillBuffer header buff.1 buff.2 := by
  induction buffs generalizing dmaHeader with
  | nil => exact absurd h List.not_mem_nil
  | cons buff rest ih =>
    have hfirst := encoded_fillBuffer dmaHeader buff.1 buff.2
    rcases List.mem_cons.mp h with rfl | hrest
    · exact ⟨buff, List.mem_cons_self, dmaHeader, rfl, rfl, rfl⟩
    · obtain ⟨buff', hmem, header, haddress, hopcode, hs⟩ := ih hrest
      exact ⟨buff', List.mem_cons_of_mem _ hmem, header, haddress.trans hfirst.address,
        hopcode.trans hfirst.opcode, hs⟩

/-- **What the header and the byte count say of a buffer.** The header keeps its address
and opcode, and announces the right number of vertices for up to 341 triangles. The byte
count is four less than the number of bytes written, so it never describes the buffer, and
a reader who goes by it finds nothing. A reader who is told of the other four bytes too
finds the triangles exactly when there are no more than 341. -/
theorem fillBuffer_misdescribes (dmaHeader : UDmaHeader) (uBuff : ℕ → BitVec 32)
    (ts : List Triangle) (hfits : 4 + 72 * ts.length ≤ dmaBuffSize) :
    let s := fillBuffer dmaHeader uBuff ts
    ¬Describes dmaHeader ts s ∧
      (UDmaHeader.ofWord (s.uBuff 0)).address = dmaHeader.address ∧
      (UDmaHeader.ofWord (s.uBuff 0)).opcode = dmaHeader.opcode ∧
      ((UDmaHeader.ofWord (s.uBuff 0)).count.toNat = 3 * ts.length ↔ ts.length ≤ 341) ∧
      unsigned s.handed + 4 = s.bytesWritten ∧
      readTriangles s.uBuff (unsigned s.handed) = none ∧
      (readTriangles s.uBuff s.bytesWritten = some ts ↔ ts.length ≤ 341) := by
  intro s
  have hbytes : s.bytesWritten = 4 + 72 * ts.length := bytesWritten_fillBuffer
  have hcount : unsigned s.handed = 72 * ts.length := unsigned_handed_fillBuffer hfits
  have hheader : UDmaHeader.ofWord (s.uBuff 0) = _ := header_fillBuffer
  refine ⟨?_, ?_, ?_, count_fillBuffer_iff, ?_, ?_, ?_⟩
  · intro h
    have hsame := h.byteCount
    omega
  · rw [hheader]
  · rw [hheader]
  · omega
  · rw [hcount]
    exact readTriangles_without_header s.uBuff ts.length
  · rw [hbytes]
    exact readTriangles_fillBuffer_iff

/-- A buffer of as many triangles as the program draws fits. -/
theorem fits_uNumTriangles (t : Triangle) :
    4 + 72 * (List.replicate uNumTriangles t).length ≤ dmaBuffSize := by
  rw [List.length_replicate]
  decide

/-- The program's own buffers are among those. -/
theorem fillBuffer_misdescribes_thousand :
    let t : Triangle := ⟨0, 0⟩
    let ts := List.replicate uNumTriangles t
    4 + 72 * ts.length ≤ dmaBuffSize ∧
      ¬Describes initialHeader ts (fillBuffer initialHeader 0 ts) :=
  ⟨fits_uNumTriangles _, (fillBuffer_misdescribes initialHeader 0 _ (fits_uNumTriangles _)).1⟩

/-- A buffer of a thousand triangles has a header that announces 952 vertices, and a byte
count of 72000 for 72004 bytes. -/
theorem thousand_triangles_misdescribed :
    let t : Triangle := ⟨0, 0⟩
    let ts := List.replicate uNumTriangles t
    let s := fillBuffer initialHeader 0 ts
    4 + 72 * ts.length ≤ dmaBuffSize ∧ (UDmaHeader.ofWord (s.uBuff 0)).count = 952 ∧
      unsigned s.handed = 72000 ∧ s.bytesWritten = 72004 ∧ ¬Describes initialHeader ts s := by
  intro t ts s
  have hfits : 4 + 72 * ts.length ≤ dmaBuffSize := fits_uNumTriangles t
  have hlength : ts.length = 1000 := List.length_replicate
  have hcount : (UDmaHeader.ofWord (s.uBuff 0)).count = 952 := by
    rw [header_fillBuffer, hlength]
    decide
  have hhanded : unsigned s.handed = 72 * ts.length := unsigned_handed_fillBuffer hfits
  have hbytes : s.bytesWritten = 4 + 72 * ts.length := bytesWritten_fillBuffer
  rw [hlength] at hhanded hbytes
  refine ⟨hfits, hcount, hhanded, hbytes, fun h => ?_⟩
  have hvertices := h.count
  rw [hcount, hlength] at hvertices
  exact absurd hvertices (by decide)

end OsProjects.User
