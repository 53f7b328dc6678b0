import Mathlib.Data.List.Basic
import Mathlib.Data.Nat.ModEq
import Mathlib.Logic.Function.Basic
import Mathlib.Tactic.Ring
import OsProjects.Lib.Run

/-!
# Circular buffers as logs

A circular buffer of `N` slots is written at a position that only moves forward,
modulo `N`. What it stands for is the log of everything ever written to it: the
entry at position `k` of the log sits in slot `(base + k) % N` until the writer
comes round again. This file states that correspondence and how writing and
reading move through it, for an arbitrary entry type, and that a consumer that goes
slot by slot comes to where its producer is.

## Main definitions

* `gap N a b` — the number of steps from slot `a` forward to slot `b`
* `window N slots a n` — the `n` entries read from slot `a` on
* `Holds N slots base log lo` — the entries of `log` from position `lo` on are
  still in their slots
* `Filled N slots₀ slots head log` — what stands in every slot, live or not, after
  `log` has been written from slot zero on

## Main results

* `Holds.store_head`, `Holds.append` — writing at the head disturbs nothing and
  extends the log
* `Holds.window_eq` — reading a stretch of slots reads that stretch of the log
* `gap_add_mod` — slot arithmetic recovers distances shorter than a lap
* `Filled.write` — writing at the head and moving it fills the ring
* `Filled.window_eq` — reading from any slot up to the head reads the end of the log
* `exists_caught_up` — a run of the consumer that ends at the producer's slot
-/

namespace OsProjects.RingLog

variable {α : Type*} {N base lo : ℕ} {slots : ℕ → α} {log : List α}

/-! ### Slot arithmetic -/

/-- The number of steps from slot `a` forward to slot `b`. -/
def gap (N a b : ℕ) : ℕ := (b + N - a) % N

/-- Positions less than a lap apart occupy distinct slots. -/
theorem slot_injOn {i j : ℕ} (hij : i ≤ j) (hlt : j < i + N)
    (h : (base + i) % N = (base + j) % N) : i = j := by
  have hmod : base + i ≡ base + j [MOD N] := h
  have hdvd : N ∣ base + j - (base + i) := (Nat.modEq_iff_dvd' (by omega)).mp hmod
  have hzero : base + j - (base + i) = 0 := Nat.eq_zero_of_dvd_of_lt hdvd (by omega)
  omega

/-- The distance between the slots of two positions is the distance between the
positions, up to a lap. -/
theorem gap_add_mod {i j : ℕ} (hij : i ≤ j) (hlt : j < i + N) :
    gap N ((base + i) % N) ((base + j) % N) = j - i := by
  have hN : 0 < N := by omega
  have hle : (base + i) % N < N := Nat.mod_lt _ hN
  have hkey : (base + j) % N + N - (base + i) % N ≡ j - i [MOD N] := by
    have hsum : (base + j) % N + N ≡ (j - i) + (base + i) % N [MOD N] := by
      calc (base + j) % N + N ≡ (base + j) % N [MOD N] := by simp [Nat.ModEq]
        _ ≡ base + j [MOD N] := Nat.mod_modEq _ _
        _ = (j - i) + (base + i) := by omega
        _ ≡ (j - i) + (base + i) % N [MOD N] := (Nat.mod_modEq _ _).symm.add_left _
    apply Nat.ModEq.add_right_cancel' ((base + i) % N)
    rwa [Nat.sub_add_cancel (by omega)]
  calc gap N ((base + i) % N) ((base + j) % N) = (j - i) % N := hkey
    _ = j - i := Nat.mod_eq_of_lt (by omega)

theorem gap_lt (hN : 0 < N) (a b : ℕ) : gap N a b < N := Nat.mod_lt _ hN

theorem gap_of_le {a b : ℕ} (hab : a ≤ b) (hb : b < N) : gap N a b = b - a := by
  have hsum : b + N - a = b - a + N := by omega
  rw [gap, hsum, Nat.add_mod_right, Nat.mod_eq_of_lt (by omega)]

theorem gap_of_lt {a b : ℕ} (hba : b < a) (ha : a ≤ N) : gap N a b = b + N - a :=
  Nat.mod_eq_of_lt (by omega)

/-- One slot forward is one step less to go. -/
theorem gap_succ {a b : ℕ} (ha : a < N) (hb : b < N) (hne : a ≠ b) :
    gap N ((a + 1) % N) b + 1 = gap N a b := by
  rcases Nat.lt_or_gt_of_ne hne with hlt | hgt
  · rw [Nat.mod_eq_of_lt (by omega), gap_of_le hlt hb, gap_of_le hlt.le hb]
    omega
  · rw [gap_of_lt hgt ha.le]
    rcases Nat.lt_or_ge (a + 1) N with hstay | hwrap
    · rw [Nat.mod_eq_of_lt hstay, gap_of_lt (by omega) hstay.le]
      omega
    · have hlast : a + 1 = N := by omega
      rw [hlast, Nat.mod_self, gap_of_le (Nat.zero_le b) hb]
      omega

theorem slot_succ (k : ℕ) : ((base + k) % N + 1) % N = (base + (k + 1)) % N := by
  rw [Nat.mod_add_mod, Nat.add_assoc]

/-! ### Reading a stretch of slots -/

/-- The `n` entries in the slots from `a` on, wrapping at `N`. -/
def window (N : ℕ) (slots : ℕ → α) (a n : ℕ) : List α :=
  (List.range n).map fun i => slots ((a + i) % N)

@[simp] theorem window_zero (a : ℕ) : window N slots a 0 = [] := rfl

@[simp] theorem length_window (a n : ℕ) : (window N slots a n).length = n := by
  simp [window]

/-! ### The log behind the slots -/

/-- The slots hold the log from position `lo` on: no more than a lap of it, each
entry in its own slot. -/
structure Holds (N : ℕ) (slots : ℕ → α) (base : ℕ) (log : List α) (lo : ℕ) : Prop where
  live : log.length ≤ lo + N
  entry : ∀ k, lo ≤ k → k < log.length → log[k]? = some (slots ((base + k) % N))

theorem Holds.mono {lo' : ℕ} (h : Holds N slots base log lo) (hle : lo ≤ lo') :
    Holds N slots base log lo' where
  live := h.live.trans (by omega)
  entry k hk := h.entry k (hle.trans hk)

/-- A log none of which is live puts no constraint on the slots. -/
theorem Holds.of_length_le (h : log.length ≤ lo) : Holds N slots base log lo where
  live := by omega
  entry k hk hlt := by omega

/-- The slot of the next position is free as long as less than a lap is live:
whatever is stored there, the log stands. -/
theorem Holds.store_head (h : Holds N slots base log lo) (e : α)
    (hroom : log.length < lo + N) :
    Holds N (Function.update slots ((base + log.length) % N) e) base log lo where
  live := hroom.le
  entry k hk hlt := by
    have hne : (base + k) % N ≠ (base + log.length) % N := fun heq =>
      absurd (slot_injOn hlt.le (by omega) heq) hlt.ne
    rw [Function.update_of_ne hne]
    exact h.entry k hk hlt

/-- An entry found in the slot of the next position extends the log. -/
theorem Holds.append (h : Holds N slots base log lo) (hroom : log.length < lo + N) :
    Holds N slots base (log ++ [slots ((base + log.length) % N)]) lo where
  live := by
    rw [List.length_append, List.length_singleton]
    exact hroom
  entry k hk hlt := by
    rw [List.length_append, List.length_singleton] at hlt
    rcases Nat.lt_succ_iff_lt_or_eq.mp hlt with hlt | rfl
    · rw [List.getElem?_append_left hlt]
      exact h.entry k hk hlt
    · simp

/-- Reading `n` slots from the slot of position `i` reads positions `i` to
`i + n` of the log. -/
theorem Holds.window_eq (h : Holds N slots base log lo) {i n : ℕ} (hi : lo ≤ i)
    (hn : i + n ≤ log.length) :
    window N slots ((base + i) % N) n = (log.drop i).take n := by
  refine List.ext_getElem? fun k => ?_
  rcases Nat.lt_or_ge k n with hk | hk
  · have hentry := h.entry (i + k) (by omega) (by omega)
    rw [List.getElem?_take_of_lt hk, List.getElem?_drop, hentry]
    simp [window, hk, Nat.add_assoc]
  · rw [List.getElem?_eq_none (by simpa using hk),
      List.getElem?_eq_none ((List.length_take_le _ _).trans hk)]

/-- The slot of a live position holds the entry at that position. -/
theorem Holds.getElem (h : Holds N slots base log lo) {k : ℕ} (hk : lo ≤ k)
    (hlt : k < log.length) : slots ((base + k) % N) = log[k] := by
  have hentry := h.entry k hk hlt
  rw [List.getElem?_eq_getElem hlt] at hentry
  exact (Option.some_inj.mp hentry).symm

/-! ### Every slot -/

/-- The ring after `log` has been written from slot zero on: the head is where the next
entry goes, each slot holds the latest entry written to it, and a slot never written
holds what it held at first. -/
structure Filled (N : ℕ) (slots₀ slots : ℕ → α) (head : ℕ) (log : List α) : Prop where
  head : head = log.length % N
  latest : ∀ j (hj : j < log.length),
    (∀ j', j < j' → j' < log.length → j' % N ≠ j % N) → slots (j % N) = log[j]
  untouched : ∀ i, (∀ j < log.length, j % N ≠ i) → slots i = slots₀ i

namespace Filled

variable {slots₀ : ℕ → α} {head : ℕ}

theorem nil : Filled N slots₀ slots₀ 0 [] where
  head := (Nat.zero_mod N).symm
  latest j hj := absurd hj (Nat.not_lt_zero j)
  untouched _ _ := rfl

/-- Storing an entry in the slot at the head and moving the head. -/
theorem write (h : Filled N slots₀ slots head log) (e : α) :
    Filled N slots₀ (Function.update slots head e) ((head + 1) % N) (log ++ [e]) where
  head := by
    rw [h.head, Nat.mod_add_mod, List.length_append, List.length_singleton]
  latest j hj hlast := by
    rw [List.length_append, List.length_singleton] at hj hlast
    rcases Nat.lt_succ_iff_lt_or_eq.mp hj with hlt | rfl
    · -- an earlier entry is still the latest of its slot, so the slot is not the head's
      have hne : j % N ≠ head := by
        rw [h.head]
        exact (hlast log.length hlt (Nat.lt_succ_self _)).symm
      rw [Function.update_of_ne hne, List.getElem_append_left hlt]
      exact h.latest j hlt fun j' hj' hlt' => hlast j' hj' (Nat.lt_succ_of_lt hlt')
    · rw [← h.head, Function.update_self, List.getElem_concat_length rfl]
  untouched i hi := by
    rw [List.length_append, List.length_singleton] at hi
    have hne : i ≠ head := by
      rw [h.head]
      exact (hi log.length (Nat.lt_succ_self _)).symm
    rw [Function.update_of_ne hne]
    exact h.untouched i fun j hj => hi j (Nat.lt_succ_of_lt hj)

/-- In the first lap each entry is in the slot of its position. -/
theorem slots_eq (h : Filled N slots₀ slots head log) (hlap : log.length ≤ N) (i : ℕ) :
    slots i = log[i]?.getD (slots₀ i) := by
  rcases Nat.lt_or_ge i log.length with hi | hi
  · have hslot := h.latest i hi fun j' hj' hlt heq => by
      rw [Nat.mod_eq_of_lt (by omega), Nat.mod_eq_of_lt (by omega)] at heq
      omega
    rw [Nat.mod_eq_of_lt (by omega)] at hslot
    rw [hslot, List.getElem?_eq_getElem hi, Option.getD_some]
  · rw [List.getElem?_eq_none hi, Option.getD_none]
    refine h.untouched i fun j hj => ?_
    rw [Nat.mod_eq_of_lt (by omega)]
    omega

/-- The last lap of the log is still in its slots. -/
theorem holds (h : Filled N slots₀ slots head log) :
    Holds N slots 0 log (log.length - N) where
  live := by omega
  entry k hk hlt := by
    rw [List.getElem?_eq_getElem hlt, Nat.zero_add]
    refine congrArg some (h.latest k hlt fun j hkj hj heq => ?_).symm
    have hslot : (0 + k) % N = (0 + j) % N := by simpa using heq.symm
    exact absurd (slot_injOn hkj.le (by omega) hslot) hkj.ne

/-- The position as far before the end of the log as a slot is before the head has
that slot. -/
theorem sub_gap_mod {t n : ℕ} (ht : t < N) (hle : gap N t (n % N) ≤ n) :
    (n - gap N t (n % N)) % N = t := by
  have hgap : gap N t (n % N) + t ≡ n [MOD N] := by
    calc gap N t (n % N) + t ≡ n % N + N - t + t [MOD N] := (Nat.mod_modEq _ _).add_right _
      _ = n % N + N := Nat.sub_add_cancel (by omega)
      _ ≡ n % N [MOD N] := by simp [Nat.ModEq]
      _ ≡ n [MOD N] := Nat.mod_modEq _ _
  have hsub : n - gap N t (n % N) ≡ t [MOD N] := by
    apply Nat.ModEq.add_right_cancel' (gap N t (n % N))
    rw [Nat.sub_add_cancel hle, Nat.add_comm t]
    exact hgap.symm
  exact Nat.mod_eq_of_modEq hsub ht

/-- From any slot forward to the head stands the end of the log, as far as the log
reaches back. -/
theorem window_eq (h : Filled N slots₀ slots head log) {t : ℕ} (ht : t < N)
    (hle : gap N t head ≤ log.length) :
    window N slots t (gap N t head) = log.drop (log.length - gap N t head) := by
  rw [h.head] at hle ⊢
  have hlt : gap N t (log.length % N) < N := Nat.mod_lt _ (by omega)
  have hread := h.holds.window_eq (i := log.length - gap N t (log.length % N))
    (n := gap N t (log.length % N)) (by omega) (by omega)
  rw [Nat.zero_add, sub_gap_mod ht hle] at hread
  rw [hread, List.take_of_length_le]
  rw [List.length_drop]
  omega

end Filled

/-! ### Catching up -/

section CatchingUp

open Run

variable {σ κ : Type*} {step : σ → κ → σ → Prop} {a : κ} {tail : σ → ℕ}

/-- If the action `a` takes the tail a slot forward wherever it is not at `head`, and keeps
`Inv`, it can take it to `head`. -/
theorem exists_caught_up (Inv : σ → Prop) {head : ℕ} (hhead : head < N)
    (hmove : ∀ s, Inv s → tail s ≠ head →
      ∃ t, step s a t ∧ Inv t ∧ tail t = (tail s + 1) % N)
    {s : σ} (hs : Inv s) (htail : tail s < N) :
    ∃ n < N, ∃ t, Path step s (List.replicate n a) t ∧ Inv t ∧ tail t = head := by
  obtain ⟨n, hgap⟩ : ∃ n, gap N (tail s) head = n := ⟨_, rfl⟩
  refine ⟨n, hgap ▸ gap_lt (Nat.zero_lt_of_lt hhead) _ _, ?_⟩
  induction n generalizing s with
  | zero =>
    refine ⟨s, Path.nil s, hs, ?_⟩
    by_contra hne
    have hsucc := gap_succ htail hhead hne
    omega
  | succ n ih =>
    have hne : tail s ≠ head := by
      intro heq
      rw [heq, gap_of_le le_rfl hhead] at hgap
      omega
    obtain ⟨m, hstep, hm, hmtail⟩ := hmove s hs hne
    have hsucc := gap_succ htail hhead hne
    obtain ⟨t, hpath, ht, hcaught⟩ :=
      ih hm (hmtail ▸ Nat.mod_lt _ (Nat.zero_lt_of_lt hhead)) (by rw [hmtail]; omega)
    exact ⟨t, hpath.cons hstep, ht, hcaught⟩

end CatchingUp

end OsProjects.RingLog
