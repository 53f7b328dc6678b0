import Mathlib.Data.List.Perm.Basic

/-!
# Ledgers of resources

A program acquires resources, uses them and gives them back. What it does to them is a
list of events; a ledger records what is held, and an event that gives back or uses
something not held has no entry.

## Main definitions

* `Event` — what is done to a resource
* `entry`, `run` — the holdings after an event and after a list of them
* `after` — the same for a program that keeps no watch over what it gives back

## Main results

* `count_of_run` — each resource is held as often as it was acquired and not released
* `exists_run_release` — whatever is held can be released
* `mem_of_run` — what is not released stays held
-/

namespace OsProjects.Ledger

variable {ρ : Type*}

/-- What is done to a resource. -/
inductive Event (ρ : Type*)
  | acquire (r : ρ)
  | release (r : ρ)
  | use (r : ρ)
  deriving DecidableEq

variable [DecidableEq ρ]

/-- The holdings after an event; only what is held can be released or used. -/
def entry (held : List ρ) : Event ρ → Option (List ρ)
  | .acquire r => some (r :: held)
  | .release r => if r ∈ held then some (held.erase r) else none
  | .use r => if r ∈ held then some held else none

/-- The holdings after a list of events. -/
def run (held : List ρ) (events : List (Event ρ)) : Option (List ρ) := events.foldlM entry held

/-- The holdings after a list of events, whether what is given back was held or not. -/
def after (held : List ρ) (events : List (Event ρ)) : List ρ :=
  events.foldl (fun held e => match e with
    | .acquire r => r :: held
    | .release r => held.erase r
    | .use _ => held) held

variable {held held' kept : List ρ} {es es' : List (Event ρ)} {r : ρ} {rs : List ρ}

@[simp] theorem run_nil : run held [] = some held := rfl

theorem run_append (held : List ρ) (es es' : List (Event ρ)) :
    run held (es ++ es') = (run held es).bind fun held' => run held' es' :=
  List.foldlM_append

theorem run_cons (held : List ρ) (e : Event ρ) (es : List (Event ρ)) :
    run held (e :: es) = (entry held e).bind fun held' => run held' es :=
  List.foldlM_cons

theorem entry_release : entry held (.release r) = some held' ↔ r ∈ held ∧ held' = held.erase r := by
  by_cases hr : r ∈ held
  · simp [entry, hr, eq_comm]
  · simp [entry, hr]

theorem entry_use : entry held (.use r) = some held' ↔ r ∈ held ∧ held' = held := by
  by_cases hr : r ∈ held
  · simp [entry, hr, eq_comm]
  · simp [entry, hr]

/-- Two runs, one after the other. -/
theorem run_trans (h : run held es = some kept) (h' : run kept es' = some held') :
    run held (es ++ es') = some held' := by
  rw [run_append, h]
  exact h'

/-- Uses of what is held change nothing. -/
theorem run_use (h : ∀ r ∈ rs, r ∈ held) : run held (rs.map .use) = some held := by
  induction rs with
  | nil => rfl
  | cons r rs ih =>
    have hr : r ∈ held := h r List.mem_cons_self
    rw [List.map_cons, run_cons, entry, if_pos hr]
    exact ih fun x hx => h x (List.mem_cons_of_mem _ hx)

theorem run_acquire (held rs : List ρ) :
    run held (rs.map .acquire) = some (rs.reverse ++ held) := by
  induction rs generalizing held with
  | nil => rfl
  | cons r rs ih =>
    rw [List.map_cons, run_cons, List.reverse_cons, List.append_assoc]
    exact ih (r :: held)

/-- Whatever is held can be released, and the rest is kept. -/
theorem exists_run_release (h : held.Perm (rs ++ kept)) :
    ∃ held', run held (rs.map .release) = some held' ∧ held'.Perm kept := by
  -- on what is released; what is held changes with each release
  induction rs generalizing held with
  | nil => exact ⟨held, rfl, h⟩
  | cons r rs ih =>
    have hr : r ∈ held := h.mem_iff.mpr List.mem_cons_self
    have hrest : (held.erase r).Perm (rs ++ kept) := by
      have herase := h.erase r
      rwa [List.cons_append, List.erase_cons_head] at herase
    obtain ⟨held', hrun, hkept⟩ := ih hrest
    refine ⟨held', ?_, hkept⟩
    rw [List.map_cons, run_cons, entry, if_pos hr]
    exact hrun

/-! ### Unwatched holdings -/

section After

variable (held : List ρ) (r : ρ) (rs : List ρ) (es es' : List (Event ρ))

@[simp] theorem after_nil : after held [] = held := rfl

@[simp] theorem after_append : after held (es ++ es') = after (after held es) es' :=
  List.foldl_append

@[simp] theorem after_acquire_cons :
    after held (.acquire r :: es) = after (r :: held) es := rfl

@[simp] theorem after_release_cons :
    after held (.release r :: es) = after (held.erase r) es := rfl

@[simp] theorem after_use_cons : after held (.use r :: es) = after held es := rfl

end After

/-- Where the watch finds nothing wrong it makes no difference. -/
theorem eq_after_of_run (h : run held es = some held') : held' = after held es := by
  induction es generalizing held with
  | nil => exact (Option.some_inj.mp h).symm
  | cons e es ih =>
    rw [run_cons] at h
    obtain ⟨next, hentry, hrest⟩ := Option.bind_eq_some_iff.mp h
    -- one event at a time: it has an entry, so the unwatched holdings agree
    have hnext : next = after held [e] := by
      cases e with
      | acquire r => exact (Option.some_inj.mp hentry).symm
      | release r => exact (entry_release.mp hentry).2
      | use r => exact (entry_use.mp hentry).2
    rw [ih hrest, hnext, ← after_append]
    rfl

/-! ### What is held -/

/-- How often an event acquires and releases a resource. -/
def acquired (r : ρ) (es : List (Event ρ)) : ℕ := es.count (.acquire r)

def released (r : ρ) (es : List (Event ρ)) : ℕ := es.count (.release r)

/-- **Balance.** What was held and what is acquired is released or still held, each
resource as often as it was acquired. -/
theorem count_of_run (r : ρ) (h : run held es = some held') :
    held'.count r + released r es = held.count r + acquired r es := by
  induction es generalizing held with
  | nil =>
    obtain rfl := Option.some_inj.mp h
    rfl
  | cons e es ih =>
    rw [run_cons] at h
    obtain ⟨next, hentry, hrest⟩ := Option.bind_eq_some_iff.mp h
    have hnext := ih hrest
    simp only [acquired, released, List.count_cons] at hnext ⊢
    cases e with
    | acquire x =>
      obtain rfl := Option.some_inj.mp hentry
      rw [List.count_cons] at hnext
      simp only [beq_iff_eq, Event.acquire.injEq, reduceCtorEq, if_false] at hnext ⊢
      omega
    | release x =>
      obtain ⟨hx, rfl⟩ := entry_release.mp hentry
      have hpos := List.count_pos_iff.mpr hx
      simp only [beq_iff_eq, Event.release.injEq, reduceCtorEq, if_false] at hnext ⊢
      by_cases hxr : x = r
      · subst hxr
        rw [List.count_erase_self] at hnext
        rw [if_pos rfl]
        omega
      · rw [List.count_erase_of_ne (Ne.symm hxr)] at hnext
        rw [if_neg hxr]
        omega
    | use x =>
      obtain ⟨-, rfl⟩ := entry_use.mp hentry
      simpa using hnext

/-- What no event releases stays held. -/
theorem mem_of_run (h : run held es = some held') (hr : r ∈ held)
    (hes : .release r ∉ es) : r ∈ held' := by
  have hcount := count_of_run r h
  have hzero : released r es = 0 := List.count_eq_zero.mpr hes
  have hpos := List.count_pos_iff.mpr hr
  apply List.count_pos_iff.mp
  omega

end OsProjects.Ledger
