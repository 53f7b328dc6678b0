import Mathlib.Data.Nat.Init
import Mathlib.Logic.Relation

/-!
# Labelled runs and properties of their steps

A transition system is a relation `step s a t`: the action `a` takes the state
`s` to `t`. A run is a finite sequence of steps. Most of what is said about a
system concerns the steps a run is made of — an assumption on every step, a
guarantee on every step — so the basic notion here is a run together with a
predicate that all its steps satisfy.

## Main definitions

* `Along step P s as t` — a run from `s` to `t` with actions `as`, every step of
  which satisfies `P`
* `Path step s as t` — a run with no condition on its steps

## Main results

* `Along.invariant` — a predicate preserved by the steps satisfying `P` holds at
  the end of a run whose steps satisfy `P`
* `Along.imp_of_invariant`, `along_iff_of_invariant` — under an invariant, an
  assumption on every step yields (or is equivalent to) a guarantee on every step
* `Path.expand` — a forward simulation lifts from steps to runs
* `exists_of_decreasing` — a sequence of states that uses up a measure is done in time
-/

namespace OsProjects.Run

variable {σ τ α : Type*} {step : σ → α → σ → Prop} {P Q : σ → α → σ → Prop}
variable {s t u : σ} {as bs : List α}

/-- A run from `s` to `t` performing the actions `as`, every step of which
satisfies `P`. -/
inductive Along (step P : σ → α → σ → Prop) : σ → List α → σ → Prop
  | nil (s : σ) : Along step P s [] s
  | cons {s m t : σ} {a : α} {as : List α} :
      step s a m → P s a m → Along step P m as t → Along step P s (a :: as) t

/-- A run with no condition on its steps. -/
def Path (step : σ → α → σ → Prop) : σ → List α → σ → Prop :=
  Along step fun _ _ _ => True

theorem Path.nil (s : σ) : Path step s [] s := Along.nil s

theorem Path.cons {a : α} (h : step s a u) (hr : Path step u as t) : Path step s (a :: as) t :=
  Along.cons h trivial hr

theorem Along.single {a : α} (h : step s a t) (hP : P s a t) : Along step P s [a] t :=
  Along.cons h hP (Along.nil t)

theorem Along.append (h : Along step P s as u) (h' : Along step P u bs t) :
    Along step P s (as ++ bs) t := by
  induction h with
  | nil => exact h'
  | cons hstep hP _ ih => exact Along.cons hstep hP (ih h')

/-- A run can be cut between any two actions. -/
theorem Along.of_append (h : Along step P s (as ++ bs) t) :
    ∃ m, Along step P s as m ∧ Along step P m bs t := by
  induction as generalizing s with
  | nil => exact ⟨s, Along.nil s, h⟩
  | cons a as ih =>
    cases h with
    | cons hstep hP hrest =>
      obtain ⟨m, hfirst, hsecond⟩ := ih hrest
      exact ⟨m, Along.cons hstep hP hfirst, hsecond⟩

/-- Weaken the condition on the steps. -/
theorem Along.mono (hPQ : ∀ s a t, P s a t → Q s a t) (h : Along step P s as t) :
    Along step Q s as t := by
  induction h with
  | nil s => exact Along.nil s
  | cons hstep hP _ ih => exact Along.cons hstep (hPQ _ _ _ hP) ih

/-- Forget the condition on the steps. -/
theorem Along.path (h : Along step P s as t) : Path step s as t :=
  h.mono fun _ _ _ _ => trivial

/-- Where the step is a function, a run can be computed. -/
theorem Path.of_foldlM {f : σ → α → Option σ} (h : as.foldlM f s = some t) :
    Path (fun s a t => f s a = some t) s as t := by
  induction as generalizing s with
  | nil =>
    obtain rfl := Option.some_inj.mp h
    exact Path.nil s
  | cons a as ih =>
    rw [List.foldlM_cons] at h
    obtain ⟨m, hm, hrest⟩ := Option.bind_eq_some_iff.mp h
    exact Path.cons hm (ih hrest)

/-- A condition on the actions of a run holds of every step besides what else does. -/
theorem Along.and {A : α → Prop} (h : Along step P s as t) (hA : ∀ a ∈ as, A a) :
    Along step (fun s a t => P s a t ∧ A a) s as t := by
  induction h with
  | nil s => exact Along.nil s
  | cons hstep hP _ ih =>
    exact Along.cons hstep ⟨hP, hA _ List.mem_cons_self⟩
      (ih fun a ha => hA a (List.mem_cons_of_mem _ ha))

theorem Path.along {A : α → Prop} (h : Path step s as t) (hA : ∀ a ∈ as, A a) :
    Along step (fun _ a _ => A a) s as t :=
  (Along.and h hA).mono fun _ _ _ ha => ha.2

/-- A state predicate kept by every step that satisfies `P` holds at the end of
a run whose steps satisfy `P`. -/
theorem Along.invariant (Inv : σ → Prop)
    (hkeep : ∀ s a t, Inv s → step s a t → P s a t → Inv t)
    (hs : Inv s) (h : Along step P s as t) : Inv t := by
  induction h with
  | nil => exact hs
  | cons hstep hP _ ih => exact ih (hkeep _ _ _ hs hstep hP)

/-- Under an invariant of the `P`-steps, a guarantee `Q` that each of them gives
is given by every step of the run. -/
theorem Along.imp_of_invariant (Inv : σ → Prop)
    (hkeep : ∀ s a t, Inv s → step s a t → P s a t → Inv t)
    (himp : ∀ s a t, Inv s → step s a t → P s a t → Q s a t)
    (hs : Inv s) (h : Along step P s as t) : Along step Q s as t := by
  induction h with
  | nil s => exact Along.nil s
  | cons hstep hP _ ih =>
    exact Along.cons hstep (himp _ _ _ hs hstep hP) (ih (hkeep _ _ _ hs hstep hP))

/-- Under an invariant of the `P`-steps at which `P` and `Q` agree step by step,
they agree on whole runs. -/
theorem along_iff_of_invariant (Inv : σ → Prop)
    (hkeep : ∀ s a t, Inv s → step s a t → P s a t → Inv t)
    (hiff : ∀ s a t, Inv s → step s a t → (P s a t ↔ Q s a t)) (hs : Inv s) :
    Along step P s as t ↔ Along step Q s as t := by
  constructor
  · exact Along.imp_of_invariant Inv hkeep (fun s a t hs h => (hiff s a t hs h).mp) hs
  · intro h
    induction h with
    | nil s => exact Along.nil s
    | cons hstep hQ _ ih =>
      have hP := (hiff _ _ _ hs hstep).mpr hQ
      exact Along.cons hstep hP (ih (hkeep _ _ _ hs hstep hP))

/-- A state predicate kept by every step holds at the end of a run. -/
theorem Path.invariant (Inv : σ → Prop) (hkeep : ∀ s a t, Inv s → step s a t → Inv t)
    (hs : Inv s) (h : Path step s as t) : Inv t :=
  Along.invariant Inv (fun s a t hi hst _ => hkeep s a t hi hst) hs h

/-- Where the actions determine the steps, they determine the run. -/
theorem Path.unique (hdet : ∀ s a t t', step s a t → step s a t' → t = t')
    (h : Path step s as t) (h' : Path step s as u) : t = u := by
  induction h with
  | nil s =>
    cases h'
    rfl
  | cons hstep _ _ ih =>
    cases h' with
    | cons hstep' _ hrest =>
      obtain rfl := hdet _ _ _ _ hstep hstep'
      exact ih hrest

/-- **Forward simulation.** If every step from related states is matched by a run of the
actions it stands for to related states, so is every run. -/
theorem Path.expand {β : Type*} {step' : τ → β → τ → Prop} {R : σ → τ → Prop}
    {actions : α → List β}
    (hsim : ∀ s a t x, R s x → step s a t → ∃ y, Path step' x (actions a) y ∧ R t y) {x : τ}
    (hR : R s x) (h : Path step s as t) : ∃ y, Path step' x (as.flatMap actions) y ∧ R t y := by
  induction h generalizing x with
  | nil => exact ⟨x, Along.nil x, hR⟩
  | cons hstep _ _ ih =>
    obtain ⟨y, hfirst, hRy⟩ := hsim _ _ _ _ hR hstep
    obtain ⟨z, hrest, hRz⟩ := ih hRy
    rw [List.flatMap_cons]
    exact ⟨z, hfirst.append hrest, hRz⟩

/-- **Termination.** A sequence of states that keeps an invariant and uses up a measure until
it is done is done within that measure. -/
theorem exists_of_decreasing (Inv Done : σ → Prop) (measure : σ → ℕ) {states : ℕ → σ}
    (hnext : ∀ i, Inv (states i) → ¬Done (states i) →
      Inv (states (i + 1)) ∧ measure (states (i + 1)) < measure (states i))
    (hstart : Inv (states 0)) :
    ∃ m ≤ measure (states 0), Inv (states m) ∧ Done (states m) := by
  induction hm : measure (states 0) using Nat.strong_induction_on generalizing states with
  | _ n ih =>
    by_cases hdone : Done (states 0)
    · exact ⟨0, Nat.zero_le _, hstart, hdone⟩
    · obtain ⟨hinv, hlt⟩ := hnext 0 hstart hdone
      obtain ⟨m, hle, hm'⟩ := ih _ (hm ▸ hlt) (fun i => hnext (i + 1)) hinv rfl
      exact ⟨m + 1, by omega, hm'⟩

end OsProjects.Run
