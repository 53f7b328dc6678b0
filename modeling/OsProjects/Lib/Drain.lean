import Mathlib.Algebra.BigOperators.Group.List.Basic
import Mathlib.Algebra.Order.Monoid.Defs

/-!
# Draining a machine

A machine that hands out one item at a time, until it has none left, is a function
`next : σ → Option (ο × σ)`. Calling it until it returns `none` drains it. What a drain
hands out is bounded by what each call leaves behind: a cost of the items by a potential
of the states.

## Main definitions

* `Drains next s os t` — called on `s` until it has none left, `next` hands out `os` and
  ends in `t`

## Main results

* `exists_drains` — a machine that shrinks with every call can be drained
* `Drains.unique` — in one way
* `Drains.cost_add_le` — the items cost no more than the potential they use up
-/

namespace OsProjects.Run

variable {σ ο : Type*} {next : σ → Option (ο × σ)} {s t : σ} {os : List ο}

/-- Called on `s` until it has none left, `next` hands out `os` and ends in `t`. -/
inductive Drains (next : σ → Option (ο × σ)) : σ → List ο → σ → Prop
  | done {s : σ} : next s = none → Drains next s [] s
  | more {s m t : σ} {o : ο} {os : List ο} :
      next s = some (o, m) → Drains next m os t → Drains next s (o :: os) t

/-- A drain ends where there is none left. -/
theorem Drains.next_eq_none (h : Drains next s os t) : next t = none := by
  induction h with
  | done hnone => exact hnone
  | more _ _ ih => exact ih

/-- There is one way to drain a machine. -/
theorem Drains.unique {os' : List ο} {t' : σ} (h : Drains next s os t)
    (h' : Drains next s os' t') : os = os' ∧ t = t' := by
  induction h generalizing os' with
  | done hnone =>
    cases h' with
    | done => exact ⟨rfl, rfl⟩
    | more hnext _ => exact absurd (hnone.symm.trans hnext) nofun
  | more hnext _ ih =>
    cases h' with
    | done hnone => exact absurd (hnone.symm.trans hnext) nofun
    | more hnext' hrest =>
      cases hnext.symm.trans hnext'
      obtain ⟨rfl, rfl⟩ := ih hrest
      exact ⟨rfl, rfl⟩

/-- A machine that shrinks with every call can be drained. -/
theorem exists_drains {Inv : ℕ → σ → Prop}
    (hshrink : ∀ n s o t, Inv n s → next s = some (o, t) → ∃ m < n, Inv m t) {n : ℕ}
    (hs : Inv n s) : ∃ os t, Drains next s os t := by
  induction n using Nat.strong_induction_on generalizing s with
  | _ n ih =>
    cases hnext : next s with
    | none => exact ⟨[], s, .done hnext⟩
    | some r =>
      obtain ⟨o, m⟩ := r
      obtain ⟨k, hk, hm⟩ := hshrink n s o m hs hnext
      obtain ⟨os, t, h⟩ := ih k hk hm
      exact ⟨o :: os, t, .more hnext h⟩

/-- **Potential.** If every call pays for its item out of the potential, the items cost
no more than the drain uses up. -/
theorem Drains.cost_add_le (Inv : σ → Prop) {M : Type*} [AddMonoid M] [Preorder M] [AddLeftMono M]
    (cost : ο → M) (potential : σ → M)
    (hkeep : ∀ s o t, Inv s → next s = some (o, t) → Inv t)
    (hpay : ∀ s o t, Inv s → next s = some (o, t) → cost o + potential t ≤ potential s)
    (hs : Inv s) (h : Drains next s os t) :
    (os.map cost).sum + potential t ≤ potential s := by
  induction h with
  | done => simp
  | @more s m t o os hnext _ ih =>
    calc ((o :: os).map cost).sum + potential t
        = cost o + ((os.map cost).sum + potential t) := by
          rw [List.map_cons, List.sum_cons, add_assoc]
      _ ≤ cost o + potential m := by
          gcongr
          exact ih (hkeep _ _ _ hs hnext)
      _ ≤ potential s := hpay _ _ _ hs hnext

end OsProjects.Run
