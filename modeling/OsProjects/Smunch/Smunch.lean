import OsProjects.Smunch.Signals

/-!
# The two implementations of `smunch`

`smunch` adds a mask of signals to those pending for a task and wakes it, unless the task
has other threads or is being traced; a zombie it reaps when the mask contains `SIGKILL`.
There are two implementations. They test differently whether the task is traced: one
reads the word `trace`, which is for the kernel's own tracers, the other compares the
word `ptrace` with one. One narrows its copy of the mask to `SIGKILL` when it contains
that, but the copy is only asked for `SIGKILL` afterwards. For the rest they are the same.

## Main definitions

* `SmunchC.smunch`, `StoogecallsC.smunch` — the implementations in the two files
* `attempt` — what both do with a task that they accept

## Main results

* `smunch_agree_iff` — they agree exactly when their tests do, or have no consequence
* `traced_task_signalled` — a task traced by another
-/

namespace OsProjects.Smunch

/-- `smunch` of `smunch.c`. `locks` is the outcome of `lock_task_sighand`. -/
def SmunchC.smunch (tasks : ProcessTable) (locks : Bool) (pid : Int32) (sigMask : BitVec 64) :
    ℤ × ProcessTable :=
  match tasks pid with
  | none => (-1, tasks)
  | some p =>
    if p.threadGroupEmpty = false ∨ p.trace ≠ 0 then (-1, tasks)
    else
      let sigSet := siginitset sigMask
      if p.exitState = exitZombie then
        if sigismember sigSet sigkill then (0, releaseTask tasks pid) else (0, tasks)
      else if locks = false then (-1, tasks)
      else (0, signalTask tasks pid p sigMask)

/-- `smunch` of `stoogecalls.c`. -/
def StoogecallsC.smunch (tasks : ProcessTable) (locks : Bool) (pid : Int32)
    (bitPattern : BitVec 64) : ℤ × ProcessTable :=
  match tasks pid with
  | none => (-1, tasks)
  | some p =>
    if p.threadGroupEmpty = false ∨ 1 = p.ptrace then (-1, tasks)
    else
      let newSet := siginitset bitPattern
      -- the local set only: the mask below is not narrowed
      let newSet := if sigismember newSet sigkill then siginitset (sigmask sigkill) else newSet
      if p.exitState = exitZombie then
        if sigismember newSet sigkill then (0, releaseTask tasks pid) else (0, tasks)
      else if locks = false then (-1, tasks)
      else (0, signalTask tasks pid p bitPattern)

/-! ### What they have in common -/

/-- What both do with a task that they accept. -/
def attempt (tasks : ProcessTable) (locks : Bool) (pid : Int32) (p : Task)
    (mask : BitVec 64) : ℤ × ProcessTable :=
  if p.exitState = exitZombie then
    if sigismember (siginitset mask) sigkill then (0, releaseTask tasks pid) else (0, tasks)
  else if locks = false then (-1, tasks)
  else (0, signalTask tasks pid p mask)

section Smunch

variable {tasks : ProcessTable} {locks : Bool} {pid : Int32} {p : Task} {mask : BitVec 64}

/-- Narrowing the set to `SIGKILL` when it contains it does not change whether it does. -/
theorem sigismember_narrowed (set : Sigset) :
    sigismember (if sigismember set sigkill then siginitset (sigmask sigkill) else set) sigkill =
      sigismember set sigkill := by
  split
  · rename_i hkill
    rw [hkill]
    decide
  · rfl

theorem SmunchC.smunch_none (h : tasks pid = none) :
    SmunchC.smunch tasks locks pid mask = (-1, tasks) := by
  simp only [SmunchC.smunch, h]

theorem StoogecallsC.smunch_none (h : tasks pid = none) :
    StoogecallsC.smunch tasks locks pid mask = (-1, tasks) := by
  simp only [StoogecallsC.smunch, h]

theorem SmunchC.smunch_some (h : tasks pid = some p) :
    SmunchC.smunch tasks locks pid mask =
      if p.threadGroupEmpty = false ∨ p.trace ≠ 0 then (-1, tasks)
      else attempt tasks locks pid p mask := by
  simp only [SmunchC.smunch, h, attempt]

theorem StoogecallsC.smunch_some (h : tasks pid = some p) :
    StoogecallsC.smunch tasks locks pid mask =
      if p.threadGroupEmpty = false ∨ 1 = p.ptrace then (-1, tasks)
      else attempt tasks locks pid p mask := by
  simp only [StoogecallsC.smunch, h, attempt, sigismember_narrowed]

/-- An accepted task comes off like a refused one only when it is no zombie and its signal
handlers cannot be locked. -/
theorem attempt_eq_refused_iff :
    attempt tasks locks pid p mask = (-1, tasks) ↔ p.exitState ≠ exitZombie ∧ locks = false := by
  unfold attempt
  by_cases hzombie : p.exitState = exitZombie
  · rw [if_pos hzombie]
    constructor
    · intro heq
      have hvalue := congrArg Prod.fst heq
      split at hvalue
      · cases hvalue
      · cases hvalue
    · intro h
      exact absurd hzombie h.1
  · rw [if_neg hzombie]
    cases locks with
    | false => simp [hzombie]
    | true =>
      simp only [Bool.true_eq_false, if_false, and_false, iff_false]
      intro heq
      cases congrArg Prod.fst heq

/-- The call affects no other task. -/
theorem attempt_of_ne {other : Int32} (h : other ≠ pid) :
    (attempt tasks locks pid p mask).2 other = tasks other := by
  unfold attempt
  split
  · split
    · exact Function.update_of_ne h ..
    · rfl
  · split
    · rfl
    · exact Function.update_of_ne h ..

/-- Two calls that differ only in whether they accept a task agree on it exactly when both
accept it, or neither, or it makes no difference. -/
theorem ite_attempt_iff {P Q : Prop} [Decidable P] [Decidable Q] :
    ((if P then (-1, tasks) else attempt tasks locks pid p mask) =
      if Q then (-1, tasks) else attempt tasks locks pid p mask) ↔
        ((p.exitState = exitZombie ∨ locks = true) → (P ↔ Q)) := by
  have hrefused : attempt tasks locks pid p mask ≠ (-1, tasks) ↔
      (p.exitState = exitZombie ∨ locks = true) := by
    rw [ne_eq, attempt_eq_refused_iff, not_and_or, not_not, Bool.not_eq_false]
  rw [← hrefused]
  -- where they differ one refuses, and the other must come off like a refusal
  by_cases hP : P
  · by_cases hQ : Q
    · simp [hP, hQ]
    · simp only [hP, hQ, if_true, if_false, iff_false, not_true_eq_false, imp_false, not_not]
      exact eq_comm
  · by_cases hQ : Q
    · simp only [hP, hQ, if_true, if_false, imp_false, not_not, iff_true]
    · simp [hP, hQ]

end Smunch

/-! ### Agreement -/

/-- The implementations agree exactly when the task is not there, has other threads, is no
zombie while its signal handlers cannot be locked, or has `trace` nonzero just when its
`ptrace` is one. -/
theorem smunch_agree_iff (tasks : ProcessTable) (locks : Bool) (pid : Int32)
    (mask : BitVec 64) :
    SmunchC.smunch tasks locks pid mask = StoogecallsC.smunch tasks locks pid mask ↔
      ∀ p, tasks pid = some p → p.threadGroupEmpty = true →
        (p.exitState = exitZombie ∨ locks = true) → (p.trace ≠ 0 ↔ p.ptrace = 1) := by
  cases htask : tasks pid with
  | none =>
    rw [SmunchC.smunch_none htask, StoogecallsC.smunch_none htask]
    simp
  | some p =>
    rw [SmunchC.smunch_some htask, StoogecallsC.smunch_some htask, ite_attempt_iff]
    have hptrace : (1 : BitVec 32) = p.ptrace ↔ p.ptrace = 1 := eq_comm
    rw [hptrace]
    cases hgroup : p.threadGroupEmpty with
    | false => simp [hgroup]
    | true => simp [hgroup]

/-- One task, traced by another. -/
def traced : Task where
  threadGroupEmpty := true
  ptrace := 1
  trace := 0
  exitState := 0
  sharedPending := siginitset 0
  tifSigpending := false
  wakeUps := 0

def tracedTable : ProcessTable := Function.update (fun _ => none) 1 (some traced)

/-- `smunch.c` signals the task, `stoogecalls.c` refuses. -/
theorem traced_task_signalled :
    (SmunchC.smunch tracedTable true 1 1).1 = 0 ∧
      (StoogecallsC.smunch tracedTable true 1 1).1 = -1 ∧
        SmunchC.smunch tracedTable true 1 1 ≠ StoogecallsC.smunch tracedTable true 1 1 := by
  have hsmunch : (SmunchC.smunch tracedTable true 1 1).1 = 0 := by decide
  have hstooge : (StoogecallsC.smunch tracedTable true 1 1).1 = -1 := by decide
  refine ⟨hsmunch, hstooge, ?_⟩
  intro heq
  rw [heq, hstooge] at hsmunch
  cases hsmunch

end OsProjects.Smunch
