import OsProjects.Smunch.Smunch

/-!
# What `smunch` is for

`smunch` is to refuse a task that has other threads or is being traced, to reap a zombie
when the mask contains `SIGKILL`, and otherwise to add the mask to the signals pending for
the task, or `SIGKILL` alone when the mask contains it. `stoogecalls.c` says so in its
comments and prepares a set that is narrowed to `SIGKILL`, but then adds the mask as it was
given; and it takes a task for traced only when the word `ptrace` is exactly one, though
the word may have other flags set.

## Main definitions

* `requested` — the signals that a mask asks for
* `Specified` — what a call is to do

## Main results

* `smunch_specified_iff` — when the implementation of `stoogecalls.c` does it
-/

namespace OsProjects.Smunch

/-- The signals that a mask asks for: `SIGKILL` alone when it is among them. -/
def requested (mask : BitVec 64) : Set ℕ :=
  if sigismember (siginitset mask) sigkill then {sigkill} else (siginitset mask).signals

/-- The task with these signals pending, flagged and woken. -/
def Task.received (p : Task) (pending : Sigset) : Task :=
  { p with sharedPending := pending, tifSigpending := true, wakeUps := p.wakeUps + 1 }

/-- What a call is to return and to make of the process table. -/
def Specified (tasks : ProcessTable) (locks : Bool) (pid : Int32) (mask : BitVec 64)
    (r : ℤ × ProcessTable) : Prop :=
  match tasks pid with
  | none => r = (-1, tasks)
  | some p =>
    if p.threadGroupEmpty = false ∨ p.ptrace ≠ 0 ∨ (p.exitState ≠ exitZombie ∧ locks = false) then
      r = (-1, tasks)
    else if p.exitState = exitZombie then
      r = (0, if sigismember (siginitset mask) sigkill then releaseTask tasks pid else tasks)
    else
      ∃ pending : Sigset, pending.signals = p.sharedPending.signals ∪ requested mask ∧
        r = (0, Function.update tasks pid (some (p.received pending)))

/-! ### Pending signals -/

section Pending

variable {set : Sigset} {mask : BitVec 64}

theorem sigismember_sigkill_iff :
    sigismember (siginitset mask) sigkill = true ↔ sigkill ∈ (siginitset mask).signals :=
  sigismember_iff (by decide) (by decide)

/-- Adding the whole mask adds what it asks for exactly when it lacks `SIGKILL` or its other
signals are pending already. -/
theorem union_requested_iff :
    set.signals ∪ (siginitset mask).signals = set.signals ∪ requested mask ↔
      (sigkill ∈ (siginitset mask).signals →
        (siginitset mask).signals ⊆ set.signals ∪ {sigkill}) := by
  unfold requested
  by_cases hkill : sigismember (siginitset mask) sigkill = true
  · have hmem := sigismember_sigkill_iff.mp hkill
    rw [if_pos hkill]
    constructor
    · intro heq _
      rw [← heq]
      exact Set.subset_union_right
    · intro hsub
      apply Set.Subset.antisymm
      · exact Set.union_subset Set.subset_union_left (hsub hmem)
      · exact Set.union_subset_union_right _ (Set.singleton_subset_iff.mpr hmem)
  · have hmem : sigkill ∉ (siginitset mask).signals := fun h =>
      hkill (sigismember_sigkill_iff.mpr h)
    rw [if_neg hkill]
    exact iff_of_true rfl fun h => absurd h hmem

/-- A task that gets the whole mask is as it is to be exactly when that adds what the mask
asks for. -/
theorem signalTask_specified_iff {tasks : ProcessTable} {pid : Int32} {p : Task} :
    (∃ pending : Sigset, pending.signals = p.sharedPending.signals ∪ requested mask ∧
        ((0 : ℤ), signalTask tasks pid p mask) =
          (0, Function.update tasks pid (some (p.received pending)))) ↔
      (sigkill ∈ (siginitset mask).signals →
        (siginitset mask).signals ⊆ p.sharedPending.signals ∪ {sigkill}) := by
  rw [← union_requested_iff, ← signals_sigaddsetmask]
  constructor
  · rintro ⟨pending, hpending, heq⟩
    have htask := Option.some_inj.mp (Function.update_injective _ pid (congrArg Prod.snd heq))
    have hset : sigaddsetmask p.sharedPending mask = pending := congrArg Task.sharedPending htask
    rw [hset, hpending]
  · intro hset
    exact ⟨sigaddsetmask p.sharedPending mask, hset, rfl⟩

end Pending

/-! ### The implementation -/

section Accepted

variable {tasks : ProcessTable} {locks : Bool} {pid : Int32} {p : Task} {mask : BitVec 64}

theorem attempt_zombie (h : p.exitState = exitZombie) :
    attempt tasks locks pid p mask =
      (0, if sigismember (siginitset mask) sigkill then releaseTask tasks pid else tasks) := by
  unfold attempt
  rw [if_pos h]
  split <;> rfl

theorem attempt_locked (h : p.exitState ≠ exitZombie) :
    attempt tasks true pid p mask = (0, signalTask tasks pid p mask) := by
  unfold attempt
  rw [if_neg h, if_neg (by decide)]

/-- Accepting a task that nobody traces is right, as long as the mask adds what it asks
for. -/
theorem attempt_specified_iff (htask : tasks pid = some p) (hgroup : p.threadGroupEmpty = true)
    (hzero : p.ptrace = 0) (hlocked : p.exitState = exitZombie ∨ locks = true) :
    Specified tasks locks pid mask (attempt tasks locks pid p mask) ↔
      (p.exitState ≠ exitZombie → sigkill ∈ (siginitset mask).signals →
        (siginitset mask).signals ⊆ p.sharedPending.signals ∪ {sigkill}) := by
  have hnot : ¬(p.exitState ≠ exitZombie ∧ locks = false) := by
    rw [not_and_or, not_not, Bool.not_eq_false]
    exact hlocked
  simp only [Specified, htask, hgroup, hzero, hnot, Bool.true_eq_false, ne_eq,
    not_true_eq_false, or_false, if_false]
  by_cases hzombie : p.exitState = exitZombie
  · rw [if_pos hzombie, attempt_zombie hzombie]
    exact iff_of_true rfl fun h => absurd hzombie h
  · obtain rfl := hlocked.resolve_left hzombie
    rw [if_neg hzombie, attempt_locked hzombie, signalTask_specified_iff]
    exact ⟨fun h _ => h, fun h => h hzombie⟩

/-- A task that has other threads or is traced, or whose signal handlers cannot be locked,
is to be refused. -/
theorem specified_refused_iff {r : ℤ × ProcessTable} (htask : tasks pid = some p)
    (h : p.threadGroupEmpty = false ∨ p.ptrace ≠ 0 ∨ (p.exitState ≠ exitZombie ∧ locks = false)) :
    Specified tasks locks pid mask r ↔ r = (-1, tasks) := by
  simp only [Specified, htask, if_pos h]

end Accepted

/-- **When the implementation does what it is for.** It does unless there is a single-threaded
task, a zombie or one whose signal handlers can be locked, such that its `ptrace` word is
neither zero nor one; or it is zero, the task is no zombie, and the mask contains `SIGKILL`
and another signal that is not pending. -/
theorem smunch_specified_iff (tasks : ProcessTable) (locks : Bool) (pid : Int32)
    (mask : BitVec 64) :
    Specified tasks locks pid mask (StoogecallsC.smunch tasks locks pid mask) ↔
      ∀ p, tasks pid = some p → p.threadGroupEmpty = true →
        (p.exitState = exitZombie ∨ locks = true) →
          (p.ptrace = 0 ∨ p.ptrace = 1) ∧
            (p.ptrace = 0 → p.exitState ≠ exitZombie → sigkill ∈ (siginitset mask).signals →
              (siginitset mask).signals ⊆ p.sharedPending.signals ∪ {sigkill}) := by
  cases htask : tasks pid with
  | none =>
    rw [StoogecallsC.smunch_none htask, Specified, htask]
    simp
  | some p =>
    rw [StoogecallsC.smunch_some htask]
    simp only [Option.some.injEq, forall_eq']
    cases hgroup : p.threadGroupEmpty with
    | false =>
      rw [specified_refused_iff htask (.inl hgroup)]
      simp
    | true =>
      by_cases hlocked : p.exitState = exitZombie ∨ locks = true
      · simp only [Bool.true_eq_false, false_or, true_implies, hlocked]
        by_cases hzero : p.ptrace = 0
        · have hone : ¬(1 : BitVec 32) = p.ptrace := by
            rw [hzero]
            decide
          rw [if_neg hone, attempt_specified_iff htask hgroup hzero hlocked]
          simp [hzero]
        · rw [specified_refused_iff htask (.inr (.inl hzero))]
          by_cases hone : (1 : BitVec 32) = p.ptrace
          · rw [if_pos hone]
            exact iff_of_true rfl ⟨.inr hone.symm, fun h => absurd h hzero⟩
          · rw [if_neg hone, attempt_eq_refused_iff]
            apply iff_of_false
            · rintro ⟨hzombie, hlocks⟩
              rw [hlocks] at hlocked
              exact hlocked.elim hzombie Bool.false_ne_true
            · intro h
              exact h.1.elim hzero fun h => hone h.symm
      · obtain ⟨hzombie, hlocks⟩ := not_or.mp hlocked
        rw [Bool.not_eq_true] at hlocks
        rw [attempt_eq_refused_iff.mpr ⟨hzombie, hlocks⟩, ite_self,
          specified_refused_iff htask (.inr (.inr ⟨hzombie, hlocks⟩))]
        simp [hzombie, hlocks]

/-- A task that nobody traces, with no signal pending. -/
def idle : Task where
  threadGroupEmpty := true
  ptrace := 0
  trace := 0
  exitState := 0
  sharedPending := siginitset 0
  tifSigpending := false
  wakeUps := 0

/-- A mask with signal 1 and `SIGKILL` leaves both pending. A task whose `ptrace` word has a
second flag is signalled. -/
theorem narrowed_mask_ignored :
    ¬Specified (Function.update (fun _ => none) 1 (some idle)) true 1 0x101
        (StoogecallsC.smunch (Function.update (fun _ => none) 1 (some idle)) true 1 0x101) ∧
      ¬Specified (Function.update (fun _ => none) 1 (some { idle with ptrace := 0x10001 })) true 1 1
        (StoogecallsC.smunch
          (Function.update (fun _ => none) 1 (some { idle with ptrace := 0x10001 })) true 1 1) := by
  constructor
  · intro h
    have hsub := signalTask_specified_iff.mp h ⟨by decide, by decide, by decide⟩
    have hone : 1 ∈ (siginitset 0x101).signals := ⟨by decide, by decide, by decide⟩
    rcases hsub hone with hpending | hkill
    · exact absurd hpending.2.2 (by decide)
    · exact absurd hkill (by decide)
  · intro h
    -- it should come off like a refusal
    have hvalue : (0 : ℤ) = -1 := congrArg Prod.fst h
    exact absurd hvalue (by decide)

end OsProjects.Smunch
