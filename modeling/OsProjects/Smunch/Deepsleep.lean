import OsProjects.Lib.Run
import OsProjects.Smunch.Smunch

/-!
# Deep sleep

`deepsleep` puts its caller to sleep on the wait queue `gone`, with a `sleep_on` of its own.
Nothing ever wakes that queue: what ends a sleep is `smunch`, which wakes the one task it is
for. A task that has been woken takes itself off the queue without locking it again, and
then unlocks a lock that it does not hold.

Here any number of tasks call `deepsleep`, statement by statement, while others call
`smunch` and the rest of the kernel changes the process table.

## Main definitions

* `SleepSys`, `SleepSys.step` — the tasks in `sleep_on`, the wait queue and its lock
* `SleepSys.Exclusive` — whoever is between the first lock and its unlock holds the lock
* `SleepSys.Undisturbed` — the last unlock is made while nobody is there

## Main results

* `deepsleep_woken` — a sleep ends by a `smunch` of its own, and none in it is lost
* `exclusive_iff` — the lock excludes as long as no last unlock comes in between
* `exclusion_lost` — and it does not once one has
-/

namespace OsProjects.Smunch

open Run

/-! ### The system -/

/-- Where a task is: outside `deepsleep`, or before a statement of `sleep_on`. -/
inductive SleepPc
  | out
  | setState
  | lock
  | add
  | unlock
  | schedule
  | remove
  | unlockAgain
  deriving DecidableEq

namespace SleepPc

/-- The state of the task is set and `schedule` has not returned. -/
def asleep : SleepPc → Bool
  | lock | add | unlock | schedule => true
  | _ => false

/-- `schedule` has returned. -/
def awake : SleepPc → Bool
  | remove | unlockAgain => true
  | _ => false

/-- The task is between the first lock and its unlock. -/
def inside : SleepPc → Bool
  | add | unlock => true
  | _ => false

/-- The task's entry is on the queue. -/
def queued : SleepPc → Bool
  | unlock | schedule | remove => true
  | _ => false

end SleepPc

/-- What `sleep_on` reads and changes of a task: where it is, and whether its state is
`TASK_RUNNING` or `TASK_UNINTERRUPTIBLE`. The rest is history: the wake-ups so far, how many
there had been when it last set its state, and the sleeps it has ended. -/
structure Sleeper where
  pc : SleepPc
  running : Bool
  woken : ℕ
  wokenAtSet : ℕ
  ended : ℕ

/-- The tasks, the holder of the queue's lock, and the queue `gone`. -/
structure SleepSys where
  tasks : ProcessTable
  sleepers : Int32 → Sleeper
  holder : Option Int32
  gone : List Int32

/-- What can happen: a task calls `deepsleep` or executes a statement of `sleep_on`,
someone calls `smunch`, or the kernel changes a task otherwise. -/
inductive SleepAct
  | deepsleep (pid : Int32)
  | run (pid : Int32)
  | smunch (pid : Int32) (bitPattern : BitVec 64) (locks : Bool)
  | other (pid : Int32) (p : Option Task)

/-- There is a task and it has not exited. -/
def live : Option Task → Bool
  | some p => p.exitState ≠ exitZombie
  | none => false

/-- The table with another entry for this pid. -/
def changeTask (tasks : ProcessTable) (pid : Int32) (p : Option Task) : ProcessTable :=
  Function.update tasks pid p

/-- The call has woken the task. -/
def wakes (before after : ProcessTable) (pid : Int32) : Bool :=
  match before pid, after pid with
  | some p, some q => p.wakeUps < q.wakeUps
  | _, _ => false

namespace SleepSys

/-- The state with another record for this task. -/
def put (s : SleepSys) (pid : Int32) (x : Sleeper) : SleepSys :=
  { s with sleepers := Function.update s.sleepers pid x }

/-- The next statement of `sleep_on`. -/
def sleepOn (s : SleepSys) (pid : Int32) : Option SleepSys :=
  let x := s.sleepers pid
  match x.pc with
  | .out => none
  | .setState => some (s.put pid { x with pc := .lock, running := false, wokenAtSet := x.woken })
  | .lock =>
    match s.holder with
    | none => some { s.put pid { x with pc := .add } with holder := some pid }
    | some _ => none
  | .add => some { s.put pid { x with pc := .unlock } with gone := pid :: s.gone }
  | .unlock => some { s.put pid { x with pc := .schedule } with holder := none }
  -- a task whose state is not `TASK_RUNNING` is not scheduled again
  | .schedule =>
    if x.running then some (s.put pid { x with pc := .remove, ended := x.ended + 1 }) else none
  | .remove => some { s.put pid { x with pc := .unlockAgain } with gone := s.gone.erase pid }
  -- whoever holds the lock, it is free now
  | .unlockAgain => some { s.put pid { x with pc := .out } with holder := none }

/-- `smunch`, and what `wake_up_process` does to the state of the task. -/
def smunch (s : SleepSys) (pid : Int32) (bitPattern : BitVec 64) (locks : Bool) : SleepSys :=
  let tasks := (StoogecallsC.smunch s.tasks locks pid bitPattern).2
  if wakes s.tasks tasks pid then
    let x := s.sleepers pid
    { s.put pid { x with running := true, woken := x.woken + 1 } with tasks := tasks }
  else { s with tasks := tasks }

/-- The effect of an action, if it is possible. A task in `sleep_on` does not exit. -/
def step (s : SleepSys) : SleepAct → Option SleepSys
  | .deepsleep pid =>
    let x := s.sleepers pid
    if x.pc = .out ∧ live (s.tasks pid) then some (s.put pid { x with pc := .setState }) else none
  | .run pid => s.sleepOn pid
  | .smunch pid bitPattern locks => some (s.smunch pid bitPattern locks)
  | .other pid p =>
    if (s.sleepers pid).pc = .out ∨ live p then
      some { s with tasks := changeTask s.tasks pid p }
    else none

def Step (s : SleepSys) (a : SleepAct) (t : SleepSys) : Prop := s.step a = some t

/-- Nobody has called `deepsleep`. -/
def initial (tasks : ProcessTable) : SleepSys :=
  ⟨tasks, fun _ => ⟨.out, true, 0, 0, 0⟩, none, []⟩

variable {s t : SleepSys} {pid : Int32}

/-! ### What each action does -/

@[simp] theorem put_sleepers (x : Sleeper) :
    (s.put pid x).sleepers = Function.update s.sleepers pid x := rfl

@[simp] theorem put_tasks (x : Sleeper) : (s.put pid x).tasks = s.tasks := rfl

theorem Step.deepsleep (h : s.Step (.deepsleep pid) t) :
    (s.sleepers pid).pc = .out ∧ live (s.tasks pid) = true ∧
      t = s.put pid { s.sleepers pid with pc := .setState } := by
  simp only [Step, step] at h
  split at h
  · rename_i hout
    exact ⟨hout.1, hout.2, (Option.some_inj.mp h).symm⟩
  · cases h

theorem Step.other {p : Option Task} (h : s.Step (.other pid p) t) :
    ((s.sleepers pid).pc = .out ∨ live p = true) ∧
      t = { s with tasks := changeTask s.tasks pid p } := by
  simp only [Step, step] at h
  split at h
  · exact ⟨‹_›, (Option.some_inj.mp h).symm⟩
  · cases h

/-- The statements of `sleep_on`, with what each finds and does. -/
inductive Statement (s : SleepSys) (pid : Int32) : SleepSys → Prop
  | setState (hpc : (s.sleepers pid).pc = .setState) :
    Statement s pid (s.put pid { s.sleepers pid with
      pc := .lock, running := false, wokenAtSet := (s.sleepers pid).woken })
  | lock (hpc : (s.sleepers pid).pc = .lock) (hfree : s.holder = none) :
    Statement s pid { s.put pid { s.sleepers pid with pc := .add } with holder := some pid }
  | add (hpc : (s.sleepers pid).pc = .add) :
    Statement s pid { s.put pid { s.sleepers pid with pc := .unlock } with gone := pid :: s.gone }
  | unlock (hpc : (s.sleepers pid).pc = .unlock) :
    Statement s pid { s.put pid { s.sleepers pid with pc := .schedule } with holder := none }
  | schedule (hpc : (s.sleepers pid).pc = .schedule) (hrunning : (s.sleepers pid).running = true) :
    Statement s pid (s.put pid { s.sleepers pid with
      pc := .remove, ended := (s.sleepers pid).ended + 1 })
  | remove (hpc : (s.sleepers pid).pc = .remove) :
    Statement s pid { s.put pid { s.sleepers pid with pc := .unlockAgain } with
      gone := s.gone.erase pid }
  | unlockAgain (hpc : (s.sleepers pid).pc = .unlockAgain) :
    Statement s pid { s.put pid { s.sleepers pid with pc := .out } with holder := none }

theorem Step.run (h : s.Step (.run pid) t) : s.Statement pid t := by
  simp only [Step, step, sleepOn] at h
  split at h
  · cases h
  · cases h
    exact .setState ‹_›
  · split at h
    · cases h
      exact .lock ‹_› ‹_›
    · cases h
  · cases h
    exact .add ‹_›
  · cases h
    exact .unlock ‹_›
  · split at h
    · cases h
      exact .schedule ‹_› ‹_›
    · cases h
  · cases h
    exact .remove ‹_›
  · cases h
    exact .unlockAgain ‹_›

/-- A `smunch` wakes the task or leaves all sleepers alone. -/
theorem Step.smunch {bitPattern : BitVec 64} {locks : Bool}
    (h : s.Step (.smunch pid bitPattern locks) t) :
    t.tasks = (StoogecallsC.smunch s.tasks locks pid bitPattern).2 ∧
      t.holder = s.holder ∧ t.gone = s.gone ∧
      (wakes s.tasks t.tasks pid = true ∧ t.sleepers = Function.update s.sleepers pid
          { s.sleepers pid with running := true, woken := (s.sleepers pid).woken + 1 } ∨
        wakes s.tasks t.tasks pid = false ∧ t.sleepers = s.sleepers) := by
  obtain rfl := Option.some_inj.mp h
  by_cases hwakes :
      wakes s.tasks (StoogecallsC.smunch s.tasks locks pid bitPattern).2 pid = true
  · have heq : s.smunch pid bitPattern locks =
        { s.put pid { s.sleepers pid with
            running := true, woken := (s.sleepers pid).woken + 1 } with
          tasks := (StoogecallsC.smunch s.tasks locks pid bitPattern).2 } := if_pos hwakes
    rw [heq]
    exact ⟨rfl, rfl, rfl, .inl ⟨hwakes, rfl⟩⟩
  · have heq : s.smunch pid bitPattern locks =
        { s with tasks := (StoogecallsC.smunch s.tasks locks pid bitPattern).2 } := if_neg hwakes
    rw [heq]
    exact ⟨rfl, rfl, rfl, .inr ⟨Bool.eq_false_of_not_eq_true hwakes, rfl⟩⟩

end SleepSys

/-! ### Which calls wake a task -/

section Wakes

variable {tasks : ProcessTable} {locks : Bool} {pid other : Int32} {p : Task} {mask : BitVec 64}

theorem signalTask_self : signalTask tasks pid p mask pid = some (p.signal mask) :=
  Function.update_self ..

/-- No call ends a task that has not exited. -/
theorem live_smunch (hlive : live (tasks other) = true) :
    live ((StoogecallsC.smunch tasks locks pid mask).2 other) = true := by
  cases htask : tasks pid with
  | none => rwa [StoogecallsC.smunch_none htask]
  | some p =>
    rw [StoogecallsC.smunch_some htask]
    split
    · exact hlive
    · by_cases hother : other = pid
      · subst hother
        have hexit : p.exitState ≠ exitZombie := by simpa [htask, live] using hlive
        rw [attempt, if_neg hexit]
        cases locks with
        | false => exact hlive
        | true => simpa [signalTask_self, live, Task.signal] using hexit
      · rwa [attempt_of_ne hother]

end Wakes

/-! ### Sleeping and waking -/

/-- What holds of a task's record: between setting its state and the return of `schedule` the
task is running exactly when it has been woken since, and after that it has been woken. -/
structure Sleeper.Ok (x : Sleeper) : Prop where
  le : x.wokenAtSet ≤ x.woken
  ended : x.ended ≤ x.woken
  asleep : x.pc.asleep = true →
    x.ended ≤ x.wokenAtSet ∧ (x.running = true ↔ x.wokenAtSet < x.woken)
  awake : x.pc.awake = true → x.wokenAtSet < x.woken

/-- Being woken. -/
theorem Sleeper.Ok.wake {x : Sleeper} (hx : x.Ok) :
    Sleeper.Ok { x with running := true, woken := x.woken + 1 } where
  le := Nat.le_succ_of_le hx.le
  ended := Nat.le_succ_of_le hx.ended
  asleep h := ⟨(hx.asleep h).1, iff_of_true rfl (Nat.lt_succ_of_le hx.le)⟩
  awake h := Nat.lt_succ_of_lt (hx.awake h)

/-- Going on inside the sleep. -/
theorem Sleeper.Ok.goto {x : Sleeper} {pc : SleepPc} (hx : x.Ok)
    (hasleep : pc.asleep = true → x.pc.asleep = true)
    (hawake : pc.awake = true → x.pc.awake = true) : Sleeper.Ok { x with pc := pc } :=
  ⟨hx.le, hx.ended, fun h => hx.asleep (hasleep h), fun h => hx.awake (hawake h)⟩

/-- Going to sleep. -/
theorem Sleeper.Ok.setState {x : Sleeper} (hx : x.Ok) :
    Sleeper.Ok { x with pc := .lock, running := false, wokenAtSet := x.woken } where
  le := le_rfl
  ended := hx.ended
  asleep _ := ⟨hx.ended, iff_of_false Bool.false_ne_true (lt_irrefl _)⟩
  awake := nofun

/-- The return of `schedule`. -/
theorem Sleeper.Ok.schedule {x : Sleeper} (hx : x.Ok) (hpc : x.pc = .schedule)
    (hrunning : x.running = true) :
    Sleeper.Ok { x with pc := .remove, ended := x.ended + 1 } := by
  obtain ⟨hended, hiff⟩ := hx.asleep (by rw [hpc]; rfl)
  have hwoken := hiff.mp hrunning
  exact ⟨hx.le, (Nat.succ_le_succ hended).trans hwoken, nofun, fun _ => hwoken⟩

namespace SleepSys

variable {s t : SleepSys} {pid : Int32}

/-- What holds along a run: of every record, and that the tasks in `sleep_on` exist and those
with an entry on the queue are on it, once. -/
structure Inv (s : SleepSys) : Prop where
  ok : ∀ pid, (s.sleepers pid).Ok
  live : ∀ pid, (s.sleepers pid).pc ≠ .out → live (s.tasks pid) = true
  nodup : s.gone.Nodup
  mem_gone : ∀ pid, pid ∈ s.gone ↔ (s.sleepers pid).pc.queued = true

theorem inv_initial (tasks : ProcessTable) : Inv (initial tasks) where
  ok _ := ⟨le_rfl, le_rfl, nofun, nofun⟩
  live _ h := absurd rfl h
  nodup := List.nodup_nil
  mem_gone _ := iff_of_false List.not_mem_nil nofun

/-- One task goes on, and no other enters or leaves the queue. -/
theorem Inv.put {x : Sleeper} {holder : Option Int32} {gone : List Int32} (hs : s.Inv)
    (hx : x.Ok) (hlive : Smunch.live (s.tasks pid) = true) (hnodup : gone.Nodup)
    (hmem : pid ∈ gone ↔ x.pc.queued = true) (hothers : ∀ p, p ≠ pid → (p ∈ gone ↔ p ∈ s.gone)) :
    Inv { s.put pid x with holder := holder, gone := gone } where
  ok := by
    rw [put_sleepers, Function.forall_update_iff s.sleepers fun _ y => y.Ok]
    exact ⟨hx, fun p _ => hs.ok p⟩
  live := by
    rw [put_sleepers, put_tasks, Function.forall_update_iff s.sleepers
      fun p y => y.pc ≠ .out → Smunch.live (s.tasks p) = true]
    exact ⟨fun _ => hlive, fun p _ => hs.live p⟩
  nodup := hnodup
  mem_gone := by
    rw [put_sleepers,
      Function.forall_update_iff s.sleepers fun p y => p ∈ gone ↔ y.pc.queued = true]
    exact ⟨hmem, fun p hp => (hothers p hp).trans (hs.mem_gone p)⟩

/-- One task goes on, off or on the queue as before. -/
theorem Inv.goto {x : Sleeper} {holder : Option Int32} (hs : s.Inv) (hx : x.Ok)
    (hlive : Smunch.live (s.tasks pid) = true)
    (hqueued : x.pc.queued = (s.sleepers pid).pc.queued) :
    Inv { s.put pid x with holder := holder } :=
  hs.put hx hlive hs.nodup (hqueued ▸ hs.mem_gone pid) fun _ _ => Iff.rfl

theorem Inv.run (hs : s.Inv) (h : s.Step (.run pid) t) : t.Inv := by
  have hok := hs.ok pid
  have hlive := hs.live pid
  have hmem := hs.mem_gone pid
  cases h.run with
  | setState hpc => exact hs.goto hok.setState (hlive (by simp [hpc])) (by rw [hpc]; rfl)
  | lock hpc hfree =>
    exact hs.goto (hok.goto (by simp [hpc, SleepPc.asleep]) nofun) (hlive (by simp [hpc]))
      (by rw [hpc]; rfl)
  | add hpc =>
    rw [hpc] at hmem
    have hnot : pid ∉ s.gone := fun hin => Bool.false_ne_true (hmem.mp hin)
    refine hs.put (hok.goto (by simp [hpc, SleepPc.asleep]) nofun) (hlive (by simp [hpc]))
      (List.nodup_cons.mpr ⟨hnot, hs.nodup⟩) (iff_of_true List.mem_cons_self rfl) fun p hp => ?_
    rw [List.mem_cons, or_iff_right hp]
  | unlock hpc =>
    exact hs.goto (hok.goto (by simp [hpc, SleepPc.asleep]) nofun) (hlive (by simp [hpc]))
      (by rw [hpc]; rfl)
  | schedule hpc hrunning =>
    exact hs.goto (hok.schedule hpc hrunning) (hlive (by simp [hpc])) (by rw [hpc]; rfl)
  | remove hpc =>
    refine hs.put (hok.goto nofun (by simp [hpc, SleepPc.awake])) (hlive (by simp [hpc]))
      (hs.nodup.erase pid) (iff_of_false hs.nodup.not_mem_erase nofun) fun p hp => ?_
    exact List.mem_erase_of_ne hp
  | unlockAgain hpc =>
    exact hs.goto (hok.goto nofun nofun) (hlive (by simp [hpc])) (by rw [hpc]; rfl)

theorem Inv.step {a : SleepAct} (hs : s.Inv) (h : s.Step a t) : t.Inv := by
  cases a with
  | deepsleep pid =>
    obtain ⟨hout, hlive, rfl⟩ := Step.deepsleep h
    exact hs.goto ((hs.ok pid).goto nofun nofun) hlive (by rw [hout]; rfl)
  | run pid => exact hs.run h
  | smunch pid bitPattern locks =>
    obtain ⟨htasks, -, hgone, hsleepers⟩ := Step.smunch h
    have hlive : ∀ p, (s.sleepers p).pc ≠ .out → Smunch.live (t.tasks p) = true := by
      intro p hp
      rw [htasks]
      exact live_smunch (hs.live p hp)
    rcases hsleepers with ⟨-, hsleepers⟩ | ⟨-, hsleepers⟩
    · have hpc : ∀ p, (t.sleepers p).pc = (s.sleepers p).pc := by
        rw [hsleepers]
        exact (Function.forall_update_iff s.sleepers fun p y => y.pc = (s.sleepers p).pc).mpr
          ⟨rfl, fun _ _ => rfl⟩
      refine ⟨?_, fun p hp => hlive p (hpc p ▸ hp), hgone ▸ hs.nodup, fun p => ?_⟩
      · rw [hsleepers, Function.forall_update_iff s.sleepers fun _ y => y.Ok]
        exact ⟨(hs.ok pid).wake, fun p _ => hs.ok p⟩
      · rw [hgone, hpc]
        exact hs.mem_gone p
    · exact ⟨hsleepers ▸ hs.ok, hsleepers ▸ hlive, hgone ▸ hs.nodup,
        hgone ▸ hsleepers ▸ hs.mem_gone⟩
  | other pid p =>
    obtain ⟨hallowed, rfl⟩ := Step.other h
    refine ⟨hs.ok, ?_, hs.nodup, hs.mem_gone⟩
    intro q hq
    by_cases heq : q = pid
    · subst heq
      have hentry : changeTask s.tasks q p q = p := Function.update_self ..
      exact (congrArg Smunch.live hentry).trans (hallowed.resolve_left hq)
    · have hentry : changeTask s.tasks pid p q = s.tasks q := Function.update_of_ne heq ..
      exact (congrArg Smunch.live hentry).trans (hs.live q hq)

end SleepSys

/-- A task that nobody traces, on its own. -/
def sleepyTable : ProcessTable :=
  Function.update (fun _ => none) 1 (some { traced with ptrace := 0 })

namespace SleepSys

variable {s t : SleepSys} {pid : Int32}

/-- Whoever is between the first lock and its unlock holds the lock. -/
def Exclusive (s : SleepSys) : Prop :=
  ∀ pid, (s.sleepers pid).pc.inside = true → s.holder = some pid

/-- The last unlock is made while nobody is between the first lock and its unlock. -/
def Undisturbed (s : SleepSys) : SleepAct → Prop
  | .run pid => (s.sleepers pid).pc = .unlockAgain → ∀ other, (s.sleepers other).pc.inside = false
  | _ => True

/-- When one task moves, the lock excludes if it does for that task and for the others. -/
theorem exclusive_put_iff {x : Sleeper} {holder : Option Int32} {gone : List Int32} :
    Exclusive { s.put pid x with holder := holder, gone := gone } ↔
      (x.pc.inside = true → holder = some pid) ∧
        ∀ p, p ≠ pid → (s.sleepers p).pc.inside = true → holder = some p := by
  unfold Exclusive
  rw [put_sleepers, Function.forall_update_iff s.sleepers
    fun p y => y.pc.inside = true → holder = some p]

/-- A task moves outside. -/
theorem Exclusive.put {x : Sleeper} {gone : List Int32} (hs : s.Exclusive)
    (hx : x.pc.inside = false) : Exclusive { s.put pid x with gone := gone } := by
  apply exclusive_put_iff.mpr
  exact ⟨fun hin => absurd hin (by simp [hx]), fun p _ => hs p⟩

/-- One statement. -/
theorem Exclusive.run_iff (hs : s.Exclusive) (h : s.Step (.run pid) t) :
    t.Exclusive ↔ s.Undisturbed (.run pid) := by
  have hundisturbed : (s.sleepers pid).pc ≠ .unlockAgain → s.Undisturbed (.run pid) :=
    fun hne hpc => absurd hpc hne
  cases h.run with
  | setState hpc => exact iff_of_true (hs.put rfl) (hundisturbed (by simp [hpc]))
  | lock hpc hfree =>
    refine iff_of_true (exclusive_put_iff.mpr ⟨fun _ => rfl, fun p _ hin => ?_⟩)
      (hundisturbed (by simp [hpc]))
    rw [hs p hin] at hfree
    cases hfree
  | add hpc =>
    have hholder := hs pid (by rw [hpc]; rfl)
    exact iff_of_true (exclusive_put_iff.mpr ⟨fun _ => hholder, fun p _ => hs p⟩)
      (hundisturbed (by simp [hpc]))
  | unlock hpc =>
    have hholder := hs pid (by rw [hpc]; rfl)
    refine iff_of_true (exclusive_put_iff.mpr ⟨nofun, fun p hp hin => ?_⟩)
      (hundisturbed (by simp [hpc]))
    rw [hs p hin] at hholder
    exact absurd (Option.some_inj.mp hholder) hp
  | schedule hpc => exact iff_of_true (hs.put rfl) (hundisturbed (by simp [hpc]))
  | remove hpc => exact iff_of_true (hs.put rfl) (hundisturbed (by simp [hpc]))
  | unlockAgain hpc =>
    rw [exclusive_put_iff]
    constructor
    · rintro ⟨-, hothers⟩ - p
      by_cases hp : p = pid
      · rw [hp, hpc]
        rfl
      · rw [Bool.eq_false_iff]
        exact fun hin => nomatch hothers p hp hin
    · intro hnobody
      refine ⟨nofun, fun p _ hin => ?_⟩
      rw [hnobody hpc p] at hin
      cases hin

theorem Exclusive.step_iff {a : SleepAct} (hs : s.Exclusive) (h : s.Step a t) :
    t.Exclusive ↔ s.Undisturbed a := by
  cases a with
  | deepsleep pid =>
    obtain ⟨-, -, rfl⟩ := Step.deepsleep h
    exact iff_of_true (hs.put rfl) trivial
  | run pid => exact hs.run_iff h
  | smunch pid bitPattern locks =>
    obtain ⟨-, hholder, -, ⟨-, hsleepers⟩ | ⟨-, hsleepers⟩⟩ := Step.smunch h
    · refine iff_of_true ?_ trivial
      unfold Exclusive
      rw [hholder, hsleepers, Function.forall_update_iff s.sleepers
        fun p y => y.pc.inside = true → s.holder = some p]
      exact ⟨hs pid, fun p _ => hs p⟩
    · refine iff_of_true ?_ trivial
      unfold Exclusive
      rwa [hholder, hsleepers]
  | other pid p =>
    obtain ⟨-, rfl⟩ := Step.other h
    exact iff_of_true hs trivial

theorem exclusive_initial (tasks : ProcessTable) : Exclusive (initial tasks) := nofun

end SleepSys

/-- **The lock excludes as long as no last unlock comes in between.** In a run of any number
of tasks in `deepsleep`, whoever is between the first lock and its unlock holds the lock
throughout, if and only if each last unlock, of a lock that its task does not hold, is made
while nobody is there. -/
theorem exclusive_iff (tasks : ProcessTable) (as : List SleepAct) (t : SleepSys) :
    Along SleepSys.Step (fun _ _ t => t.Exclusive) (SleepSys.initial tasks) as t ↔
      Along SleepSys.Step (fun s a _ => s.Undisturbed a) (SleepSys.initial tasks) as t :=
  along_iff_of_invariant SleepSys.Exclusive (fun _ _ _ _ _ h => h)
    (fun _ _ _ hs h => hs.step_iff h) (SleepSys.exclusive_initial tasks)

/-- **And it does not once one has come.** Wherever a run comes to the last unlock of one task
while another is between the first lock and its unlock, the first can go to sleep again and
then both are there at once. -/
theorem exclusion_lost (tasks : ProcessTable) (as : List SleepAct) (s : SleepSys)
    (h : Path SleepSys.Step (SleepSys.initial tasks) as s) (pid other : Int32)
    (hpc : (s.sleepers pid).pc = .unlockAgain) (hinside : (s.sleepers other).pc.inside = true) :
    ∃ t, Path SleepSys.Step s [.run pid, .deepsleep pid, .run pid, .run pid] t ∧
      (t.sleepers pid).pc.inside = true ∧ (t.sleepers other).pc.inside = true ∧ other ≠ pid := by
  have hs := h.invariant SleepSys.Inv (fun _ _ _ hs hstep => hs.step hstep)
    (SleepSys.inv_initial tasks)
  have hne : other ≠ pid := by
    rintro rfl
    rw [hpc] at hinside
    cases hinside
  have hlive := hs.live pid (by simp [hpc])
  refine ⟨_, Path.of_foldlM (t := { s.put pid { s.sleepers pid with
    pc := .add, running := false, wokenAtSet := (s.sleepers pid).woken } with
      holder := some pid }) ?_, ?_, ?_, hne⟩
  · simp [SleepSys.step, SleepSys.sleepOn, SleepSys.put, hpc, hlive]
  · simp [SleepPc.inside]
  · simp [Function.update_of_ne hne, hinside]

/-- Two tasks that nobody traces. -/
def sleepyPair : ProcessTable :=
  Function.update sleepyTable 2 (some { traced with ptrace := 0 })

/-- The first has been woken and is about to return when the second locks the queue. -/
theorem exclusion_lost_pair :
    ∃ s t, Path SleepSys.Step s [.run 1, .deepsleep 1, .run 1, .run 1] t ∧
      (t.sleepers 1).pc.inside = true ∧ (t.sleepers 2).pc.inside = true ∧ (2 : Int32) ≠ 1 := by
  obtain ⟨s, hs, hpc, hinside⟩ : ∃ s, Path SleepSys.Step (SleepSys.initial sleepyPair)
      ([.deepsleep 1, .run 1, .run 1, .run 1, .run 1, .smunch 1 1 true, .run 1, .run 1] ++
        [.deepsleep 2, .run 2, .run 2]) s ∧
      (s.sleepers 1).pc = .unlockAgain ∧ (s.sleepers 2).pc.inside = true :=
    ⟨_, Path.of_foldlM rfl, by decide, by decide⟩
  exact ⟨s, exclusion_lost sleepyPair _ s hs 1 2 hpc hinside⟩

end OsProjects.Smunch
