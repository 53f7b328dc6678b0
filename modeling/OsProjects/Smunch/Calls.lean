import Mathlib.Data.List.Basic
import OsProjects.Smunch.Smunch

/-!
# Many calls of `smunch`

Signals add up: a call adds its mask to what is pending and takes nothing away, and what
makes a task refuse a call is not changed by any call. So after any number of calls, to
either of the two implementations, the process table does not depend on their order: what
is pending for a task is what was pending and what the calls that it accepted added.

## Main definitions

* `Call`, `Call.run` — a call of one of the implementations, and what it makes of the table
* `Call.effect` — what it makes of one task

## Main results

* `calls_perm` — calls in another order leave the same table
* `calls_pending` — what is pending after any number of calls
* `calls_reap` — and which zombies are left
-/

namespace OsProjects.Smunch

/-! ### Calls -/

/-- The file whose implementation is called. -/
inductive Implementation
  | smunchC
  | stoogecallsC
  deriving DecidableEq

/-- A call, with the outcome that `lock_task_sighand` would have. -/
structure Call where
  implementation : Implementation
  pid : Int32
  mask : BitVec 64
  locks : Bool

namespace Call

/-- The table after the call. -/
def run (tasks : ProcessTable) (c : Call) : ProcessTable :=
  match c.implementation with
  | .smunchC => (SmunchC.smunch tasks c.locks c.pid c.mask).2
  | .stoogecallsC => (StoogecallsC.smunch tasks c.locks c.pid c.mask).2

/-- The task is alone in its group and, as far as the implementation looks, not traced. -/
def accepts (c : Call) (p : Task) : Bool :=
  p.threadGroupEmpty && match c.implementation with
    | .smunchC => p.trace == 0
    | .stoogecallsC => p.ptrace != 1

/-- Its mask is added to the signals of the task, if that has not exited. -/
def adds (c : Call) (p : Task) : Bool := c.accepts p && c.locks

/-- It reaps the task, if that is a zombie. -/
def reaps (c : Call) (p : Task) : Bool :=
  c.accepts p && sigismember (siginitset c.mask) sigkill

/-- What it makes of the task that it is for. -/
def effect (c : Call) (p : Task) : Option Task :=
  if p.exitState = exitZombie then if c.reaps p then none else some p
  else some (if c.adds p then p.signal c.mask else p)

end Call

/-! ### The effect of one call -/

section Effect

variable {tasks : ProcessTable} {c c' : Call} {pid : Int32} {p q : Task}

/-- What `attempt` does to the task it is for. -/
theorem attempt_self {locks : Bool} {mask : BitVec 64} (htask : tasks pid = some p) :
    (attempt tasks locks pid p mask).2 pid =
      if p.exitState = exitZombie then
        if sigismember (siginitset mask) sigkill then none else some p
      else some (if locks then p.signal mask else p) := by
  unfold attempt
  split
  · split
    · exact Function.update_self ..
    · exact htask
  · cases locks with
    | false => exact htask
    | true => exact Function.update_self ..

/-- Both implementations are an attempt on a task that they accept. -/
theorem Call.run_of_some (htask : tasks c.pid = some p) :
    Call.run tasks c =
      if c.accepts p then (attempt tasks c.locks c.pid p c.mask).2 else tasks := by
  obtain ⟨implementation, pid, mask, locks⟩ := c
  cases implementation with
  | smunchC =>
    have hrefuses : (p.threadGroupEmpty = false ∨ p.trace ≠ 0) ↔
        ¬Call.accepts ⟨.smunchC, pid, mask, locks⟩ p = true := by
      cases hgroup : p.threadGroupEmpty <;> simp [accepts, hgroup]
    simp only [Call.run, SmunchC.smunch_some htask]
    by_cases haccepts : Call.accepts ⟨.smunchC, pid, mask, locks⟩ p = true
    · rw [if_pos haccepts, if_neg (fun h => hrefuses.mp h haccepts)]
    · rw [if_neg haccepts, if_pos (hrefuses.mpr haccepts)]
  | stoogecallsC =>
    have hrefuses : (p.threadGroupEmpty = false ∨ 1 = p.ptrace) ↔
        ¬Call.accepts ⟨.stoogecallsC, pid, mask, locks⟩ p = true := by
      cases hgroup : p.threadGroupEmpty with
      | false => simp [accepts, hgroup]
      | true =>
        simp only [accepts, hgroup, Bool.true_and, bne_iff_ne, ne_eq, not_not, reduceCtorEq,
          false_or]
        exact eq_comm
    simp only [Call.run, StoogecallsC.smunch_some htask]
    by_cases haccepts : Call.accepts ⟨.stoogecallsC, pid, mask, locks⟩ p = true
    · rw [if_pos haccepts, if_neg (fun h => hrefuses.mp h haccepts)]
    · rw [if_neg haccepts, if_pos (hrefuses.mpr haccepts)]

theorem Call.run_of_none (htask : tasks c.pid = none) : Call.run tasks c = tasks := by
  obtain ⟨implementation, pid, mask, locks⟩ := c
  cases implementation with
  | smunchC => exact congrArg Prod.snd (SmunchC.smunch_none htask)
  | stoogecallsC => exact congrArg Prod.snd (StoogecallsC.smunch_none htask)

/-- A call does to its task what its effect says, and nothing to another. -/
theorem Call.run_apply (tasks : ProcessTable) (c : Call) (pid : Int32) :
    Call.run tasks c pid = if c.pid = pid then (tasks pid).bind c.effect else tasks pid := by
  cases htask : tasks c.pid with
  | none =>
    rw [run_of_none htask]
    split
    · rename_i heq
      rw [← heq, htask, Option.bind_none]
    · rfl
  | some p =>
    rw [run_of_some htask]
    by_cases heq : c.pid = pid
    · rw [if_pos heq, ← heq, htask, Option.bind_some, effect]
      by_cases haccepts : c.accepts p = true
      · rw [if_pos haccepts, attempt_self htask]
        simp only [reaps, adds, haccepts, Bool.true_and]
      · rw [if_neg haccepts, htask]
        simp [reaps, adds, haccepts]
    · rw [if_neg heq]
      by_cases haccepts : c.accepts p = true
      · rw [if_pos haccepts]
        exact attempt_of_ne fun h => heq h.symm
      · rw [if_neg haccepts]

theorem Call.effect_zombie (hzombie : p.exitState = exitZombie) :
    c.effect p = if c.reaps p then none else some p := if_pos hzombie

theorem Call.effect_live (hlive : p.exitState ≠ exitZombie) :
    c.effect p = some (if c.adds p then p.signal c.mask else p) := if_neg hlive

/-- What is pending for a task makes no difference to a call. -/
theorem Call.adds_signal (c : Call) (p : Task) (mask : BitVec 64) :
    c.adds (p.signal mask) = c.adds p := rfl

theorem Task.signal_comm (p : Task) (mask mask' : BitVec 64) :
    (p.signal mask).signal mask' = (p.signal mask').signal mask := by
  simp [Task.signal, sigaddsetmask, BitVec.or_assoc, BitVec.or_comm mask]

/-- Effects commute. -/
theorem Call.effect_comm (c c' : Call) (p : Task) :
    (c.effect p).bind c'.effect = (c'.effect p).bind c.effect := by
  by_cases hzombie : p.exitState = exitZombie
  · cases hc : c.reaps p <;> cases hc' : c'.reaps p <;> simp [effect_zombie hzombie, hc, hc']
  · have hsignal : ∀ mask, (p.signal mask).exitState ≠ exitZombie := fun _ => hzombie
    cases hc : c.adds p <;> cases hc' : c'.adds p <;>
      simp [effect_live hzombie, effect_live (hsignal _), adds_signal, hc, hc',
        Task.signal_comm p c.mask]

/-- Calls commute. -/
theorem Call.run_comm (tasks : ProcessTable) (c c' : Call) :
    Call.run (Call.run tasks c) c' = Call.run (Call.run tasks c') c := by
  funext pid
  simp only [run_apply]
  by_cases hc : c.pid = pid
  · by_cases hc' : c'.pid = pid
    · simp only [if_pos hc, if_pos hc', Option.bind_assoc, effect_comm c c']
    · simp only [if_pos hc, if_neg hc']
  · by_cases hc' : c'.pid = pid
    · simp only [if_neg hc, if_pos hc']
    · simp only [if_neg hc, if_neg hc']

end Effect

/-! ### Any number of calls -/

/-- The table after all these calls. -/
def runCalls (tasks : ProcessTable) (cs : List Call) : ProcessTable := cs.foldl Call.run tasks

/-- **The order of calls does not matter.** Whatever calls are made, to either implementation,
of whatever tasks: in another order they leave the same process table. -/
theorem calls_perm (tasks : ProcessTable) (cs cs' : List Call) (h : cs.Perm cs') :
    runCalls tasks cs = runCalls tasks cs' :=
  h.foldl_eq' (fun c _ c' _ tasks => Call.run_comm tasks c c') tasks

/-- One call of each implementation, for a task traced by another. -/
def interrupt : Call := ⟨.smunchC, 1, sigmask 2, true⟩

def kill : Call := ⟨.stoogecallsC, 1, sigmask sigkill, true⟩

theorem calls_perm_pair :
    runCalls tracedTable [interrupt, kill] = runCalls tracedTable [kill, interrupt] :=
  calls_perm tracedTable _ _ (List.Perm.swap kill interrupt [])

theorem runCalls_cons (tasks : ProcessTable) (c : Call) (cs : List Call) :
    runCalls tasks (c :: cs) = runCalls (Call.run tasks c) cs := rfl

/-- No call brings a task back. -/
theorem runCalls_of_none (cs : List Call) {pid : Int32} :
    ∀ {tasks : ProcessTable}, tasks pid = none → runCalls tasks cs pid = none := by
  induction cs with
  | nil => exact fun h => h
  | cons c cs ih =>
    intro tasks h
    rw [runCalls_cons]
    apply ih
    rw [Call.run_apply, h]
    exact ite_self _

/-- What these calls make of a task `p` that is no zombie: `q` has the signals that were
pending and those of every call that adds its own, one more wake-up for each of these calls,
and its flag set if there is one. The rest of it is as it was. -/
structure Delivered (cs : List Call) (pid : Int32) (p q : Task) : Prop where
  signals : ∀ sig, sig ∈ q.sharedPending.signals ↔ sig ∈ p.sharedPending.signals ∨
    ∃ c ∈ cs, c.pid = pid ∧ c.adds p = true ∧ sig ∈ (siginitset c.mask).signals
  wakeUps : q.wakeUps = p.wakeUps + cs.countP fun c => c.pid = pid ∧ c.adds p = true
  tifSigpending : q.tifSigpending = true ↔
    p.tifSigpending = true ∨ ∃ c ∈ cs, c.pid = pid ∧ c.adds p = true
  threadGroupEmpty : q.threadGroupEmpty = p.threadGroupEmpty
  ptrace : q.ptrace = p.ptrace
  trace : q.trace = p.trace
  exitState : q.exitState = p.exitState

namespace Delivered

variable {cs : List Call} {c : Call} {pid : Int32} {p q : Task}

theorem nil : Delivered [] pid p p where
  signals := by simp
  wakeUps := by simp
  tifSigpending := by simp
  threadGroupEmpty := rfl
  ptrace := rfl
  trace := rfl
  exitState := rfl

/-- A call that adds its signals, before the others. -/
theorem signal (hpid : c.pid = pid) (hadds : c.adds p = true)
    (h : Delivered cs pid (p.signal c.mask) q) : Delivered (c :: cs) pid p q where
  signals := by
    intro sig
    have hpending : sig ∈ (p.signal c.mask).sharedPending.signals ↔
        sig ∈ p.sharedPending.signals ∨ sig ∈ (siginitset c.mask).signals := by
      rw [Task.signal, signals_sigaddsetmask, Set.mem_union]
    simp only [h.signals sig, hpending, Call.adds_signal, List.exists_mem_cons_iff, hpid, hadds,
      true_and, or_assoc]
  wakeUps := by
    have hcount : cs.countP (fun c' => c'.pid = pid ∧ c'.adds (p.signal c.mask) = true) =
        cs.countP fun c' => c'.pid = pid ∧ c'.adds p = true := rfl
    have hwoken : (p.signal c.mask).wakeUps = p.wakeUps + 1 := rfl
    rw [h.wakeUps, hcount, hwoken, List.countP_cons_of_pos (by simp [hpid, hadds])]
    omega
  tifSigpending := by
    have hset : (p.signal c.mask).tifSigpending = true := rfl
    simp [h.tifSigpending, hset, hpid, hadds]
  threadGroupEmpty := h.threadGroupEmpty
  ptrace := h.ptrace
  trace := h.trace
  exitState := h.exitState

/-- A call for another task, or one that adds nothing, before the others. -/
theorem skip (hskip : ¬(c.pid = pid ∧ c.adds p = true)) (h : Delivered cs pid p q) :
    Delivered (c :: cs) pid p q where
  signals := by
    intro sig
    have hnone : ¬(c.pid = pid ∧ c.adds p = true ∧ sig ∈ (siginitset c.mask).signals) :=
      fun hc => hskip ⟨hc.1, hc.2.1⟩
    rw [h.signals sig, List.exists_mem_cons_iff, or_iff_right hnone]
  wakeUps := by
    rw [h.wakeUps, List.countP_cons_of_neg (by simpa using hskip)]
  tifSigpending := by
    rw [h.tifSigpending, List.exists_mem_cons_iff, or_iff_right hskip]
  threadGroupEmpty := h.threadGroupEmpty
  ptrace := h.ptrace
  trace := h.trace
  exitState := h.exitState

end Delivered

/-- **Signals add up.** After any calls, to either implementation and of any tasks, a task
that is no zombie is there with exactly the signals that were pending and those of the calls
that accepted it, and has been woken once for each of these. -/
theorem calls_pending (cs : List Call) (pid : Int32) :
    ∀ (tasks : ProcessTable) (p : Task), tasks pid = some p → p.exitState ≠ exitZombie →
      ∃ q, runCalls tasks cs pid = some q ∧ Delivered cs pid p q := by
  induction cs with
  | nil => exact fun _ p htask _ => ⟨p, htask, Delivered.nil⟩
  | cons c cs ih =>
    intro tasks p htask hlive
    rw [runCalls_cons]
    have happly := Call.run_apply tasks c pid
    rw [htask, Option.bind_some, Call.effect_live hlive] at happly
    by_cases hadds : c.pid = pid ∧ c.adds p = true
    · obtain ⟨hpid, hadds⟩ := hadds
      rw [if_pos hpid, if_pos hadds] at happly
      obtain ⟨q, hq, hdelivered⟩ := ih _ _ happly hlive
      exact ⟨q, hq, hdelivered.signal hpid hadds⟩
    · have hsame : Call.run tasks c pid = some p := by
        rw [happly]
        split
        · rename_i hpid
          rw [if_neg fun h => hadds ⟨hpid, h⟩]
        · rfl
      obtain ⟨q, hq, hdelivered⟩ := ih _ _ hsame hlive
      exact ⟨q, hq, hdelivered.skip hadds⟩

theorem calls_pending_pair :
    ∃ q, runCalls tracedTable [interrupt, kill] 1 = some q ∧
      Delivered [interrupt, kill] 1 traced q :=
  calls_pending [interrupt, kill] 1 tracedTable traced (Function.update_self ..) (by decide)

/-- A zombie is left until a call reaps it. -/
theorem runCalls_of_zombie (cs : List Call) {pid : Int32} {p : Task}
    (hzombie : p.exitState = exitZombie) :
    ∀ {tasks : ProcessTable}, tasks pid = some p →
      (runCalls tasks cs pid = none ↔ ∃ c ∈ cs, c.pid = pid ∧ c.reaps p = true) := by
  induction cs with
  | nil =>
    intro tasks htask
    simp [runCalls, htask]
  | cons c cs ih =>
    intro tasks htask
    rw [runCalls_cons, List.exists_mem_cons_iff]
    have happly := Call.run_apply tasks c pid
    rw [htask, Option.bind_some, Call.effect_zombie hzombie] at happly
    by_cases hreaps : c.pid = pid ∧ c.reaps p = true
    · rw [if_pos hreaps.1, if_pos hreaps.2] at happly
      exact iff_of_true (runCalls_of_none cs happly) (Or.inl hreaps)
    · have hsame : Call.run tasks c pid = some p := by
        rw [happly]
        split
        · rename_i hpid
          rw [if_neg fun h => hreaps ⟨hpid, h⟩]
        · rfl
      rw [or_iff_right hreaps]
      exact ih hsame

/-- **Who is reaped.** After any calls no task has `pid` exactly when there was none, or it
was a zombie alone in its group and one of the calls for it, to an implementation that does
not take it for traced, had `SIGKILL` in its mask. -/
theorem calls_reap (tasks : ProcessTable) (cs : List Call) (pid : Int32) :
    runCalls tasks cs pid = none ↔ ∀ p, tasks pid = some p →
      p.exitState = exitZombie ∧ ∃ c ∈ cs, c.pid = pid ∧ c.reaps p = true := by
  cases htask : tasks pid with
  | none =>
    apply iff_of_true (runCalls_of_none cs htask)
    intro p h
    cases h
  | some p =>
    have hiff : (∀ p', some p = some p' → p'.exitState = exitZombie ∧
        ∃ c ∈ cs, c.pid = pid ∧ c.reaps p' = true) ↔
          p.exitState = exitZombie ∧ ∃ c ∈ cs, c.pid = pid ∧ c.reaps p = true := by
      constructor
      · exact fun h => h p (Eq.refl _)
      · intro h p' heq
        cases heq
        exact h
    rw [hiff]
    by_cases hzombie : p.exitState = exitZombie
    · rw [runCalls_of_zombie cs hzombie htask, and_iff_right hzombie]
    · obtain ⟨q, hq, -⟩ := calls_pending cs pid tasks p htask hzombie
      rw [hq]
      exact iff_of_false (Option.some_ne_none q) fun h => hzombie h.1

end OsProjects.Smunch
