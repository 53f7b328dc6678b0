import Mathlib.Data.Set.Insert
import Mathlib.Logic.Function.Basic

/-!
# Signal sets and the process table

The kernel's side of the system calls: a `sigset_t` is a word with one bit for each
signal, and the helpers that the calls use on it are the operations on sets that their
names say. A process table holds, for each pid, what the calls read and change of its
task.

## Main definitions

* `Sigset`, `siginitset`, `sigmask`, `sigismember`, `sigaddsetmask`
* `Sigset.signals` — the set a word stands for
* `Task`, `ProcessTable`, `releaseTask`, `signalTask`

## Main results

* `Sigset.ext_signals` — the word is determined by the set
* `signals_sigaddsetmask` — adding a mask is union
* `signals_siginitset_sigmask` — the mask of one signal is a singleton
-/

namespace OsProjects.Smunch

/-! ### Signal sets -/

/-- `sigset_t` of a kernel with 64-bit words: bit `sig - 1` stands for signal `sig`. -/
@[ext]
structure Sigset where
  sig : BitVec 64
  deriving DecidableEq

/-- `SIGKILL` -/
def sigkill : ℕ := 9

def siginitset (mask : BitVec 64) : Sigset := ⟨mask⟩

def sigmask (sig : ℕ) : BitVec 64 := BitVec.twoPow 64 (sig - 1)

def sigismember (set : Sigset) (sig : ℕ) : Bool := set.sig.getLsbD (sig - 1)

def sigaddsetmask (set : Sigset) (mask : BitVec 64) : Sigset := ⟨set.sig ||| mask⟩

/-- The signals in a set. -/
def Sigset.signals (set : Sigset) : Set ℕ := {sig | 1 ≤ sig ∧ sig ≤ 64 ∧ sigismember set sig}

section Signals

variable {set set' : Sigset} {mask : BitVec 64} {sig : ℕ}

theorem mem_signals : sig ∈ set.signals ↔ 1 ≤ sig ∧ sig ≤ 64 ∧ sigismember set sig := Iff.rfl

/-- Asking for a signal is asking for a member. -/
theorem sigismember_iff (h : 1 ≤ sig) (h' : sig ≤ 64) :
    sigismember set sig = true ↔ sig ∈ set.signals := by
  rw [mem_signals]
  exact ⟨fun hmem => ⟨h, h', hmem⟩, fun hmem => hmem.2.2⟩

/-- Words that stand for the same set are equal. -/
theorem Sigset.ext_signals (h : set.signals = set'.signals) : set = set' := by
  ext i hi
  have hsig : i + 1 ∈ set.signals ↔ i + 1 ∈ set'.signals := by rw [h]
  have hbit : set.sig.getLsbD i = true ↔ set'.sig.getLsbD i = true := by
    simpa [mem_signals, sigismember, Nat.succ_le_of_lt hi] using hsig
  rw [← BitVec.getLsbD_eq_getElem, ← BitVec.getLsbD_eq_getElem]
  exact Bool.eq_iff_iff.mpr hbit

/-- `sigaddsetmask` adds the signals of the mask. -/
theorem signals_sigaddsetmask :
    (sigaddsetmask set mask).signals = set.signals ∪ (siginitset mask).signals := by
  ext sig
  simp only [mem_signals, Set.mem_union, sigaddsetmask, sigismember, siginitset,
    BitVec.getLsbD_or, Bool.or_eq_true, and_or_left]

/-- The mask of a signal stands for that signal alone. -/
theorem signals_siginitset_sigmask (h : 1 ≤ sig) (h' : sig ≤ 64) :
    (siginitset (sigmask sig)).signals = {sig} := by
  ext other
  simp only [mem_signals, sigismember, siginitset, sigmask, BitVec.getLsbD_twoPow,
    Set.mem_singleton_iff, Bool.and_eq_true, decide_eq_true_eq]
  omega

end Signals

/-! ### The process table -/

/-- `EXIT_ZOMBIE` -/
def exitZombie : Int32 := 32

/-- What the calls read and change of a task: whether its thread group has no other
member, the words `ptrace` and `trace`, its exit state, the signals pending for its
thread group, its flag `TIF_SIGPENDING`, and how often it has been woken. -/
structure Task where
  threadGroupEmpty : Bool
  ptrace : BitVec 32
  trace : BitVec 64
  exitState : Int32
  sharedPending : Sigset
  tifSigpending : Bool
  wakeUps : ℕ
  deriving DecidableEq

/-- The tasks by their pids, as `pid_task` of `find_vpid` finds them. -/
def ProcessTable : Type := Int32 → Option Task

/-- `release_task`: the task is gone. -/
def releaseTask (tasks : ProcessTable) (pid : Int32) : ProcessTable :=
  Function.update tasks pid none

/-- What both calls do between locking a task's signal handlers and returning: the mask
is added to the pending signals, `TIF_SIGPENDING` is set, and the task is woken. -/
def Task.signal (p : Task) (mask : BitVec 64) : Task :=
  { p with
    sharedPending := sigaddsetmask p.sharedPending mask
    tifSigpending := true
    wakeUps := p.wakeUps + 1 }

def signalTask (tasks : ProcessTable) (pid : Int32) (p : Task) (mask : BitVec 64) :
    ProcessTable :=
  Function.update tasks pid (some (p.signal mask))

end OsProjects.Smunch
