import Mathlib.Data.List.FinRange
import OsProjects.Driver.Commands

/-!
# A drawing through the FIFO

Without an argument the user program switches graphics on, queues the commands of one
triangle, flushes them, switches graphics off and closes the device. What comes of it
depends on the calls alone, and not on when the card executes what: here a session is
compared with a record of what its client has asked for, kept from the calls only.

Colours and coordinates are represented by the words that the program passes for them.

## Main definitions

* `Asked`, `asked` — what the calls of a client ask for
* `Asked.Fits` — every batch it makes is shorter than the ring
* `fifoCommands`, `mainFifo` — the commands of the triangle, and the calls of the program
* `Ended`, `pcAfter` — where calls take the client

## Main results

* `Matches.step` — a session does what its client has asked for
* `session_executes` — outside a flush the card has executed what was asked for, up to the
  last flush
* `mainFifo_executes` — the program's triangle is drawn whatever the card's pace
* `mainFifo_finishes` — and the program comes to its end
-/

namespace OsProjects.User

open Driver Run

/-! ### What a client asks for -/

/-- What a client has asked for: whether graphics are to be on; the commands queued, its
own and those of mode switches; how many of them since the last flush; and the length of
each batch flushed. -/
structure Asked where
  on : Bool
  commands : List FifoEntry
  pending : ℕ
  batches : List ℕ
  deriving DecidableEq, Repr

namespace Asked

/-- Nothing yet, as after opening the device. -/
def nothing : Asked := ⟨false, [], 0, []⟩

def queue (x : Asked) (es : List FifoEntry) : Asked :=
  { x with commands := x.commands ++ es, pending := x.pending + es.length }

def flush (x : Asked) : Asked :=
  { x with pending := 0, batches := x.batches ++ [x.pending] }

/-- Both mode switches queue commands and flush. -/
def switch (x : Asked) (es : List FifoEntry) (on : Bool) : Asked :=
  { (x.queue es).flush with on := on }

end Asked

/-- The commands that switch graphics on, and off. -/
def onCommands : List FifoEntry := graphicsOnCommands.map fun w => ⟨w.1, w.2⟩

def offCommands : List FifoEntry := [⟨rasterClear, 0x03⟩]

/-- What is asked for after one more action; what the card and the loop of a flush do is not
the client's asking. -/
def Asked.after (x : Asked) : GraphicsAct → Asked
  | .queue entry => x.queue [entry]
  | .flush => x.flush
  | .vmode arg =>
    if u32 arg = graphicsOffMode then x.switch offCommands false else x.switch onCommands true
  | .release => if x.on then x.switch offCommands false else x
  | .poll | .exec => x

/-- What a client has asked for since it opened the device. -/
def asked (as : List GraphicsAct) : Asked := as.foldl Asked.after .nothing

/-- Every batch is shorter than the ring, and so is what is queued and not flushed. -/
structure Asked.Fits (x : Asked) : Prop where
  pending : x.pending < fifoEntries
  batches : ∀ n ∈ x.batches, n < fifoEntries

/-- Batches are only added to. -/
theorem Asked.batches_after (x : Asked) (a : GraphicsAct) :
    ∀ n ∈ x.batches, n ∈ (x.after a).batches := by
  intro n hn
  have happend : ∀ m : ℕ, n ∈ x.batches ++ [m] := fun m => List.mem_append_left _ hn
  cases a with
  | queue entry => exact hn
  | flush => exact happend _
  | vmode arg =>
    simp only [after]
    split
    · exact happend _
    · exact happend _
  | release =>
    simp only [after]
    split
    · exact happend _
    · exact hn
  | poll => exact hn
  | exec => exact hn

theorem Asked.batches_foldl (as : List GraphicsAct) (x : Asked) :
    ∀ n ∈ x.batches, n ∈ (as.foldl Asked.after x).batches := by
  induction as generalizing x with
  | nil => exact fun n hn => hn
  | cons a as ih => exact fun n hn => ih (x.after a) n (x.batches_after a n hn)

/-! ### The session does it -/

section Session

variable {s t : GraphicsSys} {x : Asked}

/-- Whether graphics are on, or will be when the flush under way is over. -/
def mode (s : GraphicsSys) : Bool :=
  match s.pc with
  | .flushing .graphicsOn => true
  | .flushing .graphicsOff | .flushing .release => false
  | _ => s.k.graphicsOn

/-- The session is where its client's asking has brought it. -/
structure Matches (s : GraphicsSys) (x : Asked) : Prop where
  log : s.k.fifo.log = x.commands
  on : mode s = x.on
  outside : s.pc.inFlush = false → s.k.fifo.log.length = s.flushed + x.pending
  inside : s.pc.inFlush = true →
    x.pending = 0 ∧ ∃ n ∈ x.batches, s.k.fifo.log.length = s.flushed + n

theorem matches_opened (k : Kyouko3) (env : OpenEnv) :
    Matches (GraphicsSys.opened k env) .nothing :=
  ⟨rfl, rfl, fun _ => rfl, nofun⟩

/-- A batch of the driver's own is queued and flushed. -/
theorem Matches.begin_flush {k : Kyouko3} {caller : FlushCaller} {es : List FifoEntry}
    {on : Bool} (hs : Matches s x) (hpc : s.pc = .user) (hlog : k.fifo.log = s.k.fifo.log ++ es)
    (hon : mode { s with k := k, pc := .flushing caller } = on) :
    Matches { s with k := k, pc := .flushing caller } (x.switch es on) where
  log := by rw [hlog, hs.log]; rfl
  on := hon
  outside := nofun
  inside _ := by
    have hout := hs.outside (by rw [hpc]; rfl)
    refine ⟨rfl, x.pending + es.length, List.mem_append_right _ (List.mem_singleton_self _), ?_⟩
    simp only [hlog, List.length_append, hout]
    omega

theorem graphicsOffStart_log (k : Kyouko3) :
    k.graphicsOffStart.fifo.log = k.fifo.log ++ offCommands :=
  Fifo.write_log _ _ _

theorem graphicsOnStart_log (k : Kyouko3) :
    k.graphicsOnStart.fifo.log = k.fifo.log ++ onCommands := by
  have hapart : ∀ w ∈ graphicsOnRegisters, fifoHead >>> 2 ≠ w.1 >>> 2 := by decide
  obtain ⟨-, hfifo⟩ := k.foldl_kWriteRegister _ hapart
  unfold Kyouko3.graphicsOnStart
  rw [Kyouko3.publish_fifo, Kyouko3.foldl_fifoWrite_log, hfifo, onCommands]

theorem Matches.poll (hs : Matches s x) (h : s.Step .poll t) : Matches t x := by
  obtain ⟨caller, hpc, ⟨-, rfl⟩ | ⟨-, rfl⟩⟩ := h.poll
  · exact ⟨hs.log, hs.on, hs.outside, hs.inside⟩
  · obtain ⟨hfifo, -⟩ := caller.finish_ring s.k
    obtain ⟨hpending, -⟩ := hs.inside (by rw [hpc]; rfl)
    have hon := hs.on
    refine ⟨by rw [hfifo, hs.log], ?_, fun _ => ?_, fun hin => ?_⟩
    · rw [← hon]
      simp only [mode, hpc]
      cases caller <;> rfl
    · simp only [hfifo, hpending, Nat.add_zero]
    · rw [caller.next_inFlush] at hin
      cases hin

/-- **What a step does is what is asked for.** -/
theorem Matches.step {a : GraphicsAct} (hs : Matches s x) (h : s.Step a t) :
    Matches t (x.after a) := by
  cases a with
  | queue entry =>
    obtain ⟨hpc, rfl⟩ := GraphicsSys.fromUser_eq_some h
    have hout := hs.outside (by rw [hpc]; rfl)
    have hlog : (s.k.fifoQueue (0, entry)).2.fifo.log = s.k.fifo.log ++ [entry] :=
      Fifo.write_log _ _ _
    refine ⟨?_, ?_, fun _ => ?_, fun hin => ?_⟩
    · rw [hlog, hs.log]
      rfl
    · have hon := hs.on
      simp only [mode, hpc] at hon ⊢
      exact hon
    · simp only [hlog, List.length_append, hout]
      rfl
    · rw [hpc] at hin
      cases hin
  | flush =>
    obtain ⟨hpc, rfl⟩ := GraphicsSys.fromUser_eq_some h
    have hon := hs.on
    simp only [mode, hpc] at hon
    have hflush : Matches { s with k := s.k.publish, pc := .flushing .ioctl }
        (x.switch [] x.on) := hs.begin_flush hpc (List.append_nil _).symm hon
    simpa [Asked.after, Asked.switch, Asked.queue, Asked.flush] using hflush
  | vmode arg =>
    obtain ⟨hpc, rfl⟩ := GraphicsSys.fromUser_eq_some h
    simp only [GraphicsSys.vmode, Asked.after]
    split
    · exact hs.begin_flush hpc (graphicsOffStart_log _) rfl
    · exact hs.begin_flush hpc (graphicsOnStart_log _) rfl
  | release =>
    obtain ⟨hpc, rfl⟩ := GraphicsSys.fromUser_eq_some h
    have hon := hs.on
    simp only [mode, hpc] at hon
    simp only [GraphicsSys.release, Asked.after, hon]
    split
    · exact hs.begin_flush hpc (graphicsOffStart_log _) rfl
    · exact ⟨hs.log, hon, fun _ => hs.outside (by rw [hpc]; rfl), nofun⟩
  | poll => exact hs.poll h
  | exec =>
    obtain ⟨c, -, rfl⟩ := h.exec
    exact ⟨hs.log, hs.on, hs.outside, hs.inside⟩

/-- A flush that ends has been asked for. -/
theorem Matches.fits {a : GraphicsAct} (hs : Matches s x)
    (hx : ∀ n ∈ x.batches, n < fifoEntries) : s.Fits a t := by
  intro hin _
  obtain ⟨-, n, hn, hlog⟩ := hs.inside hin
  have hlt := hx n hn
  omega

/-- A run does what is asked for; if the batches asked for fit, the ring keeps up. -/
theorem Matches.run {as : List GraphicsAct} (h : Path GraphicsSys.Step s as t)
    (hs : Matches s x) (htracked : s.Tracked)
    (hfits : ∀ n ∈ (as.foldl Asked.after x).batches, n < fifoEntries) :
    Matches t (as.foldl Asked.after x) ∧ t.Tracked := by
  induction h generalizing x with
  | nil s => exact ⟨hs, htracked⟩
  | @cons s m t a as hstep _ _ ih =>
    have hbatches : ∀ n ∈ x.batches, n < fifoEntries := fun n hn =>
      hfits n (Asked.batches_foldl (a :: as) x n hn)
    exact ih (hs.step hstep) (htracked.step hstep (hs.fits hbatches)) hfits

/-- Outside a flush, with less than a ring's worth queued since the last one, the card has
executed what was asked for up to then. -/
theorem Matches.executed_eq (hs : Matches s x) (htracked : s.Tracked)
    (hout : s.pc.inFlush = false) (hpending : x.pending < fifoEntries) :
    s.card.executed = x.commands.take (x.commands.length - x.pending) := by
  have hlog := hs.outside hout
  have hbatch : s.fifoSys.batch = x.pending := by
    simp only [GraphicsSys.fifoSys, hlog]
    omega
  have hidle := htracked.inv.idle hout
  have hchannel := (htracked.inv.small (hbatch ▸ hpending)).executed
  rw [hbatch] at hidle
  simp only [GraphicsSys.fifoSys, hs.log] at hidle hchannel
  rw [hchannel, hidle]

end Session

/-- **A session does what its client asks for.** Along every run from the opening of the
device, with the card executing entries at any pace: if all batches asked for are shorter
than the ring, then outside a flush the card has executed exactly the commands asked for up
to the last flush, in order. -/
theorem session_executes (k : Kyouko3) (env : OpenEnv)
    (hstart : env.control (fifoHead >>> 2) = 0) (as : List GraphicsAct) (t : GraphicsSys)
    (h : Path GraphicsSys.Step (GraphicsSys.opened k env) as t) (hfits : (asked as).Fits)
    (hout : t.pc.inFlush = false) :
    t.card.executed =
      (asked as).commands.take ((asked as).commands.length - (asked as).pending) := by
  obtain ⟨hmatches, htracked⟩ := Matches.run h (matches_opened k env)
    (GraphicsSys.tracked_opened k hstart) hfits.batches
  exact hmatches.executed_eq htracked hout hfits.pending

/-- Graphics are switched on and the device is released. -/
theorem session_executes_one :
    ∃ t, Path GraphicsSys.Step (GraphicsSys.opened .zero zeroOpenEnv) onAndRelease t ∧
      t.card.executed = onCommands ++ offCommands := by
  obtain ⟨t, ht, hpc⟩ : ∃ t,
      onAndRelease.foldlM GraphicsSys.step (GraphicsSys.opened .zero zeroOpenEnv) = some t ∧
        t.pc = .closed := ⟨_, rfl, rfl⟩
  have hfits : (asked onAndRelease).Fits := ⟨by decide, by decide⟩
  exact ⟨t, Path.of_foldlM ht, session_executes .zero zeroOpenEnv rfl _ t (Path.of_foldlM ht)
    hfits (by rw [hpc]; rfl)⟩

/-! ### The program -/

def vertexColor : ℕ := 0x5010

def vertexCoordinate : ℕ := 0x5000

def commandPrimitive : ℕ := 0x3000

def vertexEmit : ℕ := 0x3004

/-- One round of the outer loop of `fifo_commands`. -/
def vertexCommands (color coordinate : Fin 4 → ℕ) : List FifoEntry :=
  (List.finRange 4).map (fun j => ⟨vertexColor + j * 4, color j⟩) ++
    (List.finRange 4).map (fun j => ⟨vertexCoordinate + j * 4, coordinate j⟩) ++
      [⟨vertexEmit, 0⟩]

/-- The commands that `fifo_commands` queues for a triangle. -/
def fifoCommands (colors coordinates : Fin 3 → Fin 4 → ℕ) : List FifoEntry :=
  [⟨commandPrimitive, 1⟩] ++
    (List.finRange 3).flatMap (fun i => vertexCommands (colors i) (coordinates i)) ++
      [⟨commandPrimitive, 0⟩, ⟨rasterFlush, 0⟩]

/-- The calls of the program without an argument: graphics on, `fifo_commands`, graphics off
and the close of the device. -/
def mainFifo (colors coordinates : Fin 3 → Fin 4 → ℕ) : List GraphicsAct :=
  [.vmode 1] ++ (fifoCommands colors coordinates).map .queue ++ [.flush] ++ [.vmode 0, .release]

/-- The action is a call of the client. -/
def isCall : GraphicsAct → Bool
  | .poll | .exec => false
  | _ => true

/-- Only the calls count. -/
theorem foldl_after_filter (as : List GraphicsAct) (x : Asked) :
    (as.filter isCall).foldl Asked.after x = as.foldl Asked.after x := by
  induction as generalizing x with
  | nil => rfl
  | cons a as ih =>
    cases a with
    | poll => exact ih x
    | exec => exact ih x
    | _ => exact ih _

theorem foldl_after_queue (es : List FifoEntry) (x : Asked) :
    (es.map GraphicsAct.queue).foldl Asked.after x = x.queue es := by
  induction es generalizing x with
  | nil => simp [Asked.queue]
  | cons e es ih =>
    rw [List.map_cons, List.foldl_cons, ih]
    simp [Asked.after, Asked.queue, Nat.add_assoc, Nat.add_comm 1]

theorem length_fifoCommands (colors coordinates : Fin 3 → Fin 4 → ℕ) :
    (fifoCommands colors coordinates).length = 30 := rfl

/-- The program asks for three batches. -/
theorem asked_mainFifo (colors coordinates : Fin 3 → Fin 4 → ℕ) :
    asked (mainFifo colors coordinates) =
      ⟨false, onCommands ++ fifoCommands colors coordinates ++ offCommands, 0, [6, 30, 1]⟩ := by
  unfold asked mainFifo
  rw [List.foldl_append, List.foldl_append, List.foldl_append, foldl_after_queue]
  simp only [Asked.queue, length_fifoCommands]
  rfl

/-- **The triangle is drawn.** Whatever the triangle, wherever the kernel puts the ring and
whenever the card executes its entries: when the program has closed the device, the card has
executed the commands that clear the frame, those of the triangle and the one that clears it
again, and nothing else. -/
theorem mainFifo_executes (k : Kyouko3) (env : OpenEnv)
    (hstart : env.control (fifoHead >>> 2) = 0) (colors coordinates : Fin 3 → Fin 4 → ℕ)
    (as : List GraphicsAct) (t : GraphicsSys)
    (h : Path GraphicsSys.Step (GraphicsSys.opened k env) as t)
    (hcalls : as.filter isCall = mainFifo colors coordinates) (hclosed : t.pc = .closed) :
    t.card.executed = onCommands ++ fifoCommands colors coordinates ++ offCommands := by
  have hasked : as.foldl Asked.after .nothing =
      ⟨false, onCommands ++ fifoCommands colors coordinates ++ offCommands, 0, [6, 30, 1]⟩ := by
    rw [← foldl_after_filter, hcalls]
    exact asked_mainFifo colors coordinates
  obtain ⟨hmatches, htracked⟩ := Matches.run h (matches_opened k env)
    (GraphicsSys.tracked_opened k hstart) (by rw [hasked]; simp [fifoEntries])
  rw [hasked] at hmatches
  rw [hmatches.executed_eq htracked (by rw [hclosed]; rfl) (show 0 < fifoEntries by decide),
    Nat.sub_zero, List.take_length]

/-- The program on a card that executes each batch during the flush that hands it over. -/
def drawOnce : List GraphicsAct :=
  [.vmode 1] ++ List.replicate 6 .exec ++ [.poll, .poll] ++
    (fifoCommands (fun _ _ => 0) (fun _ _ => 0)).map .queue ++ [.flush] ++
    List.replicate 30 .exec ++ [.poll, .poll, .vmode 0, .exec, .poll, .poll, .release]

set_option maxRecDepth 4000 in
theorem mainFifo_executes_once :
    ∃ t, Path GraphicsSys.Step (GraphicsSys.opened .zero zeroOpenEnv) drawOnce t ∧
      t.card.executed = onCommands ++ fifoCommands (fun _ _ => 0) (fun _ _ => 0) ++
        offCommands := by
  obtain ⟨t, ht, hpc⟩ : ∃ t,
      drawOnce.foldlM GraphicsSys.step (GraphicsSys.opened .zero zeroOpenEnv) = some t ∧
        t.pc = .closed := ⟨_, rfl, rfl⟩
  exact ⟨t, Path.of_foldlM ht, mainFifo_executes .zero zeroOpenEnv rfl _ _ drawOnce t
    (Path.of_foldlM ht) rfl hpc⟩

/-! ### The program ends -/

section Ending

variable {s t : GraphicsSys} {a c : GraphicsAct}

/-- The device is being released, or has been. -/
def Ended (s : GraphicsSys) : Prop := s.pc = .closed ∨ s.pc = .flushing .release

/-- A release, and only that, leads there, and nothing leads back. -/
theorem ended_step_iff (h : s.Step a t) : Ended t ↔ Ended s ∨ a = .release := by
  have huser : s.pc = .user → ¬Ended s := fun hpc hended => by
    rcases hended with hended | hended
    · cases hpc.symm.trans hended
    · cases hpc.symm.trans hended
  cases a with
  | queue entry =>
    obtain ⟨hpc, rfl⟩ := GraphicsSys.fromUser_eq_some h
    simp [Ended, hpc]
  | flush =>
    obtain ⟨hpc, rfl⟩ := GraphicsSys.fromUser_eq_some h
    simp [Ended, hpc]
  | vmode arg =>
    obtain ⟨hpc, rfl⟩ := GraphicsSys.fromUser_eq_some h
    unfold GraphicsSys.vmode
    split
    · simp [Ended, hpc]
    · simp [Ended, hpc]
  | release =>
    obtain ⟨-, rfl⟩ := GraphicsSys.fromUser_eq_some h
    unfold GraphicsSys.release
    split
    · simp [Ended]
    · simp [Ended]
  | poll =>
    obtain ⟨caller, hpc, ⟨-, rfl⟩ | ⟨-, rfl⟩⟩ := h.poll
    · simp [Ended, hpc]
    · cases caller <;> simp [Ended, hpc, FlushCaller.next]
  | exec =>
    obtain ⟨c, -, rfl⟩ := h.exec
    simp [Ended]

theorem ended_iff {as : List GraphicsAct} (h : Path GraphicsSys.Step s as t) :
    Ended t ↔ Ended s ∨ .release ∈ as := by
  induction h with
  | nil s => simp
  | @cons s m t a as hstep _ _ ih =>
    rw [ih, ended_step_iff hstep, List.mem_cons, or_assoc, eq_comm]

/-- The pointers stand where they do in every session. -/
def Sound (s : GraphicsSys) : Prop := s.InRing ∧ s.Quiet

theorem Sound.run {as : List GraphicsAct} (hs : Sound s) (h : Path GraphicsSys.Step s as t) :
    Sound t :=
  h.invariant Sound (fun _ _ _ hs hstep => ⟨hs.1.step hstep, hs.2.step hstep⟩) hs

/-- A flush can end without a call of the client. -/
theorem exists_flushed {caller : FlushCaller} (hs : Sound s) (hpc : s.pc = .flushing caller) :
    ∃ bs t, Path GraphicsSys.Step s bs t ∧ bs.filter isCall = [] ∧ t.pc = caller.next := by
  obtain ⟨n, m, u, -, -, hpath, hupc, hcache, -⟩ :=
    GraphicsSys.exists_last_round hs.1 hs.2 hpc
  have hlast := GraphicsSys.step_last_round hupc hcache
  refine ⟨_, _, hpath.append (Path.cons hlast (Path.nil _)), ?_, rfl⟩
  simp [isCall]

/-- Where the client is after a call. -/
def pcAfter : GraphicsAct → GraphicsPc
  | .release => .closed
  | _ => .user

/-- A call can be made, and is over or inside its flush. -/
theorem exists_made (hcall : isCall c = true) (hpc : s.pc = .user) :
    ∃ m, s.Step c m ∧
      (m.pc = pcAfter c ∨ ∃ caller, m.pc = .flushing caller ∧ caller.next = pcAfter c) := by
  have hstep : ∀ m, s.fromUser m = some m := fun m => by simp [GraphicsSys.fromUser, hpc]
  cases c with
  | queue entry => exact ⟨_, hstep _, .inl hpc⟩
  | flush => exact ⟨_, hstep _, .inr ⟨.ioctl, rfl, rfl⟩⟩
  | vmode arg =>
    refine ⟨_, hstep _, .inr ?_⟩
    unfold GraphicsSys.vmode
    split
    · exact ⟨.graphicsOff, rfl, rfl⟩
    · exact ⟨.graphicsOn, rfl, rfl⟩
  | release =>
    refine ⟨_, hstep _, ?_⟩
    unfold GraphicsSys.release
    split
    · exact .inr ⟨.release, rfl, rfl⟩
    · exact .inl rfl
  | _ => cases hcall

/-- And it can be brought to its end. -/
theorem exists_call (hs : Sound s) (hcall : isCall c = true) (hpc : s.pc = .user) :
    ∃ bs t, Path GraphicsSys.Step s bs t ∧ bs.filter isCall = [c] ∧ t.pc = pcAfter c := by
  obtain ⟨m, hstep, hm | ⟨caller, hm, hnext⟩⟩ := exists_made hcall hpc
  · exact ⟨[c], m, Path.cons hstep (Path.nil m), by simp [hcall], hm⟩
  · have hfirst : Path GraphicsSys.Step s [c] m := Path.cons hstep (Path.nil m)
    obtain ⟨bs, t, hpath, hbs, ht⟩ := exists_flushed (hs.run hfirst) hm
    exact ⟨_, t, hfirst.append hpath, by simp [hcall, hbs], ht.trans hnext⟩

/-- So can calls one after the other, up to a release. -/
theorem exists_calls (cs : List GraphicsAct) (hs : Sound s) (hpc : s.pc = .user)
    (hcalls : ∀ c ∈ cs, isCall c = true) (hrelease : .release ∉ cs) :
    ∃ bs t, Path GraphicsSys.Step s bs t ∧ bs.filter isCall = cs ++ [.release] ∧
      t.pc = .closed := by
  induction cs generalizing s with
  | nil => exact exists_call hs rfl hpc
  | cons c cs ih =>
    obtain ⟨hc, hcs⟩ := List.forall_mem_cons.mp hcalls
    rw [List.mem_cons, not_or] at hrelease
    obtain ⟨bs, m, hfirst, hbs, hm⟩ := exists_call hs hc hpc
    have hafter : pcAfter c = .user := by
      cases c with
      | release => exact absurd rfl hrelease.1
      | _ => rfl
    obtain ⟨bs', t, hrest, hbs', ht⟩ :=
      ih (hs.run hfirst) (hm.trans hafter) hcs hrelease.2
    refine ⟨_, t, hfirst.append hrest, ?_, ht⟩
    rw [List.filter_append, hbs, hbs']
    rfl

/-- From any state of a run whose calls are the first of some calls up to a release, the rest
can be made, and the device be closed. -/
theorem exists_rest {as rest cs : List GraphicsAct} (hs : Sound s) (hnew : ¬Ended s)
    (h : Path GraphicsSys.Step s as t) (hcalls : ∀ c ∈ cs, isCall c = true)
    (hrelease : .release ∉ cs) (hsofar : as.filter isCall ++ rest = cs ++ [.release]) :
    ∃ bs u, Path GraphicsSys.Step t bs u ∧ bs.filter isCall = rest ∧ u.pc = .closed := by
  have hended := ended_iff h
  have hsound := hs.run h
  rcases List.eq_nil_or_concat' rest with rfl | ⟨rest, last, rfl⟩
  · have hmem : .release ∈ as := by
      have hlast : .release ∈ cs ++ [.release] := List.mem_append_right _ List.mem_cons_self
      rw [← hsofar, List.append_nil] at hlast
      exact List.mem_of_mem_filter hlast
    rcases hended.mpr (.inr hmem) with hpc | hpc
    · exact ⟨[], t, Path.nil t, rfl, hpc⟩
    · exact exists_flushed hsound hpc
  · rw [← List.append_assoc] at hsofar
    obtain ⟨rfl, hlast⟩ := List.append_inj' hsofar rfl
    obtain rfl := List.singleton_inj.mp hlast
    have hnot : ¬Ended t := by
      rw [hended, not_or]
      refine ⟨hnew, fun hmem => hrelease ?_⟩
      exact List.mem_append_left _ (List.mem_filter.mpr ⟨hmem, rfl⟩)
    have hrest : ∀ c ∈ rest, isCall c = true := fun c hc =>
      hcalls c (List.mem_append_right _ hc)
    have hstays : .release ∉ rest := fun hmem => hrelease (List.mem_append_right _ hmem)
    cases hpc : t.pc with
    | user => exact exists_calls rest hsound hpc hrest hstays
    | flushing caller =>
      obtain ⟨bs, m, hfirst, hbs, hm⟩ := exists_flushed hsound hpc
      have huser : caller.next = .user := by
        cases caller with
        | release => exact absurd (.inr hpc) hnot
        | _ => rfl
      obtain ⟨bs', u, hsecond, hbs', hu⟩ :=
        exists_calls rest (hsound.run hfirst) (hm.trans huser) hrest hstays
      refine ⟨_, u, hfirst.append hsecond, ?_, hu⟩
      rw [List.filter_append, hbs, hbs', List.nil_append]
    | closed => exact absurd (.inl hpc) hnot

end Ending

/-- **The program comes to its end.** Whatever the triangle and wherever a run of the program has
got to, with calls made and the card and the loop of a flush at any point: the card and the
program can go on, the remaining calls be made and the device be closed. -/
theorem mainFifo_finishes (k : Kyouko3) (env : OpenEnv)
    (hstart : env.control (fifoHead >>> 2) = 0) (colors coordinates : Fin 3 → Fin 4 → ℕ)
    (as rest : List GraphicsAct) (s : GraphicsSys)
    (h : Path GraphicsSys.Step (GraphicsSys.opened k env) as s)
    (hcalls : as.filter isCall ++ rest = mainFifo colors coordinates) :
    ∃ bs t, Path GraphicsSys.Step s bs t ∧ bs.filter isCall = rest ∧ t.pc = .closed := by
  have hsound : Sound (GraphicsSys.opened k env) :=
    ⟨GraphicsSys.inRing_opened k env, GraphicsSys.quiet_opened k hstart⟩
  have hnew : ¬Ended (GraphicsSys.opened k env) := fun hended => by
    rcases hended with hended | hended
    · cases hended
    · cases hended
  let drawing : List GraphicsAct :=
    [.vmode 1] ++ (fifoCommands colors coordinates).map .queue ++ [.flush] ++ [.vmode 0]
  have hprogram : mainFifo colors coordinates = drawing ++ [.release] := by
    simp [mainFifo, drawing]
  have hcall : ∀ c ∈ drawing, isCall c = true ∧ c ≠ .release := by
    intro c hc
    simp only [drawing, List.mem_append, List.mem_map, List.mem_singleton] at hc
    rcases hc with ((rfl | ⟨e, -, rfl⟩) | rfl) | rfl <;> exact ⟨rfl, nofun⟩
  exact exists_rest hsound hnew h (fun c hc => (hcall c hc).1)
    (fun hmem => (hcall _ hmem).2 rfl) (hcalls.trans hprogram)

/-- From the middle of the first flush. -/
theorem mainFifo_finishes_flushing :
    ∃ bs t, Path GraphicsSys.Step ((GraphicsSys.opened .zero zeroOpenEnv).vmode 1) bs t ∧
      bs.filter isCall = (mainFifo (fun _ _ => 0) fun _ _ => 0).tail ∧ t.pc = .closed :=
  mainFifo_finishes .zero zeroOpenEnv rfl _ _ [.vmode 1] _ _ (Path.cons rfl (Path.nil _)) rfl

end OsProjects.User
