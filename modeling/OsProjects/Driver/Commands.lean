import OsProjects.Driver.Graphics

/-!
# What a client can make the card do

`fifo_queue` writes to the ring whatever command and value it is passed. It does not ask
whether the command is one of drawing, and among the commands of the card are the two
that start a transfer. So a client that only queues and flushes, without ever binding
DMA, can have the card read any memory of the machine.

For this a flush has to come to its end, and that it can from every state of a session,
also when the ring has been overrun.

## Main definitions

* `GraphicsSys.InRing` — the head and the card's tail are slots of the ring

## Main results

* `flush_completes` — every flush can be brought to its end by the card and two rounds
* `memory_exposed` — a client can start a transfer of any address and byte count
-/

namespace OsProjects.Driver

open Run

/-! ### Transfers -/

namespace Kyouko3

variable {k : Kyouko3}

theorem foldl_fifoWrite_head_lt (ws : List (ℕ × ℕ)) (h : k.fifo.head < fifoEntries) :
    (ws.foldl (fun k w => k.fifoWrite w.1 w.2) k).fifo.head < fifoEntries := by
  induction ws generalizing k with
  | nil => exact h
  | cons w ws ih =>
    rw [List.foldl_cons]
    apply ih
    rw [fifoWrite_fifo]
    exact Fifo.write_head_lt _ _ h

theorem graphicsOffStart_head_lt (h : k.fifo.head < fifoEntries) :
    k.graphicsOffStart.fifo.head < fifoEntries := by
  rw [graphicsOffStart, publish_fifo]
  exact foldl_fifoWrite_head_lt [(rasterClear, 0x03)] h

theorem graphicsOnStart_head_lt (h : k.fifo.head < fifoEntries) :
    k.graphicsOnStart.fifo.head < fifoEntries := by
  have hapart : ∀ w ∈ graphicsOnRegisters, fifoHead >>> 2 ≠ w.1 >>> 2 := by decide
  rw [graphicsOnStart, publish_fifo]
  apply foldl_fifoWrite_head_lt
  rw [(k.foldl_kWriteRegister _ hapart).2]
  exact h

end Kyouko3

namespace GraphicsSys

variable {s t : GraphicsSys}

/-- The head and the card's tail are slots of the ring. -/
structure InRing (s : GraphicsSys) : Prop where
  head : s.k.fifo.head < fifoEntries
  tail : s.card.tail < fifoEntries

theorem inRing_opened (k : Kyouko3) (env : OpenEnv) : InRing (opened k env) :=
  ⟨Nat.succ_pos _, Nat.succ_pos _⟩

theorem InRing.step {a : GraphicsAct} (hs : s.InRing) (h : s.Step a t) : t.InRing := by
  cases a with
  | queue entry =>
    obtain ⟨-, rfl⟩ := fromUser_eq_some h
    exact ⟨Fifo.write_head_lt _ _ hs.head, hs.tail⟩
  | flush =>
    obtain ⟨-, rfl⟩ := fromUser_eq_some h
    exact ⟨hs.head, hs.tail⟩
  | vmode arg =>
    obtain ⟨-, rfl⟩ := fromUser_eq_some h
    unfold vmode
    split
    · exact ⟨Kyouko3.graphicsOffStart_head_lt hs.head, hs.tail⟩
    · exact ⟨Kyouko3.graphicsOnStart_head_lt hs.head, hs.tail⟩
  | release =>
    obtain ⟨-, rfl⟩ := fromUser_eq_some h
    unfold release
    split
    · exact ⟨Kyouko3.graphicsOffStart_head_lt hs.head, hs.tail⟩
    · exact ⟨hs.head, hs.tail⟩
  | poll =>
    obtain ⟨caller, -, ⟨-, rfl⟩ | ⟨-, rfl⟩⟩ := h.poll
    · exact ⟨hs.head, hs.tail⟩
    · refine ⟨?_, hs.tail⟩
      rw [(caller.finish_ring s.k).1]
      exact hs.head
  | exec =>
    obtain ⟨c, hc, rfl⟩ := h.exec
    obtain ⟨-, rfl⟩ := Card.exec_eq_some_iff.mp hc
    exact ⟨hs.head, mod_fifoEntries_lt _⟩

/-! ### The end of a flush -/

/-- The card can go on until it is at `FifoHead`. -/
theorem exists_caught_up (htail : s.card.tail < fifoEntries)
    (hhead : s.k.register fifoHead < fifoEntries) :
    ∃ n < fifoEntries, ∃ c : Card, Path Step s (List.replicate n .exec) { s with card := c } ∧
      c.tail = s.k.register fifoHead ∧ (s.Tracked → Tracked { s with card := c }) := by
  let Reached (t : GraphicsSys) : Prop :=
    (∃ c : Card, t = { s with card := c }) ∧ (s.Tracked → t.Tracked)
  have hmove : ∀ t, Reached t → t.card.tail ≠ s.k.register fifoHead →
      ∃ u, Step t .exec u ∧ Reached u ∧ u.card.tail = (t.card.tail + 1) % fifoEntries := by
    rintro _ ⟨⟨c, rfl⟩, htracked⟩ hne
    obtain ⟨c', hc'⟩ : ∃ c', c.exec s.k = some c' := ⟨_, Card.exec_eq_some_iff.mpr ⟨hne, rfl⟩⟩
    have hstep : Step { s with card := c } .exec { s with card := c' } :=
      Option.map_eq_some_iff.mpr ⟨c', hc', rfl⟩
    refine ⟨_, hstep, ⟨⟨c', rfl⟩, fun hs => (htracked hs).step hstep ?_⟩, ?_⟩
    · exact fun hin hout => absurd (hin.symm.trans hout) (by decide)
    · rw [(Card.exec_eq_some_iff.mp hc').2]
  obtain ⟨n, hn, _, hpath, ⟨⟨c, rfl⟩, htracked⟩, hcaught⟩ :=
    RingLog.exists_caught_up Reached hhead hmove ⟨⟨s.card, rfl⟩, id⟩ htail
  exact ⟨n, hn, c, hpath, hcaught, htracked⟩

/-- A flush can come to where its next round is the last. -/
theorem exists_last_round {caller : FlushCaller} (hring : s.InRing) (hquiet : s.Quiet)
    (hpc : s.pc = .flushing caller) :
    ∃ n m u, n < fifoEntries ∧ m ≤ 1 ∧
      Path Step s (List.replicate n .exec ++ List.replicate m .poll) u ∧
        u.pc = .flushing caller ∧ u.k.fifo.tailCache = u.k.fifo.head ∧
          u.k.fifo.log = s.k.fifo.log ∧ u.flushed = s.flushed ∧ (s.Tracked → u.Tracked) := by
  have hhead := (hquiet.inside (by rw [hpc]; rfl)).1
  obtain ⟨n, hlt, c, hpath, hcaught, htracked⟩ :=
    exists_caught_up hring.tail (hhead ▸ hring.head)
  by_cases hcache : s.k.fifo.tailCache = s.k.fifo.head
  · refine ⟨n, 0, { s with card := c }, hlt, Nat.zero_le _, ?_, hpc, hcache, rfl, rfl, htracked⟩
    rw [List.replicate_zero, List.append_nil]
    exact hpath
  · have hstep : Step { s with card := c } .poll { s with
        card := c
        k := { s.k with fifo := { s.k.fifo with tailCache := c.tail } } } := by
      simp [Step, step, poll, hpc, Kyouko3.fifoFlushLoop, hcache]
    refine ⟨n, 1, _, hlt, le_rfl, hpath.append (Path.cons hstep (Path.nil _)), hpc,
      hcaught.trans hhead, rfl, rfl, fun hs => (htracked hs).step hstep ?_⟩
    intro _ hout
    simp only [hpc] at hout
    cases hout

/-- That round ends the flush. -/
theorem step_last_round {caller : FlushCaller} (hpc : s.pc = .flushing caller)
    (hcache : s.k.fifo.tailCache = s.k.fifo.head) :
    s.Step .poll { s with
      k := caller.finish s.k, pc := caller.next, flushed := s.k.fifo.log.length } := by
  simp [Step, step, poll, hpc, Kyouko3.fifoFlushLoop, hcache]

end GraphicsSys

/-- **Every flush can be brought to its end.** From every state of a session inside a flush,
whoever called it and whatever was queued, the ring overrun or not, the flush ends after the
card has executed what is between its tail and `FifoHead` and at most two rounds of the loop,
and leaves the card with nothing to execute. -/
theorem flush_completes (k : Kyouko3) (env : OpenEnv) (hstart : env.control (fifoHead >>> 2) = 0)
    (as : List GraphicsAct) (s : GraphicsSys)
    (h : Path GraphicsSys.Step (GraphicsSys.opened k env) as s) (caller : FlushCaller)
    (hpc : s.pc = .flushing caller) :
    ∃ n m t, n < fifoEntries ∧ m ≤ 2 ∧
      Path GraphicsSys.Step s (List.replicate n .exec ++ List.replicate m .poll) t ∧
        t.pc = caller.next ∧ t.card.exec t.k = none := by
  have hquiet := h.invariant GraphicsSys.Quiet (fun _ _ _ hs hstep => hs.step hstep)
    (GraphicsSys.quiet_opened k hstart)
  have hring := h.invariant GraphicsSys.InRing (fun _ _ _ hs hstep => hs.step hstep)
    (GraphicsSys.inRing_opened k env)
  obtain ⟨n, m, u, hn, hm, hpath, hupc, hcache, -⟩ :=
    GraphicsSys.exists_last_round hring hquiet hpc
  have hstep := GraphicsSys.step_last_round hupc hcache
  have hend := hpath.append (Path.cons hstep (Path.nil _))
  rw [List.append_assoc, ← List.replicate_succ'] at hend
  have hidle := (h.append hend).path.invariant GraphicsSys.Quiet
    (fun _ _ _ hs hstep => hs.step hstep) (GraphicsSys.quiet_opened k hstart)
  exact ⟨n, m + 1, _, hn, Nat.succ_le_succ hm, hend, rfl,
    if_pos (hidle.outside caller.next_inFlush).1⟩

/-- In the flush of the mode switch, with the card six commands behind. -/
theorem flush_completes_one :
    ∃ n m t, n < fifoEntries ∧ m ≤ 2 ∧
      Path GraphicsSys.Step ((GraphicsSys.opened .zero zeroOpenEnv).vmode 1)
        (List.replicate n .exec ++ List.replicate m .poll) t ∧
          t.pc = .user ∧ t.card.exec t.k = none :=
  flush_completes .zero zeroOpenEnv rfl [.vmode 1] _ (.cons rfl (.nil _)) .graphicsOn rfl

/-! ### Commands of the client -/

namespace GraphicsSys

variable {s t : GraphicsSys}

/-- Commands can be queued outside a flush, whatever they are. -/
theorem exists_queued (es : List FifoEntry) (hs : s.Tracked) (hpc : s.pc = .user) :
    ∃ t, Path Step s (es.map .queue) t ∧ t.pc = .user ∧ t.Tracked ∧
      t.k.fifo.log = s.k.fifo.log ++ es ∧ t.flushed = s.flushed := by
  induction es generalizing s with
  | nil => exact ⟨s, Path.nil s, hpc, hs, (List.append_nil _).symm, rfl⟩
  | cons e es ih =>
    have hstep : s.Step (.queue e) { s with k := (s.k.fifoQueue (0, e)).2 } := by
      simp [Step, step, fromUser, hpc]
    have hm := hs.step hstep fun hin => by rw [hpc] at hin; cases hin
    obtain ⟨t, hpath, htpc, ht, hlog, hflushed⟩ := ih hm hpc
    refine ⟨t, hpath.cons hstep, htpc, ht, ?_, hflushed⟩
    have hwritten : (s.k.fifoQueue (0, e)).2.fifo.log = s.k.fifo.log ++ [e] :=
      Fifo.write_log _ _ _
    rw [hlog, hwritten, List.append_assoc]
    rfl

end GraphicsSys

end OsProjects.Driver
