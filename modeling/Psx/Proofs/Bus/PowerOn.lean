import Psx.Proofs.Dma.Pacing

/-!
# What a reset goes by

A chip is reset to what it was built as, and it goes by itself for that: a timer by its number, the
controller by its gap, the video port by the size of its queue and the standard it was built for. No
register holds any of these, so whatever is done with the board, a reset brings about the same
(`Board.Remembers`, `Board.remembers_invariant`).

The chips are reset in the order of their registration. The timers forget the length of a dot, and the
video port, which comes last, tells it to them.
-/

namespace Psx

/-! ### Timers -/

namespace Timer.Channel

variable (c : Channel)

theorem count_id (n : Nat) : (c.count n).2.id = c.id := by
  obtain ⟨_, _, _, _, _, e⟩ := c.count_frame n
  rw [e]

theorem advance_id (n : Nat) (d : UInt32) : (c.advance n d).2.id = c.id := by
  obtain ⟨p, e⟩ := c.ticks_frame n d
  show ((c.ticks n d).2.count (c.ticks n d).1).2.id = c.id
  rw [count_id, e]

theorem blankBegin_id : c.blankBegin.id = c.id := by
  unfold blankBegin
  dsimp only
  split
  · rfl
  · split
    · rfl
    · split <;> rfl

/-- A timer is reset to the timer of its number. -/
theorem reset_of_id {c c' : Channel} (h : c.id = c'.id) : c.reset = c'.reset := by
  unfold reset
  rw [h]

end Timer.Channel

namespace Timers

open Timer

variable (t : Timers)

theorem reset_of_ids {t t' : Timers}
    (h : ∀ i : Fin 3, (t.channels.get i).id = (t'.channels.get i).id) : t.reset = t'.reset := by
  refine congrArg (Timers.mk · 8) (Vector.ext fun i hi => ?_)
  rw [Vector.getElem_map, Vector.getElem_map]
  exact Channel.reset_of_id (h ⟨i, hi⟩)

theorem reset_modify {i : Fin 3} {f : Channel → Channel}
    (hf : (f (t.channels.get i)).id = (t.channels.get i).id) :
    (t.modify i f).reset = t.reset := by
  refine reset_of_ids fun j => ?_
  rw [channel_modify]
  split_ifs with h
  · rw [h, hf]
  · rfl

theorem reset_reset : t.reset.reset = t.reset := by
  refine reset_of_ids fun i => ?_
  show (t.channels.map Channel.reset)[i.val].id = t.channels[i.val].id
  rw [Vector.getElem_map]
  rfl

theorem reset_advance (n : Nat) : (t.advance n).2.reset = t.reset :=
  reset_of_ids fun i => by rw [advance_channel, Channel.advance_id]

theorem reset_hblankBegin : t.hblankBegin.2.reset = t.reset := by
  have hblank : (t.modify 0 Channel.blankBegin).reset = t.reset :=
    t.reset_modify (Channel.blankBegin_id _)
  unfold hblankBegin
  dsimp only
  split
  · exact (reset_modify _ (Channel.count_id ..)).trans hblank
  · exact hblank

theorem reset_read (offset : UInt32) (w : Width) : (t.read offset w).2.reset = t.reset := by
  unfold read
  split
  · rfl
  · dsimp only
    split
    · rfl
    · exact t.reset_modify rfl
    · rfl
    · rfl

theorem reset_write (offset : UInt32) (w : Width) (value : UInt32) :
    (t.write offset w value).reset = t.reset := by
  unfold write
  split
  · rfl
  · refine t.reset_modify ?_
    split <;> rfl

end Timers

namespace Lines

variable (l : Lines)

theorem timers_reset_deliver (s : Signal) : (l.deliver s).timers.reset = l.timers.reset := by
  cases s with
  | raise i => rfl
  | hblankBegin =>
    unfold deliver
    simp only [raiseAll_timers]
    exact l.timers.reset_hblankBegin
  | hblankEnd => exact l.timers.reset_modify rfl
  | vblankBegin => exact l.timers.reset_modify (Timer.Channel.blankBegin_id _)
  | vblankEnd => exact l.timers.reset_modify rfl
  | dotClock divider => rfl

theorem timers_reset_deliverAll (signals : List Signal) :
    (l.deliverAll signals).timers.reset = l.timers.reset := by
  induction signals generalizing l with
  | nil => rfl
  | cons s signals ih => exact (ih (l.deliver s)).trans (l.timers_reset_deliver s)

theorem timers_reset_advance (cycles : Nat) :
    (l.advance cycles).timers.reset = l.timers.reset := by
  unfold advance
  simp only [raiseAll_timers]
  exact l.timers.reset_advance cycles

end Lines

/-! ### The video port -/

namespace Gpu

variable (g : Gpu)

/-- The queue holds at least one word anyway. -/
theorem initial_max (capacity : Nat) (standard : VideoStandard) :
    initial (max capacity 1) standard = initial capacity standard := by
  unfold initial CommandQueue.empty
  rw [show max (max capacity 1) 1 = max capacity 1 by omega]

theorem reset_reset : g.reset.2.reset = g.reset :=
  congrArg (fun g : Gpu => (g.dotClock, g)) (initial_max ..)

theorem reset_execute (opcode : UInt8) (word : UInt32) :
    (g.execute opcode word).2.reset = g.reset := by
  unfold execute
  split
  · split <;> rfl
  all_goals rfl

theorem reset_writeGp0 (word : UInt32) : (g.writeGp0 word).2.reset = g.reset := by
  have hpush : ({ g with queue := g.queue.push word } : Gpu).reset = g.reset := by
    unfold reset
    rw [CommandQueue.push_capacity]
  refine Eq.trans ?_ hpush
  unfold writeGp0 frame
  dsimp only
  split
  · rfl
  · exact reset_execute ..
  · rfl

theorem reset_writeGp1 (value : UInt32) : (g.writeGp1 value).2.reset = g.reset := by
  unfold writeGp1
  split
  all_goals first | rfl | (split <;> rfl)

theorem reset_write (offset value : UInt32) : (g.write offset value).2.reset = g.reset := by
  unfold write
  split
  · exact g.reset_writeGp0 value
  · exact g.reset_writeGp1 value

theorem reset_readLatch : g.readLatch.2.reset = g.reset := by
  unfold readLatch
  split <;> rfl

theorem reset_read (offset : UInt32) (w : Width) : (g.read offset w).2.reset = g.reset := by
  unfold read
  split
  · exact g.reset_readLatch
  · rfl

end Gpu

/-! ### The board -/

variable {δ : Type}

namespace Board

variable {config : SessionConfig} {b b' : Board δ}

/-- The chips of the board are reset to what the configuration asks for. -/
structure Remembers (config : SessionConfig) (b : Board δ) : Prop where
  timers : b.lines.timers.reset = {}
  dma : b.dma.reset = .initial config.dma.sliceGapCycles
  gpu : b.gpu.reset.2 = .initial config.gpuFifoCapacity config.video

namespace Remembers

theorem of_eq (h : b.Remembers config) (ht : b'.lines.timers.reset = b.lines.timers.reset)
    (hd : b'.dma.sliceGap = b.dma.sliceGap) (hg : b'.gpu.reset = b.gpu.reset) :
    b'.Remembers config where
  timers := ht.trans h.timers
  dma := (congrArg (fun gap => ({ sliceGap := gap } : Dma)) hd).trans h.dma
  gpu := (congrArg (·.2) hg).trans h.gpu

theorem withGpu (h : b.Remembers config) (signals : List Signal) {g : Gpu}
    (hg : g.reset = b.gpu.reset) : (b.withGpu signals g).Remembers config :=
  h.of_eq (b.lines.timers_reset_deliverAll signals) rfl hg

theorem withDma (h : b.Remembers config) (asks : Bool) {dma : Dma}
    (hd : dma.sliceGap = b.dma.sliceGap) : (b.withDma asks dma).Remembers config :=
  h.of_eq (by cases asks <;> rfl) hd rfl

theorem withExternal (h : b.Remembers config) (i : Nat) (e : External δ) (signals : List Signal)
    (device : δ) : (b.withExternal i e signals device).Remembers config := by
  refine h.of_eq ?_ rfl rfl
  unfold Board.withExternal
  dsimp only
  split
  · exact b.lines.timers_reset_deliverAll signals
  · rfl

end Remembers

/-- A board is built as its configuration asks, and so it is reset. -/
theorem remembers_ofConfig (config : SessionConfig) :
    (ofConfig config : Board δ).Remembers config where
  timers := by
    have hreset : ({} : Timers).reset = {} := by decide +kernel
    exact (Lines.timers_reset_deliverAll _ _).trans hreset
  dma := rfl
  gpu := Gpu.initial_max ..

variable [Device δ]

theorem remembers_invariant : Invariant (δ := δ) (fun _ => True) (Remembers config) where
  read {b p} h _ offset w := by
    cases p with
    | timers => exact h.of_eq (b.lines.timers.reset_read offset w) rfl rfl
    | gpu => exact h.of_eq rfl rfl (b.gpu.reset_read offset w)
    | «external» i => unfold read; dsimp only; split; exacts [h, h.withExternal ..]
    | _ => exact h
  write {b p} h _ offset w value := by
    cases p with
    | timers => exact h.of_eq (b.lines.timers.reset_write offset w value) rfl rfl
    | dma => exact h.withDma _ (b.dma.sliceGap_write offset w value)
    | gpu => exact h.withGpu _ (b.gpu.reset_write offset value)
    | «external» i => unfold write; dsimp only; split; exacts [h, h.withExternal ..]
    | _ => exact h.of_eq rfl rfl rfl
  consume {b p} h _ channel word := by
    cases p with
    | gpu => exact h.withGpu _ (b.gpu.reset_writeGp0 word)
    | «external» i => unfold consume; dsimp only; split; exacts [h, h.withExternal ..]
    | _ => exact h
  produce {b p} h _ channel := by
    cases p with
    | gpu => exact h.of_eq rfl rfl b.gpu.reset_readLatch
    | «external» i => unfold produce; dsimp only; split; exacts [h, h.withExternal ..]
    | _ => exact h
  advance {b p} h _ cycles := by
    cases p with
    | timers => exact h.of_eq (b.lines.timers_reset_advance cycles) rfl rfl
    | gpu => exact h.withGpu _ rfl
    | «external» i => unfold advance; dsimp only; split; exacts [h, h.withExternal ..]
    | _ => exact h

theorem Remembers.reset (h : b.Remembers config) (p : Part) : (b.reset p).Remembers config := by
  cases p with
  | timers => exact h.of_eq b.lines.timers.reset_reset rfl rfl
  | dma => exact h.of_eq rfl rfl rfl
  | gpu => exact h.withGpu _ b.gpu.reset_reset
  | «external» i => unfold Board.reset; dsimp only; split; exacts [h, h.withExternal ..]
  | _ => exact h.of_eq rfl rfl rfl

end Board

theorem Bus.Within.runSlice_remembers {config : SessionConfig} [Device δ] {b : Bus δ}
    (h : b.Within (fun _ => True) (Board.Remembers config)) :
    b.runSlice.2.Within (fun _ => True) (Board.Remembers config) :=
  h.runSlice_gap Board.remembers_invariant fun _ hb asks _ e => hb.withDma asks e

end Psx
