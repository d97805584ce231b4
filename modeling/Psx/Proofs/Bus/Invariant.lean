import Psx.Proofs.Bus.Core
import Psx.Proofs.Bus.Frame
import Psx.Proofs.Dma.Progress
import Psx.Proofs.Gpu.Port

/-!
# Invariants of the board

A property of the board that every part keeps (`Board.Invariant`) holds on the bus whatever is
accessed and however long one waits. Which parts are asked is a parameter, as some properties need
that the devices from outside behave.

Two properties are of this kind. `Board.Sound`: transfers in flight have something left to move and
the beam lies inside the frame; it holds whatever is attached. `Board.InStep`: the timers know the
length of a dot; it needs that no attached device drives the dot clock (`Part.Discreet`).
-/

namespace Psx

variable {δ : Type} [Device δ]

/-- What some parts keep of the board. -/
structure Board.Invariant (parts : Part → Prop) (P : Board δ → Prop) : Prop where
  read : ∀ {b p}, P b → parts p → ∀ offset w, P (b.read p offset w).2
  write : ∀ {b p}, P b → parts p → ∀ offset w value, P (b.write p offset w value)
  consume : ∀ {b p}, P b → parts p → ∀ channel word, P (b.consume p channel word)
  produce : ∀ {b p}, P b → parts p → ∀ channel, P (b.produce p channel).2
  advance : ∀ {b p}, P b → parts p → ∀ cycles, P (b.advance cycles p)

namespace Bus

/-- The property holds and all registered parts keep it. -/
structure Within (parts : Part → Prop) (P : Board δ → Prop) (b : Bus δ) : Prop where
  parts : ∀ p ∈ b.parts, parts p
  board : P b.board

variable {parts : Part → Prop} {P : Board δ → Prop} {b : Bus δ}

omit [Device δ] in
theorem Within.of_eq {b' : Bus δ} (h : b.Within parts P) (ht : b'.table = b.table)
    (hb : b'.board = b.board) : b'.Within parts P :=
  ⟨by rw [show b'.parts = b.parts by unfold Bus.parts; rw [ht]]; exact h.parts,
    by rw [hb]; exact h.board⟩

omit [Device δ] in
theorem Within.eachPart (h : b.Within parts P) {f : Board δ → Part → Board δ}
    (hf : ∀ b p, P b → parts p → P (f b p)) : (b.eachPart f).Within parts P := by
  refine ⟨h.parts, ?_⟩
  rw [eachPart_eq]
  have hp := h.parts
  have hb := h.board
  revert hp hb
  generalize b.board = board
  generalize b.parts = ps
  intro hp hb
  induction ps generalizing board with
  | nil => exact hb
  | cons p ps ih =>
    exact ih _ (fun q hq => hp q (List.mem_cons_of_mem p hq))
      (hf board p hb (hp p List.mem_cons_self))

variable (inv : Board.Invariant parts P)

include inv

theorem Within.readDevice (h : b.Within parts P) (physical : UInt32) (w : Width) :
    (b.readDevice physical w).2.Within parts P := by
  unfold Bus.readDevice
  split
  · exact h
  · rename_i part offset hl
    exact ⟨h.parts, inv.read h.board (h.parts part (mem_parts_of_lookup? hl)) ..⟩

theorem Within.writeDevice (h : b.Within parts P) (physical : UInt32) (w : Width)
    (value : UInt32) : (b.writeDevice physical w value).Within parts P := by
  unfold Bus.writeDevice
  split
  · exact h
  · rename_i part offset hl
    exact ⟨h.parts, inv.write h.board (h.parts part (mem_parts_of_lookup? hl)) ..⟩

theorem Within.read (h : b.Within parts P) (address : UInt32) (w : Width) :
    (b.read address w).2.Within parts P := by
  unfold Bus.read
  dsimp only
  split <;> first | exact h | exact h.readDevice inv ..

theorem Within.write (h : b.Within parts P) (address : UInt32) (w : Width) (value : UInt32) :
    (b.write address w value).Within parts P := by
  unfold Bus.write
  dsimp only
  split <;> first | exact h.writeDevice inv .. | exact h.of_eq rfl rfl

theorem Within.dmaConsume (h : b.Within parts P) (channel : Nat) (word : UInt32) :
    (b.dmaConsume channel word).Within parts P := by
  unfold Bus.dmaConsume
  split
  · exact h
  · rename_i part hl
    exact ⟨h.parts, inv.consume h.board (h.parts part (mem_parts_of_served? hl)) ..⟩

theorem Within.dmaProduce (h : b.Within parts P) (channel : Nat) :
    (b.dmaProduce channel).2.Within parts P := by
  unfold Bus.dmaProduce
  split
  · exact h
  · rename_i part hl
    exact ⟨h.parts, inv.produce h.board (h.parts part (mem_parts_of_served? hl)) ..⟩

theorem Within.advance (h : b.Within parts P) (cycles : Nat) :
    (b.advance cycles).Within parts P := by
  unfold Bus.advance
  split
  · exact h
  · exact h.eachPart fun _ _ hb hp => inv.advance hb hp cycles

/-- The relation of a bus with itself, for the facts about transfers. -/
theorem Within.mover : Mover fun a b : Bus δ => a = b ∧ a.Within parts P :=
  .of_kept (fun _ h => h.read inv) (fun _ h => h.write inv) (fun _ h => h.dmaConsume inv)
    (fun _ h => h.dmaProduce inv)

theorem Within.moveSlice (h : b.Within parts P) (channel : Fin 7) (c : Dma.Channel)
    (p : Dma.Progress) : (b.moveSlice channel c p).2.2.2.Within parts P := by
  obtain ⟨_, _, _, a', b', ea, eb, -, hw⟩ := (mover inv).moveSlice ⟨rfl, h⟩ channel c p
  rw [ea]; exact hw

/-- What does not depend on the controller is kept by a slice. -/
theorem Within.runSlice (h : b.Within parts P)
    (withDma : ∀ b : Board δ, P b → ∀ asks dma, P (b.withDma asks dma)) :
    b.runSlice.2.Within parts P :=
  ((mover inv).runSlice ⟨rfl, h⟩ rfl (fun h => by rw [h.1]) fun h asks dma =>
    ⟨by rw [h.1], h.2.parts, withDma _ h.2.board asks dma⟩).2.2

end Bus

/-! ### The controller -/

namespace Board

/-- No part but the controller touches its registers. -/
theorem dma_invariant {K : Dma → Prop}
    (hwrite : ∀ {d : Dma}, K d → ∀ offset w value, K (d.write offset w value).2) :
    Invariant (δ := δ) (fun _ => True) fun b => K b.dma where
  read {b p} h _ offset w := by
    cases p with
    | «external» i => unfold read; dsimp only; split <;> exact h
    | _ => exact h
  write {b p} h _ offset w value := by
    cases p with
    | dma => exact hwrite h offset w value
    | «external» i => unfold write; dsimp only; split <;> exact h
    | _ => exact h
  consume {b p} h _ channel word := by
    cases p with
    | «external» i => unfold consume; dsimp only; split <;> exact h
    | _ => exact h
  produce {b p} h _ channel := by
    cases p with
    | «external» i => unfold produce; dsimp only; split <;> exact h
    | _ => exact h
  advance {b p} h _ cycles := by
    cases p with
    | «external» i => unfold advance; dsimp only; split <;> exact h
    | _ => exact h

theorem dma_reset {K : Dma → Prop} (hreset : ∀ {d : Dma}, K d → K d.reset) {b : Board δ}
    (h : K b.dma) (p : Part) : K (b.reset p).dma := by
  cases p with
  | dma => exact hreset h
  | «external» i => unfold Board.reset; dsimp only; split <;> exact h
  | _ => exact h

end Board

/-! ### Transfers and the beam -/

namespace Board

/-- Transfers in flight have something left and the beam is inside the frame. -/
structure Sound (b : Board δ) : Prop where
  dma : b.dma.Sound
  beam : b.gpu.beam.InFrame

omit [Device δ] in
theorem Sound.of_eq {b b' : Board δ} (h : b.Sound) (hd : b'.dma = b.dma)
    (hg : b'.gpu.beam = b.gpu.beam) : b'.Sound := ⟨hd ▸ h.dma, hg ▸ h.beam⟩

theorem sound_invariant : Invariant (δ := δ) (fun _ => True) Sound where
  read {b p} h _ offset w := by
    cases p with
    | gpu => exact h.of_eq rfl (b.gpu.read_beam offset w)
    | «external» i => unfold read; dsimp only; split <;> exact h.of_eq rfl rfl
    | _ => exact h.of_eq rfl rfl
  write {b p} h _ offset w value := by
    cases p with
    | dma => exact ⟨Dma.Sound.write h.dma offset w value, h.beam⟩
    | gpu => exact ⟨h.dma, (Gpu.drives_write b.gpu offset value).beam h.beam⟩
    | «external» i => unfold write; dsimp only; split <;> exact h.of_eq rfl rfl
    | _ => exact h.of_eq rfl rfl
  consume {b p} h _ channel word := by
    cases p with
    | gpu => exact ⟨h.dma, (Gpu.drives_writeGp0 b.gpu word).beam h.beam⟩
    | «external» i => unfold consume; dsimp only; split <;> exact h.of_eq rfl rfl
    | _ => exact h
  produce {b p} h _ channel := by
    cases p with
    | gpu => exact h.of_eq rfl b.gpu.readLatch_beam
    | «external» i => unfold produce; dsimp only; split <;> exact h.of_eq rfl rfl
    | _ => exact h
  advance {b p} h _ cycles := by
    cases p with
    | gpu => exact ⟨h.dma, (Gpu.drives_advance b.gpu cycles).beam h.beam⟩
    | «external» i => unfold advance; dsimp only; split <;> exact h.of_eq rfl rfl
    | _ => exact h.of_eq rfl rfl

theorem Sound.reset {b : Board δ} (h : b.Sound) (p : Part) : (b.reset p).Sound := by
  cases p with
  | dma => exact ⟨Dma.reset_sound _, h.beam⟩
  | gpu => exact ⟨h.dma, (Gpu.drives_reset b.gpu).beam h.beam⟩
  | «external» i => unfold Board.reset; dsimp only; split <;> exact h.of_eq rfl rfl
  | _ => exact h.of_eq rfl rfl

end Board

namespace Bus

/-- A slice that is not the last leaves something to move. -/
theorem moveSlice_sound (b : Bus δ) (channel : Fin 7) (c : Dma.Channel) {p : Dma.Progress}
    (hp : p.Sound) (hn : (b.moveSlice channel c p).2.1 = false) :
    c.progress = some p → (b.moveSlice channel c p).2.2.1.Sound := by
  intro hc
  cases p with
  | blocks wordsLeft blocksLeft => exact Dma.Channel.Sound.afterChunk _ hp.2 hn
  | linkedList => exact fun p h => by cases h.symm.trans hc; trivial
  | orderingTable entries => cases hn

/-- Transfers stay sound slice by slice. -/
theorem Within.runSlice_sound {b : Bus δ} (h : b.Within (fun _ => True) Board.Sound) :
    b.runSlice.2.Within (fun _ => True) Board.Sound := by
  unfold Bus.runSlice
  split
  · exact h
  · rename_i channel _
    dsimp only
    split
    · exact h
    · rename_i progress hp
      have hw := h.moveSlice Board.sound_invariant channel (b.board.dma.channel channel) progress
      have hc := b.moveSlice_sound channel (b.board.dma.channel channel)
        (h.board.dma channel progress hp)
      revert hw hc
      obtain ⟨words, completed, c, b'⟩ :=
        b.moveSlice channel (b.board.dma.channel channel) progress
      intro hw hc
      refine ⟨fun _ _ => trivial, ?_, hw.board.beam⟩
      cases completed with
      | true =>
        refine Dma.Sound.complete fun j hj => ?_
        rw [Dma.channel_modify, if_neg hj]
        exact hw.board.dma j
      | false => exact hw.board.dma.modify channel (hc rfl hp)

end Bus

/-! ### The length of a dot -/

/-- No device from outside ever drives the dot clock. -/
structure Device.Discreet (δ : Type) [Device δ] : Prop where
  write : ∀ (d : δ) offset w value, ∀ s ∈ (Device.write d offset w value).1, s.isDot = false
  consume : ∀ (d : δ) channel word, ∀ s ∈ (Device.consume d channel word).1, s.isDot = false
  advance : ∀ (d : δ) cycles, ∀ s ∈ (Device.advance d cycles).1, s.isDot = false

/-- A chip of the core, or a device that never drives the dot clock. -/
def Part.Discreet (δ : Type) [Device δ] (p : Part) : Prop :=
  ∀ i, p = .external i → Device.Discreet δ

theorem Part.discreet_core : ∀ p ∈ Part.core, p.Discreet δ := by
  intro p hp i e
  subst e
  simp [core] at hp

theorem Device.Discreet.part (h : Device.Discreet δ) (p : Part) : p.Discreet δ := fun _ _ => h

namespace Board

/-- The timers know the length of a dot. -/
def InStep (b : Board δ) : Prop := b.lines.dot = b.gpu.dot

omit [Device δ] in
theorem InStep.withExternal {b : Board δ} (h : b.InStep) (i : Nat) (e : External δ)
    {signals : List Signal} (hs : ∀ s ∈ signals, s.isDot = false) (device : δ) :
    (b.withExternal i e signals device).InStep := by
  unfold InStep Board.withExternal
  dsimp only
  split
  · exact (b.lines.deliverAll_dot hs).trans h
  · exact h

omit [Device δ] in
theorem InStep.withGpu {b : Board δ} (h : b.InStep) {r : List Signal × Gpu}
    (hr : b.gpu.Drives r) : (b.withGpu r.1 r.2).InStep := hr.dot b.lines h

omit [Device δ] in
theorem InStep.withDma {b : Board δ} (h : b.InStep) (asks : Bool) (dma : Dma) :
    (b.withDma asks dma).InStep := by cases asks <;> exact h

theorem inStep_invariant : Invariant (δ := δ) (Part.Discreet δ) InStep where
  read {b p} h _ offset w := by
    cases p with
    | timers =>
      have ht : (b.lines.timers.read offset w).2.dotDivider = b.lines.timers.dotDivider := by
        unfold Timers.read
        split
        · rfl
        · dsimp only; split <;> rfl
      exact ht.trans h
    | gpu => exact Eq.trans h (b.gpu.read_dot offset w).symm
    | «external» i =>
      unfold read; dsimp only; split
      · exact h
      · exact h.withExternal i _ (by simp) _
    | _ => exact h
  write {b p} h hp offset w value := by
    cases p with
    | timers =>
      have ht : (b.lines.timers.write offset w value).dotDivider = b.lines.timers.dotDivider := by
        unfold Timers.write
        split <;> rfl
      exact ht.trans h
    | dma => exact h.withDma ..
    | gpu => exact h.withGpu (Gpu.drives_write ..)
    | «external» i =>
      unfold write; dsimp only; split
      · exact h
      · exact h.withExternal i _ ((hp i rfl).write _ _ _ _) _
    | _ => exact h
  consume {b p} h hp channel word := by
    cases p with
    | gpu => exact h.withGpu (Gpu.drives_writeGp0 ..)
    | «external» i =>
      unfold consume; dsimp only; split
      · exact h
      · exact h.withExternal i _ ((hp i rfl).consume _ _ _) _
    | _ => exact h
  produce {b p} h _ channel := by
    cases p with
    | gpu => exact Eq.trans h (congrArg (·.horizontalRes.dotDivider) b.gpu.readLatch_status).symm
    | «external» i =>
      unfold produce; dsimp only; split
      · exact h
      · exact h.withExternal i _ (by simp) _
    | _ => exact h
  advance {b p} h hp cycles := by
    cases p with
    | timers => exact (b.lines.advance_dot cycles).trans h
    | gpu => exact h.withGpu (Gpu.drives_advance ..)
    | «external» i =>
      unfold advance; dsimp only; split
      · exact h
      · exact h.withExternal i _ ((hp i rfl).advance _ _) _
    | _ => exact h

def synced (b : Board δ) : Board δ :=
  { b with lines.timers := b.lines.timers.setDotDivider b.gpu.dot }

omit [Device δ] in
theorem inStep_synced (b : Board δ) : b.synced.InStep := Gpu.deliver_dotClock b.gpu b.lines

omit [Device δ] in
theorem synced_eq_iff {b : Board δ} : b.synced = b ↔ b.InStep := by
  constructor
  · intro h
    rw [← h]; exact b.inStep_synced
  · intro h
    have ht : b.lines.timers.setDotDivider b.gpu.dot = b.lines.timers := by
      unfold Timers.setDotDivider
      rw [show max b.gpu.dot 1 = b.gpu.dot from HorizontalRes.dotDivider_pos _, ← h]
      rfl
    unfold synced
    rw [ht]

/-- The port drives its dot clock on a reset, after the timers have forgotten it. -/
theorem inStep_reset_core (b : Board δ) : (Part.core.foldl reset b).InStep :=
  Gpu.deliver_dotClock _ _

theorem InStep.reset_external {b : Board δ} (h : b.InStep) (i : Nat) :
    (b.reset (.external i)).InStep := by
  unfold Board.reset; dsimp only; split
  · exact h
  · exact h.withExternal i _ (by simp) _

end Board

end Psx
