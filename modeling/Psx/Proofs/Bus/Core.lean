import Psx.Machine
import Psx.Proofs.Gpu.Raster
import Psx.Proofs.Timer.Slices

/-!
# The devices of the core

What registering the chips of the core leaves in the decode table, and what the operations on all
registered devices come to on a bus that holds these chips alone: letting cycles pass moves the
timers and then the beam, and only the beam ever asks to be called at a time of its own.

Cycles may pass for such a bus in two parts if the first ends before the next pulse of the beam
(`advance_add_of_quiet`): the timers do not see the cut, and the beam has nothing to tell them at it.
-/

namespace Psx

/-- The chips of the core, in the order of their registration. -/
def Part.core : List Part := [.interrupts, .timers, .dma, .memoryControl, .expansion, .gpu]

def coreTable : DecodeTable Part where
  entries := #[
    { name := InterruptController.name, base := InterruptController.base, part := .interrupts },
    { name := Timers.name, base := Timers.base, part := .timers },
    { name := Dma.name, base := Dma.base, part := .dma },
    { name := MemoryControl.name, base := MemoryControl.base, part := .memoryControl },
    { name := Expansion.name, base := Expansion.base, part := .expansion },
    { name := Gpu.name, base := Gpu.base, part := .gpu }]
  windows := #[
    { first := 0x1F801000, last := 0x1F801023, device := 3 },
    { first := 0x1F801060, last := 0x1F801063, device := 3 },
    { first := 0x1F801070, last := 0x1F801077, device := 0 },
    { first := 0x1F801080, last := 0x1F8010F7, device := 2 },
    { first := 0x1F801100, last := 0x1F80112F, device := 1 },
    { first := 0x1F801810, last := 0x1F801817, device := 5 },
    { first := 0x1F802000, last := 0x1F803FFF, device := 4 }]
  routes := #v[none, none, some 5, none, none, none, none]

namespace Bus

variable {δ : Type} (b : Bus δ)

variable {b} in
theorem parts_of_table (h : b.table = coreTable) : b.parts = Part.core := by
  unfold parts
  rw [h]
  rfl

theorem eachPart_eq (f : Board δ → Part → Board δ) :
    b.eachPart f = { b with board := b.parts.foldl f b.board } := by
  simp [eachPart, parts, ← Array.foldl_toList, List.foldl_map]

variable [Device δ]

theorem registerCore_eq (h : b.table = {}) :
    Machine.registerCore b = .ok { b with table := coreTable } := by
  obtain ⟨memory, table, board, timing, openBus⟩ := b
  subst h
  cbv

theorem untilEvent_eq :
    b.untilEvent = b.parts.foldl (fun w part => sooner w (b.board.untilEvent part)) none := by
  simp [untilEvent, parts, ← Array.foldl_toList, List.foldl_map]

variable {b}

theorem untilEvent_core (h : b.parts = Part.core) : b.untilEvent = some b.board.gpu.untilEvent := by
  rw [untilEvent_eq, h]; rfl

theorem advance_zero : b.advance 0 = b := if_pos rfl

theorem advance_parts (cycles : Nat) : (b.advance cycles).parts = b.parts := by
  unfold advance; split <;> rfl

/-- The timers move first, then the beam, whose pulses the timers take last. -/
theorem advance_core (h : b.parts = Part.core) {cycles : Nat} (hc : cycles ≠ 0) :
    b.advance cycles = { b with
      board.lines := (b.board.lines.advance cycles).deliverAll (b.board.gpu.advance cycles).1
      board.gpu := (b.board.gpu.advance cycles).2 } := by
  rw [advance, if_neg hc, eachPart_eq, h]; rfl

/-- Nothing of the core but the beam cares about the place where time is cut. -/
theorem advance_add_of_quiet (h : b.parts = Part.core) (hs : b.board.gpu.beam.Settled) {j : Nat}
    (k : Nat) (hj : j < b.board.gpu.beam.cyclesToPulse) :
    b.advance (j + k) = (b.advance j).advance k := by
  -- a wait of no cycles is no wait at all, though the timers would tidy up a remainder in it
  rcases Nat.eq_zero_or_pos j with rfl | hj0
  · rw [advance_zero, Nat.zero_add]
  rcases Nat.eq_zero_or_pos k with rfl | hk0
  · rw [advance_zero, Nat.add_zero]
  have hg : b.board.gpu.advance j =
      ([], { b.board.gpu with beam.lineCycle := b.board.gpu.beam.lineCycle + j }) := by
    rw [Gpu.advance, hs.advance_quiet hj]
  have hg' : b.board.gpu.advance (j + k) =
      ({ b.board.gpu with beam.lineCycle := b.board.gpu.beam.lineCycle + j } : Gpu).advance k := by
    rw [Gpu.advance, hs.advance_add k hj]; rfl
  have hp : (b.advance j).parts = Part.core := by rw [advance_parts]; exact h
  rw [advance_core hp (Nat.ne_of_gt hk0), advance_core h (Nat.ne_of_gt hj0),
    advance_core h (by omega), hg, hg', Lines.advance_add]
  rfl

theorem advance_beam (h : b.parts = Part.core) (cycles : Nat) :
    (b.advance cycles).board.gpu.beam = (b.board.gpu.beam.advance cycles).2 := by
  by_cases hc : cycles = 0
  · subst hc; rw [advance_zero, Gpu.Beam.advance, Gpu.Beam.run_zero]
  · rw [advance_core h hc]; rfl

end Bus

end Psx
