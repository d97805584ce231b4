import Psx.Signal
import Psx.Gpu.Video

/-!
# The beam

The beam runs along a line and, line by line, down a frame. It drives a pulse when it enters or
leaves a blanking interval; on entering the vertical blank it also asks for attention.
`cyclesToPulse` is the distance to the next point at which something can happen, and `run` jumps
from one such point to the next.
-/

namespace Psx.Gpu

structure Beam where
  standard : VideoStandard
  line : Nat := 0
  lineCycle : Nat := 0
  frames : Nat := 0
  inHblank : Bool := false
  inVblank : Bool := false
deriving DecidableEq, Repr

namespace Beam

def timing (b : Beam) : VideoTiming := b.standard.timing

/-- Cycles to the next end of a line or beginning of a horizontal blank. -/
def cyclesToPulse (b : Beam) : Nat :=
  if !b.inHblank && b.lineCycle < b.timing.hblankStart then b.timing.hblankStart - b.lineCycle
  else b.timing.cyclesPerLine - b.lineCycle

/-- Enters the horizontal blank if the beam has come to it. -/
def enterHblank (b : Beam) : List Signal × Beam :=
  if !b.inHblank && b.lineCycle ≥ b.timing.hblankStart then
    ([.hblankBegin], { b with inHblank := true })
  else ([], b)

/-- Goes on to the next line, which may be the first of a frame or the first of the vertical
blank. -/
def nextLine (b : Beam) : List Signal × Beam :=
  let line := b.line + 1
  if line ≥ b.timing.linesPerFrame then
    (if b.inVblank then [.vblankEnd] else [], { b with line := 0, inVblank := false })
  else if line == b.timing.vblankStart && !b.inVblank then
    ([.vblankBegin, .raise .vblank], { b with line, inVblank := true, frames := b.frames + 1 })
  else ([], { b with line })

/-- Leaves the line if the beam has come to its end. -/
def endLine (b : Beam) : List Signal × Beam :=
  if b.lineCycle < b.timing.cyclesPerLine then ([], b)
  else
    let (signals, b) :=
      { b with lineCycle := b.lineCycle - b.timing.cyclesPerLine, inHblank := false }.nextLine
    (.hblankEnd :: signals, b)

/-- Drives the pulses of the point the beam has come to. -/
def fire (b : Beam) : List Signal × Beam :=
  let (first, b) := b.enterHblank
  let (rest, b) := b.endLine
  (first ++ rest, b)

theorem enterHblank_lineCycle (b : Beam) : b.enterHblank.2.lineCycle = b.lineCycle := by
  unfold enterHblank; split <;> rfl

theorem enterHblank_timing (b : Beam) : b.enterHblank.2.timing = b.timing := by
  unfold enterHblank; split <;> rfl

theorem nextLine_lineCycle (b : Beam) : b.nextLine.2.lineCycle = b.lineCycle := by
  unfold nextLine; dsimp only; split
  · rfl
  · split <;> rfl

theorem fire_lineCycle (b : Beam) : b.fire.2.lineCycle =
    if b.lineCycle < b.timing.cyclesPerLine then b.lineCycle
    else b.lineCycle - b.timing.cyclesPerLine := by
  simp only [fire, endLine, enterHblank_lineCycle, enterHblank_timing]
  split
  · exact enterHblank_lineCycle b
  · simp only [nextLine_lineCycle]

theorem cyclesPerLine_pos (b : Beam) : 0 < b.timing.cyclesPerLine := by
  unfold timing VideoStandard.timing; cases b.standard <;> decide

/-- A beam that cannot move is past the end of its line. -/
theorem le_lineCycle_of_cyclesToPulse_eq_zero {b : Beam} (h : b.cyclesToPulse = 0) :
    b.timing.cyclesPerLine ≤ b.lineCycle := by
  unfold cyclesToPulse at h
  split at h
  · rename_i hc; simp at hc; omega
  · omega

/-- Lets cycles pass, point by point; `emitted` holds the signals so far, the latest first. A step
may be empty when the beam is past the end of its line, and then the line ends. -/
def run (b : Beam) (cycles : Nat) (emitted : List Signal) : List Signal × Beam :=
  if cycles = 0 then (emitted, b)
  else
    let step := min cycles b.cyclesToPulse
    let r := { b with lineCycle := b.lineCycle + step }.fire
    r.2.run (cycles - step) (r.1.reverse ++ emitted)
termination_by (cycles, b.lineCycle)
decreasing_by
  rename_i hc
  by_cases hs : b.cyclesToPulse = 0
  · have hle := le_lineCycle_of_cyclesToPulse_eq_zero hs
    have hpos := b.cyclesPerLine_pos
    have ht : ({ b with lineCycle := b.lineCycle + min cycles b.cyclesToPulse } : Beam).timing
        = b.timing := rfl
    have hf := fire_lineCycle { b with lineCycle := b.lineCycle + min cycles b.cyclesToPulse }
    rw [ht] at hf
    simp only [hs, Nat.min_zero, Nat.add_zero] at hf ⊢
    rw [if_neg (by omega)] at hf
    rw [hf]
    exact Prod.Lex.right _ (by omega)
  · exact Prod.Lex.left _ _ (by omega)

/-- Lets cycles pass; the signals are in the order in which they are driven. -/
def advance (b : Beam) (cycles : Nat) : List Signal × Beam :=
  let (emitted, b) := b.run cycles []
  (emitted.reverse, b)

/-- Changes the standard; a beam outside the new geometry goes to its last cycle or line. -/
def setStandard (b : Beam) (standard : VideoStandard) : Beam :=
  if standard = b.standard then b
  else
    { b with
      standard
      lineCycle := min b.lineCycle (standard.timing.cyclesPerLine - 1)
      line := min b.line (standard.timing.linesPerFrame - 1) }

end Beam

end Psx.Gpu
