import Psx.Interrupt

/-!
# Signals between devices

A device never reaches into another one. What it drives outside itself is a list of signals in the
order in which they are driven, and the board delivers them to the interrupt controller and the
timers.
-/

namespace Psx

/-- One signal: an interrupt request, an edge of a blanking interval, or the length of a dot in
video clocks. -/
inductive Signal where
  | raise (i : Interrupt)
  | hblankBegin
  | hblankEnd
  | vblankBegin
  | vblankEnd
  | dotClock (divider : UInt32)
deriving DecidableEq, Repr

end Psx
