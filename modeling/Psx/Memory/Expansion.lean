import Psx.Width

/-!
# Expansion 2

The expansion region that a development board answers: a register for boot progress, and a serial
transmitter on which the boot program prints. The transmitter is always ready; it collects
characters into a line and hands the line over when a newline comes. Carriage returns are dropped.
-/

namespace Psx

/-- The boot progress and the line that is being printed. -/
structure Expansion where
  post : UInt8 := 0
  line : String := ""
deriving DecidableEq, Repr

namespace Expansion

def base : UInt32 := 0x1F802000

def span : UInt32 := 0x2000

def postOffset : UInt32 := 0x41

def transmitOffset : UInt32 := 0x23

def statusOffset : UInt32 := 0x21

def name : String := "Expansion2"

/-- The status of the transmitter says that it is ready and empty; what answers nowhere reads as
ones. -/
def read (e : Expansion) (offset : UInt32) (w : Width) : UInt32 :=
  if offset == postOffset then e.post.toUInt32
  else if offset == statusOffset then 0x0C
  else w.mask

/-- Takes one character; the answer is the line if it was the end of one. -/
def transmit (e : Expansion) (character : UInt8) : Option String × Expansion :=
  if character == 0x0A then (some e.line, { e with line := "" })
  else if character == 0x0D then (none, e)
  else (none, { e with line := e.line.push (Char.ofNat character.toNat) })

/-- Only the low byte of a write counts, whatever its width. -/
def write (e : Expansion) (offset : UInt32) (value : UInt32) : Option String × Expansion :=
  if offset == postOffset then (none, { e with post := value.toUInt8 })
  else if offset == transmitOffset then e.transmit value.toUInt8
  else (none, e)

end Expansion

end Psx
