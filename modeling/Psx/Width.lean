/-!
# Access widths and byte lanes

A bus access moves one, two or four bytes of a 32-bit register. The low two bits of the offset say
which byte lane the access starts at: `readLane` brings the addressed lanes down to bit 0 and
`writeLane` replaces them, leaving the other lanes of the register as they are.
-/

namespace Psx

/-- How many bytes one access moves. -/
inductive Width where
  | byte
  | half
  | word
deriving DecidableEq, Repr

namespace Width

def bytes : Width → UInt32
  | byte => 1
  | half => 2
  | word => 4

/-- The bits a value of this width can hold. -/
def mask : Width → UInt32
  | byte => 0xFF
  | half => 0xFFFF
  | word => 0xFFFFFFFF

/-- The address rounded down to a multiple of the width. -/
def align (w : Width) (address : UInt32) : UInt32 :=
  address &&& ~~~(w.bytes - 1)

/-- The width of so many bytes, if there is one. -/
def ofBytes? : Nat → Option Width
  | 1 => some byte
  | 2 => some half
  | 4 => some word
  | _ => none

end Width

/-- Where the lane addressed by an offset starts, in bits. -/
def laneShift (offset : UInt32) : UInt32 :=
  (offset &&& 3) * 8

/-- The addressed lanes of a register, brought down to bit 0. -/
def readLane (register offset : UInt32) (w : Width) : UInt32 :=
  (register >>> laneShift offset) &&& w.mask

/-- The register with its addressed lanes replaced by the low bits of a value. -/
def writeLane (register offset : UInt32) (w : Width) (value : UInt32) : UInt32 :=
  let shift := laneShift offset
  (register &&& ~~~(w.mask <<< shift)) ||| ((value &&& w.mask) <<< shift)

def wordOf (offset : UInt32) : UInt32 :=
  offset &&& ~~~(3 : UInt32)

end Psx
