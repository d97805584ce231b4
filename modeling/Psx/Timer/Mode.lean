/-!
# The mode register of a timer

Bits 0 to 9 of the register, unpacked. The two-bit fields are kept as bytes because a state that is
read back may hold any byte there; `ofBits` only ever produces 0 to 3.
-/

namespace Psx.Timer

/-- How a timer counts and when it asks for attention. -/
structure Mode where
  syncEnable : Bool := false
  syncMode : UInt8 := 0
  resetOnTarget : Bool := false
  irqOnTarget : Bool := false
  irqOnMax : Bool := false
  /-- Ask at every event rather than at the first one only. -/
  irqRepeat : Bool := false
  /-- Flip the request line at an event rather than pull it low. -/
  irqToggle : Bool := false
  clockSource : UInt8 := 0
deriving DecidableEq, Repr

namespace Mode

def ofBits (value : UInt16) : Mode where
  syncEnable := value &&& 0x0001 != 0
  syncMode := ((value >>> 1) &&& 3).toUInt8
  resetOnTarget := value &&& 0x0008 != 0
  irqOnTarget := value &&& 0x0010 != 0
  irqOnMax := value &&& 0x0020 != 0
  irqRepeat := value &&& 0x0040 != 0
  irqToggle := value &&& 0x0080 != 0
  clockSource := ((value >>> 8) &&& 3).toUInt8

def bits (m : Mode) : UInt16 :=
  m.syncEnable.toUInt16
    ||| (m.syncMode.toUInt16 <<< 1)
    ||| (m.resetOnTarget.toUInt16 <<< 3)
    ||| (m.irqOnTarget.toUInt16 <<< 4)
    ||| (m.irqOnMax.toUInt16 <<< 5)
    ||| (m.irqRepeat.toUInt16 <<< 6)
    ||| (m.irqToggle.toUInt16 <<< 7)
    ||| (m.clockSource.toUInt16 <<< 8)

end Mode

inductive Clock where
  | system
  | systemEighth
  | dot
  | hblank
deriving DecidableEq, Repr

end Psx.Timer
