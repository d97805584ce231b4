import Psx.Error
import Psx.Signal

/-!
# Devices from outside

A session can be given devices that are not part of the core. What the bus, the DMA controller and
the clock ask of such a device is the class `Device`; all but reading and writing have a default
that suits a device with nothing behind it.
-/

namespace Psx

/-- The operations of a device. Those that may drive signals answer with them, in order. -/
class Device (δ : Type) where
  name : δ → String := fun _ => "Unknown Device"
  read : δ → UInt32 → Width → UInt32 × δ
  write : δ → UInt32 → Width → UInt32 → List Signal × δ
  /-- Takes a word that a DMA channel moved out of RAM. -/
  consume : δ → Nat → UInt32 → List Signal × δ := fun d _ _ => ([], d)
  /-- Supplies a word that a DMA channel moves into RAM. -/
  produce : δ → Nat → UInt32 × δ := fun d _ => (0, d)
  advance : δ → Nat → List Signal × δ := fun d _ => ([], d)
  /-- Cycles to the next point at which the device may do something by itself. -/
  untilEvent : δ → Option Nat := fun _ => none
  reset : δ → δ := id
  save : δ → ByteArray := fun _ => .empty
  load : δ → ByteArray → Except Error δ := fun d _ => .ok d
  /-- What is left of a device that has refused to load a state. -/
  spoil : δ → ByteArray → δ := fun d _ => d

instance : Device Empty where
  read d := nomatch d
  write d := nomatch d

/-- A device and whether its signals are wired to anything. -/
structure External (δ : Type) where
  device : δ
  wired : Bool := false

end Psx
