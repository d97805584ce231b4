import Psx.Width

/-!
# Memory control

Nine registers that set where the windows of the bus lie and how long accesses take, and the RAM
size register, which stands apart. They hold what is written to them and have no further effect
here.
-/

namespace Psx

structure MemoryControl where
  registers : Vector UInt32 9 := #v[
    0x1F000000, -- base of expansion 1
    0x1F802000, -- base of expansion 2
    0x0013243F, -- delay and size of expansion 1
    0x00003022, -- delay and size of expansion 3
    0x0013243F, -- delay and size of the BIOS
    0x200931E1, -- delay and size of the sound chip
    0x00020843, -- delay and size of the disc controller
    0x00070777, -- delay and size of expansion 2
    0x00031125] -- common delay
  ramSize : UInt32 := 0x00000B88
deriving DecidableEq, Repr

namespace MemoryControl

def base : UInt32 := 0x1F801000

def span : UInt32 := 0x24

def ramSizeAddress : UInt32 := 0x1F801060

def ramSizeOffset : UInt32 := 0x60

def name : String := "MemoryControl"

def register? (m : MemoryControl) (i : Nat) : Option UInt32 := m.registers[i]?

def read (m : MemoryControl) (offset : UInt32) (w : Width) : UInt32 :=
  if wordOf offset == ramSizeOffset then readLane m.ramSize offset w
  else match m.register? (offset / 4).toNat with
    | some value => readLane value offset w
    | none => 0

def write (m : MemoryControl) (offset : UInt32) (w : Width) (value : UInt32) : MemoryControl :=
  if wordOf offset == ramSizeOffset then
    { m with ramSize := writeLane m.ramSize offset w value }
  else
    let i := (offset / 4).toNat
    if h : i < 9 then
      { m with registers := m.registers.set i (writeLane m.registers[i] offset w value) }
    else m

end MemoryControl

end Psx
