import Psx.Error
import Psx.Memory.Bytes
import Psx.Memory.Region
import Psx.Snapshot.Codec

/-!
# The memories of the bus

RAM, scratchpad and BIOS, and the cache control register. The images keep their sizes: what is
loaded as a whole is checked, and stores do not change a size.
-/

namespace Psx

namespace CacheControl

def tagTestBit : UInt32 := 0x00000004

def cacheEnableBit : UInt32 := 0x00000800

/-- Every named bit of the register. -/
def namedBits : List UInt32 :=
  [0x00000001, 0x00000002, tagTestBit, 0x00000008, 0x00000080, 0x00000200, cacheEnableBit]

def cacheEnabled (bits : UInt32) : Bool := bits &&& cacheEnableBit != 0

def tagTest (bits : UInt32) : Bool := bits &&& tagTestBit != 0

end CacheControl

/-- The images, and the cache control register. -/
structure Memory where
  ram : ByteArray
  scratchpad : ByteArray
  bios : ByteArray
  cacheControl : UInt32 := 0

namespace Memory

def initial : Memory where
  ram := Bytes.zeros Address.ramSize
  scratchpad := Bytes.zeros Address.scratchpadSize
  bios := Bytes.zeros Address.biosSize

/-- Clears all but the BIOS. -/
def reset (m : Memory) : Memory := { initial with bios := m.bios }

/-- The images have the sizes of the memories they are loaded into. -/
def hasSizes (m : Memory) : Bool :=
  m.ram.size == Address.ramSize && m.scratchpad.size == Address.scratchpadSize
    && m.bios.size == Address.biosSize

def mismatch : Error := .snapshotMismatch "memory image sizes do not match"

/-- Replaces the memory by another of the same sizes. -/
def replace (new : Memory) : Except Error Memory :=
  if new.hasSizes then .ok new else .error mismatch

def loadBios (m : Memory) (image : ByteArray) : Except Error Memory :=
  if image.size = Address.biosSize then .ok { m with bios := image }
  else .error (.invalidBiosSize Address.biosSize image.size)

def ramIndex (address : UInt32) : Nat := (address &&& Address.ramMask).toNat

/-- Puts bytes into RAM from an address on, wrapping at its end. -/
def storeBytes (m : Memory) (address : UInt32) (data : List UInt8) : Memory :=
  let start := ramIndex (Address.translate address)
  { m with
    ram := (data.foldl
      (fun (ram, i) byte => (Bytes.setByte ram (i % Address.ramSize) byte, i + 1))
      (m.ram, start)).1 }

def storeWords (m : Memory) (address : UInt32) (words : List UInt32) : Memory :=
  m.storeBytes address (words.flatMap Bytes.ofWord)

open Snapshot.Codec in
def codec : Snapshot.Codec Memory :=
  (bytes.pair <| bytes.pair <| bytes.pair word32).imap
    (fun m => (m.ram, m.scratchpad, m.bios, m.cacheControl))
    fun (ram, scratchpad, bios, cacheControl) => { ram, scratchpad, bios, cacheControl }

end Memory

end Psx
