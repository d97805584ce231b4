import Psx.Config.Basic

/-!
# The address map

The top three bits of a virtual address choose a segment. The two kernel segments and the user
segment are aliases of the same physical addresses, which fall into regions; the last segment holds
the cache control register alone.
-/

namespace Psx

inductive Segment where
  | kuseg
  | kseg0
  | kseg1
  | kseg2
deriving DecidableEq, Repr

namespace Segment

def of (address : UInt32) : Segment :=
  if address < 0x80000000 then kuseg
  else if address < 0xA0000000 then kseg0
  else if address < 0xC0000000 then kseg1
  else kseg2

def isCached : Segment → Bool
  | kuseg | kseg0 => true
  | kseg1 | kseg2 => false

end Segment

inductive Region where
  | ram
  | scratchpad
  | io
  | bios
  | cacheControl
  | expansion1
  | expansion2
  | expansion3
  | unmapped
deriving DecidableEq, Repr

namespace Region

def cost (timing : BusTiming) : Region → AccessCost
  | ram => timing.ram
  | scratchpad => timing.scratchpad
  | bios => timing.bios
  | io | cacheControl => timing.io
  | expansion1 | expansion2 | expansion3 | unmapped => timing.expansion

end Region

namespace Address

def ramSize : Nat := 0x200000

def ramMirrorLast : UInt32 := 0x007FFFFF

/-- The address inside RAM that a mirrored address names. -/
def ramMask : UInt32 := 0x001FFFFF

def scratchpadSize : Nat := 0x400

def scratchpadFirst : UInt32 := 0x1F800000

def scratchpadLast : UInt32 := 0x1F8003FF

def biosSize : Nat := 0x80000

def biosFirst : UInt32 := 0x1FC00000

def biosLast : UInt32 := 0x1FC7FFFF

def expansion1First : UInt32 := 0x1F000000

def expansion1Last : UInt32 := 0x1F7FFFFF

def cacheControl : UInt32 := 0xFFFE0130

def translate (address : UInt32) : UInt32 :=
  if Segment.of address = .kseg2 then address else address &&& 0x1FFFFFFF

/-- The region of a physical address, were it reached through a segment with a cache. -/
def physicalRegion (address : UInt32) : Region :=
  if address ≤ ramMirrorLast then .ram
  else if address < expansion1First then .unmapped
  else if address ≤ expansion1Last then .expansion1
  else if address ≤ scratchpadLast then .scratchpad
  else if address < 0x1F801000 then .unmapped
  else if address ≤ 0x1F801FFF then .io
  else if address ≤ 0x1F803FFF then .expansion2
  else if address < 0x1FA00000 then .unmapped
  else if address ≤ 0x1FBFFFFF then .expansion3
  else if address ≤ biosLast then .bios
  else .unmapped

/-- The region of a virtual address. The scratchpad is a data cache in disguise and has no uncached
alias. -/
def region (address : UInt32) : Region :=
  match Segment.of address with
  | .kseg2 => if address = cacheControl then .cacheControl else .unmapped
  | .kseg1 =>
    match physicalRegion (translate address) with
    | .scratchpad => .unmapped
    | r => r
  | _ => physicalRegion (translate address)

end Address

end Psx
