import Psx.Width

/-!
# The instruction cache

A thousand and twenty-four lines of one word, chosen by the address modulo 4 KiB. A line answers a
fetch if it is valid and its tag is the rest of the address. While the cache is isolated its data
serve as a small memory, or stores invalidate lines.
-/

namespace Psx

structure CacheLine where
  tag : UInt32 := 0
  data : UInt32 := 0
  valid : Bool := false
deriving DecidableEq, Repr

/-- The lines; there are `lineCount` of them unless a saved state says otherwise. -/
structure InstructionCache where
  lines : Array CacheLine
deriving DecidableEq, Repr

namespace InstructionCache

def lineCount : Nat := 1024

def initial : InstructionCache where
  lines := .replicate lineCount {}

def index (address : UInt32) : Nat := ((address >>> 2) &&& 0x3FF).toNat

def tag (address : UInt32) : UInt32 := address >>> 12

def lineAt (c : InstructionCache) (address : UInt32) : CacheLine :=
  (c.lines[index address]?).getD {}

def fetch? (c : InstructionCache) (address : UInt32) : Option UInt32 :=
  let line := c.lineAt address
  if line.valid && line.tag == tag address then some line.data else none

def fill (c : InstructionCache) (address word : UInt32) : InstructionCache where
  lines := c.lines.setIfInBounds (index address)
    { tag := tag address, data := word, valid := true }

def readIsolated (c : InstructionCache) (address : UInt32) (w : Width) : UInt32 :=
  readLane (c.lineAt address).data address w

/-- A store while the cache is isolated: it invalidates the line in tag test mode and changes its
data otherwise. -/
def writeIsolated (c : InstructionCache) (address : UInt32) (w : Width) (value : UInt32)
    (tagTest : Bool) : InstructionCache where
  lines := c.lines.modify (index address) fun line =>
    if tagTest then { line with valid := false }
    else { line with data := writeLane line.data address w value }

end InstructionCache

end Psx
