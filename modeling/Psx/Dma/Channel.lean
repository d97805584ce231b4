/-!
# One DMA channel

A channel holds the address, size and control registers of its transfer and, while a transfer is in
flight, how much of it is left. Starting fixes the amount; each slice works it down; finishing
clears the start and trigger bits.
-/

namespace Psx.Dma

inductive Direction where
  | toRam
  | fromRam
deriving DecidableEq, Repr

/-- How a transfer is cut up: all at once, in blocks, or along a list of nodes in RAM. -/
inductive SyncMode where
  | manual
  | block
  | linkedList
deriving DecidableEq, Repr

/-- What is left of a transfer in flight. -/
inductive Progress where
  | blocks (wordsLeft blocksLeft : Nat)
  | linkedList
  | orderingTable (entries : Nat)
deriving DecidableEq, Repr

/-! ### Bits of the control register -/

def startBit : UInt32 := 0x01000000

def triggerBit : UInt32 := 0x10000000

def choppingBit : UInt32 := 0x00000100

def backwardBit : UInt32 := 0x00000002

/-- The control bits a program can set. -/
def controlMask : UInt32 := 0x71770703

/-- The control bits a program can set on the channel that clears ordering tables. -/
def tableControlMask : UInt32 := 0x51000000

/-- Addresses have 24 bits. -/
def addressMask : UInt32 := 0x00FFFFFF

/-- The word of RAM that an address names. -/
def ramWordMask : UInt32 := 0x001FFFFC

def tableChannel : Nat := 6

structure Channel where
  address : UInt32 := 0
  blockControl : UInt32 := 0
  control : UInt32 := 0
  id : UInt8
  progress : Option Progress := none
deriving DecidableEq, Repr

namespace Channel

/-- The power-on state; ordering tables are cleared backwards. -/
def initial (id : UInt8) : Channel :=
  { id, control := if id == 6 then backwardBit else 0 }

def isBusy (c : Channel) : Bool := c.progress.isSome

def direction (c : Channel) : Direction :=
  if c.control &&& 1 != 0 then .fromRam else .toRam

def syncMode (c : Channel) : SyncMode :=
  match (c.control >>> 9) &&& 3 with
  | 0 => .manual
  | 1 => .block
  | _ => .linkedList

def isTriggered (c : Channel) : Bool := c.control &&& triggerBit != 0

def isChopped (c : Channel) : Bool := c.control &&& choppingBit != 0

/-- The most words one slice of a chopped transfer moves. -/
def chopWords? (c : Channel) : Option Nat :=
  if c.isChopped then some (1 <<< ((c.control >>> 16) &&& 7).toNat) else none

/-- The cycles a chopped transfer leaves to the processor after each slice. -/
def chopGap? (c : Channel) : Option Nat :=
  if c.isChopped then some (1 <<< ((c.control >>> 20) &&& 7).toNat) else none

def stepped (c : Channel) : UInt32 :=
  (if c.control &&& backwardBit != 0 then c.address - 4 else c.address + 4) &&& addressMask

/-- A transfer starts by itself unless it is manual, which also needs the trigger. -/
def wantsStart (c : Channel) : Bool :=
  c.control &&& startBit != 0 && (c.syncMode != .manual || c.isTriggered)

/-- A 16-bit count in which zero stands for 0x10000. -/
def countOf (n : UInt32) : Nat := if n == 0 then 0x10000 else n.toNat

def blockSize (c : Channel) : Nat := countOf (c.blockControl &&& 0xFFFF)

def blockCount (c : Channel) : Nat := countOf (c.blockControl >>> 16)

/-- Puts a transfer of the programmed amount in flight. -/
def start (c : Channel) : Channel :=
  { c with
    progress := some <|
      if c.id == 6 then .orderingTable c.blockSize
      else match c.syncMode with
        | .manual => .blocks c.blockSize 1
        | .block => .blocks c.blockSize c.blockCount
        | .linkedList => .linkedList }

def finish (c : Channel) : Channel :=
  { c with progress := none, control := c.control &&& ~~~(startBit ||| triggerBit) }

/-- A write to the control register. On a busy channel only clearing the start bit has an effect:
it aborts the transfer. -/
def writeControl (c : Channel) (value : UInt32) : Channel :=
  if c.isBusy then
    if value &&& startBit == 0 then
      { c with progress := none, control := value &&& ~~~triggerBit }
    else c
  else
    let c := { c with control := value }
    if c.wantsStart then c.start else c

end Channel

end Psx.Dma
