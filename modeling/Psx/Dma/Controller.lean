import Psx.Signal
import Psx.Error
import Psx.Dma.Channel

/-!
# The DMA controller

Seven channels, a register of enables and priorities (DPCR) and an interrupt register (DICR). The
controller asks for attention when the master flag of DICR rises. `nextChannel?` names the channel
that moves the next slice: the enabled busy one of the lowest priority value, the higher channel
of two with the same.
-/

namespace Psx

structure Dma where
  channels : Vector Dma.Channel 7 :=
    #v[.initial 0, .initial 1, .initial 2, .initial 3, .initial 4, .initial 5, .initial 6]
  /-- Enables and priorities, four bits to a channel. -/
  control : UInt32 := 0x07654321
  interrupt : UInt32 := 0
  /-- Cycles between two slices of a transfer that is not chopped. -/
  sliceGap : Nat
deriving DecidableEq, Repr

namespace Dma

def base : UInt32 := 0x1F801080

def span : UInt32 := 0x78

def name : String := "DMA"

def channelCount : Nat := 7

def gpuChannel : Nat := 2

/-- Power on. A gap is at least one cycle. -/
def initial (gap : Nat) : Dma where
  sliceGap := max gap 1

/-- Power on with the gap of this controller. -/
def reset (d : Dma) : Dma where
  sliceGap := d.sliceGap

def channel (d : Dma) (i : Fin 7) : Channel := d.channels[i]

def modify (d : Dma) (i : Fin 7) (f : Channel → Channel) : Dma :=
  { d with channels := d.channels.set i (f (d.channel i)) }

/-! ### Priorities -/

def field (d : Dma) (i : Fin 7) : UInt32 := d.control >>> (4 * UInt32.ofNat i)

def isEnabled (d : Dma) (i : Fin 7) : Bool := d.field i &&& 8 != 0

def priority (d : Dma) (i : Fin 7) : UInt32 := d.field i &&& 7

def isRunnable (d : Dma) (i : Fin 7) : Bool := d.isEnabled i && (d.channel i).isBusy

/-- The better of the best channel so far and a lower one that may run. -/
def prefer (d : Dma) (best : Option (Fin 7)) (i : Fin 7) : Option (Fin 7) :=
  if !d.isRunnable i then best
  else match best with
    | none => some i
    | some b => if d.priority i < d.priority b then some i else some b

def nextChannel? (d : Dma) : Option (Fin 7) :=
  [6, 5, 4, 3, 2, 1, 0].foldl d.prefer none

/-- Some enabled channel has a transfer in flight. -/
def hasPendingWork (d : Dma) : Bool :=
  [0, 1, 2, 3, 4, 5, 6].any d.isRunnable

/-! ### Interrupts -/

def forceBit : UInt32 := 0x00008000

def masterEnableBit : UInt32 := 0x00800000

def masterFlagBit : UInt32 := 0x80000000

/-- What the master flag has to be, given the other bits of DICR. -/
def masterFlag (interrupt : UInt32) : Bool :=
  interrupt &&& forceBit != 0 ||
    (interrupt &&& masterEnableBit != 0 &&
      ((interrupt >>> 16) &&& (interrupt >>> 24) &&& 0x7F) != 0)

/-- Recomputes the master flag; the controller asks for attention when it rises. -/
def updateMasterFlag (d : Dma) : Bool × Dma :=
  if masterFlag d.interrupt then
    (d.interrupt &&& masterFlagBit == 0, { d with interrupt := d.interrupt ||| masterFlagBit })
  else (false, { d with interrupt := d.interrupt &&& ~~~masterFlagBit })

/-- Flags of bits 24 to 30 are cleared by writing a one, bits 6 to 23 are written as they are. -/
def writeInterrupt (d : Dma) (value : UInt32) : Bool × Dma :=
  let flags := d.interrupt &&& 0x7F000000 &&& ~~~value
  let master := d.interrupt &&& masterFlagBit
  { d with interrupt := master ||| flags ||| (value &&& 0x00FFFFC0) }.updateMasterFlag

/-- Ends the transfer of a channel and sets its flag if that is enabled. -/
def complete (d : Dma) (i : Fin 7) : Bool × Dma :=
  let d := d.modify i .finish
  let bit := UInt32.ofNat i
  let d :=
    if d.interrupt &&& (1 <<< (16 + bit)) != 0 then
      { d with interrupt := d.interrupt ||| (1 <<< (24 + bit)) }
    else d
  d.updateMasterFlag

/-! ### Setting up transfers -/

/-- The amount of a transfer, as a caller asks for it. -/
inductive Amount where
  | words (n : UInt16)
  | blocks (size count : UInt16)
  | linkedList
deriving DecidableEq, Repr

namespace Amount

def blockControl : Amount → UInt32
  | words n => n.toUInt32
  | blocks size count => (count.toUInt32 <<< 16) ||| size.toUInt32
  | linkedList => 0

def syncBits : Amount → UInt32
  | words _ => 0
  | blocks .. => 1
  | linkedList => 2

end Amount

/-- Programs a channel and enables it. The direction and mode of a transfer in flight stay. -/
def configure (d : Dma) (channel : Nat) (direction : Direction) (address : UInt32)
    (amount : Amount) : Except Error Dma :=
  if h : channel < 7 then
    let d := d.modify ⟨channel, h⟩ fun c =>
      let c := { c with address := address &&& addressMask, blockControl := amount.blockControl }
      if c.isBusy then c
      else
        let dir : UInt32 := match direction with
          | .toRam => 0
          | .fromRam => 1
        let keep := c.control &&& ~~~(0x601 ||| startBit ||| triggerBit)
        { c with control := keep ||| (amount.syncBits <<< 9) ||| dir }
    .ok { d with control := d.control ||| (8 <<< (4 * UInt32.ofNat channel)) }
  else .error (.invalidDmaChannel channel)

/-- Starts a channel; a busy one is left alone. -/
def trigger (d : Dma) (channel : Nat) : Bool × Dma :=
  if h : channel < 7 then
    if (d.channel ⟨channel, h⟩).isBusy then (false, d)
    else
      (true, d.modify ⟨channel, h⟩ fun c =>
        { c with control := c.control ||| (startBit ||| triggerBit) }.start)
  else (false, d)

/-! ### Registers -/

def writeAddress (d : Dma) (i : Fin 7) (value : UInt32) : Dma :=
  d.modify i fun c => { c with address := value &&& addressMask }

def writeBlockControl (d : Dma) (i : Fin 7) (value : UInt32) : Dma :=
  d.modify i fun c => { c with blockControl := value }

def writeChannelControl (d : Dma) (i : Fin 7) (value : UInt32) : Dma :=
  d.modify i fun c => c.writeControl <|
    if i.val == tableChannel then (value &&& tableControlMask) ||| backwardBit
    else value &&& controlMask

/-- The channel whose registers hold an offset. -/
def channelAt? (offset : UInt32) : Option (Fin 7) :=
  let i := (offset >>> 4).toNat
  if h : i < 7 then some ⟨i, h⟩ else none

def register (d : Dma) (offset : UInt32) : UInt32 :=
  match channelAt? offset with
  | some i =>
    match offset &&& 0x0C with
    | 0x00 => (d.channel i).address
    | 0x04 => (d.channel i).blockControl
    | 0x08 => (d.channel i).control
    | _ => 0
  | none =>
    if wordOf offset == 0x70 then d.control
    else if wordOf offset == 0x74 then d.interrupt
    else 0

def read (d : Dma) (offset : UInt32) (w : Width) : UInt32 :=
  readLane (d.register offset) offset w

/-- A narrow write keeps the other lanes. In DICR the flags of the other lanes are kept by writing
zeros to them. -/
def write (d : Dma) (offset : UInt32) (w : Width) (value : UInt32) : Bool × Dma :=
  let merged := writeLane (d.register offset) offset w value
  match channelAt? offset with
  | some i =>
    match offset &&& 0x0C with
    | 0x00 => (false, d.writeAddress i merged)
    | 0x04 => (false, d.writeBlockControl i merged)
    | 0x08 => (false, d.writeChannelControl i merged)
    | _ => (false, d)
  | none =>
    if wordOf offset == 0x70 then (false, { d with control := merged })
    else if wordOf offset == 0x74 then
      d.writeInterrupt (writeLane (d.interrupt &&& addressMask) offset w value)
    else (false, d)

end Dma

end Psx
