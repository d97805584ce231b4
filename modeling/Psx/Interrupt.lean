import Psx.Width

/-!
# Interrupts

Eleven sources share one request register, I_STAT, and one enable register, I_MASK. A source raises
its bit and the program clears it by writing a zero there; the processor is interrupted while some
bit is set in both. Bits 11 to 15 belong to no source and are always zero.
-/

namespace Psx

/-- Who asks for attention. -/
inductive Interrupt where
  | vblank
  | gpu
  | cdrom
  | dma
  | timer0
  | timer1
  | timer2
  | controller
  | sio
  | spu
  | lightpen
deriving DecidableEq, Repr

namespace Interrupt

/-- Every source, in the order of its bit. -/
def all : List Interrupt :=
  [vblank, gpu, cdrom, dma, timer0, timer1, timer2, controller, sio, spu, lightpen]

def index (i : Interrupt) : Nat := i.ctorIdx

/-- The bit of a source in I_STAT and I_MASK. -/
def bit (i : Interrupt) : UInt16 := 1 <<< UInt16.ofNat i.index

def ofIndex? (n : Nat) : Option Interrupt := all[n]?

/-- The source of a timer; every index past the second names the last timer. -/
def timer : Nat → Interrupt
  | 0 => timer0
  | 1 => timer1
  | _ => timer2

/-- The bits that belong to a source. -/
def mask : UInt16 := 0x07FF

end Interrupt

structure InterruptController where
  status : UInt16 := 0
  mask : UInt16 := 0
deriving DecidableEq, Repr

namespace InterruptController

def base : UInt32 := 0x1F801070

def span : UInt32 := 8

def name : String := "Interrupt Controller"

def request (c : InterruptController) (bits : UInt16) : InterruptController :=
  { c with status := c.status ||| (bits &&& Interrupt.mask) }

def raise (c : InterruptController) (i : Interrupt) : InterruptController :=
  c.request i.bit

def acknowledge (c : InterruptController) (bits : UInt16) : InterruptController :=
  { c with status := c.status &&& ~~~bits }

/-- Some enabled source has asked. -/
def pending (c : InterruptController) : Bool :=
  c.status &&& c.mask != 0

def isRaised (c : InterruptController) (i : Interrupt) : Bool :=
  c.status &&& i.bit != 0

/-- A zero acknowledges, a one leaves the request alone. -/
def writeStatus (c : InterruptController) (value : UInt32) : InterruptController :=
  c.acknowledge (~~~value.toUInt16)

def writeMask (c : InterruptController) (value : UInt32) : InterruptController :=
  { c with mask := value.toUInt16 &&& Interrupt.mask }

def read (c : InterruptController) (offset : UInt32) (w : Width) : UInt32 :=
  let register :=
    if wordOf offset == 0 then c.status.toUInt32
    else if wordOf offset == 4 then c.mask.toUInt32
    else 0
  readLane register offset w

/-- A narrow write to I_STAT fills the other lanes with ones, so that it acknowledges nothing
there; one to I_MASK fills them with the present value. -/
def write (c : InterruptController) (offset : UInt32) (w : Width) (value : UInt32) :
    InterruptController :=
  if wordOf offset == 0 then c.writeStatus (writeLane 0xFFFFFFFF offset w value)
  else if wordOf offset == 4 then c.writeMask (writeLane c.mask.toUInt32 offset w value)
  else c

end InterruptController

end Psx
