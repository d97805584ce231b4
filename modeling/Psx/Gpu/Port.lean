import Psx.Gpu.Beam
import Psx.Gpu.CommandQueue
import Psx.Gpu.Packet
import Psx.Gpu.Status

/-!
# The video port

The host side of the video chip: the drawing port, whose words are captured in a queue and framed
into packets, the control port, the status register, and the beam. Commands that draw have no
effect here beyond their framing; those that change a register, ask for attention or announce a
copy to the host do.
-/

namespace Psx

structure Gpu where
  status : Gpu.Status := {}
  display : Gpu.DisplayArea := {}
  environment : Gpu.Environment := {}
  queue : Gpu.CommandQueue
  packet : Gpu.Packet := .idle
  /-- What the read port holds. -/
  latch : UInt32 := 0
  /-- Words of a copy to the host that have not been read yet. -/
  vramReadWords : Nat := 0
  powerOnStandard : VideoStandard
  beam : Gpu.Beam
deriving DecidableEq, Repr

namespace Gpu

def base : UInt32 := 0x1F801810

def span : UInt32 := 8

def name : String := "GPU"

def initial (capacity : Nat) (standard : VideoStandard) : Gpu where
  status := { palMode := standard = .pal }
  queue := .empty capacity
  powerOnStandard := standard
  beam := { standard }

/-- What the port drives to tell the timers how long a dot is. -/
def dotClock (g : Gpu) : List Signal := [.dotClock g.status.horizontalRes.dotDivider]

/-- Power on with the queue size and standard of this port. -/
def reset (g : Gpu) : List Signal × Gpu :=
  let g := initial g.queue.capacity g.powerOnStandard
  (g.dotClock, g)

/-! ### Status -/

/-- Whether the port asks for DMA, which depends on the direction it is set to. -/
def dmaRequest (g : Gpu) : Bool :=
  if g.status.dmaDirection == 0 then false
  else if g.status.dmaDirection == 1 then g.queue.size < g.queue.capacity
  else if g.status.dmaDirection == 2 then true
  else g.vramReadWords > 0

/-- The status register. The port is always ready for a word; bit 31 is set on odd lines outside
the vertical blank. -/
def statusWord (g : Gpu) : UInt32 :=
  g.status.bits ||| Status.flag g.dmaRequest 25 ||| Status.flag true 26
    ||| Status.flag (g.vramReadWords > 0) 27 ||| Status.flag true 28
    ||| Status.flag (!g.beam.inVblank && g.beam.line % 2 == 1) 31

def isIdle (g : Gpu) : Bool := g.packet == .idle

/-! ### The drawing port -/

def execute (g : Gpu) (opcode : UInt8) (word : UInt32) : List Signal × Gpu :=
  match opcode with
  | 0x1F =>
    if g.status.interruptRequest then ([], g)
    else ([.raise .gpu], { g with status.interruptRequest := true })
  | 0xE1 =>
    ([], { g with
      status.drawMode := (word &&& 0x7FF).toUInt16
      status.textureDisable := word &&& 0x800 != 0 })
  | 0xE2 => ([], { g with environment.textureWindow := word &&& 0x000FFFFF })
  | 0xE3 => ([], { g with environment.areaTopLeft := word &&& 0x0007FFFF })
  | 0xE4 => ([], { g with environment.areaBottomRight := word &&& 0x0007FFFF })
  | 0xE5 => ([], { g with environment.offset := word &&& 0x003FFFFF })
  | 0xE6 =>
    ([], { g with status.setMask := word &&& 1 != 0, status.checkMask := word &&& 2 != 0 })
  | _ => ([], g)

/-- Frames a word and does what it completes. -/
def frame (g : Gpu) (word : UInt32) : List Signal × Gpu :=
  let (packet, effect) := g.packet.feed word
  let g := { g with packet }
  match effect with
  | .none => ([], g)
  | .execute opcode word => g.execute opcode word
  | .imageRead words => ([], { g with vramReadWords := words })

/-- A word written to the drawing port. -/
def writeGp0 (g : Gpu) (word : UInt32) : List Signal × Gpu :=
  { g with queue := g.queue.push word }.frame word

/-- Reads the read port, which yields zeros while a copy to the host lasts. -/
def readLatch (g : Gpu) : UInt32 × Gpu :=
  if g.vramReadWords > 0 then (0, { g with vramReadWords := g.vramReadWords - 1, latch := 0 })
  else (g.latch, g)

/-- Takes the captured words. -/
def drain (g : Gpu) : List UInt32 × Gpu :=
  (g.queue.toList, { g with queue := g.queue.clear })

/-! ### The control port -/

def resetCommands (g : Gpu) : Gpu :=
  { g with queue := g.queue.clear, packet := .idle, vramReadWords := 0 }

/-- The beam follows the standard that the status selects. -/
def applyStandard (g : Gpu) : Gpu :=
  { g with beam := g.beam.setStandard g.status.standard }

def resetPort (g : Gpu) : List Signal × Gpu :=
  let g := { g.resetCommands with status := {}, display := {}, environment := {} }.applyStandard
  (g.dotClock, g)

def setDisplayMode (g : Gpu) (value : UInt32) : List Signal × Gpu :=
  let g := { g with
    status.horizontalRes1 := (value &&& 3).toUInt8
    status.verticalRes := value &&& 0x04 != 0
    status.palMode := value &&& 0x08 != 0
    status.trueColor := value &&& 0x10 != 0
    status.interlaced := value &&& 0x20 != 0
    status.horizontalRes2 := value &&& 0x40 != 0
    status.reversed := value &&& 0x80 != 0 }.applyStandard
  (g.dotClock, g)

/-- What the read port is given on a request for information, if anything. -/
def info? (g : Gpu) (value : UInt32) : Option UInt32 :=
  match value &&& 0x0F with
  | 0x02 => some g.environment.textureWindow
  | 0x03 => some g.environment.areaTopLeft
  | 0x04 => some g.environment.areaBottomRight
  | 0x05 => some g.environment.offset
  | 0x07 => some 2
  | _ => none

/-- A word written to the control port; commands repeat every 64 opcodes. -/
def writeGp1 (g : Gpu) (value : UInt32) : List Signal × Gpu :=
  match (value >>> 24) &&& 0x3F with
  | 0x00 => g.resetPort
  | 0x01 => ([], g.resetCommands)
  | 0x02 => ([], { g with status.interruptRequest := false })
  | 0x03 => ([], { g with status.displayDisabled := value &&& 1 != 0 })
  | 0x04 => ([], { g with status.dmaDirection := (value &&& 3).toUInt8 })
  | 0x05 =>
    ([], { g with
      display.x := (value &&& 0x3FF).toUInt16
      display.y := ((value >>> 10) &&& 0x1FF).toUInt16 })
  | 0x06 =>
    ([], { g with
      display.x1 := (value &&& 0xFFF).toUInt16
      display.x2 := ((value >>> 12) &&& 0xFFF).toUInt16 })
  | 0x07 =>
    ([], { g with
      display.y1 := (value &&& 0x3FF).toUInt16
      display.y2 := ((value >>> 10) &&& 0x3FF).toUInt16 })
  | 0x08 => g.setDisplayMode value
  | command =>
    if 0x10 ≤ command && command ≤ 0x1F then
      ([], { g with latch := (g.info? value).getD g.latch })
    else ([], g)

/-! ### The bus side -/

def read (g : Gpu) (offset : UInt32) (w : Width) : UInt32 × Gpu :=
  if wordOf offset == 0 then
    let (value, g) := g.readLatch
    (readLane value offset w, g)
  else (readLane g.statusWord offset w, g)

/-- Writes of any width are taken as whole words. -/
def write (g : Gpu) (offset : UInt32) (value : UInt32) : List Signal × Gpu :=
  if wordOf offset == 0 then g.writeGp0 value else g.writeGp1 value

def advance (g : Gpu) (cycles : Nat) : List Signal × Gpu :=
  let (signals, beam) := g.beam.advance cycles
  (signals, { g with beam })

/-- Cycles to the next point at which the beam may drive a pulse. -/
def untilEvent (g : Gpu) : Nat := max g.beam.cyclesToPulse 1

end Gpu

end Psx
