import Psx.Config.Basic
import Psx.Device
import Psx.Snapshot.Chips

/-!
# The board

The chips of the core and the devices attached to them. Each part answers the same operations; the
board hands an operation to a part and delivers the signals that the part drives. Signals only ever
reach the interrupt controller and the timers, which are therefore kept apart as `Lines`.
-/

namespace Psx

/-- What signals reach. -/
structure Lines where
  interrupts : InterruptController := {}
  timers : Timers := {}
deriving DecidableEq, Repr

namespace Lines

def raise (l : Lines) (i : Interrupt) : Lines :=
  { l with interrupts := l.interrupts.raise i }

def raiseAll (l : Lines) (is : List Interrupt) : Lines := is.foldl raise l

def deliver (l : Lines) : Signal → Lines
  | .raise i => l.raise i
  | .hblankBegin =>
    let (asked, timers) := l.timers.hblankBegin
    { l with timers }.raiseAll asked
  | .hblankEnd => { l with timers := l.timers.hblankEnd }
  | .vblankBegin => { l with timers := l.timers.vblankBegin }
  | .vblankEnd => { l with timers := l.timers.vblankEnd }
  | .dotClock divider => { l with timers := l.timers.setDotDivider divider }

def deliverAll (l : Lines) (signals : List Signal) : Lines := signals.foldl deliver l

def advance (l : Lines) (cycles : Nat) : Lines :=
  let (asked, timers) := l.timers.advance cycles
  { l with timers }.raiseAll asked

end Lines

/-- A part of the board; an external device is named by its place. -/
inductive Part where
  | interrupts
  | timers
  | dma
  | memoryControl
  | expansion
  | gpu
  | external (place : Nat)
deriving DecidableEq, Repr

/-- The chips, the external devices, and the lines the boot program has printed. -/
structure Board (δ : Type) where
  lines : Lines := {}
  dma : Dma
  gpu : Gpu
  memoryControl : MemoryControl := {}
  expansion : Expansion := {}
  externals : Array (External δ) := #[]
  console : Array String := #[]

namespace Board

variable {δ : Type}

/-- The chips as a configuration asks for them, with the dot clock of the video port applied. -/
def ofConfig (config : SessionConfig) : Board δ :=
  let gpu := Gpu.initial config.gpuFifoCapacity config.video
  { lines := Lines.deliverAll {} gpu.dotClock
    dma := .initial config.dma.sliceGapCycles
    gpu }

def deliver (b : Board δ) (signals : List Signal) : Board δ :=
  { b with lines := b.lines.deliverAll signals }

/-- Raises the interrupt of the DMA controller if it asks for it. -/
def withDma (b : Board δ) (asks : Bool) (dma : Dma) : Board δ :=
  { b with dma, lines := if asks then b.lines.raise .dma else b.lines }

@[inline] def withGpu (b : Board δ) (signals : List Signal) (gpu : Gpu) : Board δ :=
  { b with gpu, lines := b.lines.deliverAll signals }

/-- Puts an external device back, delivering what it drives if it is wired. -/
def withExternal (b : Board δ) (place : Nat) (e : External δ) (signals : List Signal)
    (device : δ) : Board δ :=
  { b with
    externals := b.externals.setIfInBounds place { e with device }
    lines := if e.wired then b.lines.deliverAll signals else b.lines }

/-- Adds an external device; the answer is the part it becomes. -/
def plug (b : Board δ) (device : δ) : Part × Board δ :=
  (.external b.externals.size, { b with externals := b.externals.push { device } })

/-- Wires a part to the lines. The video port drives its dot clock at once. -/
def connect (b : Board δ) : Part → Board δ
  | .gpu => b.deliver b.gpu.dotClock
  | .external i => { b with externals := b.externals.modify i fun e => { e with wired := true } }
  | _ => b

variable [Device δ]

def nameOf (b : Board δ) : Part → String
  | .interrupts => InterruptController.name
  | .timers => Timers.name
  | .dma => Dma.name
  | .memoryControl => MemoryControl.name
  | .expansion => Expansion.name
  | .gpu => Gpu.name
  | .external i => (b.externals[i]?.map fun e => Device.name e.device).getD ""

def read (b : Board δ) (part : Part) (offset : UInt32) (w : Width) : UInt32 × Board δ :=
  match part with
  | .interrupts => (b.lines.interrupts.read offset w, b)
  | .timers =>
    let (value, timers) := b.lines.timers.read offset w
    (value, { b with lines.timers := timers })
  | .dma => (b.dma.read offset w, b)
  | .memoryControl => (b.memoryControl.read offset w, b)
  | .expansion => (b.expansion.read offset w, b)
  | .gpu =>
    let (value, gpu) := b.gpu.read offset w
    (value, { b with gpu })
  | .external i =>
    match b.externals[i]? with
    | none => (0, b)
    | some e =>
      let (value, device) := Device.read e.device offset w
      (value, b.withExternal i e [] device)

def write (b : Board δ) (part : Part) (offset : UInt32) (w : Width) (value : UInt32) : Board δ :=
  match part with
  | .interrupts => { b with lines.interrupts := b.lines.interrupts.write offset w value }
  | .timers => { b with lines.timers := b.lines.timers.write offset w value }
  | .dma =>
    let (asks, dma) := b.dma.write offset w value
    b.withDma asks dma
  | .memoryControl => { b with memoryControl := b.memoryControl.write offset w value }
  | .expansion =>
    let (line, expansion) := b.expansion.write offset value
    { b with expansion, console := line.elim b.console b.console.push }
  | .gpu =>
    let (signals, gpu) := b.gpu.write offset value
    b.withGpu signals gpu
  | .external i =>
    match b.externals[i]? with
    | none => b
    | some e =>
      let (signals, device) := Device.write e.device offset w value
      b.withExternal i e signals device

/-- Hands a part a word that a DMA channel moved out of RAM. -/
def consume (b : Board δ) (part : Part) (channel : Nat) (word : UInt32) : Board δ :=
  match part with
  | .gpu =>
    let (signals, gpu) := b.gpu.writeGp0 word
    b.withGpu signals gpu
  | .external i =>
    match b.externals[i]? with
    | none => b
    | some e =>
      let (signals, device) := Device.consume e.device channel word
      b.withExternal i e signals device
  | _ => b

/-- Takes a word from a part for a DMA channel to move into RAM. -/
def produce (b : Board δ) (part : Part) (channel : Nat) : UInt32 × Board δ :=
  match part with
  | .gpu =>
    let (value, gpu) := b.gpu.readLatch
    (value, { b with gpu })
  | .external i =>
    match b.externals[i]? with
    | none => (0, b)
    | some e =>
      let (value, device) := Device.produce e.device channel
      (value, b.withExternal i e [] device)
  | _ => (0, b)

def advance (b : Board δ) (cycles : Nat) : Part → Board δ
  | .timers => { b with lines := b.lines.advance cycles }
  | .gpu =>
    let (signals, gpu) := b.gpu.advance cycles
    b.withGpu signals gpu
  | .external i =>
    match b.externals[i]? with
    | none => b
    | some e =>
      let (signals, device) := Device.advance e.device cycles
      b.withExternal i e signals device
  | _ => b

/-- Cycles to the next point at which a part may do something by itself. -/
def untilEvent (b : Board δ) : Part → Option Nat
  | .gpu => some b.gpu.untilEvent
  | .external i => b.externals[i]?.bind fun e => Device.untilEvent e.device
  | _ => none

/-- Power-on state of a part. What the boot program printed stays. -/
def reset (b : Board δ) : Part → Board δ
  | .interrupts => { b with lines.interrupts := {} }
  | .timers => { b with lines.timers := b.lines.timers.reset }
  | .dma => { b with dma := b.dma.reset }
  | .memoryControl => { b with memoryControl := {} }
  | .expansion => { b with expansion := {} }
  | .gpu =>
    let (signals, gpu) := b.gpu.reset
    b.withGpu signals gpu
  | .external i =>
    match b.externals[i]? with
    | none => b
    | some e => b.withExternal i e [] (Device.reset e.device)

def save (b : Board δ) : Part → ByteArray
  | .interrupts => InterruptController.codec.encode b.lines.interrupts
  | .timers => Timers.codec.encode b.lines.timers
  | .dma => Dma.codec.encode b.dma
  | .memoryControl => MemoryControl.codec.encode b.memoryControl
  | .expansion => Expansion.codec.encode b.expansion
  | .gpu => Gpu.codec.encode b.gpu
  | .external i => (b.externals[i]?.map fun e => Device.save e.device).getD .empty

/-- A state that cannot be read. -/
def malformed : Error := .snapshotDecode "malformed state"

def decode (codec : Snapshot.Codec α) (data : ByteArray) : Except Error α :=
  match codec.decode? data with
  | some a => .ok a
  | none => .error malformed

/-- Puts a part into a saved state. The video port then drives its dot clock. -/
def load (b : Board δ) (part : Part) (data : ByteArray) : Except Error (Board δ) :=
  match part with
  | .interrupts => do
    let interrupts ← decode InterruptController.codec data
    pure { b with lines.interrupts := interrupts }
  | .timers => do
    let timers ← decode Timers.codec data
    pure { b with lines.timers := timers }
  | .dma => do
    let dma ← decode Dma.codec data
    pure { b with dma }
  | .memoryControl => do
    let memoryControl ← decode MemoryControl.codec data
    pure { b with memoryControl }
  | .expansion => do
    let expansion ← decode Expansion.codec data
    pure { b with expansion }
  | .gpu => do
    let gpu ← decode Gpu.codec data
    pure (b.withGpu gpu.dotClock gpu)
  | .external i =>
    match b.externals[i]? with
    | none => .ok b
    | some e => do
      let device ← Device.load e.device data
      pure (b.withExternal i e [] device)

/-- What is left after a part has refused a state. The chips of the core read a state whole before
they take any of it. -/
def spoil (b : Board δ) (part : Part) (data : ByteArray) : Board δ :=
  match part with
  | .external i =>
    match b.externals[i]? with
    | none => b
    | some e => b.withExternal i e [] (Device.spoil e.device data)
  | _ => b

end Board

end Psx
