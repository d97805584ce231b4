import Psx.Dma.Controller
import Psx.Gpu.Port
import Psx.Memory.Control
import Psx.Memory.Expansion
import Psx.Snapshot.Codec
import Psx.Timer.Bank

/-!
# Saved states of the chips

The fields of each chip in the order in which they are saved.
-/

namespace Psx

open Snapshot Snapshot.Codec

namespace InterruptController

def codec : Codec InterruptController :=
  (word16.pair word16).imap (fun c => (c.status, c.mask)) fun (status, mask) => { status, mask }

end InterruptController

namespace Timer

def Mode.codec : Codec Mode :=
  (bool.pair <| byte.pair <| bool.pair <| bool.pair <| bool.pair <| bool.pair <|
    bool.pair byte).imap
    (fun m => (m.syncEnable, m.syncMode, m.resetOnTarget, m.irqOnTarget, m.irqOnMax, m.irqRepeat,
      m.irqToggle, m.clockSource))
    fun (syncEnable, syncMode, resetOnTarget, irqOnTarget, irqOnMax, irqRepeat, irqToggle,
        clockSource) =>
      { syncEnable, syncMode, resetOnTarget, irqOnTarget, irqOnMax, irqRepeat, irqToggle,
        clockSource }

def Channel.codec : Codec Channel :=
  (word16.pair <| Mode.codec.pair <| word16.pair <| byte.pair <| bool.pair <| bool.pair <|
    bool.pair <| bool.pair <| bool.pair <| bool.pair nat64).imap
    (fun c => (c.counter, c.mode, c.target, c.id, c.line, c.reachedTarget, c.reachedMax, c.fired,
      c.inBlank, c.latched, c.prescale))
    fun (counter, mode, target, id, line, reachedTarget, reachedMax, fired, inBlank, latched,
        prescale) =>
      { counter, mode, target, id, line, reachedTarget, reachedMax, fired, inBlank, latched,
        prescale }

end Timer

def Timers.codec : Codec Timers :=
  ((Timer.Channel.codec.vector 3).pair word32).imap
    (fun t => (t.channels, t.dotDivider)) fun (channels, dotDivider) => { channels, dotDivider }

namespace Dma

def Progress.codec : Codec Progress :=
  choice
    (fun
      | .blocks .. => 0
      | .linkedList => 1
      | .orderingTable _ => 2)
    (fun p out => match p with
      | .blocks wordsLeft blocksLeft => nat32.put blocksLeft (nat32.put wordsLeft out)
      | .linkedList => out
      | .orderingTable entries => nat32.put entries out)
    (fun
      | 0 => do
        let wordsLeft ← nat32.get
        let blocksLeft ← nat32.get
        pure (.blocks wordsLeft blocksLeft)
      | 1 => pure .linkedList
      | 2 => .orderingTable <$> nat32.get
      | _ => failure)

def Channel.codec : Codec Channel :=
  (word32.pair <| word32.pair <| word32.pair <| byte.pair Progress.codec.option).imap
    (fun c => (c.address, c.blockControl, c.control, c.id, c.progress))
    fun (address, blockControl, control, id, progress) =>
      { address, blockControl, control, id, progress }

def codec : Codec Dma :=
  ((Channel.codec.vector 7).pair <| word32.pair <| word32.pair nat32).imap
    (fun d => (d.channels, d.control, d.interrupt, d.sliceGap))
    fun (channels, control, interrupt, sliceGap) => { channels, control, interrupt, sliceGap }

end Dma

def VideoStandard.codec : Codec VideoStandard :=
  nat32.filter
    (fun
      | .ntsc => 0
      | .pal => 1)
    fun
      | 0 => some .ntsc
      | 1 => some .pal
      | _ => none

namespace Gpu

def Status.codec : Codec Status :=
  (word16.pair <| bool.pair <| bool.pair <| bool.pair <| byte.pair <| bool.pair <| bool.pair <|
    bool.pair <| bool.pair <| bool.pair <| bool.pair <| bool.pair <| bool.pair byte).imap
    (fun s => (s.drawMode, s.textureDisable, s.setMask, s.checkMask, s.horizontalRes1,
      s.horizontalRes2, s.verticalRes, s.palMode, s.trueColor, s.interlaced, s.reversed,
      s.displayDisabled, s.interruptRequest, s.dmaDirection))
    fun (drawMode, textureDisable, setMask, checkMask, horizontalRes1, horizontalRes2,
        verticalRes, palMode, trueColor, interlaced, reversed, displayDisabled, interruptRequest,
        dmaDirection) =>
      { drawMode, textureDisable, setMask, checkMask, horizontalRes1, horizontalRes2, verticalRes,
        palMode, trueColor, interlaced, reversed, displayDisabled, interruptRequest,
        dmaDirection }

def DisplayArea.codec : Codec DisplayArea :=
  (word16.pair <| word16.pair <| word16.pair <| word16.pair <| word16.pair word16).imap
    (fun d => (d.x, d.y, d.x1, d.x2, d.y1, d.y2))
    fun (x, y, x1, x2, y1, y2) => { x, y, x1, x2, y1, y2 }

def Environment.codec : Codec Environment :=
  (word32.pair <| word32.pair <| word32.pair word32).imap
    (fun e => (e.textureWindow, e.areaTopLeft, e.areaBottomRight, e.offset))
    fun (textureWindow, areaTopLeft, areaBottomRight, offset) =>
      { textureWindow, areaTopLeft, areaBottomRight, offset }

/-- The words of the queue, its capacity, and how many words it dropped. -/
def CommandQueue.codec : Codec CommandQueue :=
  (word32.array.pair <| nat64.pair nat64).imap
    (fun q => (q.words, q.capacity, q.dropped))
    fun (words, capacity, dropped) => { words, capacity, dropped }

def Packet.codec : Codec Packet :=
  choice
    (fun
      | .idle => 0
      | .command .. => 1
      | .polyline _ => 2
      | .imageData _ => 3)
    (fun p out => match p with
      | .idle => out
      | .command opcode remaining => nat32.put remaining (byte.put opcode out)
      | .polyline mandatory => nat32.put mandatory out
      | .imageData remaining => nat32.put remaining out)
    (fun
      | 0 => pure .idle
      | 1 => do
        let opcode ← byte.get
        let remaining ← nat32.get
        pure (.command opcode remaining)
      | 2 => .polyline <$> nat32.get
      | 3 => .imageData <$> nat32.get
      | _ => failure)

def Beam.codec : Codec Beam :=
  (VideoStandard.codec.pair <| nat16.pair <| nat32.pair <| nat64.pair <| bool.pair bool).imap
    (fun b => (b.standard, b.line, b.lineCycle, b.frames, b.inHblank, b.inVblank))
    fun (standard, line, lineCycle, frames, inHblank, inVblank) =>
      { standard, line, lineCycle, frames, inHblank, inVblank }

def codec : Codec Gpu :=
  (Status.codec.pair <| DisplayArea.codec.pair <| Environment.codec.pair <|
    CommandQueue.codec.pair <| Packet.codec.pair <| word32.pair <| nat32.pair <|
    VideoStandard.codec.pair Beam.codec).imap
    (fun g => (g.status, g.display, g.environment, g.queue, g.packet, g.latch, g.vramReadWords,
      g.powerOnStandard, g.beam))
    fun (status, display, environment, queue, packet, latch, vramReadWords, powerOnStandard,
        beam) =>
      { status, display, environment, queue, packet, latch, vramReadWords, powerOnStandard, beam }

end Gpu

def MemoryControl.codec : Codec MemoryControl :=
  ((word32.vector 9).pair word32).imap
    (fun m => (m.registers, m.ramSize)) fun (registers, ramSize) => { registers, ramSize }

def Expansion.codec : Codec Expansion :=
  (byte.pair text).imap (fun e => (e.post, e.line)) fun (post, line) => { post, line }

end Psx
