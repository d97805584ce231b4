import Psx.Signal
import Psx.Timer.Channel

/-!
# The three timers

The first timer can count dots and is gated by the horizontal blank, the second can count lines and
is gated by the vertical blank, the third can count every eighth cycle. The bank holds the length
of a dot, which the video output sets.
-/

namespace Psx

/-- The timers and the length of a dot in video clocks. -/
structure Timers where
  channels : Vector Timer.Channel 3 := #v[{ id := 0 }, { id := 1 }, { id := 2 }]
  dotDivider : UInt32 := 8
deriving DecidableEq, Repr

namespace Timers

/-- Where the registers are mapped, sixteen bytes to a timer. -/
def base : UInt32 := 0x1F801100

def span : UInt32 := 0x30

def name : String := "Timers"

def modify (t : Timers) (i : Fin 3) (f : Timer.Channel → Timer.Channel) : Timers :=
  { t with channels := t.channels.set i (f t.channels[i]) }

def requests (asked : Bool) (i : Nat) : List Interrupt :=
  if asked then [.timer i] else []

/-- Lets cycles pass; the answer lists the timers that ask for attention. -/
def advance (t : Timers) (cycles : Nat) : List Interrupt × Timers :=
  let (r0, c0) := t.channels[0].advance cycles t.dotDivider
  let (r1, c1) := t.channels[1].advance cycles t.dotDivider
  let (r2, c2) := t.channels[2].advance cycles t.dotDivider
  (requests r0 0 ++ requests r1 1 ++ requests r2 2, { t with channels := #v[c0, c1, c2] })

/-- The horizontal blank gates the first timer and is a tick of the second if that counts lines. -/
def hblankBegin (t : Timers) : List Interrupt × Timers :=
  let t := t.modify 0 .blankBegin
  let c := t.channels[1]
  if c.clock == .hblank && c.isCounting then
    let (asked, c) := c.count 1
    (requests asked 1, t.modify 1 fun _ => c)
  else ([], t)

def hblankEnd (t : Timers) : Timers := t.modify 0 .blankEnd

def vblankBegin (t : Timers) : Timers := t.modify 1 .blankBegin

def vblankEnd (t : Timers) : Timers := t.modify 1 .blankEnd

/-- A dot is at least one video clock long. -/
def setDotDivider (t : Timers) (divider : UInt32) : Timers :=
  { t with dotDivider := max divider 1 }

def reset (t : Timers) : Timers where
  channels := t.channels.map .reset

/-- The timer whose registers hold an offset. -/
def channelAt? (offset : UInt32) : Option (Fin 3) :=
  let i := (offset >>> 4).toNat
  if h : i < 3 then some ⟨i, h⟩ else none

def read (t : Timers) (offset : UInt32) (w : Width) : UInt32 × Timers :=
  match channelAt? offset with
  | none => (0, t)
  | some i =>
    let c := t.channels[i]
    match offset &&& 0x0C with
    | 0x00 => (readLane c.counter.toUInt32 offset w, t)
    | 0x04 =>
      let (value, c) := c.readMode
      (readLane value.toUInt32 offset w, t.modify i fun _ => c)
    | 0x08 => (readLane c.target.toUInt32 offset w, t)
    | _ => (0, t)

/-- A narrow write keeps the other lanes of the counter, of the target and of the writable part of
the mode. -/
def write (t : Timers) (offset : UInt32) (w : Width) (value : UInt32) : Timers :=
  match channelAt? offset with
  | none => t
  | some i =>
    t.modify i fun c =>
      match offset &&& 0x0C with
      | 0x00 => c.writeCounter (writeLane c.counter.toUInt32 offset w value).toUInt16
      | 0x04 => c.writeMode (writeLane c.mode.bits.toUInt32 offset w value).toUInt16
      | 0x08 => c.writeTarget (writeLane c.target.toUInt32 offset w value).toUInt16
      | _ => c

end Timers

end Psx
