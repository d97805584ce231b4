import Psx.Timer.Mode
import Psx.Timer.Count

/-!
# One timer

A timer turns the cycles that pass into ticks of its clock, counts them, and asks for attention
when an enabled crossing occurs. A divided clock keeps what does not yet make a tick in
`prescale`, so no fraction of it is lost when time is cut into pieces.

The request line is high at rest. A request is the fall of the line: in pulse mode every event
pulls it low and a read of the mode register lifts it again, in toggle mode every event flips it.
-/

namespace Psx.Timer

/-- A counter with its mode, its target and the state of its request line. -/
structure Channel where
  counter : UInt16 := 0
  mode : Mode := {}
  target : UInt16 := 0
  id : UInt8
  /-- Level of the request line. -/
  line : Bool := true
  reachedTarget : Bool := false
  reachedMax : Bool := false
  /-- An event has occurred since the mode was written. -/
  fired : Bool := false
  inBlank : Bool := false
  /-- A blanking interval has begun since the mode was written. -/
  latched : Bool := false
  /-- What the divided clock has not turned into a tick yet. -/
  prescale : Nat := 0
deriving DecidableEq, Repr

namespace Channel

/-- The clock a mode selects depends on which timer it is: only the first can count dots, only the
second lines, only the third every eighth cycle. -/
def clock (c : Channel) : Clock :=
  if c.id == 0 then
    if c.mode.clockSource == 1 || c.mode.clockSource == 3 then .dot else .system
  else if c.id == 1 then
    if c.mode.clockSource == 1 || c.mode.clockSource == 3 then .hblank else .system
  else if c.id == 2 then
    if c.mode.clockSource == 2 || c.mode.clockSource == 3 then .systemEighth else .system
  else .system

/-- Whether ticks are counted now. The third timer has no blanking interval: with sync enabled it
either stands still or runs free. -/
def isCounting (c : Channel) : Bool :=
  if !c.mode.syncEnable then true
  else if c.id == 2 then c.mode.syncMode == 1 || c.mode.syncMode == 2
  else if c.mode.syncMode == 0 then !c.inBlank
  else if c.mode.syncMode == 1 then true
  else if c.mode.syncMode == 2 then c.inBlank
  else c.latched

/-- The mode register as it reads: the mode, the line and the two crossing flags. -/
def modeBits (c : Channel) : UInt16 :=
  c.mode.bits
    ||| (c.line.toUInt16 <<< 10)
    ||| (c.reachedTarget.toUInt16 <<< 11)
    ||| (c.reachedMax.toUInt16 <<< 12)

/-- Reading the mode clears the crossing flags and, unless the line toggles, lifts it. -/
def readMode (c : Channel) : UInt16 × Channel :=
  (c.modeBits,
    { c with
      reachedTarget := false
      reachedMax := false
      line := c.line || !c.mode.irqToggle })

/-- Writing the mode starts the timer over. -/
def writeMode (c : Channel) (value : UInt16) : Channel :=
  { c with
    mode := .ofBits value
    counter := 0
    line := true
    fired := false
    latched := false
    prescale := 0 }

def writeCounter (c : Channel) (value : UInt16) : Channel :=
  { c with counter := value }

def writeTarget (c : Channel) (value : UInt16) : Channel :=
  { c with target := value }

/-- Adds to what the divided clock has kept and takes the whole periods out as ticks. -/
def divide (c : Channel) (amount period : Nat) : Nat × Channel :=
  ((c.prescale + amount) / period, { c with prescale := (c.prescale + amount) % period })

/-- How many ticks the timer's clock makes in so many cycles. A dot takes `dotDivider` video
clocks, of which eleven pass in seven cycles. -/
def ticks (c : Channel) (cycles : Nat) (dotDivider : UInt32) : Nat × Channel :=
  if !c.isCounting then (0, c)
  else match c.clock with
    | .system => (cycles, c)
    | .hblank => (0, c)
    | .systemEighth => c.divide cycles 8
    | .dot => c.divide (cycles * 11) (7 * max dotDivider.toNat 1)

/-- What `n` enabled crossings do to the request line, and whether it fell. Without repeat only
the first event after a mode write counts. -/
def event (c : Channel) (n : Nat) : Bool × Channel :=
  if !c.mode.irqRepeat && c.fired then (false, c)
  else if c.mode.irqToggle then
    let flips := if c.mode.irqRepeat then n else 1
    (c.line || decide (flips ≥ 2),
      { c with fired := true, line := c.line ^^ (flips % 2 == 1) })
  else (true, { c with fired := true, line := false })

/-- Counts ticks; the answer says whether the timer asks for attention. -/
def count (c : Channel) (ticks : Nat) : Bool × Channel :=
  if ticks = 0 then (false, c)
  else
    let (value, hits) :=
      countBy c.mode.resetOnTarget c.target.toNat c.counter.toNat ticks
    let c := { c with
      counter := .ofNat value
      reachedTarget := c.reachedTarget || decide (hits.target > 0)
      reachedMax := c.reachedMax || decide (hits.max > 0) }
    let events :=
      (if c.mode.irqOnTarget then hits.target else 0) + (if c.mode.irqOnMax then hits.max else 0)
    if events = 0 then (false, c) else c.event events

def advance (c : Channel) (cycles : Nat) (dotDivider : UInt32) : Bool × Channel :=
  let (ticks, c) := c.ticks cycles dotDivider
  c.count ticks

/-- A blanking interval begins: depending on the sync mode the counter starts over or the timer is
let loose. -/
def blankBegin (c : Channel) : Channel :=
  let c := { c with inBlank := true }
  if !c.mode.syncEnable || c.id == 2 then c
  else if c.mode.syncMode == 1 || c.mode.syncMode == 2 then { c with counter := 0 }
  else if c.mode.syncMode == 3 then { c with latched := true }
  else c

def blankEnd (c : Channel) : Channel :=
  { c with inBlank := false }

/-- The power-on state of the same timer. -/
def reset (c : Channel) : Channel :=
  { id := c.id }

end Channel

end Psx.Timer
