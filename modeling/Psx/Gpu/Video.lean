/-!
# Video standards

The geometry of a frame in processor cycles and lines, and the horizontal resolutions with the
length of a dot in each.
-/

namespace Psx

inductive VideoStandard where
  | ntsc
  | pal
deriving DecidableEq, Repr

/-- Where the blanking intervals begin, and how long a line and a frame are. -/
structure VideoTiming where
  cyclesPerLine : Nat
  linesPerFrame : Nat
  vblankStart : Nat
  hblankStart : Nat
deriving DecidableEq, Repr

namespace VideoTiming

def cyclesPerFrame (t : VideoTiming) : Nat := t.cyclesPerLine * t.linesPerFrame

end VideoTiming

namespace VideoStandard

def timing : VideoStandard → VideoTiming
  | ntsc => { cyclesPerLine := 2146, linesPerFrame := 263, vblankStart := 240, hblankStart := 1610 }
  | pal => { cyclesPerLine := 2157, linesPerFrame := 314, vblankStart := 256, hblankStart := 1618 }

end VideoStandard

inductive HorizontalRes where
  | r256
  | r320
  | r368
  | r512
  | r640
deriving DecidableEq, Repr

namespace HorizontalRes

/-- The second field, if set, selects 368 dots whatever the first says. -/
def ofBits (first : UInt8) (second : Bool) : HorizontalRes :=
  if second then r368
  else match first &&& 3 with
    | 0 => r256
    | 1 => r320
    | 2 => r512
    | _ => r640

/-- The length of a dot in video clocks. -/
def dotDivider : HorizontalRes → UInt32
  | r256 => 10
  | r320 => 8
  | r368 => 7
  | r512 => 5
  | r640 => 4

end HorizontalRes

end Psx
