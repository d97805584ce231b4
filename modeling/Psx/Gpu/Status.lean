import Psx.Gpu.Video

/-!
# Registers of the video port

The status register field by field, the displayed area, and the drawing environment.
-/

namespace Psx.Gpu

/-- What the status register shows of the settings. The fields of more than one bit may hold more
than the register shows when a state is read back. -/
structure Status where
  drawMode : UInt16 := 0
  textureDisable : Bool := false
  setMask : Bool := false
  checkMask : Bool := false
  horizontalRes1 : UInt8 := 0
  horizontalRes2 : Bool := false
  verticalRes : Bool := false
  palMode : Bool := false
  trueColor : Bool := false
  interlaced : Bool := false
  reversed : Bool := false
  displayDisabled : Bool := true
  interruptRequest : Bool := false
  dmaDirection : UInt8 := 0
deriving DecidableEq, Repr

namespace Status

def flag (set : Bool) (place : UInt32) : UInt32 := if set then 1 <<< place else 0

/-- The settings as the status register shows them. Bit 13 is set while interlace is off. -/
def bits (s : Status) : UInt32 :=
  let drawMode : UInt32 := s.drawMode.toUInt32 &&& 0x07FF
  let horizontalRes : UInt32 := s.horizontalRes1.toUInt32 &&& 3
  let dmaDirection : UInt32 := s.dmaDirection.toUInt32 &&& 3
  drawMode ||| flag s.setMask 11 ||| flag s.checkMask 12 ||| flag (!s.interlaced) 13
    ||| flag s.reversed 14 ||| flag s.textureDisable 15 ||| flag s.horizontalRes2 16
    ||| (horizontalRes <<< 17) ||| flag s.verticalRes 19 ||| flag s.palMode 20
    ||| flag s.trueColor 21 ||| flag s.interlaced 22 ||| flag s.displayDisabled 23
    ||| flag s.interruptRequest 24 ||| (dmaDirection <<< 29)

def standard (s : Status) : VideoStandard := if s.palMode then .pal else .ntsc

def horizontalRes (s : Status) : HorizontalRes := .ofBits s.horizontalRes1 s.horizontalRes2

end Status

/-- The displayed part of video memory and its place on the screen. -/
structure DisplayArea where
  x : UInt16 := 0
  y : UInt16 := 0
  x1 : UInt16 := 0
  x2 : UInt16 := 0
  y1 : UInt16 := 0
  y2 : UInt16 := 0
deriving DecidableEq, Repr

/-- The words of the drawing environment as they were written. -/
structure Environment where
  textureWindow : UInt32 := 0
  areaTopLeft : UInt32 := 0
  areaBottomRight : UInt32 := 0
  offset : UInt32 := 0
deriving DecidableEq, Repr

namespace Environment

/-- The signed value of an 11-bit field. -/
def signed11 (field : UInt32) : Int :=
  (field &&& 0x7FF).toNat - (if field &&& 0x400 != 0 then 0x800 else 0)

def drawingOffset (e : Environment) : Int × Int :=
  (signed11 e.offset, signed11 (e.offset >>> 11))

/-- Left, top, right and bottom of the drawing area. -/
def drawingArea (e : Environment) : UInt32 × UInt32 × UInt32 × UInt32 :=
  (e.areaTopLeft &&& 0x3FF, (e.areaTopLeft >>> 10) &&& 0x1FF,
    e.areaBottomRight &&& 0x3FF, (e.areaBottomRight >>> 10) &&& 0x1FF)

end Environment

end Psx.Gpu
