/-!
# Packets of drawing commands

Words written to the drawing port form packets. The first word of a packet holds the opcode in its
top byte, and the opcode says how the packet goes on: with a fixed number of words, with image data
whose amount the last fixed word gives, or with words up to a terminator. `Packet.feed` takes one
word and says what it completes; only the first word of a packet is looked at as a command.
-/

namespace Psx.Gpu

/-- How long the packet of an opcode is, its first word included. -/
inductive PacketLength where
  | words (n : Nat)
  /-- So many words and then words up to a terminator. -/
  | polyline (mandatory : Nat)
deriving DecidableEq, Repr

def isTerminator (word : UInt32) : Bool := word &&& 0xF000F000 == 0x50005000

/-- The words that hold an image of two pixels each, given its size word. -/
def imageWords (size : UInt32) : Nat :=
  let width := (((size &&& 0xFFFF) - 1) &&& 0x3FF).toNat + 1
  let height := (((size >>> 16) - 1) &&& 0x1FF).toNat + 1
  (width * height + 1) / 2

def bitOf (opcode bit : UInt8) : Nat := if opcode &&& bit != 0 then 1 else 0

/-- A polygon has three or four vertices, each with a texture coordinate if it is textured and, but
for the first, with a colour if it is shaded. -/
def polygonLength (opcode : UInt8) : Nat :=
  let vertices := 3 + bitOf opcode 0x08
  let colors := if opcode &&& 0x10 != 0 then vertices - 1 else 0
  1 + vertices * (1 + bitOf opcode 0x04) + colors

def lineLength (opcode : UInt8) : PacketLength :=
  let shaded := bitOf opcode 0x10
  if opcode &&& 0x08 != 0 then .polyline (2 + shaded) else .words (3 + shaded)

/-- A rectangle of free size carries its size. -/
def rectangleLength (opcode : UInt8) : Nat :=
  2 + bitOf opcode 0x04 + (if opcode &&& 0x18 == 0 then 1 else 0)

def packetLength (opcode : UInt8) : PacketLength :=
  if opcode == 0x02 then .words 3
  else if opcode < 0x20 then .words 1
  else if opcode < 0x40 then .words (polygonLength opcode)
  else if opcode < 0x60 then lineLength opcode
  else if opcode < 0x80 then .words (rectangleLength opcode)
  else if opcode < 0xA0 then .words 4
  else if opcode < 0xE0 then .words 3
  else .words 1

/-- Where in a packet the stream of words is. -/
inductive Packet where
  | idle
  | command (opcode : UInt8) (remaining : Nat)
  | polyline (mandatory : Nat)
  | imageData (remaining : Nat)
deriving DecidableEq, Repr

/-- What a word does besides moving on in its packet. -/
inductive Effect where
  | none
  /-- A command of one word. -/
  | execute (opcode : UInt8) (word : UInt32)
  /-- A copy to the host, of so many words. -/
  | imageRead (words : Nat)
deriving DecidableEq, Repr

namespace Packet

/-- The top byte of a first word. -/
def opcodeOf (word : UInt32) : UInt8 := (word >>> 24).toUInt8

def first (word : UInt32) : Packet × Effect :=
  let opcode := opcodeOf word
  match packetLength opcode with
  | .words 1 => (idle, .execute opcode word)
  | .words n => (command opcode (n - 1), .none)
  | .polyline mandatory => (polyline mandatory, .none)

/-- The last fixed word of a packet has come. -/
def complete (opcode : UInt8) (last : UInt32) : Packet × Effect :=
  if opcode < 0xA0 then (idle, .none)
  else if opcode < 0xC0 then (imageData (imageWords last), .none)
  else if opcode < 0xE0 then (idle, .imageRead (imageWords last))
  else (idle, .none)

def feed (word : UInt32) : Packet → Packet × Effect
  | idle => first word
  | command opcode remaining =>
    if remaining > 1 then (command opcode (remaining - 1), .none) else complete opcode word
  | polyline mandatory =>
    if mandatory > 0 then (polyline (mandatory - 1), .none)
    else if isTerminator word then (idle, .none)
    else (polyline 0, .none)
  | imageData remaining =>
    if remaining > 1 then (imageData (remaining - 1), .none) else (idle, .none)

end Packet

end Psx.Gpu
