import Psx.Width

/-!
# Little-endian loads and stores

Values of one to four bytes in a byte array, the low byte first. A byte outside the array reads as
zero and a store to one has no effect; the bus never makes such an access, because it aligns
addresses and its arrays have sizes that are multiples of four.
-/

namespace Psx.Bytes

def byteAt (b : ByteArray) (i : Nat) : UInt8 :=
  if h : i < b.size then b[i] else 0

def setByte (b : ByteArray) (i : Nat) (value : UInt8) : ByteArray :=
  if h : i < b.size then b.set i value h else b

def load (b : ByteArray) (i : Nat) : Width → UInt32
  | .byte => (byteAt b i).toUInt32
  | .half => (byteAt b i).toUInt32 ||| ((byteAt b (i + 1)).toUInt32 <<< 8)
  | .word =>
    (byteAt b i).toUInt32 ||| ((byteAt b (i + 1)).toUInt32 <<< 8)
      ||| ((byteAt b (i + 2)).toUInt32 <<< 16) ||| ((byteAt b (i + 3)).toUInt32 <<< 24)

def store (b : ByteArray) (i : Nat) (w : Width) (value : UInt32) : ByteArray :=
  match w with
  | .byte => setByte b i value.toUInt8
  | .half => setByte (setByte b i value.toUInt8) (i + 1) (value >>> 8).toUInt8
  | .word =>
    setByte
      (setByte (setByte (setByte b i value.toUInt8) (i + 1) (value >>> 8).toUInt8)
        (i + 2) (value >>> 16).toUInt8)
      (i + 3) (value >>> 24).toUInt8

/-- The four bytes of a word, the low byte first. -/
def ofWord (value : UInt32) : List UInt8 :=
  [value.toUInt8, (value >>> 8).toUInt8, (value >>> 16).toUInt8, (value >>> 24).toUInt8]

def zeros (n : Nat) : ByteArray := ⟨Array.replicate n 0⟩

end Psx.Bytes
