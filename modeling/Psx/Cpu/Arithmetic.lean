import Psx.Cpu.Instruction
import Psx.Width

/-!
# Arithmetic of the processor

Operations on 32-bit words. Those that trap on signed overflow answer with no value then.
-/

namespace Psx

def signBit (a : UInt32) : Bool := a &&& 0x80000000 != 0

def signedLess (a b : UInt32) : Bool := a.toInt32 < b.toInt32

/-- The sum, unless it overflows as a signed number: then it differs in sign from both operands. -/
def addChecked (a b : UInt32) : Option UInt32 :=
  if signBit (a ^^^ (a + b)) && signBit (b ^^^ (a + b)) then none else some (a + b)

/-- The difference, unless it overflows as a signed number: then the operands differ in sign and the
difference has not that of the first. -/
def subChecked (a b : UInt32) : Option UInt32 :=
  if signBit (a ^^^ b) && signBit (a ^^^ (a - b)) then none else some (a - b)

def ofBool (b : Bool) : UInt32 := if b then 1 else 0

/-- The result of an operation on two registers, if it does not trap. -/
def AluOp.eval (a b : UInt32) : AluOp → Option UInt32
  | add => addChecked a b
  | addu => some (a + b)
  | sub => subChecked a b
  | subu => some (a - b)
  | and => some (a &&& b)
  | or => some (a ||| b)
  | xor => some (a ^^^ b)
  | nor => some (~~~(a ||| b))
  | slt => some (ofBool (signedLess a b))
  | sltu => some (ofBool (a < b))

/-- The result of an operation on a register and a signed immediate, if it does not trap. -/
def ImmOp.eval (a imm : UInt32) : ImmOp → Option UInt32
  | addi => addChecked a imm
  | addiu => some (a + imm)
  | slti => some (ofBool (signedLess a imm))
  | sltiu => some (ofBool (a < imm))

def LogicOp.eval (a imm : UInt32) : LogicOp → UInt32
  | andi => a &&& imm
  | ori => a ||| imm
  | xori => a ^^^ imm

/-- A shift by the low five bits of an amount. -/
def ShiftOp.eval (a amount : UInt32) : ShiftOp → UInt32
  | sll => a <<< (amount &&& 0x1F)
  | srl => a >>> (amount &&& 0x1F)
  | sra => (a.toInt32 >>> (amount &&& 0x1F).toInt32).toUInt32

def split (product : UInt64) : UInt32 × UInt32 :=
  ((product >>> 32).toUInt32, product.toUInt32)

/-- The remainder and the quotient of a signed division toward zero. Nothing traps: by zero the
remainder is the dividend and the quotient is 1 or -1, against its sign; the one quotient that does
not fit is the dividend itself. -/
def signedDivide (a b : UInt32) : UInt32 × UInt32 :=
  if b = 0 then (a, if signBit a then 1 else 0xFFFFFFFF)
  else if a = 0x80000000 ∧ b = 0xFFFFFFFF then (0, 0x80000000)
  else ((a.toInt32 % b.toInt32).toUInt32, (a.toInt32 / b.toInt32).toUInt32)

def unsignedDivide (a b : UInt32) : UInt32 × UInt32 :=
  if b = 0 then (a, 0xFFFFFFFF) else (a % b, a / b)

/-- What an operation leaves in HI and in LO. -/
def MulDivOp.eval (a b : UInt32) : MulDivOp → UInt32 × UInt32
  | mult => split (a.toInt32.toInt64 * b.toInt32.toInt64).toUInt64
  | multu => split (a.toUInt64 * b.toUInt64)
  | div => signedDivide a b
  | divu => unsignedDivide a b

def EqBranch.test (a b : UInt32) : EqBranch → Bool
  | beq => a == b
  | bne => a != b

def ZeroBranch.test (a : UInt32) : ZeroBranch → Bool
  | blez => a == 0 || signBit a
  | bgtz => a != 0 && !signBit a

def SignBranch.test (a : UInt32) : SignBranch → Bool
  | bltz => signBit a
  | bgez => !signBit a

/-- A value of less than a word, sign-extended. -/
def signExtend (w : Width) (value : UInt32) : UInt32 :=
  match w with
  | .byte => if value &&& 0x80 != 0 then value ||| 0xFFFFFF00 else value
  | .half => if value &&& 0x8000 != 0 then value ||| 0xFFFF0000 else value
  | .word => value

def LoadOp.width : LoadOp → Width
  | lb | lbu => .byte
  | lh | lhu => .half
  | lw => .word

def LoadOp.extend (value : UInt32) : LoadOp → UInt32
  | lb => signExtend .byte value
  | lh => signExtend .half value
  | lw | lbu | lhu => value

def StoreOp.width : StoreOp → Width
  | sb => .byte
  | sh => .half
  | sw => .word

/-- What an unaligned load makes of a register and the aligned word it reads: the word is shifted so
that the addressed byte comes to the left or the right end, and the bytes that it does not reach
are kept. -/
def Side.merge (current word address : UInt32) : Side → UInt32
  | left =>
    match address &&& 3 with
    | 0 => (current &&& 0x00FFFFFF) ||| (word <<< (24 : UInt32))
    | 1 => (current &&& 0x0000FFFF) ||| (word <<< (16 : UInt32))
    | 2 => (current &&& 0x000000FF) ||| (word <<< (8 : UInt32))
    | _ => word
  | right =>
    match address &&& 3 with
    | 0 => word
    | 1 => (current &&& 0xFF000000) ||| (word >>> (8 : UInt32))
    | 2 => (current &&& 0xFFFF0000) ||| (word >>> (16 : UInt32))
    | _ => (current &&& 0xFFFFFF00) ||| (word >>> (24 : UInt32))

/-- The lanes of the aligned word that an unaligned store writes, as accesses of the widest kind
that fits. -/
def Side.pieces (address : UInt32) : Side → List (UInt32 × Width)
  | left =>
    match address &&& 3 with
    | 0 => [(0, .byte)]
    | 1 => [(0, .half)]
    | 2 => [(0, .half), (2, .byte)]
    | _ => [(0, .word)]
  | right =>
    match address &&& 3 with
    | 0 => [(0, .word)]
    | 1 => [(1, .byte), (2, .half)]
    | 2 => [(2, .half)]
    | _ => [(3, .byte)]

/-- The register shifted so that its bytes lie in the lanes that are written. -/
def Side.lanes (value address : UInt32) : Side → UInt32
  | left => value >>> ((3 - (address &&& 3)) * 8)
  | right => value <<< ((address &&& 3) * 8)

end Psx
