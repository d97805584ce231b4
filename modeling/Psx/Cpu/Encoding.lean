/-!
# Fields of an instruction word
-/

namespace Psx

/-- The number of a register, of the processor or of a coprocessor. -/
abbrev Reg := Fin 32

instance Reg.neZero : @NeZero Nat Zero.ofOfNat0 32 := Nat.instNeZeroSucc

/-- Registers by their numbers. -/
abbrev RegisterFile := Vector UInt32 32

namespace RegisterFile

def read (f : RegisterFile) (r : Reg) : UInt32 := f[r]

def write (f : RegisterFile) (r : Reg) (value : UInt32) : RegisterFile := f.set r value

end RegisterFile

abbrev CopNumber := Fin 4

instance CopNumber.neZero : @NeZero Nat Zero.ofOfNat0 4 := Nat.instNeZeroSucc

namespace Encoding

variable (w : UInt32)

def opcode : UInt32 := w >>> 26

def rs : UInt32 := (w >>> 21) &&& 0x1F

def rt : UInt32 := (w >>> 16) &&& 0x1F

def rd : UInt32 := (w >>> 11) &&& 0x1F

def shamt : UInt32 := (w >>> 6) &&& 0x1F

/-- What selects an operation within the first opcode. -/
def funct : UInt32 := w &&& 0x3F

def imm : UInt32 := w &&& 0xFFFF

def immSigned : UInt32 := if w &&& 0x8000 != 0 then imm w ||| 0xFFFF0000 else imm w

/-- The distance of a branch in bytes. -/
def branchOffset : UInt32 := immSigned w <<< 2

/-- The word address of a jump within its 256 MB. -/
def target : UInt32 := w &&& 0x03FFFFFF

def coprocessor : UInt32 := (w >>> 26) &&& 3

/-- The kind of a move to or from a coprocessor. -/
def copOp : UInt32 := (w >>> 21) &&& 0x1F

/-- The word is a command to a coprocessor rather than a move. -/
def isCopCommand : Bool := w &&& 0x02000000 != 0

end Encoding

end Psx
