import Psx.Cpu.Instruction
import Psx.Hex

/-!
# Written instructions

The line in which a trace shows an instruction. Branches and jumps show the address they go to,
which depends on where the instruction stands. A word that encodes nothing is shown as question
marks and its digits.
-/

namespace Psx

def branchTarget (pc offset : UInt32) : UInt32 := pc + 4 + offset

/-- The address a jump goes to: a word address in the 256 MB of the instruction after the jump. -/
def jumpTarget (pc target : UInt32) : UInt32 := ((pc + 4) &&& 0xF0000000) ||| (target <<< (2 : UInt32))

def ShiftOp.text : ShiftOp → String
  | .sll => "sll"
  | .srl => "srl"
  | .sra => "sra"

def AluOp.text : AluOp → String
  | .add => "add"
  | .addu => "addu"
  | .sub => "sub"
  | .subu => "subu"
  | .and => "and"
  | .or => "or"
  | .xor => "xor"
  | .nor => "nor"
  | .slt => "slt"
  | .sltu => "sltu"

def ImmOp.text : ImmOp → String
  | .addi => "addi"
  | .addiu => "addiu"
  | .slti => "slti"
  | .sltiu => "sltiu"

def LogicOp.text : LogicOp → String
  | .andi => "andi"
  | .ori => "ori"
  | .xori => "xori"

def MulDivOp.text : MulDivOp → String
  | .mult => "mult"
  | .multu => "multu"
  | .div => "div"
  | .divu => "divu"

def EqBranch.text : EqBranch → String
  | .beq => "beq"
  | .bne => "bne"

def ZeroBranch.text : ZeroBranch → String
  | .blez => "blez"
  | .bgtz => "bgtz"

def SignBranch.text : SignBranch → String
  | .bltz => "bltz"
  | .bgez => "bgez"

def LoadOp.text : LoadOp → String
  | .lb => "lb"
  | .lh => "lh"
  | .lw => "lw"
  | .lbu => "lbu"
  | .lhu => "lhu"

def StoreOp.text : StoreOp → String
  | .sb => "sb"
  | .sh => "sh"
  | .sw => "sw"

def Side.text : Side → String
  | .left => "l"
  | .right => "r"

def CopMove.text : CopMove → String
  | .mfc => "mfc"
  | .cfc => "cfc"
  | .mtc => "mtc"
  | .ctc => "ctc"

namespace Instruction

def regText (r : Reg) : String := s!"r{r.val}"

def copRegText (n : CopNumber) (r : Reg) : String := s!"cop{n.val}r{r.val}"

def signedText (imm : UInt32) : String := toString imm.toInt32.toInt

def line (name : String) (operands : List String) : String :=
  name ++ " " ++ String.intercalate ", " operands

def memoryText (base : Reg) (offset : UInt32) : String :=
  signedText offset ++ "(" ++ regText base ++ ")"

def unknownText (word : UInt32) : String := "??? " ++ hexAddress word

/-- An instruction as it is written when it stands at an address. -/
def text (pc : UInt32) : Instruction → String
  | nop => "nop"
  | shift op rd rt amount => line (ShiftOp.text op) [regText rd, regText rt, toString amount]
  | shiftVar op rd rt rs =>
    line (ShiftOp.text op ++ "v") [regText rd, regText rt, regText rs]
  | alu op rd rs rt => line (AluOp.text op) [regText rd, regText rs, regText rt]
  | immediate op rt rs imm => line (ImmOp.text op) [regText rt, regText rs, signedText imm]
  | logic op rt rs imm =>
    line (LogicOp.text op) [regText rt, regText rs, "0x" ++ hexString 4 imm.toNat]
  | lui rt imm => line "lui" [regText rt, "0x" ++ hexString 4 imm.toNat]
  | mulDiv op rs rt => line (MulDivOp.text op) [regText rs, regText rt]
  | mfhi rd => line "mfhi" [regText rd]
  | mflo rd => line "mflo" [regText rd]
  | mthi rs => line "mthi" [regText rs]
  | mtlo rs => line "mtlo" [regText rs]
  | jump target => line "j" [hexAddress (jumpTarget pc target)]
  | jumpLink target => line "jal" [hexAddress (jumpTarget pc target)]
  | jr rs => line "jr" [regText rs]
  | jalr rd rs => line "jalr" (if rd = 31 then [regText rs] else [regText rd, regText rs])
  | branchEq op rs rt offset =>
    line (EqBranch.text op) [regText rs, regText rt, hexAddress (branchTarget pc offset)]
  | branchZero op rs offset =>
    line (ZeroBranch.text op) [regText rs, hexAddress (branchTarget pc offset)]
  | branchSign op link rs offset =>
    line (SignBranch.text op ++ if link then "al" else "")
      [regText rs, hexAddress (branchTarget pc offset)]
  | load op rt base offset => line (LoadOp.text op) [regText rt, memoryText base offset]
  | store op rt base offset => line (StoreOp.text op) [regText rt, memoryText base offset]
  | loadSide side rt base offset =>
    line ("lw" ++ Side.text side) [regText rt, memoryText base offset]
  | storeSide side rt base offset =>
    line ("sw" ++ Side.text side) [regText rt, memoryText base offset]
  | copLoad n rt base offset =>
    line s!"lwc{n.val}" [copRegText n rt, memoryText base offset]
  | copStore n rt base offset =>
    line s!"swc{n.val}" [copRegText n rt, memoryText base offset]
  | copMove n op rt rd => line s!"{CopMove.text op}{n.val}" [regText rt, copRegText n rd]
  | rfe => "rfe"
  | cop2Command command => line "cop2" ["0x" ++ hexString 7 command.toNat]
  | copReserved _ word => unknownText word
  | syscall => "syscall"
  | .break => "break"
  | reserved word => unknownText word

def disassemble (word pc : UInt32) : String := (decode word).text pc

end Instruction

end Psx
