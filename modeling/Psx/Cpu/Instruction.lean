import Psx.Cpu.Encoding

/-!
# Instructions

A word is decoded once, into an `Instruction`; what it does and how it is written down are both
functions of that. Words that encode nothing decode to `reserved`, those in the space of a
coprocessor to `copReserved`, because the processor looks at whether the coprocessor may be used
first.
-/

namespace Psx

inductive ShiftOp where
  | sll
  | srl
  | sra
deriving DecidableEq, Repr

inductive AluOp where
  | add
  | addu
  | sub
  | subu
  | and
  | or
  | xor
  | nor
  | slt
  | sltu
deriving DecidableEq, Repr

/-- Operations on a register and a signed immediate. -/
inductive ImmOp where
  | addi
  | addiu
  | slti
  | sltiu
deriving DecidableEq, Repr

/-- Operations on a register and an unsigned immediate. -/
inductive LogicOp where
  | andi
  | ori
  | xori
deriving DecidableEq, Repr

/-- Operations that leave their result in HI and LO. -/
inductive MulDivOp where
  | mult
  | multu
  | div
  | divu
deriving DecidableEq, Repr

/-- Comparisons of two registers that decide a branch. -/
inductive EqBranch where
  | beq
  | bne
deriving DecidableEq, Repr

/-- Comparisons with zero that decide a branch. -/
inductive ZeroBranch where
  | blez
  | bgtz
deriving DecidableEq, Repr

/-- Comparisons with zero that decide a branch which may link. -/
inductive SignBranch where
  | bltz
  | bgez
deriving DecidableEq, Repr

inductive LoadOp where
  | lb
  | lh
  | lw
  | lbu
  | lhu
deriving DecidableEq, Repr

inductive StoreOp where
  | sb
  | sh
  | sw
deriving DecidableEq, Repr

/-- The two halves of an unaligned access. -/
inductive Side where
  | left
  | right
deriving DecidableEq, Repr

/-- Moves between a general register and a data or control register of a coprocessor. -/
inductive CopMove where
  | mfc
  | cfc
  | mtc
  | ctc
deriving DecidableEq, Repr

inductive Instruction where
  | nop
  | shift (op : ShiftOp) (rd rt : Reg) (amount : UInt32)
  | shiftVar (op : ShiftOp) (rd rt rs : Reg)
  | alu (op : AluOp) (rd rs rt : Reg)
  | immediate (op : ImmOp) (rt rs : Reg) (imm : UInt32)
  | logic (op : LogicOp) (rt rs : Reg) (imm : UInt32)
  | lui (rt : Reg) (imm : UInt32)
  | mulDiv (op : MulDivOp) (rs rt : Reg)
  | mfhi (rd : Reg)
  | mflo (rd : Reg)
  | mthi (rs : Reg)
  | mtlo (rs : Reg)
  | jump (target : UInt32)
  | jumpLink (target : UInt32)
  | jr (rs : Reg)
  | jalr (rd rs : Reg)
  | branchEq (op : EqBranch) (rs rt : Reg) (offset : UInt32)
  | branchZero (op : ZeroBranch) (rs : Reg) (offset : UInt32)
  | branchSign (op : SignBranch) (link : Bool) (rs : Reg) (offset : UInt32)
  | load (op : LoadOp) (rt base : Reg) (offset : UInt32)
  | store (op : StoreOp) (rt base : Reg) (offset : UInt32)
  | loadSide (side : Side) (rt base : Reg) (offset : UInt32)
  | storeSide (side : Side) (rt base : Reg) (offset : UInt32)
  | copLoad (n : CopNumber) (rt base : Reg) (offset : UInt32)
  | copStore (n : CopNumber) (rt base : Reg) (offset : UInt32)
  | copMove (n : CopNumber) (op : CopMove) (rt rd : Reg)
  | rfe
  | cop2Command (command : UInt32)
  | copReserved (n : CopNumber) (word : UInt32)
  | syscall
  | break
  | reserved (word : UInt32)
deriving DecidableEq, Repr

namespace Instruction

open Encoding

/-- The register that a five-bit field names. -/
def regOf (field : UInt32) : Reg := Fin.ofNat 32 field.toNat

def copOf (field : UInt32) : CopNumber := Fin.ofNat 4 field.toNat

/-- The first opcode, which selects by its function field. -/
def decodeSpecial (w : UInt32) : Instruction :=
  let rs := regOf (rs w)
  let rt := regOf (rt w)
  let rd := regOf (rd w)
  match funct w with
  | 0x00 => if w = 0 then nop else shift .sll rd rt (shamt w)
  | 0x02 => shift .srl rd rt (shamt w)
  | 0x03 => shift .sra rd rt (shamt w)
  | 0x04 => shiftVar .sll rd rt rs
  | 0x06 => shiftVar .srl rd rt rs
  | 0x07 => shiftVar .sra rd rt rs
  | 0x08 => jr rs
  | 0x09 => jalr rd rs
  | 0x0C => syscall
  | 0x0D => .break
  | 0x10 => mfhi rd
  | 0x11 => mthi rs
  | 0x12 => mflo rd
  | 0x13 => mtlo rs
  | 0x18 => mulDiv .mult rs rt
  | 0x19 => mulDiv .multu rs rt
  | 0x1A => mulDiv .div rs rt
  | 0x1B => mulDiv .divu rs rt
  | 0x20 => alu .add rd rs rt
  | 0x21 => alu .addu rd rs rt
  | 0x22 => alu .sub rd rs rt
  | 0x23 => alu .subu rd rs rt
  | 0x24 => alu .and rd rs rt
  | 0x25 => alu .or rd rs rt
  | 0x26 => alu .xor rd rs rt
  | 0x27 => alu .nor rd rs rt
  | 0x2A => alu .slt rd rs rt
  | 0x2B => alu .sltu rd rs rt
  | _ => reserved w

/-- The second opcode. Of the register field only the lowest bit and whether the others say link
count. -/
def decodeSign (w : UInt32) : Instruction :=
  branchSign (if rt w &&& 1 != 0 then .bgez else .bltz) (rt w &&& 0x1E == 0x10)
    (regOf (rs w)) (branchOffset w)

def decodeCop (w : UInt32) : Instruction :=
  let n := copOf (coprocessor w)
  if isCopCommand w then
    if n = 0 ∧ funct w = 0x10 then rfe
    else if n = 2 then cop2Command (w &&& 0x01FFFFFF)
    else copReserved n w
  else
    let rt := regOf (rt w)
    let rd := regOf (rd w)
    match copOp w with
    | 0x00 => copMove n .mfc rt rd
    | 0x02 => copMove n .cfc rt rd
    | 0x04 => copMove n .mtc rt rd
    | 0x06 => copMove n .ctc rt rd
    | _ => copReserved n w

def decode (w : UInt32) : Instruction :=
  let rs := regOf (rs w)
  let rt := regOf (rt w)
  let n := copOf (coprocessor w)
  match opcode w with
  | 0x00 => decodeSpecial w
  | 0x01 => decodeSign w
  | 0x02 => jump (target w)
  | 0x03 => jumpLink (target w)
  | 0x04 => branchEq .beq rs rt (branchOffset w)
  | 0x05 => branchEq .bne rs rt (branchOffset w)
  | 0x06 => branchZero .blez rs (branchOffset w)
  | 0x07 => branchZero .bgtz rs (branchOffset w)
  | 0x08 => immediate .addi rt rs (immSigned w)
  | 0x09 => immediate .addiu rt rs (immSigned w)
  | 0x0A => immediate .slti rt rs (immSigned w)
  | 0x0B => immediate .sltiu rt rs (immSigned w)
  | 0x0C => logic .andi rt rs (imm w)
  | 0x0D => logic .ori rt rs (imm w)
  | 0x0E => logic .xori rt rs (imm w)
  | 0x0F => lui rt (imm w)
  | 0x10 | 0x11 | 0x12 | 0x13 => decodeCop w
  | 0x20 => load .lb rt rs (immSigned w)
  | 0x21 => load .lh rt rs (immSigned w)
  | 0x22 => loadSide .left rt rs (immSigned w)
  | 0x23 => load .lw rt rs (immSigned w)
  | 0x24 => load .lbu rt rs (immSigned w)
  | 0x25 => load .lhu rt rs (immSigned w)
  | 0x26 => loadSide .right rt rs (immSigned w)
  | 0x28 => store .sb rt rs (immSigned w)
  | 0x29 => store .sh rt rs (immSigned w)
  | 0x2A => storeSide .left rt rs (immSigned w)
  | 0x2B => store .sw rt rs (immSigned w)
  | 0x2E => storeSide .right rt rs (immSigned w)
  | 0x30 | 0x31 | 0x32 | 0x33 => copLoad n rt rs (immSigned w)
  | 0x38 | 0x39 | 0x3A | 0x3B => copStore n rt rs (immSigned w)
  | _ => reserved w

end Instruction

end Psx
