import Psx.Cpu.Cache
import Psx.Cpu.Cop0
import Psx.Cpu.Instruction
import Psx.Snapshot.Codec

/-!
# The processor's state

A load takes effect one instruction late, and a branch one instruction late: `delayed` is the load
in flight, `nextPc` the address after the instruction that is fetched next, and `branched` says that
the last instruction was a branch, so that the next one stands in its shadow.
-/

namespace Psx

/-- A load in flight. The processor only ever issues loads to registers 1 to 31. -/
structure DelayedLoad where
  reg : UInt8
  value : UInt32
deriving DecidableEq, Repr

/-- Registers, caches and what is in flight between two instructions. -/
structure Cpu where
  regs : RegisterFile
  pc : UInt32
  nextPc : UInt32
  /-- The address of the last instruction. -/
  currentPc : UInt32
  hi : UInt32 := 0
  lo : UInt32 := 0
  cop0 : Cop0 := .initial
  cache : InstructionCache := .initial
  delayed : Option DelayedLoad := none
  /-- The last instruction was a branch or a jump. -/
  branched : Bool := false
  /-- The last instruction stood in the shadow of a branch. -/
  inDelaySlot : Bool := false
  currentInstruction : UInt32 := 0
deriving DecidableEq, Repr

namespace Cpu

/-- Where a program begins. -/
def resetVector : UInt32 := 0xBFC00000

def initial : Cpu where
  regs := .replicate 32 0
  pc := resetVector
  nextPc := resetVector + 4
  currentPc := resetVector

/-- The value of a register; register 0 is zero. -/
def reg (c : Cpu) (r : Reg) : UInt32 := if r = 0 then 0 else c.regs.read r

/-- Changes a register; register 0 cannot be changed. -/
def setReg (c : Cpu) (r : Reg) (value : UInt32) : Cpu :=
  if r = 0 then c else { c with regs := c.regs.write r value }

def setPc (c : Cpu) (pc : UInt32) : Cpu :=
  { c with pc, nextPc := pc + 4, branched := false }

def cop0Reg (c : Cpu) (n : Nat) : UInt32 :=
  if h : n < 32 then (c.cop0.read? ⟨n, h⟩).getD 0 else 0

def setCop0Reg (c : Cpu) (n : Nat) (value : UInt32) : Cpu :=
  if h : n < 32 then { c with cop0 := c.cop0.write ⟨n, h⟩ value } else c

def finishLoad (c : Cpu) (load : DelayedLoad) : Cpu :=
  if h : load.reg.toNat < 32 then
    { c with regs := c.regs.write ⟨load.reg.toNat, h⟩ load.value }
  else c

/-- Lets the load in flight take effect before anything else happens. -/
def retireLoad (c : Cpu) : Cpu :=
  match c.delayed with
  | none => c
  | some load => { c with delayed := none }.finishLoad load

/-- Enters an exception. An instruction in the shadow of a branch is resumed at the branch. -/
def raise (c : Cpu) (e : Exception) : Cpu :=
  let epc := if c.inDelaySlot then c.currentPc - 4 else c.currentPc
  let handler := c.cop0.vector
  { c with
    cop0 := c.cop0.enter e epc c.inDelaySlot
    pc := handler
    nextPc := handler + 4
    branched := false }

def addressError (c : Cpu) (e : Exception) (address : UInt32) : Cpu :=
  { c with cop0 := c.cop0.set Cop0.badAddress address }.raise e

def coprocessorUnusable (c : Cpu) (n : CopNumber) : Cpu :=
  let c := c.raise .coprocessorUnusable
  { c with cop0 := c.cop0.setCoprocessorError n }

/-- User mode has only the lower half of the addresses. -/
def addressAllowed (c : Cpu) (address : UInt32) : Bool :=
  !c.cop0.userMode || address &&& 0x80000000 == 0

end Cpu

/-! ### Saved state -/

open Snapshot.Codec

def Cop0.codec : Snapshot.Codec Cop0 :=
  (word32.vector 32).imap (·.regs) fun regs => { regs }

def CacheLine.codec : Snapshot.Codec CacheLine :=
  (word32.pair <| word32.pair bool).imap (fun l => (l.tag, l.data, l.valid))
    fun (tag, data, valid) => { tag, data, valid }

def InstructionCache.codec : Snapshot.Codec InstructionCache :=
  CacheLine.codec.array.imap (·.lines) fun lines => { lines }

def DelayedLoad.codec : Snapshot.Codec DelayedLoad :=
  (byte.pair word32).imap (fun l => (l.reg, l.value)) fun (reg, value) => { reg, value }

def Cpu.codec : Snapshot.Codec Cpu :=
  ((word32.vector 32).pair <| word32.pair <| word32.pair <| word32.pair <| word32.pair <|
    word32.pair <| Cop0.codec.pair <| InstructionCache.codec.pair <|
    DelayedLoad.codec.option.pair <| bool.pair <| bool.pair word32).imap
    (fun c => (c.regs, c.pc, c.nextPc, c.currentPc, c.hi, c.lo, c.cop0, c.cache, c.delayed,
      c.branched, c.inDelaySlot, c.currentInstruction))
    fun (regs, pc, nextPc, currentPc, hi, lo, cop0, cache, delayed, branched, inDelaySlot,
        currentInstruction) =>
      { regs, pc, nextPc, currentPc, hi, lo, cop0, cache, delayed, branched, inDelaySlot,
        currentInstruction }

end Psx
