import Psx.Cpu.Encoding

/-!
# The system control coprocessor

The registers that control exceptions and modes. The status register holds a stack of three pairs of
mode and interrupt enable bits: an exception pushes a kernel-mode pair with interrupts disabled, a
return pops it.
-/

namespace Psx

/-- Why the processor leaves the program, by the code that the cause register shows. -/
inductive Exception where
  | interrupt
  | addressErrorLoad
  | addressErrorStore
  | syscall
  | breakpoint
  | reservedInstruction
  | coprocessorUnusable
  | overflow
deriving DecidableEq, Repr

namespace Exception

def code : Exception → UInt32
  | interrupt => 0
  | addressErrorLoad => 4
  | addressErrorStore => 5
  | syscall => 8
  | breakpoint => 9
  | reservedInstruction => 10
  | coprocessorUnusable => 11
  | overflow => 12

end Exception

structure Cop0 where
  regs : RegisterFile
deriving DecidableEq, Repr

namespace Cop0

/-! ### Registers and their bits -/

def bpc : Reg := 3

def bda : Reg := 5

def tar : Reg := 6

def dcic : Reg := 7

/-- The address of the last address error. -/
def badAddress : Reg := 8

def bdam : Reg := 9

def bpcm : Reg := 11

def statusReg : Reg := 12

def causeReg : Reg := 13

/-- Where the program goes on after an exception. -/
def epcReg : Reg := 14

def prid : Reg := 15

def interruptEnableBit : UInt32 := 0x00000001

def userModeBit : UInt32 := 0x00000002

def isolateCacheBit : UInt32 := 0x00010000

def bootVectorsBit : UInt32 := 0x00400000

/-- The bit of the cause register that shows the interrupt controller. -/
def hardwareInterruptBit : UInt32 := 0x00000400

/-- The interrupt bits of the cause register that a program sets itself. -/
def softwareInterruptMask : UInt32 := 0x00000300

def delaySlotBit : UInt32 := 0x80000000

def coprocessorErrorMask : UInt32 := 0x30000000

def exceptionCodeMask : UInt32 := 0x0000007C

/-- The three pairs of mode and enable bits. -/
def modeMask : UInt32 := 0x0000003F

/-- The status bits a program can set. -/
def statusMask : UInt32 := 0xF27FFF3F

def initial : Cop0 where
  regs := (Vector.replicate 32 0).set statusReg bootVectorsBit |>.set prid 2

def status (c : Cop0) : UInt32 := c.regs.read statusReg

def cause (c : Cop0) : UInt32 := c.regs.read causeReg

def epc (c : Cop0) : UInt32 := c.regs.read epcReg

def set (c : Cop0) (r : Reg) (value : UInt32) : Cop0 := { regs := c.regs.write r value }

/-! ### Modes -/

def userMode (c : Cop0) : Bool := c.status &&& userModeBit != 0

def cacheIsolated (c : Cop0) : Bool := c.status &&& isolateCacheBit != 0

/-- A coprocessor may be used if its bit is set, the system control coprocessor also in kernel
mode. -/
def isUsable (c : Cop0) (n : CopNumber) : Bool :=
  c.status &&& (1 <<< (28 + UInt32.ofNat n)) != 0 || (n == 0 && !c.userMode)

/-! ### Interrupts -/

/-- Shows the interrupt controller in the cause register. -/
def setHardwareInterrupt (c : Cop0) (asserted : Bool) : Cop0 :=
  c.set causeReg <|
    if asserted then c.cause ||| hardwareInterruptBit else c.cause &&& ~~~hardwareInterruptBit

/-- Interrupts are enabled and some enabled one is asked for. -/
def interruptPending (c : Cop0) : Bool :=
  c.status &&& interruptEnableBit != 0 && (c.cause &&& c.status &&& 0xFF00) != 0

/-! ### Moves -/

def readable (r : Reg) : Bool :=
  [bpc, bda, tar, dcic, badAddress, bdam, bpcm, statusReg, causeReg, epcReg, prid].contains r

/-- The value of a register; of the first sixteen those that do not exist read as zero, the others
do not read at all. -/
def read? (c : Cop0) (r : Reg) : Option UInt32 :=
  if readable r then some (c.regs.read r) else if r < 16 then some 0 else none

/-- A move to a register. Of the status and the cause only some bits can be set, and some registers
cannot be set at all. -/
def write (c : Cop0) (r : Reg) (value : UInt32) : Cop0 :=
  if r = bpc ∨ r = bda ∨ r = dcic ∨ r = bdam ∨ r = bpcm then c.set r value
  else if r = statusReg then c.set r (value &&& statusMask)
  else if r = causeReg then
    c.set r ((c.cause &&& ~~~softwareInterruptMask) ||| (value &&& softwareInterruptMask))
  else c

/-! ### Exceptions -/

def vector (c : Cop0) : UInt32 :=
  if c.status &&& bootVectorsBit != 0 then 0xBFC00180 else 0x80000080

/-- Enters an exception: pushes the mode stack and notes the cause, the delay slot and where the
program goes on. -/
def enter (c : Cop0) (e : Exception) (epc : UInt32) (inDelaySlot : Bool) : Cop0 :=
  let sr := c.status
  let kept := c.cause &&& ~~~(delaySlotBit ||| coprocessorErrorMask ||| exceptionCodeMask)
  let code : UInt32 := e.code <<< 2
  let mode : UInt32 := (sr &&& modeMask) <<< 2
  c.set statusReg ((sr &&& ~~~modeMask) ||| (mode &&& modeMask))
    |>.set causeReg (kept ||| code ||| if inDelaySlot then delaySlotBit else 0)
    |>.set epcReg epc

/-- Pops the mode stack; the oldest pair stays. -/
def leave (c : Cop0) : Cop0 :=
  let popped : UInt32 := (c.status >>> 2) &&& 0x0F
  c.set statusReg ((c.status &&& 0xFFFFFFF0) ||| popped)

/-- Notes which coprocessor could not be used. -/
def setCoprocessorError (c : Cop0) (n : CopNumber) : Cop0 :=
  let shifted : UInt32 := UInt32.ofNat n <<< 28
  c.set causeReg ((c.cause &&& ~~~coprocessorErrorMask) ||| shifted)

end Cop0

end Psx
