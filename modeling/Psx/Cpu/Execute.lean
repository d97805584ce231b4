import Psx.Bus
import Psx.Cpu.Arithmetic
import Psx.Cpu.Basic
import Psx.Cpu.Disassembly

/-!
# What instructions do

An instruction runs in an `Execution`: the processor and the bus, and what the step needs to know
afterwards, namely which register the instruction wrote directly, which load it issued and how many
cycles its accesses took. An instruction that raises an exception does nothing else.
-/

namespace Psx

structure Execution (δ : Type) where
  cpu : Cpu
  bus : Bus δ
  /-- The register that was written directly, or register 0. -/
  written : Reg := 0
  issued : Option DelayedLoad := none
  cycles : Nat := 0

namespace Execution

variable {δ : Type}

def reg (x : Execution δ) (r : Reg) : UInt32 := x.cpu.reg r

def setReg (x : Execution δ) (r : Reg) (value : UInt32) : Execution δ :=
  if r = 0 then x else { x with cpu := x.cpu.setReg r value, written := r }

/-- Issues a load; one to register 0 is dropped. -/
def issue (x : Execution δ) (r : Reg) (value : UInt32) : Execution δ :=
  if r = 0 then x else { x with issued := some { reg := .ofNat r, value } }

/-- The value that an unaligned load merges with: that of a load in flight to the same register, if
there is one. -/
def regForMerge (x : Execution δ) (r : Reg) : UInt32 :=
  match x.cpu.delayed with
  | some load => if load.reg = .ofNat r then load.value else x.reg r
  | none => x.reg r

def raise (x : Execution δ) (e : Exception) : Execution δ :=
  { x with cpu := x.cpu.raise e }

def addressError (x : Execution δ) (e : Exception) (address : UInt32) : Execution δ :=
  { x with cpu := x.cpu.addressError e address }

def unusable (x : Execution δ) (n : CopNumber) : Execution δ :=
  { x with cpu := x.cpu.coprocessorUnusable n }

/-- Writes a result, or raises the overflow exception if there is none. -/
def setChecked (x : Execution δ) (r : Reg) : Option UInt32 → Execution δ
  | some value => x.setReg r value
  | none => x.raise .overflow

/-! ### Branches -/

/-- Goes to an address after the next instruction. -/
def jumpTo (x : Execution δ) (address : UInt32) : Execution δ :=
  { x with cpu.nextPc := address, cpu.branched := true }

def branchIf (x : Execution δ) (taken : Bool) (offset : UInt32) : Execution δ :=
  if taken then x.jumpTo (branchTarget x.cpu.currentPc offset)
  else { x with cpu.branched := true }

/-- The address after the shadow of the instruction. -/
def linkAddress (x : Execution δ) : UInt32 := x.cpu.currentPc + 8

/-! ### Accesses -/

def dataAddress (x : Execution δ) (base : Reg) (offset : UInt32) : UInt32 := x.reg base + offset

def isValid (x : Execution δ) (address : UInt32) (w : Width) : Bool :=
  address &&& (w.bytes - 1) == 0 && x.cpu.addressAllowed address

def isIsolated (x : Execution δ) (address : UInt32) : Bool :=
  x.cpu.cop0.cacheIsolated && (Segment.of address).isCached

def chargeWrite (x : Execution δ) (address : UInt32) : Execution δ :=
  if x.isIsolated address then x
  else { x with cycles := x.cycles + x.bus.writeCycles address }

variable [Device δ]

/-- Loads from an address. There is no value if it is not valid, and then the exception has been
raised. -/
def load (x : Execution δ) (address : UInt32) (w : Width) : Option UInt32 × Execution δ :=
  if !x.isValid address w then (none, x.addressError .addressErrorLoad address)
  else if x.isIsolated address then (some (x.cpu.cache.readIsolated address w), x)
  else
    let cycles := x.cycles + x.bus.readCycles address
    let (value, bus) := x.bus.read address w
    (some value, { x with bus, cycles })

/-- Stores without checking the address. -/
def storeAt (x : Execution δ) (address : UInt32) (w : Width) (value : UInt32) : Execution δ :=
  if x.isIsolated address then
    { x with
      cpu.cache := x.cpu.cache.writeIsolated address w value
        (CacheControl.tagTest x.bus.memory.cacheControl) }
  else { x with bus := x.bus.write address w value }

def store (x : Execution δ) (address : UInt32) (w : Width) (value : UInt32) : Execution δ :=
  if !x.isValid address w then x.addressError .addressErrorStore address
  else (x.chargeWrite address).storeAt address w value

def loadSide (x : Execution δ) (side : Side) (rt base : Reg) (offset : UInt32) : Execution δ :=
  let address := x.dataAddress base offset
  let aligned := wordOf address
  if !x.cpu.addressAllowed aligned then x.addressError .addressErrorLoad address
  else match x.load aligned .word with
    | (none, x) => x
    | (some word, x) => x.issue rt (side.merge (x.regForMerge rt) word address)

def storeSide (x : Execution δ) (side : Side) (rt base : Reg) (offset : UInt32) : Execution δ :=
  let address := x.dataAddress base offset
  let aligned := wordOf address
  if !x.cpu.addressAllowed aligned then x.addressError .addressErrorStore address
  else
    let lanes := side.lanes (x.reg rt) address
    (side.pieces address).foldl
      (fun x (lane, w) => x.storeAt (aligned + lane) w (lanes >>> (lane * 8)))
      (x.chargeWrite aligned)

/-! ### Coprocessors -/

/-- Accesses to memory exist for the third coprocessor alone; the others count as unusable. -/
def withCop2 (x : Execution δ) (n : CopNumber) (f : Execution δ → Execution δ) : Execution δ :=
  if n = 2 ∧ x.cpu.cop0.isUsable 2 then f x else x.unusable n

/-- A move to or from the system control coprocessor, which has no control registers. -/
def moveCop0 (x : Execution δ) (op : CopMove) (rt rd : Reg) : Execution δ :=
  match op with
  | .mfc =>
    match x.cpu.cop0.read? rd with
    | some value => x.issue rt value
    | none => x.raise .reservedInstruction
  | .mtc => { x with cpu.cop0 := x.cpu.cop0.write rd (x.reg rt) }
  | .cfc | .ctc => x.raise .reservedInstruction

/-- A move to or from the third coprocessor, whose registers read as zero. -/
def moveCop2 (x : Execution δ) (op : CopMove) (rt : Reg) : Execution δ :=
  match op with
  | .mfc | .cfc => x.issue rt 0
  | .mtc | .ctc => x

/-- Only the first and the third coprocessor exist; of them, `f` is done if it may be used. -/
def withUsable (x : Execution δ) (n : CopNumber) (f : Execution δ → Execution δ) : Execution δ :=
  if (n = 0 ∨ n = 2) ∧ x.cpu.cop0.isUsable n then f x else x.unusable n

/-! ### Instructions -/

def run (x : Execution δ) : Instruction → Execution δ
  | .nop => x
  | .shift op rd rt amount => x.setReg rd (op.eval (x.reg rt) amount)
  | .shiftVar op rd rt rs => x.setReg rd (op.eval (x.reg rt) (x.reg rs))
  | .alu op rd rs rt => x.setChecked rd (op.eval (x.reg rs) (x.reg rt))
  | .immediate op rt rs imm => x.setChecked rt (op.eval (x.reg rs) imm)
  | .logic op rt rs imm => x.setReg rt (op.eval (x.reg rs) imm)
  | .lui rt imm => x.setReg rt (imm <<< 16)
  | .mulDiv op rs rt =>
    let (hi, lo) := op.eval (x.reg rs) (x.reg rt)
    { x with cpu.hi := hi, cpu.lo := lo }
  | .mfhi rd => x.setReg rd x.cpu.hi
  | .mflo rd => x.setReg rd x.cpu.lo
  | .mthi rs => { x with cpu.hi := x.reg rs }
  | .mtlo rs => { x with cpu.lo := x.reg rs }
  | .jump target => x.jumpTo (jumpTarget x.cpu.currentPc target)
  | .jumpLink target =>
    (x.setReg 31 x.linkAddress).jumpTo (jumpTarget x.cpu.currentPc target)
  | .jr rs => x.jumpTo (x.reg rs)
  | .jalr rd rs => (x.setReg rd x.linkAddress).jumpTo (x.reg rs)
  | .branchEq op rs rt offset => x.branchIf (op.test (x.reg rs) (x.reg rt)) offset
  | .branchZero op rs offset => x.branchIf (op.test (x.reg rs)) offset
  | .branchSign op link rs offset =>
    let taken := op.test (x.reg rs)
    (if link then x.setReg 31 x.linkAddress else x).branchIf taken offset
  | .load op rt base offset =>
    match x.load (x.dataAddress base offset) op.width with
    | (none, x) => x
    | (some value, x) => x.issue rt (op.extend value)
  | .store op rt base offset => x.store (x.dataAddress base offset) op.width (x.reg rt)
  | .loadSide side rt base offset => x.loadSide side rt base offset
  | .storeSide side rt base offset => x.storeSide side rt base offset
  | .copLoad n _ base offset =>
    x.withCop2 n fun x => (x.load (x.dataAddress base offset) .word).2
  | .copStore n _ base offset =>
    x.withCop2 n fun x => x.store (x.dataAddress base offset) .word 0
  | .copMove n op rt rd =>
    x.withUsable n fun x => if n = 0 then x.moveCop0 op rt rd else x.moveCop2 op rt
  | .rfe => x.withUsable 0 fun x => { x with cpu.cop0 := x.cpu.cop0.leave }
  | .cop2Command _ => x.withUsable 2 id
  | .copReserved n _ => x.withUsable n fun x => x.raise .reservedInstruction
  | .syscall => x.raise .syscall
  | .break => x.raise .breakpoint
  | .reserved _ => x.raise .reservedInstruction

end Execution

end Psx
