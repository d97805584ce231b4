import Psx.Cpu.Execute

/-!
# One step of the processor

A step takes an interrupt if one is pending, or else fetches and executes one instruction. The load
that was in flight takes effect at the end of the step, unless the instruction wrote the same
register or issued another load to it; in an interrupt or a failed fetch it takes effect at once.
-/

namespace Psx.Cpu

variable {δ : Type} [Device δ]

/-- Whether a fetch from an address goes through the cache. -/
def usesCache (bus : Bus δ) (pc : UInt32) : Bool :=
  (Segment.of pc).isCached && CacheControl.cacheEnabled bus.memory.cacheControl

/-- Fetches a word; the answer is the word and what the fetch cost. A hit in the cache is free. -/
def fetch (c : Cpu) (bus : Bus δ) (pc : UInt32) : UInt32 × Nat × Cpu × Bus δ :=
  if usesCache bus pc then
    match c.cache.fetch? pc with
    | some word => (word, 0, c, bus)
    | none =>
      let cycles := bus.fetchCycles pc
      let (word, bus) := bus.read pc .word
      (word, cycles, { c with cache := c.cache.fill pc word }, bus)
  else
    let cycles := bus.fetchCycles pc
    let (word, bus) := bus.read pc .word
    (word, cycles, c, bus)

/-- Whether a load in flight no longer counts: the instruction wrote its register, or issued another
load to it. -/
def isSuperseded (load : DelayedLoad) (written : Reg) (issued : Option DelayedLoad) : Bool :=
  load.reg == UInt8.ofNat written || issued.any fun new => new.reg == load.reg

/-- The load that was in flight takes effect unless it is superseded. -/
def settle (c : Cpu) (written : Reg) (issued : Option DelayedLoad) : Cpu :=
  match c.delayed with
  | none => { c with delayed := issued }
  | some load =>
    if isSuperseded load written issued then { c with delayed := issued }
    else { c with delayed := issued }.finishLoad load

def execute (c : Cpu) (bus : Bus δ) (word : UInt32) : Nat × Cpu × Bus δ :=
  let c := { c with currentInstruction := word, pc := c.nextPc, nextPc := c.nextPc + 4 }
  let x := ({ cpu := c, bus } : Execution δ).run (.decode word)
  (x.cycles, x.cpu.settle x.written x.issued, x.bus)

/-- One step; the answer is the cycles it took. -/
def step (c : Cpu) (bus : Bus δ) : Nat × Cpu × Bus δ :=
  let base := bus.timing.instructionCycles
  let pending := bus.board.lines.interrupts.pending
  let c := { c with
    inDelaySlot := c.branched
    branched := false
    cop0 := c.cop0.setHardwareInterrupt pending
    currentPc := c.pc }
  if c.cop0.interruptPending then (base, c.retireLoad.raise .interrupt, bus)
  else if c.pc &&& 3 != 0 || !c.addressAllowed c.pc then
    (base,
      { c with currentInstruction := 0 }.retireLoad.addressError .addressErrorLoad c.pc, bus)
  else
    let (word, fetchCycles, c, bus) := c.fetch bus c.pc
    let (cycles, c, bus) := c.execute bus word
    (base + fetchCycles + cycles, c, bus)

end Psx.Cpu
