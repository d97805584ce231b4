import Psx.Proofs.Cpu.Flow
import Psx.Proofs.Cpu.Registers

/-!
# Precise exceptions

A step is interrupted, or it cannot fetch, or it executes what it has fetched (`Cpu.step_interrupted`,
`Cpu.step_misfetched`, `Cpu.step_executed`). If the instruction that it executes finds something wrong,
the registers, the bus and the cache are as they were behind the fetch, but for the load that was in
flight; if not, no exception is entered (`Cpu.step_precise`).
-/

namespace Psx.Cpu

variable {δ : Type}

/-! ### What a step does -/

/-- The processor as a step begins. -/
def begun (c : Cpu) (bus : Bus δ) : Cpu :=
  { c with
    inDelaySlot := c.branched
    branched := false
    cop0 := c.cop0.setHardwareInterrupt bus.board.lines.interrupts.pending
    currentPc := c.pc }

def isInterrupted (c : Cpu) (bus : Bus δ) : Bool := (c.begun bus).cop0.interruptPending

/-- There is no instruction at the program counter that may be fetched. -/
def misfetches (c : Cpu) (bus : Bus δ) : Bool :=
  c.pc &&& 3 != 0 || !(c.begun bus).addressAllowed c.pc

def executes (c : Cpu) (bus : Bus δ) : Bool := !c.isInterrupted bus && !c.misfetches bus

theorem executes_iff {c : Cpu} {bus : Bus δ} :
    c.executes bus = true ↔ c.isInterrupted bus = false ∧ c.misfetches bus = false := by
  unfold executes
  rw [Bool.and_eq_true, Bool.not_eq_true', Bool.not_eq_true']

variable [Device δ]

/-- The word that a step fetches, its cost, and the processor and the bus behind the fetch. -/
def fetched (c : Cpu) (bus : Bus δ) : UInt32 × Nat × Cpu × Bus δ := (c.begun bus).fetch bus c.pc

def instruction (c : Cpu) (bus : Bus δ) : Instruction := .decode (c.fetched bus).1

/-- What the instruction of a step runs in. -/
def execution (c : Cpu) (bus : Bus δ) : Execution δ where
  cpu := { (c.fetched bus).2.2.1 with
    currentInstruction := (c.fetched bus).1
    pc := (c.fetched bus).2.2.1.nextPc
    nextPc := (c.fetched bus).2.2.1.nextPc + 4 }
  bus := (c.fetched bus).2.2.2

variable {c : Cpu} {bus : Bus δ}

theorem step_interrupted (h : c.isInterrupted bus = true) :
    c.step bus =
      (bus.timing.instructionCycles, (c.begun bus).retireLoad.raise .interrupt, bus) :=
  if_pos h

theorem step_misfetched (hi : c.isInterrupted bus = false) (hm : c.misfetches bus = true) :
    c.step bus = (bus.timing.instructionCycles,
      ({ c.begun bus with currentInstruction := 0 } : Cpu).retireLoad.addressError
        .addressErrorLoad c.pc, bus) :=
  (if_neg (Bool.eq_false_iff.1 hi)).trans (if_pos hm)

theorem step_executed (h : c.executes bus = true) :
    let x := (c.execution bus).run (c.instruction bus)
    c.step bus = (bus.timing.instructionCycles + (c.fetched bus).2.1 + x.cycles,
      x.cpu.settle x.written x.issued, x.bus) := by
  obtain ⟨hi, hm⟩ := executes_iff.1 h
  exact (if_neg (Bool.eq_false_iff.1 hi)).trans (if_neg (Bool.eq_false_iff.1 hm))

/-- A fetch touches nothing of the processor but the cache. -/
theorem fetched_cpu (c : Cpu) (bus : Bus δ) :
    (c.fetched bus).2.2.1 = { c.begun bus with cache := (c.fetched bus).2.2.1.cache } := by
  unfold fetched fetch
  split_ifs
  · split <;> rfl
  · rfl

theorem execution_cpu (c : Cpu) (bus : Bus δ) :
    (c.execution bus).cpu = { c.begun bus with
      cache := (c.fetched bus).2.2.1.cache
      currentInstruction := (c.fetched bus).1
      pc := c.nextPc
      nextPc := c.nextPc + 4 } := by
  unfold execution
  rw [fetched_cpu]
  rfl

/-! ### Faults -/

/-- What the instruction that a step executes finds wrong. -/
def fault? (c : Cpu) (bus : Bus δ) : Option Fault :=
  if c.executes bus then (c.execution bus).fault? (c.instruction bus) else none

/-- The step leaves what was there behind its fetch, with the load retired that was in flight, and
enters the exception of a fault. -/
structure Abandoned (c : Cpu) (bus : Bus δ) (f : Fault) : Prop where
  regs : ∀ r, (c.step bus).2.1.reg r = c.retireLoad.reg r
  hi : (c.step bus).2.1.hi = c.hi
  lo : (c.step bus).2.1.lo = c.lo
  delayed : (c.step bus).2.1.delayed = none
  cache : (c.step bus).2.1.cache = (c.fetched bus).2.2.1.cache
  kept : (c.step bus).2.2 = (c.fetched bus).2.2.2
  pc : (c.step bus).2.1.pc = c.cop0.vector
  code : (c.step bus).2.1.cop0.cause &&& Cop0.exceptionCodeMask = f.exception.code <<< 2

theorem abandoned_of_fault {f : Fault} (h : c.fault? bus = some f) : c.Abandoned bus f := by
  unfold fault? at h
  split_ifs at h with hx
  have hcpu := c.execution_cpu bus
  have he := (c.execution bus).cpu.entered_fail f
  have hstep : (c.step bus).2 =
      (((c.execution bus).cpu.fail f).settle 0 none, (c.fetched bus).2.2.2) := by
    rw [step_executed hx, Execution.run_of_fault h]
    rfl
  refine ⟨fun r => ?_, ?_, ?_, ?_, ?_, ?_, ?_, ?_⟩
  all_goals rw [hstep]
  · refine reg_settle ?_ ?_ r
    · rw [he.regs, hcpu]
      rfl
    · rw [he.delayed, hcpu]
      rfl
  all_goals dsimp only; rw [settle_eq]
  · rw [he.hi, hcpu]
    rfl
  · rw [he.lo, hcpu]
    rfl
  · rw [he.cache, hcpu]
  · rw [he.pc, hcpu]
    exact Cop0.vector_setHardwareInterrupt ..
  · exact he.code

theorem step_of_sound (hx : c.executes bus = true) (h : c.fault? bus = none) :
    (c.step bus).2.1.pc = c.nextPc ∧
      (c.step bus).2.1.nextPc =
        ((c.execution bus).target? (c.instruction bus)).getD (c.nextPc + 4) ∧
      (c.step bus).2.1.branched = (c.instruction bus).isBranch ∧
      (c.step bus).2.1.cop0.epc = c.cop0.epc := by
  unfold fault? at h
  rw [if_pos hx] at h
  have hcpu := c.execution_cpu bus
  have hflow := Execution.run_flow h
  have hstep : (c.step bus).2.1 = _ := congrArg (·.2.1) (step_executed hx)
  rw [hstep]
  dsimp only
  rw [settle_eq]
  refine ⟨?_, ?_, ?_, ?_⟩
  · rw [hflow.pc, hcpu]
  · rw [hflow.nextPc, hcpu]
  · rw [hflow.branched, hcpu]
    exact Bool.or_false _
  · rw [hflow.epc, hcpu]
    exact c.cop0.epc_set (by decide) _

/-- Exceptions are precise: an instruction that finds something wrong leaves behind it what was there
behind its fetch, with the load retired that was in flight. One that finds nothing wrong enters no
exception. -/
theorem step_precise (hx : c.executes bus = true) :
    (∀ f, c.fault? bus = some f → c.Abandoned bus f) ∧
      (c.fault? bus = none →
        (c.step bus).2.1.pc = c.nextPc ∧ (c.step bus).2.1.cop0.epc = c.cop0.epc) := by
  refine ⟨fun f hf => abandoned_of_fault hf, fun hf => ?_⟩
  obtain ⟨hpc, -, -, hepc⟩ := step_of_sound hx hf
  exact ⟨hpc, hepc⟩

/-- A bus with nothing registered and some words in the scratchpad. -/
def holding (words : List UInt32) : Bus Empty :=
  words.zipIdx.foldl
    (fun bus (word, i) => bus.write (Address.scratchpadFirst + 4 * UInt32.ofNat i) .word word)
    (.ofConfig {})

/-- A store of half a word to an odd address, behind a load. -/
theorem step_precise_store :
    let c : Cpu := { Cpu.initial.setPc Address.scratchpadFirst with
      hi := 5, delayed := some { reg := 1, value := 7 } }
    let bus := holding [0xA4010001]
    c.executes bus = true ∧ c.fault? bus = some (.badStore 1) ∧ (c.step bus).2.1.reg 1 = 7 ∧
      (c.step bus).2.1.hi = 5 ∧ (c.step bus).2.2 = (c.fetched bus).2.2.2 := by
  intro c bus
  have hx : c.executes bus = true := by decide +kernel
  have hf : c.fault? bus = some (.badStore 1) := by decide +kernel
  have h := (step_precise hx).1 _ hf
  exact ⟨hx, hf, (h.regs 1).trans (by decide +kernel), h.hi, h.kept⟩

/-! ### All exceptions -/

/-- The exception that a step enters. -/
def exception? (c : Cpu) (bus : Bus δ) : Option Exception :=
  if c.isInterrupted bus then some .interrupt
  else if c.misfetches bus then some .addressErrorLoad
  else (c.fault? bus).map (·.exception)

theorem exception?_of_executes (hx : c.executes bus = true) :
    c.exception? bus = (c.fault? bus).map (·.exception) := by
  obtain ⟨hi, hm⟩ := executes_iff.1 hx
  unfold exception?
  rw [hi, hm]
  rfl

/-- The exception is entered from a processor that has begun the step, and a load in flight settles
before it or behind it. -/
theorem entered_of_exception {e : Exception} (h : c.exception? bus = some e) :
    ∃ c₁ c₂ : Cpu, c₁.Entered c₂ e ∧ c₁.cop0 = (c.begun bus).cop0 ∧
      c₁.inDelaySlot = c.branched ∧ c₁.currentPc = c.pc ∧
      (c.step bus).2.1 = { c₂ with
        regs := (c.step bus).2.1.regs, delayed := (c.step bus).2.1.delayed } := by
  unfold exception? at h
  split_ifs at h with hi hm
  · cases h
    have hretired := retireLoad_eq (c.begun bus)
    refine ⟨_, _, entered_raise (c.begun bus).retireLoad .interrupt, ?_, ?_, ?_, ?_⟩
    · rw [hretired]
    · rw [hretired]
      rfl
    · rw [hretired]
      rfl
    · rw [step_interrupted hi]
  · cases h
    have hretired := retireLoad_eq { c.begun bus with currentInstruction := 0 }
    refine ⟨_, _, entered_addressError (Cpu.retireLoad { c.begun bus with currentInstruction := 0 })
      .addressErrorLoad c.pc, ?_, ?_, ?_, ?_⟩
    · rw [hretired]
    · rw [hretired]
      rfl
    · rw [hretired]
      rfl
    · rw [step_misfetched (Bool.eq_false_iff.2 hi) hm]
  · obtain ⟨f, hf, rfl⟩ := Option.map_eq_some_iff.1 h
    unfold fault? at hf
    split_ifs at hf with hx
    have hcpu := c.execution_cpu bus
    refine ⟨_, _, (c.execution bus).cpu.entered_fail f, ?_, ?_, ?_, ?_⟩
    · rw [hcpu]
    · rw [hcpu]
      rfl
    · rw [hcpu]
      rfl
    · rw [step_executed hx, Execution.run_of_fault hf]
      dsimp only
      rw [settle_eq]
      rfl

/-- Whatever the exception, the program goes on at the handler, and the return address is that of the
step, or what lies before it if the step stood in the shadow of a branch. -/
theorem step_of_exception {e : Exception} (h : c.exception? bus = some e) :
    (c.step bus).2.1.pc = c.cop0.vector ∧
      (c.step bus).2.1.nextPc = (c.step bus).2.1.pc + 4 ∧
      (c.step bus).2.1.branched = false ∧
      ((c.step bus).2.1.cop0.cause &&& Cop0.delaySlotBit != 0) = c.branched ∧
      (c.step bus).2.1.cop0.epc = (if c.branched then c.pc - 4 else c.pc) ∧
      (c.step bus).2.1.cop0.cause &&& Cop0.exceptionCodeMask = e.code <<< 2 := by
  obtain ⟨c₁, c₂, he, hcop0, hslot, hpc, hstep⟩ := entered_of_exception h
  rw [hstep]
  refine ⟨?_, he.nextPc, he.branched, ?_, ?_, he.code⟩
  · rw [he.pc, hcop0]
    exact Cop0.vector_setHardwareInterrupt ..
  · rw [he.delaySlot, hslot]
  · rw [he.epc, hslot, hpc]

end Psx.Cpu
