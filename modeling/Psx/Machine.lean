import Psx.Cpu.Step
import Psx.Cpu.Trace
import Psx.Dma.Transfer
import Psx.Scheduler

/-!
# The machine

The processor, the bus and the clock of a session. A step lets the processor execute one instruction
and then lets the devices catch up with the cycles it took, in pieces that end where a device may
drive a signal or a DMA slice is due. The words a slice moves are cycles stolen from the processor,
so a slice makes the step longer.
-/

namespace Psx

structure Machine (δ : Type) where
  cpu : Cpu := .initial
  bus : Bus δ
  scheduler : Scheduler
  tracer : Option Tracer := none
  config : SessionConfig

namespace Machine

variable {δ : Type}

/-! ### Building -/

/-- The event at which the next DMA slice runs. -/
def dmaEvent : Nat := 0

/-- The event at which some device may do something by itself. -/
def deviceEvent : Nat := 1

def scheduler₀ : Scheduler where
  events := #[{ name := "dma" }, { name := "devices" }]

/-- Registers the chips of the core on a bus. -/
def registerCore [Device δ] (bus : Bus δ) : Except Error (Bus δ) := do
  let (_, bus) ← bus.register .interrupts InterruptController.base InterruptController.span
  let (_, bus) ← bus.register .timers Timers.base Timers.span
  let (_, bus) ← bus.register .dma Dma.base Dma.span
  let (control, bus) ← bus.register .memoryControl MemoryControl.base MemoryControl.span
  let bus ← bus.mapWindow control MemoryControl.ramSizeAddress 4
  let (_, bus) ← bus.register .expansion Expansion.base Expansion.span
  let (gpu, bus) ← bus.register .gpu Gpu.base Gpu.span
  bus.routeDma Dma.gpuChannel gpu

variable [Device δ]

def build (config : SessionConfig) : Except Error (Machine δ) := do
  let bus ← registerCore (.ofConfig config)
  pure { bus := bus.connectAll, scheduler := scheduler₀, config }

def loadBios (m : Machine δ) (file : Bus.BiosFile) : Except Error (Machine δ) := do
  let bus ← m.bus.loadBiosFile file
  pure { m with bus }

/-- A session with the boot image that its configuration names, as that was found. -/
def ofConfig (config : SessionConfig) (file : Option Bus.BiosFile) :
    Except Error (Machine δ) := do
  let m ← build config
  match file with
  | some file => m.loadBios file
  | none => pure m

/-- The places at which peripherals are attached. -/
inductive Slot where
  | cdrom
  | mdec
  | spu
  | pad
  | sio
  | pio
deriving DecidableEq, Repr

namespace Slot

def all : List Slot := [cdrom, mdec, spu, pad, sio, pio]

def base : Slot → UInt32
  | cdrom => 0x1F801800
  | mdec => 0x1F801820
  | spu => 0x1F801C00
  | pad => 0x1F801040
  | sio => 0x1F801050
  | pio => Address.expansion1First

def span : Slot → UInt32
  | cdrom => 4
  | mdec => 8
  | spu => 0x400
  | pad | sio => 0x10
  | pio => Address.expansion1Last - Address.expansion1First + 1

/-- The DMA channels that the peripheral in a place serves. -/
def channels : Slot → List Nat
  | cdrom => [3]
  | mdec => [0, 1]
  | spu => [4]
  | pio => [5]
  | pad | sio => []

end Slot

/-- Attaches a part that is on the board but not registered yet; the answer is its number. -/
def attach (m : Machine δ) (slot : Slot) (part : Part) : Except Error (Nat × Machine δ) := do
  let (device, bus) ← m.bus.register part slot.base slot.span
  let bus ← slot.channels.foldlM (fun (bus : Bus δ) channel => bus.routeDma channel device) bus
  pure (device, { m with bus := { bus with board := bus.board.connect part } })

/-! ### Time -/

def now (m : Machine δ) : Nat := m.scheduler.now

/-- Sets the device event to the next point at which some device may do something. -/
def refreshDeviceEvent (m : Machine δ) : Machine δ :=
  match m.bus.untilEvent with
  | some cycles => { m with scheduler := m.scheduler.schedule deviceEvent (max cycles 1) }
  | none => { m with scheduler := m.scheduler.deactivate deviceEvent }

/-- Lets time pass to the next event or to the target; the answer says whether a DMA slice is
due. -/
def elapse (m : Machine δ) (target : Nat) : Bool × Machine δ :=
  let m := m.refreshDeviceEvent
  let boundary := m.scheduler.nextBoundary target
  let bus := m.bus.advance (boundary - m.now)
  let (due, scheduler) := (m.scheduler.advanceTo boundary).takeDue
  (due.contains dmaEvent, { m with bus, scheduler })

/-- Runs a DMA slice and makes the next one due, if there is one; the answer is the words moved. -/
def runDmaSlice (m : Machine δ) : Nat × Machine δ :=
  let (slice, bus) := m.bus.runSlice
  match slice with
  | none => (0, { m with bus })
  | some slice =>
    let scheduler :=
      if bus.board.dma.hasPendingWork then
        m.scheduler.schedule dmaEvent (slice.words + slice.gap)
      else m.scheduler
    (slice.words, { m with bus, scheduler })

/-- Lets the devices catch up with a target that moves away by the words of each slice; the answer
is the sum of those words. At most `slices` slices are run. -/
def catchUp (m : Machine δ) (slices target stolen : Nat) : Nat × Machine δ :=
  let r := m.elapse target
  if r.1 then
    match slices with
    | 0 => (stolen, r.2)
    | slices + 1 =>
      let s := r.2.runDmaSlice
      if target + s.1 ≤ r.2.now then (stolen + s.1, s.2)
      else s.2.catchUp slices (target + s.1) (stolen + s.1)
  else if _h : m.now < r.2.now ∧ r.2.now < target then r.2.catchUp slices target stolen
  else (stolen, r.2)
termination_by (slices, target - m.now)
decreasing_by
  · exact Prod.Lex.left _ _ (Nat.lt_succ_self _)
  · exact Prod.Lex.right _ (by simp only [r] at _h; omega)

/-- How many slices a step of so many cycles may run. A gap of a cycle or more between slices keeps
it to one more than the cycles; the rest is for a loaded state with no gap. -/
def sliceAllowance (cycles : Nat) : Nat := cycles + 0x100000000

/-- Lets the devices catch up with cycles that the processor used; the answer is the cycles stolen
meanwhile. -/
def advance (m : Machine δ) (cycles : Nat) : Nat × Machine δ :=
  m.catchUp (sliceAllowance cycles) (m.now + cycles) 0

/-! ### Running -/

/-- Writes the trace line of the instruction just executed. A trace that cannot be written does not
stop the session. -/
def trace (m : Machine δ) : Machine δ :=
  match m.tracer with
  | none => m
  | some tracer => { m with tracer := some (tracer.trace m.cpu).2 }

/-- Makes the first slice of a transfer due when the instruction that started it is over. -/
def wakeDma (m : Machine δ) (cost : Nat) : Machine δ :=
  if !m.scheduler.isActive dmaEvent && m.bus.board.dma.hasPendingWork then
    { m with scheduler := m.scheduler.schedule dmaEvent cost }
  else m

/-- Executes one instruction; the answer is the cycles that passed. -/
def step (m : Machine δ) : Nat × Machine δ :=
  let (cost, cpu, bus) := m.cpu.step m.bus
  let m := ({ m with cpu, bus }.trace).wakeDma cost
  let (stolen, m) := m.advance cost
  (cost + stolen, m)

def stepMany (m : Machine δ) : Nat → Nat → Nat × Machine δ
  | 0, cycles => (cycles, m)
  | n + 1, cycles =>
    let (cost, m) := m.step
    m.stepMany n (cycles + cost)

/-- Executes so many instructions; the answer is the cycles that passed. -/
def stepN (m : Machine δ) (n : Nat) : Nat × Machine δ := m.stepMany n 0

inductive Outcome where
  | conditionMet (cycles : Nat)
  | budgetExhausted (cycles : Nat)
deriving DecidableEq, Repr

namespace Outcome

def cycles : Outcome → Nat
  | conditionMet cycles => cycles
  | budgetExhausted cycles => cycles

def isMet : Outcome → Bool
  | conditionMet _ => true
  | budgetExhausted _ => false

end Outcome

/-- Executes instructions until a condition holds or the budget is used up, but at most `fuel` of
them: a configuration in which an instruction costs nothing may never use up its budget. -/
def runFrom (condition : Machine δ → Bool) (budget : Nat) :
    Nat → Machine δ → Nat → Option Outcome × Machine δ
  | 0, m, _ => (none, m)
  | fuel + 1, m, cycles =>
    if condition m then (some (.conditionMet cycles), m)
    else if budget ≤ cycles then (some (.budgetExhausted cycles), m)
    else
      let (cost, m) := m.step
      runFrom condition budget fuel m (cycles + cost)

/-- Executes instructions until a condition holds or the budget of cycles is used up. -/
def runUntil (m : Machine δ) (budget : Nat) (condition : Machine δ → Bool) (fuel : Nat) :
    Option Outcome × Machine δ :=
  runFrom condition budget fuel m 0

/-- Runs until the next vertical blank, for at most two frames. -/
def runFrame (m : Machine δ) (fuel : Nat) : Option Outcome × Machine δ :=
  let beam := m.bus.board.gpu.beam
  let frames := beam.frames
  m.runUntil (2 * beam.timing.cyclesPerFrame)
    (fun m => frames < m.bus.board.gpu.beam.frames) fuel

/-- Power off and on. The clock runs on. -/
def reset (m : Machine δ) : Machine δ :=
  { m with
    cpu := .initial
    bus := m.bus.reset
    scheduler := m.scheduler.deactivateAll }

/-! ### Tracing -/

def enableTracing (m : Machine δ) (sink : Trace.Sink) (limit : Option Nat) : Machine δ :=
  { m with tracer := some { sink, limit } }

/-- Ends the trace; the answer is the tracer, flushed. -/
def disableTracing (m : Machine δ) : Option Tracer × Machine δ :=
  (m.tracer.map fun t => t.flush.2, { m with tracer := none })

def isTracing (m : Machine δ) : Bool := m.tracer.any (·.enabled)

/-- The lines the trace has written. -/
def traceCount (m : Machine δ) : Nat := (m.tracer.map (·.written)).getD 0

end Machine

end Psx
