import Psx.Machine

/-!
# Cycles counted in words

The cycles of a step are counted in words of 32 bits. Four sums are taken on the way: what an
instruction costs, after how many cycles a slice makes the next one due, what the slices of a wait
have stolen, and what the step costs with that. `Machine.step` adds without a bound; in a function
whose name ends in `?` these sums are words, and there is no result when one of them does not fit.
-/

namespace Psx

/-- A sum of cycles, if a word holds it. -/
def counted? (n : Nat) : Option Nat := if n < 0x100000000 then some n else none

variable {δ : Type} [Device δ]

def Cpu.step? (c : Cpu) (bus : Bus δ) : Option (Nat × Cpu × Bus δ) := do
  let (cost, cpu, bus) := c.step bus
  let cost ← counted? cost
  some (cost, cpu, bus)

namespace Machine

def runDmaSlice? (m : Machine δ) : Option (Nat × Machine δ) :=
  let (slice, bus) := m.bus.runSlice
  match slice with
  | none => some (0, { m with bus })
  | some slice =>
    if bus.board.dma.hasPendingWork then do
      let pause ← counted? (slice.words + slice.gap)
      some (slice.words, { m with bus, scheduler := m.scheduler.schedule dmaEvent pause })
    else some (slice.words, { m with bus })

def catchUp? (m : Machine δ) (slices target stolen : Nat) : Option (Nat × Machine δ) :=
  let r := m.elapse target
  if r.1 then
    match slices with
    | 0 => some (stolen, r.2)
    | slices + 1 => do
      let s ← r.2.runDmaSlice?
      let stolen ← counted? (stolen + s.1)
      if target + s.1 ≤ r.2.now then some (stolen, s.2)
      else s.2.catchUp? slices (target + s.1) stolen
  else if _h : m.now < r.2.now ∧ r.2.now < target then r.2.catchUp? slices target stolen
  else some (stolen, r.2)
termination_by (slices, target - m.now)
decreasing_by
  · exact Prod.Lex.left _ _ (Nat.lt_succ_self _)
  · exact Prod.Lex.right _ (by simp only [r] at _h; omega)

def step? (m : Machine δ) : Option (Nat × Machine δ) := do
  let (cost, cpu, bus) ← m.cpu.step? m.bus
  let m := ({ m with cpu, bus }.trace).wakeDma cost
  let (stolen, m) ← m.catchUp? (sliceAllowance cost) (m.now + cost) 0
  let cycles ← counted? (cost + stolen)
  some (cycles, m)

def stepMany? (m : Machine δ) : Nat → Nat → Option (Nat × Machine δ)
  | 0, cycles => some (cycles, m)
  | n + 1, cycles => do
    let (cost, m) ← m.step?
    m.stepMany? n (cycles + cost)

def stepN? (m : Machine δ) (n : Nat) : Option (Nat × Machine δ) := m.stepMany? n 0

def runFrom? (condition : Machine δ → Bool) (budget : Nat) :
    Nat → Machine δ → Nat → Option (Option Outcome × Machine δ)
  | 0, m, _ => some (none, m)
  | fuel + 1, m, cycles =>
    if condition m then some (some (.conditionMet cycles), m)
    else if budget ≤ cycles then some (some (.budgetExhausted cycles), m)
    else do
      let (cost, m) ← m.step?
      runFrom? condition budget fuel m (cycles + cost)

def runUntil? (m : Machine δ) (budget : Nat) (condition : Machine δ → Bool) (fuel : Nat) :
    Option (Option Outcome × Machine δ) :=
  runFrom? condition budget fuel m 0

def runFrame? (m : Machine δ) (fuel : Nat) : Option (Option Outcome × Machine δ) :=
  let beam := m.bus.board.gpu.beam
  let frames := beam.frames
  m.runUntil? (2 * beam.timing.cyclesPerFrame)
    (fun m => frames < m.bus.board.gpu.beam.frames) fuel

end Machine

end Psx
