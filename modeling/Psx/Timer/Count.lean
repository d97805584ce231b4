/-!
# Counting many ticks at once

A counter runs through 0 to 0xFFFF and starts again at 0; one that resets on its target goes from
the target to 0. `countBy` gives the value after any number of ticks, and how often the counter
landed on its target and on 0xFFFF on the way, without going through the ticks.
-/

namespace Psx.Timer

/-- How often a counter landed on its target and on 0xFFFF. -/
structure Crossings where
  target : Nat := 0
  max : Nat := 0
deriving DecidableEq, Repr

/-- How often a cycle of `period` values, `distance` steps before the value in question, lands on
it within `ticks` steps. At distance zero the value is left first. -/
def passes (distance period ticks : Nat) : Nat :=
  let first := if distance = 0 then period else distance
  if ticks < first then 0 else 1 + (ticks - first) / period

/-- Ticks of a counter that cycles through 0 to its target and stands in that range. -/
def countInRange (target counter ticks : Nat) : Nat × Crossings :=
  let hits := passes (target - counter) (target + 1) ticks
  ((counter + ticks) % (target + 1),
    { target := hits, max := if target = 0xFFFF then hits else 0 })

/-- Ticks of a counter that resets on its target but stands past it, so that it has to wrap through
0xFFFF first. -/
def countPastTarget (target counter ticks : Nat) : Nat × Crossings :=
  let toWrap := 0x10000 - counter
  if ticks < toWrap then
    (counter + ticks,
      { max := if counter < 0xFFFF ∧ counter + ticks ≥ 0xFFFF then 1 else 0 })
  else
    let (value, hits) := countInRange target 0 (ticks - toWrap)
    (value,
      { target := (if target = 0 then 1 else 0) + hits.target
        max := (if counter < 0xFFFF then 1 else 0) + hits.max })

/-- Ticks of a counter that runs through all 16-bit values. -/
def countFree (target counter ticks : Nat) : Nat × Crossings :=
  ((counter + ticks) % 0x10000,
    { target := passes ((target + 0x10000 - counter) % 0x10000) 0x10000 ticks
      max := passes ((0xFFFF + 0x10000 - counter) % 0x10000) 0x10000 ticks })

/-- The counter after so many ticks, and the crossings on the way. -/
def countBy (resetOnTarget : Bool) (target counter ticks : Nat) : Nat × Crossings :=
  if resetOnTarget then
    if counter > target then countPastTarget target counter ticks
    else countInRange target counter ticks
  else countFree target counter ticks

end Psx.Timer
