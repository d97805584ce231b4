import Psx.CommandLine
import Psx.Machine

/-!
# Reports

A run of a session, and what is reported at its end.
-/

namespace Psx

namespace Machine

variable {δ : Type} [Device δ]

/-- More instructions than a run executes. -/
def runFuel : Nat := 1 <<< 60

/-- Runs so many frames, or fewer if one of them does not end. -/
def runFrames (m : Machine δ) : Nat → Machine δ
  | 0 => m
  | n + 1 =>
    match m.runFrame runFuel with
    | (some (.conditionMet _), m) => m.runFrames n
    | (_, m) => m

def runFor (m : Machine δ) : CommandLine.Length → Machine δ
  | .frames n => m.runFrames n
  | .cycles n => (m.runUntil n (fun _ => false) runFuel).2

end Machine

structure Report where
  elapsedMs : Nat
  frames : Nat
  cycles : Nat
  pc : UInt32
  interruptStatus : UInt16
  interruptMask : UInt16
  queuedWords : Nat
  droppedWords : Nat
  post : UInt8
deriving DecidableEq, Repr

namespace Report

/-- The report on a machine that had shown `firstFrame` frames before the run. -/
def ofMachine {δ : Type} (m : Machine δ) (firstFrame elapsedMs : Nat) : Report where
  elapsedMs
  frames := m.bus.board.gpu.beam.frames - firstFrame
  cycles := m.now
  pc := m.cpu.pc
  interruptStatus := m.bus.board.lines.interrupts.status
  interruptMask := m.bus.board.lines.interrupts.mask
  queuedWords := m.bus.board.gpu.queue.size
  droppedWords := m.bus.board.gpu.queue.dropped
  post := m.bus.board.expansion.post

def lines (r : Report) : List String :=
  [s!"  Frames:     {r.frames}",
    s!"  Cycles:     {r.cycles}",
    s!"  Elapsed:    {r.elapsedMs} ms",
    "  PC:         " ++ hexAddress r.pc,
    "  I_STAT:     0x" ++ hexString 4 r.interruptStatus.toNat,
    "  I_MASK:     0x" ++ hexString 4 r.interruptMask.toNat,
    s!"  GP0 queue:  {r.queuedWords} words ({r.droppedWords} dropped)",
    "  POST code:  0x" ++ hexString 2 r.post.toNat]

/-- The fields by the names they have in a JSON object. -/
def fields (r : Report) : List (String × Nat) :=
  [("elapsed_ms", r.elapsedMs), ("frames", r.frames), ("cycles", r.cycles), ("pc", r.pc.toNat),
    ("interrupt_status", r.interruptStatus.toNat), ("interrupt_mask", r.interruptMask.toNat),
    ("gp0_words", r.queuedWords), ("gp0_dropped", r.droppedWords), ("post_code", r.post.toNat)]

def text (r : Report) : String := String.intercalate "\n" r.lines

def json (r : Report) : String :=
  let members := r.fields.map fun (name, n) => "  \"" ++ name ++ "\": " ++ toString n
  "\x7b\n" ++ String.intercalate ",\n" members ++ "\n\x7d"

def write (r : Report) : CommandLine.Format → String
  | .text => r.text
  | .json => r.json

end Report

end Psx
