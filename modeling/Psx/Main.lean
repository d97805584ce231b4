import Psx.Config.Document
import Psx.Report
import Psx.Snapshot.Session

/-!
# Running without a screen

Builds a session from the files that the command line names, runs it, and prints a report.
-/

namespace Psx.CommandLine

/-- The bytes of a file, if it can be read. -/
def readFile? (path : String) : IO (Option ByteArray) := do
  try pure (some (← IO.FS.readBinFile path)) catch _ => pure none

def fail (e : Error) : IO α := throw (IO.userError e.message)

def orFail : Except Error α → IO α
  | .ok a => pure a
  | .error e => fail e

def loadConfig (o : Options) : IO SessionConfig := do
  match o.config with
  | none => pure (o.apply {})
  | some path => pure (o.apply (← orFail (SessionConfig.load (← readFile? path))))

/-- The boot image that a configuration names, as it is found. -/
def findBios (config : SessionConfig) : IO (Option Bus.BiosFile) := do
  match config.biosPath with
  | none => pure none
  | some path =>
    match ← readFile? path with
    | some data => pure (some (.image data))
    | none => pure (some (.missing path))

def run (o : Options) : IO Unit := do
  let config ← loadConfig o
  let m : Machine Empty ← orFail (Machine.ofConfig config (← findBios config))
  let m := match o.trace with
    | some limit => m.enableTracing (.text "") (some limit)
    | none => m
  let firstFrame := m.bus.board.gpu.beam.frames
  let start ← IO.monoMsNow
  let m := m.runFor o.length
  let (tracer, m) := m.disableTracing
  if let some tracer := tracer then IO.FS.writeFile o.traceFile tracer.sink.output
  if let some path := o.snapshotFile then IO.FS.writeBinFile path m.snapshot
  let report := Report.ofMachine m firstFrame ((← IO.monoMsNow) - start)
  for line in m.bus.board.console do IO.eprintln ("TTY: " ++ line)
  IO.println (report.write o.format)

end Psx.CommandLine

def main (args : List String) : IO UInt32 := do
  match Psx.CommandLine.parse? args {} with
  | none =>
    IO.eprintln Psx.CommandLine.usage
    pure 2
  | some options =>
    Psx.CommandLine.run options
    pure 0
