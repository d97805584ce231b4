import Psx.Config.Basic

/-!
# Command line

The options of a run without a screen: where its configuration and its boot image are, how long it
runs, and what it leaves behind.
-/

namespace Psx.CommandLine

inductive Length where
  | frames (n : Nat)
  | cycles (n : Nat)
deriving DecidableEq, Repr

inductive Format where
  | text
  | json
deriving DecidableEq, Repr

structure Options where
  config : Option String := none
  bios : Option String := none
  length : Length := .frames 60
  /-- How many instructions are traced, if any. -/
  trace : Option Nat := none
  traceFile : String := "trace.log"
  snapshotFile : Option String := none
  format : Format := .text
deriving DecidableEq, Repr

def usage : String :=
  "usage: psx [--config FILE] [--bios FILE] [--frames N] [--cycles N] [--trace N] "
    ++ "[--trace-file FILE] [--snapshot-out FILE] [--report text|json]"

def formatOf? : String → Option Format
  | "text" => some .text
  | "json" => some .json
  | _ => none

/-- The options with one more option and its value. -/
def Options.set? (o : Options) (option value : String) : Option Options :=
  match option with
  | "--config" | "-c" => some { o with config := some value }
  | "--bios" | "-b" => some { o with bios := some value }
  | "--frames" | "-f" =>
    value.toNat?.map fun n =>
      match o.length with
      | .frames _ => { o with length := .frames n }
      | .cycles _ => o
  | "--cycles" => value.toNat?.map fun n => { o with length := .cycles n }
  | "--trace" => value.toNat?.map fun n => { o with trace := some n }
  | "--trace-file" => some { o with traceFile := value }
  | "--snapshot-out" => some { o with snapshotFile := some value }
  | "--report" => (formatOf? value).map fun format => { o with format }
  | _ => none

/-- Reads options in pairs of a name and a value. A number of cycles counts more than a number of
frames. -/
def parse? : List String → Options → Option Options
  | [], o => some o
  | option :: value :: rest, o => (o.set? option value).bind (parse? rest)
  | [_], _ => none

/-- The configuration with the boot image of the command line, if it names one. -/
def Options.apply (o : Options) (config : SessionConfig) : SessionConfig :=
  match o.bios with
  | some path => { config with biosPath := some path }
  | none => config

end Psx.CommandLine
