import Psx.Config.Basic
import Psx.Error
import Psx.Toml.Document

/-!
# Session configurations as documents

A document lists the settings that differ from the usual ones; keys that name no setting are passed
over. Written out, a configuration lists all its settings in a fixed order.
-/

namespace Psx

open Toml (Value Entries)

namespace SessionConfig

/-! ### Reading -/

/-- The settings in a table. Keys without a setting are passed over, but their values are read. -/
def known? (names : List String) (entries : Entries) : Option Entries :=
  if Entries.isReadable (entries.filter fun (key, _) => !names.contains key) then some entries
  else none

/-- The settings of a group, written as a table or in order as an array, of which elements past the
last setting are not looked at. A date is a table in which no key is a setting. -/
def group? (names : List String) : Value → Option Entries
  | .table _ entries => known? names entries
  | .array elements => some (names.zip elements)
  | .datetime => some []
  | _ => none

/-- A setting, which has its usual value if it is not listed. -/
def setting? {α : Type} (entries : Entries) (key : String) (usual : α) (read : Value → Option α) :
    Option α :=
  match entries.lookup key with
  | some v => read v
  | none => some usual

def natBelow? (limit : Nat) : Value → Option Nat
  | .integer n => if 0 ≤ n ∧ n < limit then some n.toNat else none
  | _ => none

def cycles? : Value → Option Nat := natBelow? 0x100000000

def path? : Value → Option (Option String)
  | .string s => some (some s)
  | _ => none

def standardOfName? : String → Option VideoStandard
  | "ntsc" => some .ntsc
  | "pal" => some .pal
  | _ => none

/-- A video standard is named by a string, or by the only key of a table with nothing in it. -/
def video? : Value → Option VideoStandard
  | .string s => standardOfName? s
  | .table _ [(name, .table _ [])] => standardOfName? name
  | .table _ [(name, .array [])] => standardOfName? name
  | _ => none

/-- Both costs of an access have to be listed. -/
def accessCost? (v : Value) : Option AccessCost := do
  let entries ← group? ["read", "write"] v
  pure ⟨← cycles? (← entries.lookup "read"), ← cycles? (← entries.lookup "write")⟩

def timing? (v : Value) : Option BusTiming := do
  let names := ["instruction_cycles", "ram", "scratchpad", "bios", "io", "expansion"]
  let entries ← group? names v
  let usual : BusTiming := {}
  pure {
    instructionCycles := ← setting? entries "instruction_cycles" usual.instructionCycles cycles?
    ram := ← setting? entries "ram" usual.ram accessCost?
    scratchpad := ← setting? entries "scratchpad" usual.scratchpad accessCost?
    bios := ← setting? entries "bios" usual.bios accessCost?
    io := ← setting? entries "io" usual.io accessCost?
    expansion := ← setting? entries "expansion" usual.expansion accessCost? }

def dmaTiming? (v : Value) : Option DmaTiming := do
  let entries ← group? ["slice_gap_cycles"] v
  let usual : DmaTiming := {}
  pure { sliceGapCycles := ← setting? entries "slice_gap_cycles" usual.sliceGapCycles cycles? }

def ofEntries? (entries : Entries) : Option SessionConfig := do
  let names := ["bios_path", "video", "open_bus_value", "gpu_fifo_capacity", "timing", "dma"]
  let entries ← known? names entries
  let usual : SessionConfig := {}
  let word := fun v => (cycles? v).map (·.toUInt32)
  pure {
    biosPath := ← setting? entries "bios_path" usual.biosPath path?
    video := ← setting? entries "video" usual.video video?
    openBusValue := ← setting? entries "open_bus_value" usual.openBusValue word
    gpuFifoCapacity :=
      ← setting? entries "gpu_fifo_capacity" usual.gpuFifoCapacity (natBelow? 0x10000000000000000)
    timing := ← setting? entries "timing" usual.timing timing?
    dma := ← setting? entries "dma" usual.dma dmaTiming? }

/-- The configuration that a document describes, if it is one. -/
def ofToml? (text : String) : Option SessionConfig := do ofEntries? (← Toml.Document.parse? text)

def unreadable : Error := .inputOutput "the file cannot be read as text"

def notDescribed : Error := .config "the document describes no configuration"

def ofToml (text : String) : Except Error SessionConfig :=
  match ofToml? text with
  | some config => .ok config
  | none => .error notDescribed

/-- The configuration in the bytes of a file; `none` stands for a file that is not there. -/
def load (file : Option ByteArray) : Except Error SessionConfig :=
  match file.bind String.fromUTF8? with
  | some text => ofToml text
  | none => .error unreadable

/-! ### Writing -/

def nameOf : VideoStandard → String
  | .ntsc => "ntsc"
  | .pal => "pal"

def numberLine (key : String) (n : Nat) : String := key ++ " = " ++ toString n ++ "\n"

def costTable (name : String) (cost : AccessCost) : String :=
  "\n[timing." ++ name ++ "]\n" ++ numberLine "read" cost.read ++ numberLine "write" cost.write

/-- The document that lists all settings of a configuration. -/
def toToml (config : SessionConfig) : String :=
  let timing := config.timing
  (match config.biosPath with
    | some path => "bios_path = " ++ String.ofList (Toml.Quoted.write path.toList) ++ "\n"
    | none => "") ++
  "video = \"" ++ nameOf config.video ++ "\"\n" ++
  numberLine "open_bus_value" config.openBusValue.toNat ++
  numberLine "gpu_fifo_capacity" config.gpuFifoCapacity ++
  "\n[timing]\n" ++
  numberLine "instruction_cycles" timing.instructionCycles ++
  costTable "ram" timing.ram ++
  costTable "scratchpad" timing.scratchpad ++
  costTable "bios" timing.bios ++
  costTable "io" timing.io ++
  costTable "expansion" timing.expansion ++
  "\n[dma]\n" ++
  numberLine "slice_gap_cycles" config.dma.sliceGapCycles

end SessionConfig

end Psx
