import Psx.Board
import Psx.Memory.DecodeTable
import Psx.Memory.Store

/-!
# The bus

The bus takes accesses of one, two or four bytes at virtual addresses, aligned down to their width.
It serves the memories and the cache control register itself and hands the rest to the board by
the decode table; what nothing answers yields the open-bus value and swallows writes.

The operations on all registered devices (connecting, letting cycles pass, resetting, saving and
loading) go through them in the order of registration.
-/

namespace Psx

/-- Memories, decode table and board, and what accesses cost. -/
structure Bus (δ : Type) where
  memory : Memory := .initial
  table : DecodeTable Part := {}
  board : Board δ
  timing : BusTiming := {}
  openBus : UInt32 := 0xFFFFFFFF

namespace Bus

variable {δ : Type}

/-- The bus of a configuration with its chips but nothing registered. -/
def ofConfig (config : SessionConfig) : Bus δ where
  board := .ofConfig config
  timing := config.timing
  openBus := config.openBusValue

/-! ### Costs -/

def cost (b : Bus δ) (address : UInt32) : AccessCost := (Address.region address).cost b.timing

def readCycles (b : Bus δ) (address : UInt32) : Nat := (b.cost address).read

def writeCycles (b : Bus δ) (address : UInt32) : Nat := (b.cost address).write

/-- A fetch costs what a read costs. -/
def fetchCycles (b : Bus δ) (address : UInt32) : Nat := (b.cost address).read

/-! ### Accesses -/

variable [Device δ]

def readDevice (b : Bus δ) (physical : UInt32) (w : Width) : UInt32 × Bus δ :=
  match b.table.lookup? physical with
  | none => (b.openBus &&& w.mask, b)
  | some (part, offset) =>
    let (value, board) := b.board.read part offset w
    (value &&& w.mask, { b with board })

def writeDevice (b : Bus δ) (physical : UInt32) (w : Width) (value : UInt32) : Bus δ :=
  match b.table.lookup? physical with
  | none => b
  | some (part, offset) => { b with board := b.board.write part offset w value }

def read (b : Bus δ) (address : UInt32) (w : Width) : UInt32 × Bus δ :=
  let address := w.align address
  let physical := Address.translate address
  match Address.region address with
  | .ram => (Bytes.load b.memory.ram (Memory.ramIndex physical) w, b)
  | .scratchpad =>
    (Bytes.load b.memory.scratchpad (physical - Address.scratchpadFirst).toNat w, b)
  | .bios => (Bytes.load b.memory.bios (physical - Address.biosFirst).toNat w, b)
  | .cacheControl => (readLane b.memory.cacheControl 0 w, b)
  | .io | .expansion1 | .expansion2 => b.readDevice physical w
  | .expansion3 | .unmapped => (b.openBus &&& w.mask, b)

/-- Writes at a virtual address; the BIOS cannot be written. -/
def write (b : Bus δ) (address : UInt32) (w : Width) (value : UInt32) : Bus δ :=
  let address := w.align address
  let physical := Address.translate address
  let value := value &&& w.mask
  match Address.region address with
  | .ram =>
    { b with memory.ram := Bytes.store b.memory.ram (Memory.ramIndex physical) w value }
  | .scratchpad =>
    { b with
      memory.scratchpad := Bytes.store b.memory.scratchpad
        (physical - Address.scratchpadFirst).toNat w value }
  | .cacheControl =>
    { b with memory.cacheControl := writeLane b.memory.cacheControl 0 w value }
  | .io | .expansion1 | .expansion2 => b.writeDevice physical w value
  | .bios | .expansion3 | .unmapped => b

/-! ### Loading images -/

/-- A file that should hold a boot image, as it was found. -/
inductive BiosFile where
  | missing (path : String)
  | unreadable (reason : String)
  | image (data : ByteArray)

def loadBios (b : Bus δ) (image : ByteArray) : Except Error (Bus δ) := do
  let memory ← b.memory.loadBios image
  pure { b with memory }

def loadBiosFile (b : Bus δ) : BiosFile → Except Error (Bus δ)
  | .missing path => .error (.biosNotFound path)
  | .unreadable reason => .error (.inputOutput reason)
  | .image data => b.loadBios data

def storeBytes (b : Bus δ) (address : UInt32) (data : List UInt8) : Bus δ :=
  { b with memory := b.memory.storeBytes address data }

def storeWords (b : Bus δ) (address : UInt32) (words : List UInt32) : Bus δ :=
  { b with memory := b.memory.storeWords address words }

def loadMemory (b : Bus δ) (memory : Memory) : Except Error (Bus δ) := do
  let memory ← memory.replace
  pure { b with memory }

/-! ### Devices -/

/-- Registers a part at a range of addresses; the answer is its number. -/
def register (b : Bus δ) (part : Part) (start size : UInt32) : Except Error (Nat × Bus δ) := do
  let (device, table) ← b.table.register (b.board.nameOf part) part start size
  pure (device, { b with table })

def mapWindow (b : Bus δ) (device : Nat) (start size : UInt32) : Except Error (Bus δ) := do
  let table ← b.table.map device start size
  pure { b with table }

def routeDma (b : Bus δ) (channel device : Nat) : Except Error (Bus δ) := do
  let table ← b.table.route channel device
  pure { b with table }

/-- Hands a word to the device that serves a channel, if there is one. -/
def dmaConsume (b : Bus δ) (channel : Nat) (word : UInt32) : Bus δ :=
  match b.table.served? channel with
  | none => b
  | some part => { b with board := b.board.consume part channel word }

/-- Takes a word from the device that serves a channel. -/
def dmaProduce (b : Bus δ) (channel : Nat) : UInt32 × Bus δ :=
  match b.table.served? channel with
  | none => (b.openBus, b)
  | some part =>
    let (value, board) := b.board.produce part channel
    (value, { b with board })

def parts (b : Bus δ) : List Part := b.table.entries.toList.map (·.part)

def names (b : Bus δ) : List String := b.table.entries.toList.map (·.name)

def eachPart (b : Bus δ) (f : Board δ → Part → Board δ) : Bus δ :=
  { b with board := b.table.entries.foldl (fun board e => f board e.part) b.board }

def connectAll (b : Bus δ) : Bus δ := b.eachPart Board.connect

def advance (b : Bus δ) (cycles : Nat) : Bus δ :=
  if cycles = 0 then b else b.eachPart fun board part => board.advance cycles part

def sooner : Option Nat → Option Nat → Option Nat
  | none, n => n
  | n, none => n
  | some m, some n => some (min m n)

/-- Cycles to the next point at which some device may do something by itself. -/
def untilEvent (b : Bus δ) : Option Nat :=
  b.table.entries.foldl (fun soonest e => sooner soonest (b.board.untilEvent e.part)) none

def reset (b : Bus δ) : Bus δ :=
  { b with memory := b.memory.reset }.eachPart Board.reset

/-! ### Saved states -/

abbrev SavedDevice := String × ByteArray

def saveDevices (b : Bus δ) : List SavedDevice :=
  b.table.entries.toList.map fun e => (e.name, b.board.save e.part)

def nameMismatch (saved session : String) : Error :=
  .snapshotMismatch ("snapshot device '" ++ saved ++ "' where session has '" ++ session ++ "'")

/-- The first name in which saved devices differ from registered ones. -/
def firstMismatch? : List SavedDevice → List String → Option Error
  | (saved, _) :: states, session :: names =>
    if saved = session then firstMismatch? states names else some (nameMismatch saved session)
  | _, _ => none

/-- Saved states fit if they have the names of the registered devices, in order. -/
def validateDevices (b : Bus δ) (states : List SavedDevice) : Except Error Unit :=
  if states.length ≠ b.table.entries.size then
    .error (.snapshotMismatch
      s!"snapshot has {states.length} devices, session has {b.table.entries.size}")
  else match firstMismatch? states b.names with
    | some error => .error error
    | none => .ok ()

/-- Loads saved states one by one until one is refused. -/
def loadEach (board : Board δ) : List SavedDevice → List Part → Option Error × Board δ
  | (_, data) :: states, part :: parts =>
    match board.load part data with
    | .ok board => loadEach board states parts
    | .error error => (some error, board.spoil part data)
  | _, _ => (none, board)

/-- Loads saved states. When one is refused, those before it stay loaded. -/
def loadDevices (b : Bus δ) (states : List SavedDevice) : Option Error × Bus δ :=
  match b.validateDevices states with
  | .error error => (some error, b)
  | .ok () =>
    let (error, board) := loadEach b.board states b.parts
    (error, { b with board })

end Bus

end Psx
