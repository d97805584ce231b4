import Psx.Error
import Psx.Memory.Region

/-!
# The decode table

Devices answer in windows of the physical address space. The table keeps its windows sorted,
disjoint from each other and from the memories that the bus serves itself, so that an address
belongs to at most one of them. The order makes it enough to look at the two neighbours of a new
window, and lets the window of an address be found by halving. A device may have several windows;
the offset it sees is counted from the base it was registered at.
-/

namespace Psx

/-- A range of addresses, both ends included, and the number of the device that answers there. -/
structure Window where
  first : UInt32
  last : UInt32
  device : Nat
deriving DecidableEq, Repr

namespace Window

def contains (w : Window) (address : UInt32) : Bool := w.first ≤ address && address ≤ w.last

def overlaps (w : Window) (first last : UInt32) : Bool := first ≤ w.last && w.first ≤ last

end Window

/-- A registered device: its name, the base of its offsets, and what it is. -/
structure Entry (ι : Type) where
  name : String
  base : UInt32
  part : ι
deriving DecidableEq, Repr

/-- Registered devices, their windows, and which of them serves each DMA channel. -/
structure DecodeTable (ι : Type) where
  entries : Array (Entry ι) := #[]
  windows : Array Window := #[]
  routes : Vector (Option Nat) 7 := .replicate 7 none

namespace DecodeTable

variable {ι : Type}

/-- The ranges that the bus serves itself. -/
def fixed : List (UInt32 × UInt32 × String) :=
  [(0, Address.ramMirrorLast, "RAM"),
    (Address.scratchpadFirst, Address.scratchpadLast, "Scratchpad"),
    (Address.biosFirst, Address.biosLast, "BIOS")]

def nameOf (t : DecodeTable ι) (device : Nat) : String :=
  (t.entries[device]?.map (·.name)).getD ""

/-- Halves a range of places until it is left with the first at which `p` fails. If `p` holds up to
some place and fails from it on, that is the place. -/
@[semireducible] def bisect (p : Window → Bool) (windows : Array Window) (low high : Nat) : Nat :=
  if low < high then
    let middle := (low + high) / 2
    if windows[middle]?.any p then bisect p windows (middle + 1) high
    else bisect p windows low middle
  else low
termination_by high - low

/-- The number of windows for which `p` holds, if they come first. -/
def countWhile (t : DecodeTable ι) (p : Window → Bool) : Nat :=
  bisect p t.windows 0 t.windows.size

/-- The last of the first `n` windows. -/
def lastOf? (t : DecodeTable ι) : Nat → Option Window
  | 0 => none
  | n + 1 => t.windows[n]?

/-- The place of a window that begins at an address: behind those that begin below it. -/
def placeOf (t : DecodeTable ι) (first : UInt32) : Nat := t.countWhile (·.first < first)

/-- The windows between which a window that begins at an address would stand. -/
def neighbours (t : DecodeTable ι) (first : UInt32) : List Window :=
  (t.lastOf? (t.placeOf first)).toList ++ t.windows[t.placeOf first]?.toList

/-- What an address range collides with, if anything. -/
def conflict? (t : DecodeTable ι) (first last : UInt32) : Option String :=
  match fixed.find? fun (f, l, _) => first ≤ l && f ≤ last with
  | some (_, _, name) => some name
  | none =>
    ((t.neighbours first).find? (·.overlaps first last)).map fun w => t.nameOf w.device

def insertAt (windows : Array Window) (place : Nat) (w : Window) : Array Window :=
  windows.take place ++ #[w] ++ windows.drop place

/-- Adds a window for a device of a given name. -/
def insertWindow (t : DecodeTable ι) (device : Nat) (name : String) (start size : UInt32) :
    Except Error (DecodeTable ι) :=
  if size = 0 then .error (.config (name ++ " registered with an empty window"))
  else
    let last := start + (size - 1)
    if last < start then
      .error (.config (name ++ " window at " ++ hexAddress start ++ " wraps"))
    else match t.conflict? start last with
      | some existing => .error (.addressConflict start last existing)
      | none =>
        .ok { t with
          windows := insertAt t.windows (t.placeOf start) { first := start, last, device } }

/-- Adds a device with its first window; the answer is its number. -/
def register (t : DecodeTable ι) (name : String) (part : ι) (start size : UInt32) :
    Except Error (Nat × DecodeTable ι) := do
  let device := t.entries.size
  let t ← t.insertWindow device name start size
  pure (device, { t with entries := t.entries.push { name, base := start, part } })

def noDevice (device : Nat) : Error := .config s!"no device registered at index {device}"

/-- Adds a further window for a registered device. -/
def map (t : DecodeTable ι) (device : Nat) (start size : UInt32) :
    Except Error (DecodeTable ι) :=
  match t.entries[device]? with
  | none => .error (noDevice device)
  | some e =>
    if start < e.base then
      .error (.config ("window " ++ hexAddress start ++ " lies below the base of " ++ e.name))
    else t.insertWindow device e.name start size

def route (t : DecodeTable ι) (channel device : Nat) : Except Error (DecodeTable ι) :=
  if h : channel < 7 then
    if device < t.entries.size then
      .ok { t with routes := t.routes.set channel (some device) }
    else .error (noDevice device)
  else .error (.invalidDmaChannel channel)

def routeOf? (t : DecodeTable ι) (channel : Nat) : Option Nat := (t.routes[channel]?).join

def served? (t : DecodeTable ι) (channel : Nat) : Option ι := do
  let device ← t.routeOf? channel
  let e ← t.entries[device]?
  pure e.part

/-- What answers at a physical address, and at which offset. -/
def lookup? (t : DecodeTable ι) (address : UInt32) : Option (ι × UInt32) := do
  let w ← (t.lastOf? (t.countWhile (·.first ≤ address))).filter (address ≤ ·.last)
  let e ← t.entries[w.device]?
  pure (e.part, address - e.base)

end DecodeTable

end Psx
