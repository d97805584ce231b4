import Psx.Proofs.Bus.Core
import Psx.Proofs.Bus.Frame
import Psx.Proofs.Checked.Dma
import Psx.Proofs.Checked.Gpu
import Psx.Proofs.Checked.Timers
import Psx.Proofs.Memory.Cells

/-!
# The board and the bus, checked

An access is aligned down to its width first, so in a memory of a size that is a multiple of four it
ends inside. What a device is given is the distance to the base it was registered at, and a window
never begins below that (`DecodeTable.Sound`). Devices from outside are not looked into.
-/

namespace Psx

open Checked

/-! ### Memory control -/

namespace MemoryControl

def read! (m : MemoryControl) (offset : UInt32) (w : Width) : Option UInt32 :=
  if wordOf offset == ramSizeOffset then readLane! m.ramSize offset w
  else match m.register? (offset / 4).toNat with
    | some value => readLane! value offset w
    | none => pure 0

/-- The address of the register is computed for the log. -/
def write! (m : MemoryControl) (offset : UInt32) (w : Width) (value : UInt32) :
    Option MemoryControl := do
  if wordOf offset == ramSizeOffset then
    pure { m with ramSize := ← writeLane! m.ramSize offset w value }
  else
    let i := (offset / 4).toNat
    if h : i < 9 then
      let lanes ← writeLane! m.registers[i] offset w value
      let _ ← add32 base offset
      pure { m with registers := m.registers.set i lanes }
    else pure m

variable (m : MemoryControl) (offset : UInt32) (w : Width) (value : UInt32)

@[simp] theorem read!_eq : m.read! offset w = some (m.read offset w) := by
  unfold read! read
  split_ifs
  · exact readLane!_eq ..
  · cases m.register? (offset / 4).toNat with
    | none => rfl
    | some value => exact readLane!_eq ..

@[simp] theorem write!_eq : m.write! offset w value = some (m.write offset w value) := by
  unfold write! write
  simp only [writeLane!_eq, Option.bind_eq_bind, Option.bind_some, Option.pure_def]
  split_ifs with hr h
  · rfl
  · have hlog : base.toNat + offset.toNat < 2 ^ 32 := by
      rw [UInt32.toNat_div] at h
      change offset.toNat / 4 < 9 at h
      show 0x1F801000 + offset.toNat < 2 ^ 32
      omega
    rw [add32_eq hlog]
    rfl
  · rfl

end MemoryControl

/-! ### The board -/

namespace Board

variable {δ : Type}

def withDma! (b : Board δ) (asks : Bool) (dma : Dma) : Option (Board δ) := do
  if asks then pure { b with dma, lines := ← b.lines.raise! .dma } else pure { b with dma }

def withGpu! (b : Board δ) (signals : List Signal) (gpu : Gpu) : Option (Board δ) := do
  pure { b with gpu, lines := ← b.lines.deliverAll! signals }

@[simp] theorem withDma!_eq (b : Board δ) (asks : Bool) (dma : Dma) :
    b.withDma! asks dma = some (b.withDma asks dma) := by
  cases asks <;> simp [withDma!, withDma]

@[simp] theorem withGpu!_eq (b : Board δ) (signals : List Signal) (gpu : Gpu) :
    b.withGpu! signals gpu = some (b.withGpu signals gpu) := by
  simp [withGpu!, withGpu]

variable [Device δ]

def read! (b : Board δ) (part : Part) (offset : UInt32) (w : Width) :
    Option (UInt32 × Board δ) := do
  match part with
  | .interrupts => pure (← b.lines.interrupts.read! offset w, b)
  | .timers =>
    let (value, timers) ← b.lines.timers.read! offset w
    pure (value, { b with lines.timers := timers })
  | .dma => pure (← b.dma.read! offset w, b)
  | .memoryControl => pure (← b.memoryControl.read! offset w, b)
  | .expansion => pure (b.expansion.read offset w, b)
  | .gpu =>
    let (value, gpu) ← b.gpu.read! offset w
    pure (value, { b with gpu })
  | .external i => pure (b.read (.external i) offset w)

def write! (b : Board δ) (part : Part) (offset : UInt32) (w : Width) (value : UInt32) :
    Option (Board δ) := do
  match part with
  | .interrupts =>
    pure { b with lines.interrupts := ← b.lines.interrupts.write! offset w value }
  | .timers => pure { b with lines.timers := ← b.lines.timers.write! offset w value }
  | .dma =>
    let (asks, dma) ← b.dma.write! offset w value
    b.withDma! asks dma
  | .memoryControl => pure { b with memoryControl := ← b.memoryControl.write! offset w value }
  | .expansion =>
    let (line, expansion) := b.expansion.write offset value
    pure { b with expansion, console := line.elim b.console b.console.push }
  | .gpu =>
    let (signals, gpu) ← b.gpu.write! offset value
    b.withGpu! signals gpu
  | .external i => pure (b.write (.external i) offset w value)

def consume! (b : Board δ) (part : Part) (channel : Nat) (word : UInt32) : Option (Board δ) := do
  match part with
  | .gpu =>
    let (signals, gpu) ← b.gpu.writeGp0! word
    b.withGpu! signals gpu
  | part => pure (b.consume part channel word)

def produce! (b : Board δ) (part : Part) (channel : Nat) : Option (UInt32 × Board δ) := do
  match part with
  | .gpu =>
    let (value, gpu) ← b.gpu.readLatch!
    pure (value, { b with gpu })
  | part => pure (b.produce part channel)

def advance! (b : Board δ) (cycles : Nat) : Part → Option (Board δ)
  | .timers => do pure { b with lines := ← b.lines.advance! cycles }
  | .gpu => do
    let (signals, gpu) ← b.gpu.advance! cycles
    b.withGpu! signals gpu
  | part => pure (b.advance cycles part)

def reset! (b : Board δ) : Part → Option (Board δ)
  | .gpu => b.withGpu! b.gpu.reset.1 b.gpu.reset.2
  | part => pure (b.reset part)

def untilEvent! (b : Board δ) : Part → Option (Option Nat)
  | .gpu => do pure (some (← b.gpu.untilEvent!))
  | part => pure (b.untilEvent part)

/-- The words that were dropped from the queue of the video port. -/
def dropped (b : Board δ) : Nat := b.gpu.queue.dropped

variable {b : Board δ} (part : Part)

@[simp] theorem read!_eq (b : Board δ) (offset : UInt32) (w : Width) :
    b.read! part offset w = some (b.read part offset w) := by
  cases part <;> simp [read!, read]

theorem write!_eq (h : b.dropped + 1 < 2 ^ 64) (offset : UInt32) (w : Width) (value : UInt32) :
    b.write! part offset w value = some (b.write part offset w value) := by
  cases part with
  | gpu => simp [write!, write, Gpu.write!_eq h]
  | _ => simp [write!, write]

theorem consume!_eq (h : b.dropped + 1 < 2 ^ 64) (channel : Nat) (word : UInt32) :
    b.consume! part channel word = some (b.consume part channel word) := by
  cases part with
  | gpu => simp [consume!, consume, Gpu.writeGp0!_eq h]
  | _ => rfl

@[simp] theorem produce!_eq (b : Board δ) (channel : Nat) :
    b.produce! part channel = some (b.produce part channel) := by
  cases part with
  | gpu => simp [produce!, produce]
  | _ => rfl

@[simp] theorem reset!_eq (b : Board δ) : b.reset! part = some (b.reset part) := by
  cases part with
  | gpu => exact withGpu!_eq ..
  | _ => rfl

@[simp] theorem untilEvent!_eq (b : Board δ) : b.untilEvent! part = some (b.untilEvent part) := by
  cases part with
  | gpu => simp [untilEvent!, untilEvent]
  | _ => rfl

omit [Device δ] in
theorem dropped_withDma (b : Board δ) (asks : Bool) (dma : Dma) :
    (b.withDma asks dma).dropped = b.dropped := rfl

theorem dropped_read (b : Board δ) (offset : UInt32) (w : Width) :
    (b.read part offset w).2.dropped = b.dropped := by
  cases part with
  | gpu => exact congrArg (·.dropped) (b.gpu.read_queue offset w)
  | «external» i => unfold read; dsimp only; split <;> rfl
  | _ => rfl

theorem dropped_write (b : Board δ) (hp : part ≠ .gpu) (offset : UInt32) (w : Width)
    (value : UInt32) : (b.write part offset w value).dropped = b.dropped := by
  cases part with
  | gpu => exact absurd rfl hp
  | «external» i => unfold write; dsimp only; split <;> rfl
  | _ => rfl

theorem dropped_write_le (b : Board δ) (offset : UInt32) (w : Width) (value : UInt32) :
    (b.write part offset w value).dropped ≤ b.dropped + 1 := by
  by_cases hp : part = .gpu
  · subst hp
    exact b.gpu.write_dropped_le offset value
  · rw [dropped_write part b hp]
    exact Nat.le_succ _

theorem dropped_consume_le (b : Board δ) (channel : Nat) (word : UInt32) :
    (b.consume part channel word).dropped ≤ b.dropped + 1 := by
  cases part with
  | gpu => exact b.gpu.writeGp0_dropped_le word
  | «external» i => unfold consume; dsimp only; split <;> exact Nat.le_succ _
  | _ => exact Nat.le_succ _

theorem dropped_produce (b : Board δ) (channel : Nat) :
    (b.produce part channel).2.dropped = b.dropped := by
  cases part with
  | gpu => exact congrArg (·.dropped) b.gpu.readLatch_queue
  | «external» i => unfold produce; dsimp only; split <;> rfl
  | _ => rfl

theorem dropped_advance (b : Board δ) (cycles : Nat) :
    (b.advance cycles part).dropped = b.dropped := by
  cases part with
  | «external» i => unfold advance; dsimp only; split <;> rfl
  | _ => rfl

/-- Cycles can pass for the chips: the clocks keep little, the beam is inside its frame, and the
frames can be counted. -/
structure Runs (b : Board δ) (cycles : Nat) : Prop where
  timers : b.lines.timers.Kept
  beam : b.gpu.beam.InFrame
  narrow : cycles < 2 ^ 32
  frames : b.gpu.beam.frames + cycles < 2 ^ 64

theorem advance_core!_eq {cycles : Nat} (h : b.Runs cycles) :
    Part.core.foldlM (fun board p => board.advance! cycles p) b =
      some (Part.core.foldl (fun board p => board.advance cycles p) b) := by
  have ht : ({ b with lines := b.lines.advance cycles } : Board δ).gpu.advance! cycles =
      some (b.gpu.advance cycles) := Gpu.advance!_eq h.beam h.narrow h.frames
  simp only [Part.core, List.foldlM_cons, List.foldlM_nil, List.foldl_cons, List.foldl_nil,
    advance!, advance, Lines.advance!_eq h.timers h.narrow, ht, withGpu!_eq, Option.bind_eq_bind,
    Option.bind_some, Option.pure_def]

end Board

/-! ### The decode table -/

namespace DecodeTable

variable {ι : Type} {t : DecodeTable ι}

/-- The window is searched by halving; what it names is then an index and a difference. -/
def lookup! (t : DecodeTable ι) (address : UInt32) : Option (Option (ι × UInt32)) := do
  match (t.lastOf? (t.countWhile (·.first ≤ address))).filter (address ≤ ·.last) with
  | none => pure none
  | some w =>
    let e ← t.entries[w.device]?
    pure (some (e.part, ← sub32 address e.base))

/-- A window does not begin below the base of its device. -/
def Based (t : DecodeTable ι) : Prop :=
  ∀ w ∈ t.windows, ∃ e, t.entries[w.device]? = some e ∧ e.base ≤ w.first

theorem based_core : coreTable.Based := by
  unfold Based
  decide

theorem lookup!_eq (h : t.Based) (address : UInt32) :
    t.lookup! address = some (t.lookup? address) := by
  unfold lookup! lookup?
  cases hw : (t.lastOf? (t.countWhile (·.first ≤ address))).filter (address ≤ ·.last) with
  | none => rfl
  | some w =>
    obtain ⟨hw, -⟩ := Option.filter_eq_some_iff.1 hw
    have hfirst : w.first ≤ address := of_decide_eq_true (any_lastOf? hw)
    obtain ⟨e, he, hbase⟩ := h w (mem_of_lastOf? hw)
    simp only [Option.bind_eq_bind, Option.bind_some]
    rw [he, Option.bind_some, sub32_eq (UInt32.le_trans hbase hfirst)]
    rfl

end DecodeTable

/-! ### The bus -/

namespace Bus

variable {δ : Type}

/-- An image is copied over one of its size. -/
def loadBios! (b : Bus δ) (image : ByteArray) : Option (Except Error (Bus δ)) :=
  if image.size = Address.biosSize then
    if b.memory.bios.size = image.size then
      pure (.ok { b with memory.bios := image })
    else none
  else pure (.error (.invalidBiosSize Address.biosSize image.size))

/-- Puts a byte into RAM so many bytes behind the start. -/
def storeByte! (start : Nat) : ByteArray × Nat → UInt8 → Option (ByteArray × Nat)
  | (ram, i), byte => do
    let place := (← held 64 (start + i)) &&& Address.ramMask.toNat
    if place < ram.size then pure (Bytes.setByte ram place byte, i + 1) else none

def storeBytes! (b : Bus δ) (address : UInt32) (data : List UInt8) : Option (Bus δ) := do
  let start := Memory.ramIndex (Address.translate address)
  let (ram, _) ← data.foldlM (storeByte! start) (b.memory.ram, 0)
  pure { b with memory.ram := ram }

variable [Device δ]

def readDevice! (b : Bus δ) (physical : UInt32) (w : Width) : Option (UInt32 × Bus δ) := do
  match ← b.table.lookup! physical with
  | none => pure (b.openBus &&& w.mask, b)
  | some (part, offset) =>
    let (value, board) ← b.board.read! part offset w
    pure (value &&& w.mask, { b with board })

def writeDevice! (b : Bus δ) (physical : UInt32) (w : Width) (value : UInt32) :
    Option (Bus δ) := do
  match ← b.table.lookup! physical with
  | none => pure b
  | some (part, offset) => pure { b with board := ← b.board.write! part offset w value }

def read! (b : Bus δ) (address : UInt32) (w : Width) : Option (UInt32 × Bus δ) := do
  let address ← w.align! address
  let physical := Address.translate address
  match Address.region address with
  | .ram => pure (← Bytes.load! b.memory.ram (Memory.ramIndex physical) w, b)
  | .scratchpad =>
    let offset ← sub32 physical Address.scratchpadFirst
    pure (← Bytes.load! b.memory.scratchpad offset.toNat w, b)
  | .bios =>
    let offset ← sub32 physical Address.biosFirst
    pure (← Bytes.load! b.memory.bios offset.toNat w, b)
  | .cacheControl => pure (← readLane! b.memory.cacheControl 0 w, b)
  | .io | .expansion1 | .expansion2 => b.readDevice! physical w
  | .expansion3 | .unmapped => pure (b.openBus &&& w.mask, b)

def write! (b : Bus δ) (address : UInt32) (w : Width) (value : UInt32) : Option (Bus δ) := do
  let address ← w.align! address
  let physical := Address.translate address
  let value := value &&& w.mask
  match Address.region address with
  | .ram =>
    let ram ← Bytes.store! b.memory.ram (Memory.ramIndex physical) w value
    pure { b with memory.ram := ram }
  | .scratchpad =>
    let offset ← sub32 physical Address.scratchpadFirst
    let scratchpad ← Bytes.store! b.memory.scratchpad offset.toNat w value
    pure { b with memory.scratchpad := scratchpad }
  | .cacheControl =>
    let cacheControl ← writeLane! b.memory.cacheControl 0 w value
    pure { b with memory.cacheControl := cacheControl }
  | .io | .expansion1 | .expansion2 => b.writeDevice! physical w value
  | .bios | .expansion3 | .unmapped => pure b

def dmaConsume! (b : Bus δ) (channel : Nat) (word : UInt32) : Option (Bus δ) := do
  match b.table.served? channel with
  | none => pure b
  | some part => pure { b with board := ← b.board.consume! part channel word }

def dmaProduce! (b : Bus δ) (channel : Nat) : Option (UInt32 × Bus δ) := do
  match b.table.served? channel with
  | none => pure (b.openBus, b)
  | some part =>
    let (value, board) ← b.board.produce! part channel
    pure (value, { b with board })

def advance! (b : Bus δ) (cycles : Nat) : Option (Bus δ) := do
  if cycles = 0 then pure b
  else
    let board ← b.table.entries.toList.foldlM (fun board e => board.advance! cycles e.part) b.board
    pure { b with board }

/-- Filling the memories cannot fail. -/
def reset! (b : Bus δ) : Option (Bus δ) := do
  let board ← b.table.entries.toList.foldlM (fun board e => board.reset! e.part) b.board
  pure { b with memory := b.memory.reset, board }

def untilEvent! (b : Bus δ) : Option (Option Nat) :=
  b.table.entries.toList.foldlM
    (fun soonest e => do pure (sooner soonest (← b.board.untilEvent! e.part))) none

/-- The bus is that of the core, its memories have their sizes, and so many words more can be
dropped from the queue of the video port. -/
structure Ready (b : Bus δ) (words : Nat) : Prop where
  table : b.table = coreTable
  sizes : b.memory.hasSizes = true
  dropped : b.board.dropped + words < 2 ^ 64

namespace Ready

omit [Device δ]

variable {b : Bus δ} {n : Nat}

theorem based (h : b.Ready n) : b.table.Based := by
  rw [h.table]
  exact DecodeTable.based_core

theorem ram (h : b.Ready n) : b.memory.ram.size = 0x200000 := (Memory.hasSizes_iff.1 h.sizes).1.1

theorem scratchpad (h : b.Ready n) : b.memory.scratchpad.size = 0x400 :=
  (Memory.hasSizes_iff.1 h.sizes).1.2

theorem bios (h : b.Ready n) : b.memory.bios.size = 0x80000 := (Memory.hasSizes_iff.1 h.sizes).2

end Ready

/-! ### Accesses -/

section accesses

variable {b : Bus δ} {n : Nat}

theorem readDevice!_eq (h : b.Ready n) (physical : UInt32) (w : Width) :
    b.readDevice! physical w = some (b.readDevice physical w) := by
  unfold readDevice! readDevice
  rw [DecodeTable.lookup!_eq h.based]
  cases b.table.lookup? physical with
  | none => rfl
  | some r => simp only [Board.read!_eq, Option.bind_eq_bind, Option.bind_some, Option.pure_def]

theorem writeDevice!_eq (h : b.Ready (n + 1)) (physical : UInt32) (w : Width) (value : UInt32) :
    b.writeDevice! physical w value = some (b.writeDevice physical w value) := by
  have hd : b.board.dropped + 1 < 2 ^ 64 := by have := h.dropped; omega
  unfold writeDevice! writeDevice
  rw [DecodeTable.lookup!_eq h.based]
  cases b.table.lookup? physical with
  | none => rfl
  | some r =>
    simp only [Board.write!_eq r.1 hd, Option.bind_eq_bind, Option.bind_some, Option.pure_def]

/-- The place of an aligned access in the image that its region names. -/
theorem place_lt {a : UInt32} {w : Width} {image : Image} {i : Nat}
    (hc : Cell.at? (w.align a).toNat = some ⟨image, i⟩) : i + w.bytes.toNat ≤ image.size := by
  have hpos : 0 < w.bytes.toNat := by cases w <;> decide
  have h := Cell.index_add_lt hc (Nat.sub_one_lt_of_lt hpos)
  dsimp only at h
  omega

/-- What is neither open bus nor the cache control register is where its physical address says. -/
theorem physicalRegion_of_region {a : UInt32} {r : Region} (h : Address.region a = r)
    (hr : r ≠ .unmapped) (hc : r ≠ .cacheControl) :
    Address.physicalRegion (Address.translate a) = r := by
  by_cases hk : 0xC0000000 ≤ a.toNat
  · rw [Address.region_kseg2 hk] at h
    split at h
    · exact absurd h.symm hc
    · exact absurd h.symm hr
  · rw [Address.region_eq (Nat.not_le.1 hk)] at h
    split at h
    · exact absurd h.symm hr
    · exact h

theorem scratchpadFirst_le {a : UInt32} (h : Address.region a = .scratchpad) :
    Address.scratchpadFirst ≤ Address.translate a := by
  have hp := physicalRegion_of_region h (by decide) (by decide)
  exact UInt32.le_iff_toNat_le.2 (Address.physicalRegion_eq_scratchpad.1 hp).1

theorem biosFirst_le {a : UInt32} (h : Address.region a = .bios) :
    Address.biosFirst ≤ Address.translate a := by
  have hp := physicalRegion_of_region h (by decide) (by decide)
  exact UInt32.le_iff_toNat_le.2 (Address.physicalRegion_eq_bios.1 hp).1

theorem read!_eq (h : b.Ready n) (address : UInt32) (w : Width) :
    b.read! address w = some (b.read address w) := by
  have hcell := Cell.at?_region (w.align address)
  unfold read! read
  simp only [Width.align!_eq, Option.bind_eq_bind, Option.bind_some, Option.pure_def]
  cases hr : Address.region (w.align address) with
  | ram =>
    rw [hr] at hcell
    have hlt := place_lt hcell
    dsimp only
    rw [Bytes.load!_eq (by rw [h.ram]; exact hlt) (by rw [h.ram]; decide)]
    rfl
  | scratchpad =>
    rw [hr] at hcell
    have hlt := place_lt hcell
    dsimp only
    rw [sub32_eq (scratchpadFirst_le hr), Option.bind_some,
      Bytes.load!_eq (by rw [h.scratchpad]; exact hlt) (by rw [h.scratchpad]; decide)]
    rfl
  | bios =>
    rw [hr] at hcell
    have hlt := place_lt hcell
    dsimp only
    rw [sub32_eq (biosFirst_le hr), Option.bind_some,
      Bytes.load!_eq (by rw [h.bios]; exact hlt) (by rw [h.bios]; decide)]
    rfl
  | cacheControl => simp only [readLane!_eq, Option.bind_some]
  | io | expansion1 | expansion2 => exact readDevice!_eq h ..
  | expansion3 | unmapped => rfl

theorem write!_eq (h : b.Ready (n + 1)) (address : UInt32) (w : Width) (value : UInt32) :
    b.write! address w value = some (b.write address w value) := by
  have hcell := Cell.at?_region (w.align address)
  unfold write! write
  simp only [Width.align!_eq, Option.bind_eq_bind, Option.bind_some, Option.pure_def]
  cases hr : Address.region (w.align address) with
  | ram =>
    rw [hr] at hcell
    have hlt := place_lt hcell
    dsimp only
    rw [Bytes.store!_eq (by rw [h.ram]; exact hlt) (by rw [h.ram]; decide)]
    rfl
  | scratchpad =>
    rw [hr] at hcell
    have hlt := place_lt hcell
    dsimp only
    rw [sub32_eq (scratchpadFirst_le hr), Option.bind_some,
      Bytes.store!_eq (by rw [h.scratchpad]; exact hlt) (by rw [h.scratchpad]; decide)]
    rfl
  | cacheControl => simp only [writeLane!_eq, Option.bind_some]
  | io | expansion1 | expansion2 => exact writeDevice!_eq h ..
  | bios | expansion3 | unmapped => rfl

theorem dmaConsume!_eq (h : b.Ready (n + 1)) (channel : Nat) (word : UInt32) :
    b.dmaConsume! channel word = some (b.dmaConsume channel word) := by
  have hd : b.board.dropped + 1 < 2 ^ 64 := by have := h.dropped; omega
  unfold dmaConsume! dmaConsume
  cases b.table.served? channel with
  | none => rfl
  | some part =>
    simp only [Board.consume!_eq part hd, Option.bind_eq_bind, Option.bind_some, Option.pure_def]

theorem dmaProduce!_eq (b : Bus δ) (channel : Nat) :
    b.dmaProduce! channel = some (b.dmaProduce channel) := by
  unfold dmaProduce! dmaProduce
  cases b.table.served? channel with
  | none => rfl
  | some part => simp only [Board.produce!_eq, Option.bind_eq_bind, Option.bind_some,
      Option.pure_def]

/-! ### What is counted -/

theorem dropped_read (b : Bus δ) (address : UInt32) (w : Width) :
    (b.read address w).2.board.dropped = b.board.dropped := by
  have hdevice : ∀ physical, (b.readDevice physical w).2.board.dropped = b.board.dropped := by
    intro physical
    unfold readDevice
    split
    · rfl
    · exact b.board.dropped_read ..
  unfold read
  dsimp only
  split <;> first | rfl | exact hdevice _

theorem dropped_writeDevice_le (b : Bus δ) (physical : UInt32) (w : Width) (value : UInt32) :
    (b.writeDevice physical w value).board.dropped ≤ b.board.dropped + 1 := by
  unfold writeDevice
  split
  · exact Nat.le_succ _
  · exact b.board.dropped_write_le ..

theorem dropped_write_le (b : Bus δ) (address : UInt32) (w : Width) (value : UInt32) :
    (b.write address w value).board.dropped ≤ b.board.dropped + 1 := by
  unfold write
  dsimp only
  split <;> first | exact Nat.le_succ _ | exact b.dropped_writeDevice_le ..

theorem dropped_consume_le (b : Bus δ) (channel : Nat) (word : UInt32) :
    (b.dmaConsume channel word).board.dropped ≤ b.board.dropped + 1 := by
  unfold dmaConsume
  split
  · exact Nat.le_succ _
  · exact b.board.dropped_consume_le ..

theorem dropped_produce (b : Bus δ) (channel : Nat) :
    (b.dmaProduce channel).2.board.dropped = b.board.dropped := by
  unfold dmaProduce
  split
  · rfl
  · exact b.board.dropped_produce ..

namespace Ready

omit [Device δ] in
theorem of_frame {b' : Bus δ} {k : Nat} (h : b.Ready n) (hf : b.Frame b')
    (hd : b'.board.dropped + k ≤ b.board.dropped + n) : b'.Ready k where
  table := hf.table.trans h.table
  sizes := hf.sizes h.sizes
  dropped := Nat.lt_of_le_of_lt hd h.dropped

omit [Device δ] in
theorem mono {k : Nat} (h : b.Ready n) (hk : k ≤ n) : b.Ready k :=
  h.of_frame (.refl b) (Nat.add_le_add_left hk _)

theorem read (h : b.Ready n) (address : UInt32) (w : Width) : (b.read address w).2.Ready n :=
  h.of_frame (b.frame_read address w) (by rw [dropped_read])

theorem write (h : b.Ready (n + 1)) (address : UInt32) (w : Width) (value : UInt32) :
    (b.write address w value).Ready n :=
  h.of_frame (b.frame_write address w value) (by have := b.dropped_write_le address w value; omega)

theorem consume (h : b.Ready (n + 1)) (channel : Nat) (word : UInt32) :
    (b.dmaConsume channel word).Ready n :=
  h.of_frame (b.frame_dmaConsume channel word) (by have := b.dropped_consume_le channel word; omega)

theorem produce (h : b.Ready n) (channel : Nat) : (b.dmaProduce channel).2.Ready n :=
  h.of_frame (b.frame_dmaProduce channel) (by rw [dropped_produce])

end Ready

end accesses

/-! ### Time -/

variable {b : Bus δ}

theorem advance!_eq (ht : b.table = coreTable) {cycles : Nat} (h : b.board.Runs cycles) :
    b.advance! cycles = some (b.advance cycles) := by
  unfold advance! advance
  split_ifs
  · rfl
  · have hparts : b.table.entries.toList.map (·.part) = Part.core := by rw [ht]; rfl
    rw [eachPart_eq, show b.parts = Part.core from hparts]
    have hfold := Board.advance_core!_eq h
    rw [← hparts, List.foldlM_map] at hfold
    rw [hfold, hparts]
    rfl

theorem reset!_eq (b : Bus δ) : b.reset! = some b.reset := by
  have hfold := foldlM_eq (P := fun _ => True) (l := b.table.entries.toList)
    (f := fun board e => board.reset! e.part) (g := fun board e => board.reset e.part)
    (fun board _ e _ => ⟨board.reset!_eq e.part, trivial⟩) (b := b.board) trivial
  unfold reset! reset eachPart
  rw [hfold, Array.foldl_toList]
  rfl

theorem untilEvent!_eq (b : Bus δ) : b.untilEvent! = some b.untilEvent := by
  unfold untilEvent! untilEvent
  rw [← Array.foldl_toList]
  exact foldlM_eq (P := fun _ => True)
    (fun soonest _ e _ => ⟨by rw [Board.untilEvent!_eq]; rfl, trivial⟩) trivial

/-! ### Images -/

omit [Device δ] in
theorem loadBios!_eq (h : b.memory.hasSizes = true) (image : ByteArray) :
    b.loadBios! image = some (b.loadBios image) := by
  have hbios : b.memory.bios.size = Address.biosSize := (Memory.hasSizes_iff.1 h).2
  unfold loadBios! loadBios Memory.loadBios
  split_ifs with hi hb
  · rfl
  · exact absurd (hbios.trans hi.symm) hb
  · rfl

theorem storeByte!_foldl {start i : Nat} {ram : ByteArray} (h : ram.size = Address.ramSize)
    {data : List UInt8} (hd : start + i + data.length < 2 ^ 64) :
    data.foldlM (storeByte! start) (ram, i) = some
      ((data.foldl (fun (ram, i) byte => (Bytes.setByte ram (i % Address.ramSize) byte, i + 1))
        (ram, start + i)).1, i + data.length) := by
  induction data generalizing ram i with
  | nil => rfl
  | cons byte data ih =>
    rw [List.length_cons] at hd
    have hplace : (start + i) &&& Address.ramMask.toNat = (start + i) % Address.ramSize :=
      Nat.and_two_pow_sub_one_eq_mod _ 21
    have hlt : (start + i) % Address.ramSize < ram.size := by
      rw [h]
      exact Nat.mod_lt _ (by decide)
    rw [List.foldlM_cons, storeByte!, held_eq (by omega)]
    simp only [Option.bind_eq_bind, Option.bind_some, hplace, if_pos hlt, Option.pure_def]
    rw [ih ((Bytes.setByte_size ..).trans h) (by omega), List.foldl_cons, List.length_cons,
      Nat.add_assoc start, Nat.add_right_comm i, Nat.add_assoc i]

omit [Device δ] in
/-- A row of bytes that the host can hold is put into RAM. -/
theorem storeBytes!_eq (h : b.memory.hasSizes = true) (address : UInt32) {data : List UInt8}
    (hd : data.length < 2 ^ 63) : b.storeBytes! address data = some (b.storeBytes address data) := by
  have hram : b.memory.ram.size = Address.ramSize := (Memory.hasSizes_iff.1 h).1.1
  have hstart : Memory.ramIndex (Address.translate address) < 0x200000 := by
    rw [Memory.ramIndex_eq]
    exact Nat.mod_lt _ (by decide)
  unfold storeBytes!
  dsimp only
  rw [storeByte!_foldl hram (by omega)]
  rfl

end Bus

end Psx
