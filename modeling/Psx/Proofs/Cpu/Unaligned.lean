import Psx.Proofs.Bus.RamBytes
import Psx.Proofs.Cpu.Delays
import Psx.Proofs.Cpu.Sides
import Psx.Proofs.Cpu.Uncached

/-!
# Unaligned words

Two instructions, one for each half, store an unaligned word in RAM or load one from there. A half
that is stored changes the bytes that it covers and no others (`Cpu.Reaches.step_storeSide`), and a
half that is loaded is merged with the register, or with the load to it that is still in flight
(`Cpu.Reaches.step_loadSide`). The halves may come in either order, because each byte is in one of
them at least and both agree where they overlap.

Main statement: `Cpu.unaligned_pairs`.
-/

namespace Psx

open Bytes

/-! ### Halves in RAM -/

theorem Side.pieces_aligned (side : Side) (address : UInt32) :
    ∀ p ∈ side.pieces address, p.1.toNat % p.2.bytes.toNat = 0 := by
  unfold pieces
  rcases and_three_cases address with h | h | h | h <;> rw [h] <;> cases side <;> decide

section piece

variable {aligned lane : UInt32} {w : Width} (ha : aligned.toNat % 4 = 0)
  (h : lane.toNat + w.bytes.toNat ≤ 4)

include ha h

theorem align_piece (hw : lane.toNat % w.bytes.toNat = 0) :
    w.align (aligned + lane) = aligned + lane := by
  apply UInt32.toNat_inj.1
  rw [w.align_toNat, toNat_piece ha h]
  cases w with
  | byte => exact Nat.mul_one _ |>.trans (Nat.div_one _)
  | half =>
    change lane.toNat % 2 = 0 at hw
    show (aligned.toNat + lane.toNat) / 2 * 2 = _
    omega
  | word =>
    change lane.toNat % 4 = 0 at hw
    show (aligned.toNat + lane.toNat) / 4 * 4 = _
    omega

theorem region_piece (hr : Address.region aligned = .ram) :
    Address.region (aligned + lane) = .ram := by
  have hpos : 0 < w.bytes.toNat := by cases w <;> decide
  obtain ⟨hlt, hin⟩ := Address.region_eq_ram.1 hr
  rw [Address.region_eq_ram, toNat_piece ha h]
  omega

end piece

namespace Execution

variable {δ : Type} [Device δ] {x : Execution δ}

/-- Pieces of a word in RAM are stored byte by byte. -/
theorem storeAts_ram (hi : x.cpu.cop0.cacheIsolated = false) (hs : x.bus.memory.hasSizes = true)
    {aligned : UInt32} (ha : aligned.toNat % 4 = 0) (hr : Address.region aligned = .ram)
    {pieces : List (UInt32 × Width)} (hwithin : ∀ p ∈ pieces, p.1.toNat + p.2.bytes.toNat ≤ 4)
    (haligned : ∀ p ∈ pieces, p.1.toNat % p.2.bytes.toNat = 0) (lanes : UInt32) :
    x.bus.StoredRam (pieces.foldl
        (fun x p => x.storeAt (aligned + p.1) p.2 (lanes >>> (p.1 * 8))) x).bus
      ((pieces.flatMap fun p => (List.range p.2.bytes.toNat).map fun k =>
        (p.1.toNat + k, byteOf (lanes >>> (p.1 * 8)) k)).map fun s =>
          (aligned.toNat + s.1, s.2)) := by
  induction pieces generalizing x with
  | nil => exact .refl x.bus
  | cons p pieces ih =>
    rw [List.forall_mem_cons] at hwithin haligned
    have hwrite := Bus.stored_write hs (region_piece ha hwithin.1 hr)
      (align_piece ha hwithin.1 haligned.1) (lanes >>> (p.1 * 8))
    have hone : x.storeAt (aligned + p.1) p.2 (lanes >>> (p.1 * 8)) =
        { x with bus := x.bus.write (aligned + p.1) p.2 (lanes >>> (p.1 * 8)) } :=
      if_neg (by rw [isIsolated_of_not hi]; decide)
    have hrest := ih (x := x.storeAt (aligned + p.1) p.2 (lanes >>> (p.1 * 8)))
      (by rw [storeAt_cop0]; exact hi) (by rw [hone]; exact hwrite.sizes hs) hwithin.2 haligned.2
    have hbytes : ((List.range p.2.bytes.toNat).map fun k =>
        ((aligned + p.1).toNat + k, byteOf (lanes >>> (p.1 * 8)) k)) =
          ((List.range p.2.bytes.toNat).map fun k =>
            (p.1.toNat + k, byteOf (lanes >>> (p.1 * 8)) k)).map fun s =>
              (aligned.toNat + s.1, s.2) := by
      rw [List.map_map]
      refine List.map_congr_left fun k _ => ?_
      rw [toNat_piece ha hwithin.1, Nat.add_assoc]
      rfl
    rw [hbytes] at hwrite
    rw [List.foldl_cons, List.flatMap_cons, List.map_append]
    refine Bus.StoredRam.trans ?_ hrest
    rw [hone]
    exact hwrite

theorem storeSide_ram {side : Side} {rt base : Reg} {offset : UInt32}
    (hi : x.cpu.cop0.cacheIsolated = false) (hs : x.bus.memory.hasSizes = true)
    (hv : x.cpu.addressAllowed (wordOf (x.dataAddress base offset)) = true)
    (hr : Address.region (wordOf (x.dataAddress base offset)) = .ram) :
    x.bus.StoredRam (x.storeSide side rt base offset).bus
      ((side.stores (x.dataAddress base offset) (x.reg rt)).map fun s =>
        ((wordOf (x.dataAddress base offset)).toNat + s.1, s.2)) := by
  unfold storeSide
  dsimp only
  rw [if_neg (by simpa using hv)]
  generalize x.dataAddress base offset = address at hr ⊢
  obtain ⟨hcpu, hbus⟩ := x.chargeWrite_frame (wordOf address)
  have hstores := storeAts_ram (x := x.chargeWrite (wordOf address)) (by rw [hcpu]; exact hi)
    (by rw [hbus]; exact hs) (wordOf_mod address) hr (side.pieces_within address).2
    (side.pieces_aligned address) (side.lanes (x.reg rt) address)
  rw [hbus, Side.stores_pieces] at hstores
  exact hstores

end Execution

namespace Cpu

variable {δ : Type} [Device δ] {c c' : Cpu} {bus : Bus δ}

/-- The word around an address lies in RAM and the program may access it, past the cache. -/
structure Reaches (c : Cpu) (address : UInt32) : Prop where
  plain : c.cop0.cacheIsolated = false
  allowed : c.addressAllowed (wordOf address) = true
  ram : Address.region (wordOf address) = .ram

omit [Device δ] in
theorem Reaches.of_status {address : UInt32} (h : c.Reaches address)
    (hs : c'.cop0.status = c.cop0.status) : c'.Reaches address where
  plain := by
    rw [← h.plain]
    unfold Cop0.cacheIsolated
    rw [hs]
  allowed := by
    rw [← h.allowed]
    unfold addressAllowed Cop0.userMode
    rw [hs]
  ram := h.ram

theorem status_execution (c : Cpu) (bus : Bus δ) :
    (c.execution bus).cpu.cop0.status = c.cop0.status := by
  rw [execution_cpu]
  exact Cop0.status_setHardwareInterrupt ..

theorem memory_fetched (c : Cpu) (bus : Bus δ) : (c.fetched bus).2.2.2.memory = bus.memory := by
  unfold fetched fetch
  split
  · cases (c.begun bus).cache.fetch? c.pc with
    | some word => rfl
    | none => exact Outside.read_memory ..
  · exact Outside.read_memory ..

theorem dataAddress_execution (c : Cpu) (bus : Bus δ) (base : Reg) (offset : UInt32) :
    (c.execution bus).dataAddress base offset = c.reg base + offset :=
  congrArg (· + offset) (c.reads_execution bus base).1

namespace Reaches

variable {side : Side} {rt base : Reg} {o : UInt32} (h : c.Reaches (c.reg base + o))

include h

theorem fault?_side (hx : c.executes bus = true)
    (hi : c.instruction bus = .storeSide side rt base o ∨
      c.instruction bus = .loadSide side rt base o) : c.fault? bus = none := by
  have hallowed := (h.of_status (c.status_execution bus)).allowed
  rw [← c.dataAddress_execution bus] at hallowed
  unfold fault?
  rw [if_pos hx]
  rcases hi with hi | hi <;> rw [hi] <;> exact if_pos hallowed

/-- A step that stores a half changes the bytes of the half, and all else on the bus is as the fetch
leaves it. -/
theorem step_storeSide (hx : c.executes bus = true)
    (hi : c.instruction bus = .storeSide side rt base o) (hs : bus.memory.hasSizes = true) :
    (c.step bus).2.1.cop0.status = c.cop0.status ∧
      (c.fetched bus).2.2.2.StoredRam (c.step bus).2.2
        ((side.stores (c.reg base + o) (c.reg rt)).map fun s =>
          ((wordOf (c.reg base + o)).toNat + s.1, s.2)) := by
  have hx' := h.of_status (c.status_execution bus)
  have haddress := c.dataAddress_execution bus base o
  have hreg : (c.execution bus).reg rt = c.reg rt := (c.reads_execution bus rt).1
  rw [← haddress] at hx'
  have hmemory : (c.execution bus).bus.memory.hasSizes = true := by
    rw [show (c.execution bus).bus = (c.fetched bus).2.2.2 from rfl, memory_fetched]
    exact hs
  have hstored : (c.fetched bus).2.2.2.StoredRam
      ((c.execution bus).storeSide side rt base o).bus _ :=
    Execution.storeSide_ram hx'.plain hmemory hx'.allowed hx'.ram
  rw [step_executed hx, hi]
  dsimp only
  rw [settle_eq]
  refine ⟨?_, ?_⟩
  · show ((c.execution bus).storeSide side rt base o).cpu.cop0.status = _
    rw [Execution.storeSide_cop0 hx'.allowed, status_execution]
  · rw [← haddress, ← hreg]
    exact hstored

/-- A step that loads a half issues the bytes of the half, merged with the register or the load in
flight to it, and leaves the memory as it is. -/
theorem step_loadSide (hx : c.executes bus = true)
    (hi : c.instruction bus = .loadSide side rt base o) (hrt : rt ≠ 0) :
    (c.step bus).2.1.cop0.status = c.cop0.status ∧ (c.step bus).2.2.memory = bus.memory ∧
      ∃ word, (c.step bus).2.1.loadTo? rt = some
          (side.merge ((c.loadTo? rt).getD (c.reg rt)) word (c.reg base + o)) ∧
        ∀ l < 4, byteOf word l =
          bus.memory.byte (ramCell ((wordOf (c.reg base + o)).toNat + l)) := by
  have hx' := h.of_status (c.status_execution bus)
  have haddress := c.dataAddress_execution bus base o
  have hmerge : (c.execution bus).regForMerge rt = (c.loadTo? rt).getD (c.reg rt) := by
    rw [Execution.regForMerge_eq, (c.reads_execution bus rt).1, (c.reads_execution bus rt).2]
  have hmemory : (c.execution bus).bus.memory = bus.memory := c.memory_fetched bus
  have hload : (c.execution bus).load (wordOf (c.reg base + o)) .word =
      (some ((c.execution bus).bus.read (wordOf (c.reg base + o)) .word).1,
        { c.execution bus with
          bus := ((c.execution bus).bus.read (wordOf (c.reg base + o)) .word).2
          cycles := (c.execution bus).cycles +
            (c.execution bus).bus.readCycles (wordOf (c.reg base + o)) }) := by
    unfold Execution.load
    rw [if_neg (by simpa using Execution.isValid_wordOf hx'.allowed),
      if_neg (by rw [Execution.isIsolated_of_not hx'.plain]; decide)]
  have hrun : (c.execution bus).run (.loadSide side rt base o) =
      ({ c.execution bus with
          bus := ((c.execution bus).bus.read (wordOf (c.reg base + o)) .word).2
          cycles := (c.execution bus).cycles +
            (c.execution bus).bus.readCycles (wordOf (c.reg base + o)) } : Execution δ).issue rt
        (side.merge ((c.execution bus).regForMerge rt)
          ((c.execution bus).bus.read (wordOf (c.reg base + o)) .word).1 (c.reg base + o)) := by
    simp only [Execution.run, Execution.loadSide]
    rw [haddress, if_neg (by simpa using hx'.allowed), hload]
    rfl
  unfold Execution.issue at hrun
  rw [if_neg hrt] at hrun
  rw [step_executed hx, hi, hrun]
  dsimp only
  refine ⟨?_, ?_, ((c.execution bus).bus.read (wordOf (c.reg base + o)) .word).1, ?_,
    fun l hl => ?_⟩
  · rw [settle_eq, ← c.status_execution bus]
  · rw [Outside.read_memory, hmemory]
  · rw [settle_eq, loadTo?_of_some rfl, if_pos rfl, hmerge]
  · have halign : Width.word.align (wordOf (c.reg base + o)) = wordOf (c.reg base + o) :=
      Bus.align_align .word _
    rw [Bus.byteOf_read_ram h.ram halign hl, hmemory]

end Reaches

/-! ### Both halves -/

end Cpu

/-- The bytes of a word in RAM at any address. -/
def wordBytes (address value : UInt32) : List (Cell × UInt8) :=
  (List.range 4).map fun k => (ramCell (address.toNat + k), byteOf value k)

/-- The bytes of a half of it. -/
def halfBytes (side : Side) (address value : UInt32) : List (Cell × UInt8) :=
  ((List.range 4).filter (side.Covers ((address + side.reach).toNat % 4))).map fun k =>
    (ramCell (address.toNat + k), byteOf value k)

/-- The bytes of a word make up the word once they are stored. -/
theorem ofDigits_wordBytes (held : Cell → UInt8) (address value : UInt32) :
    Nat.ofDigits 256 ((List.range 4).map fun k =>
      (Cell.store held (wordBytes address value) (ramCell (address.toNat + k))).toNat) =
        value.toNat := by
  have hdistinct : ((wordBytes address value).map Prod.fst).Nodup := by
    unfold wordBytes
    rw [List.map_map]
    refine List.Nodup.map_on (fun j hj k hk hjk => ?_) List.nodup_range
    have hj := List.mem_range.1 hj
    have hk := List.mem_range.1 hk
    have hindex : (address.toNat + j) % 0x200000 = (address.toNat + k) % 0x200000 :=
      congrArg Cell.index hjk
    omega
  rw [toNat_eq_ofDigits value]
  refine congrArg (Nat.ofDigits 256) (List.map_congr_left fun k hk => congrArg UInt8.toNat ?_)
  exact Cell.store_of_mem hdistinct (List.mem_map.2 ⟨k, hk, rfl⟩)

section

variable {a : UInt32} (ha : a.toNat + 3 < 2 ^ 32)

include ha in
theorem halfBytes_eq (side : Side) (value : UInt32) :
    ((side.stores (a + side.reach) value).map fun s =>
      ((wordOf (a + side.reach)).toNat + s.1, s.2)).map (fun s => (ramCell s.1, s.2)) =
        halfBytes side a value := by
  unfold Side.stores halfBytes
  rw [List.map_map, List.map_map]
  refine List.map_congr_left fun k hk => ?_
  rw [List.mem_filter, decide_eq_true_eq] at hk
  exact congrArg (fun n => (ramCell n, byteOf value k)) (Side.laneOf_add hk.2 ha)

/-- The halves store the same bytes where they overlap, and together the whole word. -/
theorem store_halves (held : Cell → UInt8) (side : Side) (value : UInt32) :
    Cell.store (Cell.store held (halfBytes side a value)) (halfBytes side.other a value) =
      Cell.store held (wordBytes a value) := by
  let f : Cell → UInt8 := fun c =>
    byteOf value ((c.index + 0x200000 - a.toNat % 0x200000) % 0x200000)
  have hf : ∀ k < 4, byteOf value k = f (ramCell (a.toNat + k)) := by
    intro k hk
    refine congrArg (byteOf value) ?_
    show k = ((a.toNat + k) % 0x200000 + 0x200000 - a.toNat % 0x200000) % 0x200000
    omega
  have hhalf : ∀ side : Side, ∀ s ∈ halfBytes side a value, s.2 = f s.1 := by
    intro side s hs
    obtain ⟨k, hk, rfl⟩ := List.mem_map.1 hs
    exact hf k (List.mem_range.1 (List.mem_filter.1 hk).1)
  have hword : ∀ s ∈ wordBytes a value, s.2 = f s.1 := by
    intro s hs
    obtain ⟨k, hk, rfl⟩ := List.mem_map.1 hs
    exact hf k (List.mem_range.1 hk)
  have hboth : ∀ s ∈ halfBytes side a value ++ halfBytes side.other a value, s.2 = f s.1 := by
    intro s hs
    rcases List.mem_append.1 hs with hs | hs
    · exact hhalf side s hs
    · exact hhalf side.other s hs
  rw [← Cell.store_append]
  funext c
  refine (overlay_of_same hboth c).trans (Eq.trans ?_ (overlay_of_same hword c).symm)
  refine if_congr ?_ rfl rfl
  unfold halfBytes wordBytes
  simp only [List.map_append, List.map_map, List.mem_append, List.mem_map, List.mem_filter,
    List.mem_range, decide_eq_true_eq, Function.comp_apply]
  constructor
  · rintro (⟨k, ⟨hk, -⟩, hc⟩ | ⟨k, ⟨hk, -⟩, hc⟩)
    · exact ⟨k, hk, hc⟩
    · exact ⟨k, hk, hc⟩
  · rintro ⟨k, hk, hc⟩
    by_cases hcovers : side.Covers ((a + side.reach).toNat % 4) k
    · exact .inl ⟨k, ⟨hk, hcovers⟩, hc⟩
    · exact .inr ⟨k, ⟨hk, side.covers_other hk hcovers⟩, hc⟩

include ha in
/-- Each byte of the register comes from one of the halves that are merged with it. -/
theorem merge_halves {held : Cell → UInt8} (side : Side) {word word' : UInt32}
    (hword : ∀ l < 4, byteOf word l = held (ramCell ((wordOf (a + side.reach)).toNat + l)))
    (hword' : ∀ l < 4, byteOf word' l =
      held (ramCell ((wordOf (a + side.other.reach)).toNat + l))) (current : UInt32) :
    (side.other.merge (side.merge current word (a + side.reach)) word'
      (a + side.other.reach)).toNat =
        Nat.ofDigits 256 ((List.range 4).map fun k => (held (ramCell (a.toNat + k))).toNat) := by
  have hlane : ∀ b : UInt32, b.toNat % 4 < 4 := fun b => Nat.mod_lt _ (by decide)
  rw [toNat_eq_ofDigits]
  refine congrArg (Nat.ofDigits 256) (List.map_congr_left fun k hk => ?_)
  have hk := List.mem_range.1 hk
  rw [Side.byteOf_merge _ _ _ _ hk, Side.byteOf_merge _ _ _ _ hk]
  by_cases hcovers' : side.other.Covers ((a + side.other.reach).toNat % 4) k
  · rw [if_pos hcovers', hword' _ (Side.laneOf_lt (hlane _) hk hcovers'),
      Side.laneOf_add hcovers' ha]
  · have hcovers : side.Covers ((a + side.reach).toNat % 4) k := by
      by_contra hn
      exact hcovers' (side.covers_other hk hn)
    rw [if_neg hcovers', if_pos hcovers, hword _ (Side.laneOf_lt (hlane _) hk hcovers),
      Side.laneOf_add hcovers ha]

end

namespace Cpu

variable {δ : Type} [Device δ] {c : Cpu} {bus : Bus δ}

/-- A processor executes instructions one after another. -/
def Executing : Cpu × Bus δ → List Instruction → Prop
  | _, [] => True
  | s, i :: is => s.1.executes s.2 = true ∧ s.1.instruction s.2 = i ∧ Executing (next s) is

instance decidableExecuting :
    ∀ (s : Cpu × Bus δ) (is : List Instruction), Decidable (Executing s is)
  | _, [] => isTrue trivial
  | s, i :: is =>
    have := decidableExecuting (next s) is
    inferInstanceAs (Decidable (s.1.executes s.2 = true ∧ s.1.instruction s.2 = i ∧ _))

/-- The instruction of a half, with the offset of the first byte. -/
def storeHalf (rt base : Reg) (o : UInt32) (side : Side) : Instruction :=
  .storeSide side rt base (o + side.reach)

def loadHalf (rt base : Reg) (o : UInt32) (side : Side) : Instruction :=
  .loadSide side rt base (o + side.reach)

theorem hasSizes_holding (words : List UInt32) : (holding words).memory.hasSizes = true := by
  have hfold : ∀ (stores : List (UInt32 × Nat)) (bus : Bus Empty), bus.memory.hasSizes = true →
      (stores.foldl (fun bus s => bus.write (Address.scratchpadFirst + 4 * UInt32.ofNat s.2) .word
        s.1) bus).memory.hasSizes = true := by
    intro stores
    induction stores with
    | nil => exact fun _ => id
    | cons s stores ih => exact fun bus hs => ih _ ((bus.frame_write ..).sizes hs)
  exact hfold _ _ Memory.hasSizes_initial

variable {rt base : Reg} {o : UInt32}

/-- What a step leaves of a register to which no load is in flight, if it does not touch it. -/
theorem reg_step (hw : c.writes? bus ≠ some rt) (hl : c.loads? bus ≠ some rt)
    (h : c.loadTo? rt = none) : (c.step bus).2.1.reg rt = c.reg rt := by
  by_cases h0 : rt = 0
  · rw [h0, reg_zero, reg_zero]
  · rw [(c.step_delayed bus).retired rt h0 hw hl, h]
    rfl

omit [Device δ] in
theorem Reaches.half {a : UInt32} (hfirst : c.Reaches a) (hlast : c.Reaches (a + 3)) (side : Side) :
    c.Reaches (a + side.reach) := by
  cases side with
  | left => exact hlast
  | right =>
    show c.Reaches (a + 0)
    rw [UInt32.add_zero]
    exact hfirst

section

variable {side : Side} (h : c.Reaches (c.reg base + o + side.reach)) (hx : c.executes bus = true)

include h hx

/-- A half that is stored touches no register. -/
theorem reg_storeHalf (hi : c.instruction bus = storeHalf rt base o side) {q : Reg}
    (hq : c.loadTo? q = none) : (c.step bus).2.1.reg q = c.reg q := by
  rw [UInt32.add_assoc] at h
  have he : c.exception? bus = none := by
    rw [exception?_of_executes hx, h.fault?_side hx (.inl hi)]
    rfl
  have hw : c.writes? bus = none := by
    unfold writes?
    rw [he, hi]
    rfl
  have hl : c.loads? bus = none := by
    unfold loads?
    rw [he, hi]
    rfl
  exact reg_step (by rw [hw]; exact nofun) (by rw [hl]; exact nofun) hq

/-- A half that is loaded leaves the registers as they are, also its own, which is still to change. -/
theorem reg_loadHalf (hi : c.instruction bus = loadHalf rt base o side) {q : Reg}
    (hq : c.loadTo? q = none) : (c.step bus).2.1.reg q = c.reg q := by
  rw [UInt32.add_assoc] at h
  have he : c.exception? bus = none := by
    rw [exception?_of_executes hx, h.fault?_side hx (.inr hi)]
    rfl
  have hw : c.writes? bus = none := by
    unfold writes?
    rw [he, hi]
    rfl
  have hl : c.loads? bus = some rt := by
    unfold loads?
    rw [he, hi]
    rfl
  by_cases hqt : q = rt
  · rw [hqt]
    exact (c.step_delayed bus).superseded rt hl
  · exact reg_step (by rw [hw]; exact nofun)
      (by rw [hl]; exact fun hn => hqt (Option.some.inj hn).symm) hq

/-- One half in RAM. -/
theorem cells_storeHalf (hi : c.instruction bus = storeHalf rt base o side)
    (hs : bus.memory.hasSizes = true) (ha : (c.reg base + o).toNat + 3 < 2 ^ 32) :
    (c.step bus).2.1.cop0.status = c.cop0.status ∧
      (c.step bus).2.2.memory.byte =
        Cell.store bus.memory.byte (halfBytes side (c.reg base + o) (c.reg rt)) ∧
      (c.step bus).2.2.memory.hasSizes = true ∧
      (c.step bus).2.2.memory.cacheControl = bus.memory.cacheControl ∧
      { (c.step bus).2.2 with memory := bus.memory } = (c.fetched bus).2.2.2 := by
  rw [UInt32.add_assoc] at h
  obtain ⟨hstatus, hstored⟩ := h.step_storeSide hx hi hs
  have hmemory := c.memory_fetched bus
  have hcells := hstored.cells
  have hrest := hstored.rest
  rw [← UInt32.add_assoc, halfBytes_eq ha, hmemory] at hcells
  rw [hmemory] at hrest
  refine ⟨hstatus, hcells, hstored.sizes (by rw [hmemory]; exact hs), ?_, hrest⟩
  rw [hstored.control, hmemory]

end

/-- Both halves in RAM, the second with the registers as they are by then. -/
theorem cells_pair {side : Side} (hs : bus.memory.hasSizes = true)
    (ha : (c.reg base + o).toNat + 3 < 2 ^ 32) (h : c.Reaches (c.reg base + o + side.reach))
    (ha' : ((next (c, bus)).1.reg base + o).toNat + 3 < 2 ^ 32)
    (h' : c.Reaches ((next (c, bus)).1.reg base + o + side.other.reach))
    (hrun : Executing (c, bus) [storeHalf rt base o side, storeHalf rt base o side.other]) :
    (next^[2] (c, bus)).2.memory.byte =
        Cell.store (Cell.store bus.memory.byte (halfBytes side (c.reg base + o) (c.reg rt)))
          (halfBytes side.other ((next (c, bus)).1.reg base + o) ((next (c, bus)).1.reg rt)) ∧
      (next^[2] (c, bus)).2.memory.cacheControl = bus.memory.cacheControl ∧
      ∀ s ∈ [(c, bus), next (c, bus)],
        { (next s).2 with memory := s.2.memory } = (s.1.fetched s.2).2.2.2 := by
  obtain ⟨hx, hi, hx', hi', -⟩ : c.executes bus = true ∧ c.instruction bus = _ ∧
    (c.step bus).2.1.executes (c.step bus).2.2 = true ∧
    (c.step bus).2.1.instruction (c.step bus).2.2 = _ ∧ _ := hrun
  obtain ⟨hstatus, hcells, hsizes, hcontrol, hrest⟩ := cells_storeHalf h hx hi hs ha
  obtain ⟨-, hcells', -, hcontrol', hrest'⟩ :=
    cells_storeHalf (h'.of_status hstatus) hx' hi' hsizes ha'
  rw [hcells] at hcells'
  refine ⟨hcells', hcontrol'.trans hcontrol, fun s hs => ?_⟩
  rcases List.mem_cons.1 hs with rfl | hs
  · exact hrest
  · rw [List.mem_singleton.1 hs]
    exact hrest'

theorem store_pair {side : Side} (hs : bus.memory.hasSizes = true)
    (ha : (c.reg base + o).toNat + 3 < 2 ^ 32) (h : c.Reaches (c.reg base + o + side.reach))
    (h' : c.Reaches (c.reg base + o + side.other.reach)) (hbase : c.loadTo? base = none)
    (hload : c.loadTo? rt = none)
    (hrun : Executing (c, bus) [storeHalf rt base o side, storeHalf rt base o side.other]) :
    (next^[2] (c, bus)).2.memory.byte =
        Cell.store bus.memory.byte (wordBytes (c.reg base + o) (c.reg rt)) ∧
      (next^[2] (c, bus)).2.memory.cacheControl = bus.memory.cacheControl ∧
      ∀ s ∈ [(c, bus), next (c, bus)],
        { (next s).2 with memory := s.2.memory } = (s.1.fetched s.2).2.2.2 := by
  have hbase' : (next (c, bus)).1.reg base = c.reg base := reg_storeHalf h hrun.1 hrun.2.1 hbase
  have hrt' : (next (c, bus)).1.reg rt = c.reg rt := reg_storeHalf h hrun.1 hrun.2.1 hload
  have hpair := cells_pair hs ha h (by rw [hbase']; exact ha) (by rw [hbase']; exact h') hrun
  rw [hbase', hrt', store_halves] at hpair
  exact hpair

theorem load_pair {side : Side} (hrt : rt ≠ 0) (ha : (c.reg base + o).toNat + 3 < 2 ^ 32)
    (h : c.Reaches (c.reg base + o + side.reach))
    (h' : c.Reaches (c.reg base + o + side.other.reach)) (hbase : c.loadTo? base = none)
    (hrun : Executing (c, bus) [loadHalf rt base o side, loadHalf rt base o side.other]) :
    ∃ value, (next^[2] (c, bus)).1.loadTo? rt = some value ∧ value.toNat =
      Nat.ofDigits 256 ((List.range 4).map fun k =>
        (bus.memory.byte (ramCell ((c.reg base + o).toNat + k))).toNat) := by
  obtain ⟨hx, hi, hx', hi', -⟩ : c.executes bus = true ∧ c.instruction bus = _ ∧
    (c.step bus).2.1.executes (c.step bus).2.2 = true ∧
    (c.step bus).2.1.instruction (c.step bus).2.2 = _ ∧ _ := hrun
  have hbase' := reg_loadHalf h hx hi hbase
  rw [UInt32.add_assoc] at h
  obtain ⟨hstatus, hmemory, word, hflight, hword⟩ := h.step_loadSide hx hi hrt
  have h' := h'.of_status hstatus
  rw [← hbase', UInt32.add_assoc] at h'
  obtain ⟨-, -, word', hflight', hword'⟩ := h'.step_loadSide hx' hi' hrt
  rw [hflight, Option.getD_some, hbase', ← UInt32.add_assoc, ← UInt32.add_assoc] at hflight'
  rw [hbase', ← UInt32.add_assoc, hmemory] at hword'
  rw [← UInt32.add_assoc] at hword
  exact ⟨_, hflight', merge_halves ha side hword hword' _⟩

/-- The two halves of an unaligned word in RAM, in either order. With no load in flight to the two
registers, storing them changes the four bytes of the word to those of the register, and nothing else
on the bus but what the fetches change. With no load in flight to the base register, loading them
leaves the four bytes in the register once an instruction has followed that does not write or load
the register, whatever that held and whatever was in flight to it. -/
theorem unaligned_pairs (side : Side) (hrt : rt ≠ 0) (hs : bus.memory.hasSizes = true)
    (hfirst : c.Reaches (c.reg base + o)) (hlast : c.Reaches (c.reg base + o + 3))
    (hbase : c.loadTo? base = none) :
    let a := c.reg base + o
    (∀ k < 4, Cell.at? (a.toNat + k) = some (ramCell (a.toNat + k))) ∧
    (c.loadTo? rt = none →
      Executing (c, bus) [storeHalf rt base o side, storeHalf rt base o side.other] →
      (next^[2] (c, bus)).2.memory.byte = Cell.store bus.memory.byte (wordBytes a (c.reg rt)) ∧
      (next^[2] (c, bus)).2.memory.cacheControl = bus.memory.cacheControl ∧
      ∀ s ∈ [(c, bus), next (c, bus)],
        { (next s).2 with memory := s.2.memory } = (s.1.fetched s.2).2.2.2) ∧
    (Executing (c, bus) [loadHalf rt base o side, loadHalf rt base o side.other] →
      let s := next^[2] (c, bus)
      s.1.writes? s.2 ≠ some rt → s.1.loads? s.2 ≠ some rt →
      ((next s).1.reg rt).toNat = Nat.ofDigits 256 ((List.range 4).map fun k =>
        (bus.memory.byte (ramCell (a.toNat + k))).toNat)) := by
  intro a
  have hreach : ∀ side : Side, c.Reaches (a + side.reach) := hfirst.half hlast
  have hlow := Address.region_eq_ram.1 hfirst.ram
  have hhigh := Address.region_eq_ram.1 hlast.ram
  rw [wordOf_toNat, show c.reg base + o = a from rfl] at hlow hhigh
  have ha : a.toNat + 3 < 2 ^ 32 := by omega
  rw [UInt32.toNat_add, show (3 : UInt32).toNat = 3 from rfl, Nat.mod_eq_of_lt ha] at hhigh
  refine ⟨fun k hk => Cell.at?_of_ram (by omega), ?_, ?_⟩
  · exact store_pair hs ha (hreach side) (hreach side.other) hbase
  · intro hrun s hw hl
    obtain ⟨value, hflight, hvalue⟩ :=
      load_pair hrt ha (hreach side) (hreach side.other) hbase hrun
    have hretired : (next s).1.reg rt = (s.1.loadTo? rt).getD (s.1.reg rt) :=
      (s.1.step_delayed s.2).retired rt hrt hw hl
    rw [hretired, hflight, Option.getD_some, hvalue]

/-- A word is stored at an odd address, the low half first, and loaded from there, the high half
first. -/
theorem unaligned_pairs_copy :
    let bus := holding [0xB8220000, 0xA8220003, 0x88230003, 0x98230000]
    let c : Cpu := { Cpu.initial.setPc Address.scratchpadFirst with
      regs := RegisterFile.write (RegisterFile.write (.replicate 32 0) 1 0x101) 2 0xAABBCCDD }
    let s := next^[2] (c, bus)
    bus.memory.hasSizes = true ∧ (c.Reaches 0x101 ∧ c.Reaches 0x104) ∧
      Executing (c, bus) [storeHalf 2 1 0 .right, storeHalf 2 1 0 .left] ∧
      Executing s [loadHalf 3 1 0 .left, loadHalf 3 1 0 .right] ∧
      (next^[3] s).1.reg 3 = 0xAABBCCDD := by
  intro bus c s
  have hsizes : bus.memory.hasSizes = true := hasSizes_holding _
  have hsizes' : s.2.memory.hasSizes = true :=
    (frame_step _ _).sizes ((frame_step _ _).sizes hsizes)
  have hfirst : c.Reaches 0x101 := ⟨by decide +kernel, by decide +kernel, by decide +kernel⟩
  have hlast : c.Reaches 0x104 := ⟨by decide +kernel, by decide +kernel, by decide +kernel⟩
  have hstatus : s.1.cop0.status = c.cop0.status := by decide +kernel
  have hstores : Executing (c, bus) [storeHalf 2 1 0 .right, storeHalf 2 1 0 .left] := by
    decide +kernel
  have hloads : Executing s [loadHalf 3 1 0 .left, loadHalf 3 1 0 .right] := by decide +kernel
  have hbase : c.reg 1 + 0 = 0x101 := by decide +kernel
  have hbase' : s.1.reg 1 + 0 = 0x101 := by decide +kernel
  obtain ⟨-, hstored, -⟩ := @unaligned_pairs _ _ c bus 2 1 0 .right (by decide) hsizes
    (by rw [hbase]; exact hfirst) (by rw [hbase]; exact hlast) (by decide +kernel)
  obtain ⟨hcells, -, -⟩ := hstored (by decide +kernel) hstores
  obtain ⟨-, -, hloaded⟩ := @unaligned_pairs _ _ s.1 s.2 3 1 0 .left (by decide) hsizes'
    (by rw [hbase']; exact hfirst.of_status hstatus)
    (by rw [hbase']; exact hlast.of_status hstatus) (by decide +kernel)
  have hword := hloaded hloads (by decide +kernel) (by decide +kernel)
  refine ⟨hsizes, ⟨hfirst, hlast⟩, hstores, hloads, UInt32.toNat_inj.1 (hword.trans ?_)⟩
  rw [hcells, hbase, hbase', ofDigits_wordBytes]
  decide +kernel

/-- The pair does not store the word

* in user mode at an address of the kernel, where the first half finds an error;
* with a load in flight to the register, of which the second half stores what is loaded;
* with a load in flight to the base register, which moves the second half.

Nor is a word loaded in user mode from an address of the kernel. -/
theorem unaligned_pairs_refused :
    let start (status base : UInt32) (load : Option DelayedLoad) : Cpu :=
      { Cpu.initial.setPc Address.scratchpadFirst with
        regs := RegisterFile.write (RegisterFile.write (.replicate 32 0) 1 base) 2 0xAABBCCDD
        cop0 := Cop0.initial.set Cop0.statusReg status
        delayed := load }
    let stores := holding [0xB8220000, 0xA8220003]
    let loads := holding [0x98220000, 0x88220003]
    let pair := [storeHalf 2 1 0 .right, storeHalf 2 1 0 .left]
    let user := start Cop0.userModeBit 0x80000101 none
    let toWord := start 0 0x101 (some { reg := 2, value := 0x11223344 })
    let toBase := start 0 0x101 (some { reg := 1, value := 0x102 })
    (∀ a ∈ [0x101, 0x104, 0x105, 0x80000101, 0x80000104],
      Address.region (wordOf a) = .ram) ∧
    (∀ c ∈ [user, toWord, toBase], c.cop0.cacheIsolated = false) ∧
    (Executing (user, stores) [storeHalf 2 1 0 .right] ∧
      (next (user, stores)).2.memory.byte (ramCell 0x80000101) = 0) ∧
    (Executing (user, loads) [loadHalf 2 1 0 .right] ∧
      (next (user, loads)).1.delayed = none ∧ (next (user, loads)).1.reg 2 = 0xAABBCCDD) ∧
    (Executing (toWord, stores) pair ∧
      (next^[2] (toWord, stores)).2.memory.byte (ramCell 0x101) = 0xDD ∧
      (next^[2] (toWord, stores)).2.memory.byte (ramCell 0x104) = 0x11) ∧
    Executing (toBase, stores) pair ∧
      (next^[2] (toBase, stores)).2.memory.byte (ramCell 0x102) = 0xCC ∧
      (next^[2] (toBase, stores)).2.memory.byte (ramCell 0x104) = 0xBB := by
  intro start stores loads pair user toWord toBase
  have hsizes : stores.memory.hasSizes = true := hasSizes_holding _
  have hram : ∀ a ∈ [0x101, 0x104, 0x105, 0x80000101, 0x80000104],
      Address.region (wordOf a) = .ram := by
    simp only [List.forall_mem_cons]
    exact ⟨by decide, by decide, by decide, by decide, by decide, nofun⟩
  refine ⟨hram, by decide +kernel, ⟨by decide +kernel, ?_⟩,
    ⟨by decide +kernel, ?_⟩, ⟨by decide +kernel, ?_⟩, by decide +kernel, ?_⟩
  · have hfault : user.fault? stores = some (.badStore 0x80000101) := by decide +kernel
    have hkept : (next (user, stores)).2 = (user.fetched stores).2.2.2 :=
      (abandoned_of_fault hfault).kept
    have hram : stores.memory.ram = zeros Address.ramSize := rfl
    rw [hkept]
    show byteAt (user.fetched stores).2.2.2.memory.ram _ = 0
    rw [memory_fetched, hram, byteAt_zeros]
  · have hfault : user.fault? loads = some (.badLoad 0x80000101) := by decide +kernel
    have habandoned := abandoned_of_fault hfault
    exact ⟨habandoned.delayed, (habandoned.regs 2).trans (by decide +kernel)⟩
  · obtain ⟨hcells, -⟩ := @cells_pair _ _ toWord stores 2 1 0 .right hsizes
      (by decide +kernel) ⟨by decide +kernel, by decide +kernel, by decide +kernel⟩
      (by decide +kernel) ⟨by decide +kernel, by decide +kernel, by decide +kernel⟩
      (by decide +kernel)
    have hbefore : toWord.reg 1 + 0 = 0x101 ∧ toWord.reg 2 = 0xAABBCCDD := by decide +kernel
    have hbehind : (next (toWord, stores)).1.reg 1 + 0 = 0x101 ∧
      (next (toWord, stores)).1.reg 2 = 0x11223344 := by decide +kernel
    rw [hcells, hbefore.1, hbefore.2, hbehind.1, hbehind.2]
    generalize stores.memory.byte = held
    exact ⟨rfl, rfl⟩
  · obtain ⟨hcells, -⟩ := @cells_pair _ _ toBase stores 2 1 0 .right hsizes
      (by decide +kernel) ⟨by decide +kernel, by decide +kernel, by decide +kernel⟩
      (by decide +kernel) ⟨by decide +kernel, by decide +kernel, by decide +kernel⟩
      (by decide +kernel)
    have hbefore : toBase.reg 1 + 0 = 0x101 ∧ toBase.reg 2 = 0xAABBCCDD := by decide +kernel
    have hbehind : (next (toBase, stores)).1.reg 1 + 0 = 0x102 ∧
      (next (toBase, stores)).1.reg 2 = 0xAABBCCDD := by decide +kernel
    rw [hcells, hbefore.1, hbefore.2, hbehind.1, hbehind.2]
    generalize stores.memory.byte = held
    exact ⟨rfl, rfl⟩

end Cpu

end Psx
