import Psx.Proofs.Checked.Bus
import Psx.Proofs.Checked.Instructions
import Psx.Proofs.Cpu.Costs
import Psx.Proofs.Cpu.Sound

/-!
# A step of the processor, checked

The registers that an instruction names are looked up when its word is decoded; the register of a
load in flight is looked up when the load takes effect, and it was one when the load was issued
(`Cpu.Sound`). With the default timing a step costs 45 cycles at most. It drops no more words of the
queue of the video port than the cycles it costs: a store may drop one, and an unaligned store, which
may drop two, pays for its access besides.
-/

namespace Psx

open Checked

/-! ### Accesses -/

namespace Execution

variable {δ : Type}

def chargeWrite! (x : Execution δ) (address : UInt32) : Option (Execution δ) := do
  if x.isIsolated address then pure x
  else pure { x with cycles := ← held 32 (x.cycles + x.bus.writeCycles address) }

def isValid! (x : Execution δ) (address : UInt32) (w : Width) : Option Bool := do
  let low ← sub32 w.bytes 1
  pure (address &&& low == 0 && x.cpu.addressAllowed address)

variable [Device δ]

def load! (x : Execution δ) (address : UInt32) (w : Width) :
    Option (Option UInt32 × Execution δ) := do
  if !(← x.isValid! address w) then pure (none, x.addressError .addressErrorLoad address)
  else if x.isIsolated address then
    pure (some (← x.cpu.cache.readIsolated! address w), x)
  else
    let cycles ← held 32 (x.cycles + x.bus.readCycles address)
    let (value, bus) ← x.bus.read! address w
    pure (some value, { x with bus, cycles })

def storeAt! (x : Execution δ) (address : UInt32) (w : Width) (value : UInt32) :
    Option (Execution δ) := do
  if x.isIsolated address then
    let cache ← x.cpu.cache.writeIsolated! address w value
      (CacheControl.tagTest x.bus.memory.cacheControl)
    pure { x with cpu.cache := cache }
  else pure { x with bus := ← x.bus.write! address w value }

def store! (x : Execution δ) (address : UInt32) (w : Width) (value : UInt32) :
    Option (Execution δ) := do
  if !(← x.isValid! address w) then pure (x.addressError .addressErrorStore address)
  else (← x.chargeWrite! address).storeAt! address w value

def loadSide! (x : Execution δ) (side : Side) (rt base : Reg) (offset : UInt32) :
    Option (Execution δ) := do
  let address := x.dataAddress base offset
  let aligned := wordOf address
  if !x.cpu.addressAllowed aligned then pure (x.addressError .addressErrorLoad address)
  else match ← x.load! aligned .word with
    | (none, x) => pure x
    | (some word, x) => pure (x.issue rt (side.merge (x.regForMerge rt) word address))

/-- Stores some lanes of a word; the lane behind them is where the next piece begins. -/
def storePiece! (aligned lanes : UInt32) (x : Execution δ) (piece : UInt32 × Width) :
    Option (Execution δ) := do
  let value ← shr32 lanes (← mul32 piece.1 8)
  let x ← x.storeAt! (← add32 aligned piece.1) piece.2 value
  let _ ← add32 piece.1 piece.2.bytes
  pure x

def storeSide! (x : Execution δ) (side : Side) (rt base : Reg) (offset : UInt32) :
    Option (Execution δ) := do
  let address := x.dataAddress base offset
  let aligned := wordOf address
  if !x.cpu.addressAllowed aligned then pure (x.addressError .addressErrorStore address)
  else
    let lanes ← side.lanes! (x.reg rt) address
    (side.pieces address).foldlM (storePiece! aligned lanes) (← x.chargeWrite! aligned)

omit [Device δ] in
def withCop2! (x : Execution δ) (n : CopNumber) (f : Execution δ → Option (Execution δ)) :
    Option (Execution δ) := do
  if n = 2 ∧ (← x.cpu.cop0.isUsable! 2) then f x else pure (x.unusable n)

/-- What is done with a coprocessor has no operation that can fail. -/
def withUsable! (x : Execution δ) (n : CopNumber) (f : Execution δ → Execution δ) :
    Option (Execution δ) := do
  if (n = 0 ∨ n = 2) ∧ (← x.cpu.cop0.isUsable! n) then pure (f x) else pure (x.unusable n)

/-- The instructions that are not named wrap, or only move and compare. -/
def run! (x : Execution δ) : Instruction → Option (Execution δ)
  | .shift op rd rt amount => do pure (x.setReg rd (← op.eval! (x.reg rt) amount))
  | .shiftVar op rd rt rs => do pure (x.setReg rd (← op.eval! (x.reg rt) (x.reg rs &&& 0x1F)))
  | .mulDiv op rs rt => do
    let (hi, lo) ← op.eval! (x.reg rs) (x.reg rt)
    pure { x with cpu.hi := hi, cpu.lo := lo }
  | .load op rt base offset => do
    match ← x.load! (x.dataAddress base offset) op.width with
    | (none, x) => pure x
    | (some value, x) => pure (x.issue rt (op.extend value))
  | .store op rt base offset => x.store! (x.dataAddress base offset) op.width (x.reg rt)
  | .loadSide side rt base offset => x.loadSide! side rt base offset
  | .storeSide side rt base offset => x.storeSide! side rt base offset
  | .copLoad n _ base offset =>
    x.withCop2! n fun x => do pure (← x.load! (x.dataAddress base offset) .word).2
  | .copStore n _ base offset =>
    x.withCop2! n fun x => x.store! (x.dataAddress base offset) .word 0
  | .copMove n op rt rd =>
    x.withUsable! n fun x => if n = 0 then x.moveCop0 op rt rd else x.moveCop2 op rt
  | .rfe => x.withUsable! 0 fun x => { x with cpu.cop0 := x.cpu.cop0.leave }
  | .cop2Command _ => x.withUsable! 2 id
  | .copReserved n _ => x.withUsable! n fun x => x.raise .reservedInstruction
  | i => pure (x.run i)

/-- An instruction begins: the cache has its lines, accesses cost what they cost by default, none of
that has been counted, and two words more can be dropped. -/
structure Begins (x : Execution δ) : Prop where
  lines : x.cpu.cache.lines.size = InstructionCache.lineCount
  bus : x.bus.Ready 2
  timing : x.bus.timing = {}
  cycles : x.cycles = 0

end Execution

/-! ### Costs -/

section costs

variable {δ : Type} {b : Bus δ}

theorem Bus.cost_le (ht : b.timing = {}) (address : UInt32) :
    b.readCycles address ≤ 22 ∧ b.writeCycles address ≤ 22 := by
  have hmost := b.access_le address
  rw [ht] at hmost
  exact hmost

/-- The regions in which devices answer. -/
def Region.hasDevices (r : Region) : Bool := [io, expansion1, expansion2].contains r

theorem Bus.writeCycles_pos (ht : b.timing = {}) {address : UInt32}
    (h : (Address.region address).hasDevices = true) : 1 ≤ b.writeCycles address := by
  unfold writeCycles cost
  rw [ht]
  revert h
  cases Address.region address <;> decide

variable [Device δ]

theorem Bus.dropped_write_of_region {address : UInt32} {w : Width}
    (h : (Address.region (w.align address)).hasDevices = false) (b : Bus δ) (value : UInt32) :
    (b.write address w value).board.dropped = b.board.dropped := by
  unfold write
  dsimp only
  split <;> first | rfl | skip
  all_goals
    rename_i hr
    rw [hr] at h
    cases h

end costs

/-- No region with devices begins or ends inside a word. -/
theorem Address.region_wordOf {a : UInt32} (h : (region a).hasDevices = true) :
    region (wordOf a) = region a := by
  have hw := wordOf_toNat a
  have ha : a.toNat < 0xC0000000 := by
    by_contra hk
    rw [region_kseg2 (Nat.not_lt.1 hk)] at h
    split at h <;> cases h
  have ht : (translate a).toNat = a.toNat % 0x20000000 := translate_toNat ha
  have ht' : (translate (wordOf a)).toNat = a.toNat / 4 * 4 % 0x20000000 := by
    rw [translate_toNat (by omega), hw]
  have hlt : ∀ n, 4 ∣ n → ((translate (wordOf a)).toNat < n ↔ (translate a).toNat < n) := by
    rintro n ⟨k, rfl⟩
    rw [ht, ht']
    omega
  have hphysical : physicalRegion (translate (wordOf a)) = physicalRegion (translate a) := by
    rw [physicalRegion_eq, physicalRegion_eq]
    simp (disch := decide) only [hlt]
  have hsegment : 0xA0000000 ≤ (wordOf a).toNat ↔ 0xA0000000 ≤ a.toNat := by omega
  rw [region_eq ha, region_eq (by omega), hphysical]
  simp only [hsegment]

/-! ### Instructions -/

namespace Execution

variable {δ : Type} {x : Execution δ}

theorem chargeWrite!_eq (h : x.cycles + 22 < 2 ^ 32) (ht : x.bus.timing = {}) (address : UInt32) :
    x.chargeWrite! address = some (x.chargeWrite address) := by
  have hcost := (x.bus.cost_le ht address).2
  unfold chargeWrite! chargeWrite
  split_ifs
  · rfl
  · rw [held_eq (by omega)]
    rfl

@[simp] theorem isValid!_eq (x : Execution δ) (address : UInt32) (w : Width) :
    x.isValid! address w = some (x.isValid address w) := by
  cases w <;> rfl

@[simp] theorem withUsable!_eq (x : Execution δ) (n : CopNumber) (f : Execution δ → Execution δ) :
    x.withUsable! n f = some (x.withUsable n f) := by
  unfold withUsable! withUsable
  simp only [Cop0.isUsable!_eq, Option.bind_eq_bind, Option.bind_some, Option.pure_def]
  split_ifs <;> rfl

theorem withCop2!_eq {f : Execution δ → Execution δ} {g : Execution δ → Option (Execution δ)}
    (h : g x = some (f x)) (n : CopNumber) : x.withCop2! n g = some (x.withCop2 n f) := by
  unfold withCop2! withCop2
  simp only [Cop0.isUsable!_eq, Option.bind_eq_bind, Option.bind_some, Option.pure_def, h]
  split_ifs <;> rfl

variable [Device δ]

theorem load!_eq (h : x.Begins) (address : UInt32) (w : Width) :
    x.load! address w = some (x.load address w) := by
  have hcost := (x.bus.cost_le h.timing address).1
  have hzero := h.cycles
  unfold load! load
  simp only [isValid!_eq, Option.bind_eq_bind, Option.bind_some, Option.pure_def]
  split_ifs
  · rfl
  · rw [InstructionCache.readIsolated!_eq h.lines]
    rfl
  · rw [held_eq (by omega), Option.bind_some, Bus.read!_eq h.bus]
    rfl

theorem storeAt!_eq {n : Nat} (hl : x.cpu.cache.lines.size = InstructionCache.lineCount)
    (hb : x.bus.Ready (n + 1)) (address : UInt32) (w : Width) (value : UInt32) :
    x.storeAt! address w value = some (x.storeAt address w value) := by
  unfold storeAt! storeAt
  split_ifs
  · rw [InstructionCache.writeIsolated!_eq hl]
    rfl
  · rw [Bus.write!_eq hb]
    rfl

omit [Device δ] in
theorem chargeWrite_frame (x : Execution δ) (address : UInt32) :
    (x.chargeWrite address).cpu = x.cpu ∧ (x.chargeWrite address).bus = x.bus := by
  unfold chargeWrite
  split <;> exact ⟨rfl, rfl⟩

theorem store!_eq (h : x.Begins) (address : UInt32) (w : Width) (value : UInt32) :
    x.store! address w value = some (x.store address w value) := by
  obtain ⟨hcpu, hbus⟩ := x.chargeWrite_frame address
  have hcharge := x.chargeWrite!_eq (by rw [h.cycles]; decide) h.timing address
  unfold store! store
  simp only [isValid!_eq, Option.bind_eq_bind, Option.bind_some, Option.pure_def, hcharge]
  split_ifs
  · rfl
  · exact storeAt!_eq (n := 1) (by rw [hcpu]; exact h.lines) (by rw [hbus]; exact h.bus) ..

theorem loadSide!_eq (h : x.Begins) (side : Side) (rt base : Reg) (offset : UInt32) :
    x.loadSide! side rt base offset = some (x.loadSide side rt base offset) := by
  unfold loadSide! loadSide
  simp only [load!_eq h, Option.bind_eq_bind, Option.bind_some, Option.pure_def]
  split_ifs
  · rfl
  · rcases x.load (wordOf (x.dataAddress base offset)) .word with ⟨_ | word, y⟩ <;> rfl

theorem storePieces!_eq {pieces : List (UInt32 × Width)} {aligned : UInt32}
    (ha : aligned.toNat % 4 = 0) (hp : ∀ p ∈ pieces, p.1.toNat + p.2.bytes.toNat ≤ 4)
    (hl : x.cpu.cache.lines.size = InstructionCache.lineCount) (hb : x.bus.Ready pieces.length)
    (lanes : UInt32) : pieces.foldlM (storePiece! aligned lanes) x = some (pieces.foldl
      (fun x (p : UInt32 × Width) => x.storeAt (aligned + p.1) p.2 (lanes >>> (p.1 * 8))) x) := by
  induction pieces generalizing x with
  | nil => rfl
  | cons p pieces ih =>
    obtain ⟨lane, w⟩ := p
    have hlane : lane.toNat + w.bytes.toNat ≤ 4 := hp _ List.mem_cons_self
    have hpos : 0 < w.bytes.toNat := by cases w <;> decide
    have haligned := aligned.toNat_lt
    have hshift : lane * 8 < 32 := by
      rw [UInt32.lt_iff_toNat_lt, UInt32.toNat_mul]
      exact Nat.lt_of_le_of_lt (Nat.mod_le ..) (by show lane.toNat * 8 < 32; omega)
    have hstored : (x.storeAt (aligned + lane) w (lanes >>> (lane * 8))).bus.Ready pieces.length ∧
        (x.storeAt (aligned + lane) w (lanes >>> (lane * 8))).cpu.cache.lines.size =
          InstructionCache.lineCount := by
      unfold storeAt
      split_ifs
      · exact ⟨hb.mono (Nat.le_succ _), (InstructionCache.writeIsolated_size ..).trans hl⟩
      · exact ⟨hb.write .., hl⟩
    rw [List.foldlM_cons, storePiece!]
    dsimp only
    rw [mul32_eq (by show lane.toNat * 8 < _; omega), add32_eq (by omega), add32_eq (by omega)]
    simp only [Option.bind_eq_bind, Option.bind_some, shr32_eq hshift]
    rw [storeAt!_eq hl hb]
    exact ih (fun q hq => hp q (List.mem_cons_of_mem _ hq)) hstored.2 hstored.1

theorem storeSide!_eq (h : x.Begins) (side : Side) (rt base : Reg) (offset : UInt32) :
    x.storeSide! side rt base offset = some (x.storeSide side rt base offset) := by
  have haligned : (wordOf (x.dataAddress base offset)).toNat % 4 = 0 := by
    rw [wordOf_toNat]
    omega
  obtain ⟨hcpu, hbus⟩ := x.chargeWrite_frame (wordOf (x.dataAddress base offset))
  obtain ⟨hlength, hp⟩ := side.pieces_within (x.dataAddress base offset)
  unfold storeSide! storeSide
  simp only [Side.lanes!_eq, x.chargeWrite!_eq (by rw [h.cycles]; decide) h.timing,
    Option.bind_eq_bind, Option.bind_some, Option.pure_def]
  split_ifs
  · rfl
  · exact storePieces!_eq haligned hp (by rw [hcpu]; exact h.lines)
      (by rw [hbus]; exact h.bus.mono hlength) _

theorem ShiftOp.eval_masked (op : ShiftOp) (a amount : UInt32) :
    op.eval a (amount &&& 0x1F) = op.eval a amount := by
  cases op <;> simp only [ShiftOp.eval, UInt32.and_assoc, UInt32.and_self]

theorem run!_eq (h : x.Begins) {i : Instruction}
    (hi : ∀ op rd rt amount, i = .shift op rd rt amount → amount < 32) :
    x.run! i = some (x.run i) := by
  unfold run! run
  cases i with
  | shift op rd rt amount =>
    dsimp only
    rw [op.eval!_eq _ (hi _ _ _ _ rfl)]
    rfl
  | shiftVar op rd rt rs =>
    have hlt : x.reg rs &&& 0x1F < 32 := UInt32.lt_iff_toNat_lt.2 (Encoding.toNat_and_lt _)
    dsimp only
    rw [op.eval!_eq _ hlt, ShiftOp.eval_masked]
    rfl
  | mulDiv op rs rt =>
    dsimp only
    rw [op.eval!_eq]
    rfl
  | load op rt base offset =>
    dsimp only
    rw [load!_eq h]
    simp only [Option.bind_eq_bind, Option.bind_some]
    rcases x.load (x.dataAddress base offset) op.width with ⟨_ | value, y⟩ <;> rfl
  | store op rt base offset => exact store!_eq h ..
  | loadSide side rt base offset => exact loadSide!_eq h ..
  | storeSide side rt base offset => exact storeSide!_eq h ..
  | copLoad n _ base offset =>
    dsimp only
    refine withCop2!_eq ?_ n
    rw [load!_eq h]
    rfl
  | copStore n _ base offset =>
    dsimp only
    exact withCop2!_eq (store!_eq h ..) n
  | copMove | rfe | cop2Command | copReserved =>
    dsimp only
    rw [withUsable!_eq]
  | _ => rfl

/-! ### What an instruction counts -/

/-- Each word that an instruction drops is paid for, all but one. -/
def Counted (x y : Execution δ) : Prop :=
  y.bus.board.dropped + x.cycles ≤ x.bus.board.dropped + 1 + y.cycles

section

omit [Device δ]

variable {y z : Execution δ}

theorem Idle.counted (h : x.Idle y) : x.Counted y := by
  unfold Counted
  rw [h.cycles, h.bus]
  omega

theorem Counted.trans (h : x.Counted y) (h' : y.Idle z) : x.Counted z := by
  unfold Counted
  rw [h'.cycles, h'.bus]
  exact h

theorem counted_withCop2 {f : Execution δ → Execution δ} (h : x.Counted (f x)) (n : CopNumber) :
    x.Counted (x.withCop2 n f) := by
  unfold withCop2
  split
  · exact h
  · exact Idle.counted ⟨rfl, rfl⟩

end

theorem counted_load (x : Execution δ) (address : UInt32) (w : Width) :
    x.Counted (x.load address w).2 := by
  unfold load
  split_ifs
  · exact Idle.counted ⟨rfl, rfl⟩
  · exact Idle.counted ⟨rfl, rfl⟩
  · unfold Counted
    dsimp only
    rw [Bus.dropped_read]
    omega

/-- What is done with a loaded value touches nothing outside. -/
theorem counted_loaded (x : Execution δ) (address : UInt32) (w : Width)
    {f : Execution δ → UInt32 → Execution δ} (hf : ∀ (x : Execution δ) value, x.Idle (f x value)) :
    x.Counted (match x.load address w with
      | (none, x) => x
      | (some value, x) => f x value) := by
  have h := x.counted_load address w
  revert h
  rcases x.load address w with ⟨_ | value, y⟩
  · exact id
  · exact fun h => h.trans (hf y value)

omit [Device δ] in
theorem cycles_le_chargeWrite (x : Execution δ) (address : UInt32) :
    x.cycles ≤ (x.chargeWrite address).cycles := by
  unfold chargeWrite
  split
  · exact Nat.le_refl _
  · exact Nat.le_add_right ..

theorem dropped_storeAt_le (x : Execution δ) (address : UInt32) (w : Width) (value : UInt32) :
    (x.storeAt address w value).bus.board.dropped ≤ x.bus.board.dropped + 1 := by
  unfold storeAt
  split
  · exact Nat.le_succ _
  · exact x.bus.dropped_write_le ..

theorem counted_store (x : Execution δ) (address : UInt32) (w : Width) (value : UInt32) :
    x.Counted (x.store address w value) := by
  have hlow := x.cycles_le_chargeWrite address
  have hdropped := (x.chargeWrite address).dropped_storeAt_le address w value
  rw [(x.chargeWrite_frame address).2] at hdropped
  unfold store
  split
  · exact Idle.counted ⟨rfl, rfl⟩
  · unfold Counted
    rw [cycles_storeAt]
    omega

theorem dropped_storePieces_le (x : Execution δ) (aligned lanes : UInt32)
    (pieces : List (UInt32 × Width)) :
    (pieces.foldl (fun x (p : UInt32 × Width) =>
      x.storeAt (aligned + p.1) p.2 (lanes >>> (p.1 * 8))) x).bus.board.dropped ≤
        x.bus.board.dropped + pieces.length := by
  induction pieces generalizing x with
  | nil => exact Nat.le_refl _
  | cons p pieces ih =>
    have hdropped := x.dropped_storeAt_le (aligned + p.1) p.2 (lanes >>> (p.1 * 8))
    have hrest := ih (x.storeAt (aligned + p.1) p.2 (lanes >>> (p.1 * 8)))
    rw [List.foldl_cons, List.length_cons]
    omega

/-- Where no device answers, or the cache is isolated, nothing is dropped. -/
theorem storePieces_quiet {x : Execution δ} {aligned : UInt32} (lanes : UInt32)
    {pieces : List (UInt32 × Width)} (hp : ∀ p ∈ pieces, x.isIsolated (aligned + p.1) = true ∨
      (Address.region (p.2.align (aligned + p.1))).hasDevices = false) :
    (pieces.foldl (fun x (p : UInt32 × Width) =>
      x.storeAt (aligned + p.1) p.2 (lanes >>> (p.1 * 8))) x).bus.board.dropped =
        x.bus.board.dropped := by
  induction pieces generalizing x with
  | nil => rfl
  | cons p pieces ih =>
    have hisolated : ∀ a, (x.storeAt (aligned + p.1) p.2 (lanes >>> (p.1 * 8))).isIsolated a =
        x.isIsolated a := by
      intro a
      unfold storeAt
      split <;> rfl
    rw [List.foldl_cons, ih fun q hq => by
      rw [hisolated]
      exact hp q (List.mem_cons_of_mem _ hq)]
    unfold storeAt
    split
    · rfl
    · rename_i hi
      exact Bus.dropped_write_of_region ((hp p List.mem_cons_self).resolve_left hi) ..

end Execution

theorem isCached_iff {a : UInt32} : (Segment.of a).isCached = true ↔ a.toNat < 0xA0000000 := by
  unfold Segment.of
  simp only [UInt32.lt_iff_toNat_lt, UInt32.reduceToNat]
  split_ifs <;> simp only [Segment.isCached, true_iff, Bool.false_eq_true, false_iff] <;> omega

section pieces

variable {aligned lane : UInt32} {w : Width} (ha : aligned.toNat % 4 = 0)
  (h : lane.toNat + w.bytes.toNat ≤ 4)

include ha h

theorem toNat_piece : (aligned + lane).toNat = aligned.toNat + lane.toNat := by
  have hpos : 0 < w.bytes.toNat := by cases w <;> decide
  have hlt := aligned.toNat_lt
  rw [UInt32.toNat_add]
  exact Nat.mod_eq_of_lt (by omega)

/-- A piece lies in the word that it is a piece of. -/
theorem wordOf_piece : wordOf (w.align (aligned + lane)) = aligned := by
  have hsum := toNat_piece ha h
  apply UInt32.toNat_inj.1
  rw [wordOf_toNat, w.align_toNat, hsum]
  cases w with
  | byte =>
    change lane.toNat + 1 ≤ 4 at h
    show (aligned.toNat + lane.toNat) / 1 * 1 / 4 * 4 = _
    omega
  | half =>
    change lane.toNat + 2 ≤ 4 at h
    show (aligned.toNat + lane.toNat) / 2 * 2 / 4 * 4 = _
    omega
  | word =>
    change lane.toNat + 4 ≤ 4 at h
    show (aligned.toNat + lane.toNat) / 4 * 4 / 4 * 4 = _
    omega

theorem isCached_piece :
    (Segment.of (aligned + lane)).isCached = (Segment.of aligned).isCached := by
  have hpos : 0 < w.bytes.toNat := by cases w <;> decide
  have hsum := toNat_piece ha h
  rw [Bool.eq_iff_iff, isCached_iff, isCached_iff]
  omega

theorem isIsolated_piece {δ : Type} (x : Execution δ) :
    x.isIsolated (aligned + lane) = x.isIsolated aligned := by
  unfold Execution.isIsolated
  rw [isCached_piece ha h]

end pieces

namespace Execution

variable {δ : Type} [Device δ] {x : Execution δ}

/-- Two words may be dropped where an access costs something, and none where it costs nothing. -/
theorem counted_storeSide (ht : x.bus.timing = {}) (side : Side) (rt base : Reg)
    (offset : UInt32) : x.Counted (x.storeSide side rt base offset) := by
  unfold storeSide
  dsimp only
  generalize x.dataAddress base offset = address
  have haligned : (wordOf address).toNat % 4 = 0 := by
    rw [wordOf_toNat]
    omega
  obtain ⟨hcpu, hbus⟩ := x.chargeWrite_frame (wordOf address)
  have hlow := x.cycles_le_chargeWrite (wordOf address)
  obtain ⟨hlength, hp⟩ := side.pieces_within address
  split
  · exact Idle.counted ⟨rfl, rfl⟩
  have hdropped := (x.chargeWrite (wordOf address)).dropped_storePieces_le (wordOf address)
    (side.lanes (x.reg rt) address) (side.pieces address)
  unfold Counted
  rw [cycles_storePieces]
  rw [hbus] at hdropped
  by_cases hdevice : x.isIsolated (wordOf address) = false ∧
      (Address.region (wordOf address)).hasDevices = true
  · have hcharge : (x.chargeWrite (wordOf address)).cycles =
        x.cycles + x.bus.writeCycles (wordOf address) := by
      unfold chargeWrite
      rw [if_neg (by rw [hdevice.1]; decide)]
    have hcost := Bus.writeCycles_pos ht hdevice.2
    omega
  · have hpieces : ∀ p ∈ side.pieces address,
        (x.chargeWrite (wordOf address)).isIsolated (wordOf address + p.1) = true ∨
          (Address.region (p.2.align (wordOf address + p.1))).hasDevices = false := by
      intro p hpiece
      have hisolated : (x.chargeWrite (wordOf address)).isIsolated (wordOf address + p.1) =
          x.isIsolated (wordOf address) := by
        rw [isIsolated_piece haligned (hp p hpiece)]
        unfold isIsolated
        rw [hcpu]
      rw [hisolated]
      by_contra hno
      rw [not_or, Bool.not_eq_true, Bool.not_eq_false] at hno
      have hword := Address.region_wordOf hno.2
      rw [wordOf_piece haligned (hp p hpiece)] at hword
      exact hdevice ⟨hno.1, by rw [hword]; exact hno.2⟩
    rw [storePieces_quiet _ hpieces, hbus]
    omega

theorem run_counts (ht : x.bus.timing = {}) (i : Instruction) : x.Counted (x.run i) := by
  cases i with
  | nop | mulDiv | mthi | mtlo | jump | jr | syscall | «break» | reserved =>
    exact Idle.counted ⟨rfl, rfl⟩
  | shift | shiftVar | logic | lui | mfhi | mflo => exact (idle_setReg ..).counted
  | alu | immediate => exact (idle_setChecked ..).counted
  | jumpLink | jalr => exact ((idle_setReg x _ _).counted).trans ⟨rfl, rfl⟩
  | branchEq | branchZero => exact (idle_branchIf ..).counted
  | branchSign op link rs offset =>
    simp only [run]
    split
    · exact (idle_setReg x _ _).counted.trans (idle_branchIf ..)
    · exact (idle_branchIf ..).counted
  | load op rt base offset =>
    exact x.counted_loaded _ _ (f := fun x value => x.issue rt (op.extend value))
      fun x value => x.idle_issue ..
  | store => exact x.counted_store ..
  | loadSide side rt base offset =>
    simp only [run]
    unfold loadSide
    dsimp only
    split
    · exact Idle.counted ⟨rfl, rfl⟩
    · exact x.counted_loaded _ _
        (f := fun x word => x.issue rt (side.merge (x.regForMerge rt) word _))
        fun x value => x.idle_issue ..
  | storeSide => exact counted_storeSide ht ..
  | copLoad n _ base offset =>
    simp only [run]
    exact counted_withCop2 (x.counted_load ..) n
  | copStore n _ base offset =>
    simp only [run]
    exact counted_withCop2 (x.counted_store ..) n
  | copMove n op rt rd =>
    simp only [run]
    refine (idle_withUsable ?_ n).counted
    split
    · exact idle_moveCop0 ..
    · exact idle_moveCop2 ..
  | rfe | cop2Command | copReserved =>
    simp only [run]
    exact (idle_withUsable ⟨rfl, rfl⟩ _).counted

end Execution

/-! ### Steps -/

namespace Cpu

def finishLoad! (c : Cpu) (load : DelayedLoad) : Option Cpu := do
  let r ← index 32 load.reg.toNat
  pure { c with regs := c.regs.write r load.value }

def retireLoad! (c : Cpu) : Option Cpu :=
  match c.delayed with
  | none => pure c
  | some load => { c with delayed := none }.finishLoad! load

def settle! (c : Cpu) (written : Reg) (issued : Option DelayedLoad) : Option Cpu :=
  match c.delayed with
  | none => pure { c with delayed := issued }
  | some load =>
    if isSuperseded load written issued then pure { c with delayed := issued }
    else { c with delayed := issued }.finishLoad! load

variable {δ : Type} [Device δ]

def fetch! (c : Cpu) (bus : Bus δ) (pc : UInt32) : Option (UInt32 × Nat × Cpu × Bus δ) := do
  if usesCache bus pc then
    match ← c.cache.fetch! pc with
    | some word => pure (word, 0, c, bus)
    | none =>
      let cycles := bus.fetchCycles pc
      let (word, bus) ← bus.read! pc .word
      pure (word, cycles, { c with cache := ← c.cache.fill! pc word }, bus)
  else
    let cycles := bus.fetchCycles pc
    let (word, bus) ← bus.read! pc .word
    pure (word, cycles, c, bus)

def execute! (c : Cpu) (bus : Bus δ) (word : UInt32) : Option (Nat × Cpu × Bus δ) := do
  let c := { c with currentInstruction := word, pc := c.nextPc, nextPc := c.nextPc + 4 }
  let x ← ({ cpu := c, bus } : Execution δ).run! (← Instruction.decode! word)
  pure (x.cycles, ← x.cpu.settle! x.written x.issued, x.bus)

def step! (c : Cpu) (bus : Bus δ) : Option (Nat × Cpu × Bus δ) := do
  let base := bus.timing.instructionCycles
  let c := c.begun bus
  if c.cop0.interruptPending then pure (base, (← c.retireLoad!).raise .interrupt, bus)
  else if c.pc &&& 3 != 0 || !c.addressAllowed c.pc then
    let retired ← { c with currentInstruction := 0 }.retireLoad!
    pure (base, retired.addressError .addressErrorLoad c.pc, bus)
  else
    let (word, fetchCycles, c, bus) ← c.fetch! bus c.pc
    let (cycles, c, bus) ← c.execute! bus word
    pure (← held 32 ((← held 32 (base + fetchCycles)) + cycles), c, bus)

section

omit [Device δ]

variable {c : Cpu}

theorem finishLoad!_eq {load : DelayedLoad} (h : load.Sound) (c : Cpu) :
    c.finishLoad! load = some (c.finishLoad load) := by
  have hlt : load.reg.toNat < 32 := Nat.lt_succ_of_le h.2
  rw [finishLoad!, index_eq hlt, finishLoad, dif_pos hlt]
  rfl

theorem retireLoad!_eq (h : c.Sound) : c.retireLoad! = some c.retireLoad := by
  unfold retireLoad! retireLoad
  cases hd : c.delayed with
  | none => rfl
  | some load => exact finishLoad!_eq (h.load load hd) _

theorem settle!_eq (h : c.Sound) (written : Reg) (issued : Option DelayedLoad) :
    c.settle! written issued = some (c.settle written issued) := by
  unfold settle! settle
  cases hd : c.delayed with
  | none => rfl
  | some load =>
    dsimp only
    split
    · rfl
    · exact finishLoad!_eq (h.load load hd) _

end

variable {c : Cpu} {bus : Bus δ}

theorem fetch!_eq {n : Nat} (h : c.Sound) (hb : bus.Ready n) (pc : UInt32) :
    c.fetch! bus pc = some (c.fetch bus pc) := by
  unfold fetch! fetch
  split_ifs
  · rw [InstructionCache.fetch!_eq h.lines]
    simp only [Option.bind_eq_bind, Option.bind_some]
    cases c.cache.fetch? pc with
    | some word => rfl
    | none =>
      simp only [Bus.read!_eq hb, InstructionCache.fill!_eq h.lines, Option.bind_some]
      rfl
  · rw [Bus.read!_eq hb]
    rfl

/-- A fetch reads one word, or none. -/
theorem fetch_counts (hb : bus.Ready 2) (ht : bus.timing = {}) (c : Cpu) (pc : UInt32) :
    (c.fetch bus pc).2.2.2.Ready 2 ∧ (c.fetch bus pc).2.2.2.timing = {} ∧
      (c.fetch bus pc).2.2.2.board.dropped = bus.board.dropped := by
  have hsame := (c.fetch_le bus pc).2.trans ht
  have hread := hb.read pc .word
  have hdropped := bus.dropped_read pc .word
  refine ⟨?_, hsame, ?_⟩ <;> unfold fetch <;> split_ifs
  · split <;> assumption
  · exact hread
  · split
    · rfl
    · exact hdropped
  · exact hdropped

theorem execute!_eq (h : c.Sound) (hb : bus.Ready 2) (ht : bus.timing = {}) (word : UInt32) :
    c.execute! bus word = some (c.execute bus word) ∧
      (c.execute bus word).2.2.board.dropped ≤
        bus.board.dropped + 1 + (c.execute bus word).1 := by
  let x : Execution δ := {
    cpu := { c with currentInstruction := word, pc := c.nextPc, nextPc := c.nextPc + 4 }, bus }
  have hrun : x.run! (.decode word) = some (x.run (.decode word)) :=
    Execution.run!_eq ⟨h.lines, hb, ht, rfl⟩ fun _ _ _ _ hd => Instruction.amount_lt hd
  have hsound : (x.run (.decode word)).Sound :=
    Execution.Sound.run ⟨h.of_eq rfl rfl, fun _ h => by cases h⟩ _
  have hcounts : x.Counted (x.run (.decode word)) := Execution.run_counts ht _
  refine ⟨?_, hcounts⟩
  unfold execute! execute
  simp only [Instruction.decode!_eq, Option.bind_eq_bind, Option.bind_some]
  change (x.run! (.decode word)).bind _ = _
  rw [hrun, Option.bind_some, settle!_eq hsound.cpu]
  rfl

/-- A step costs what the base of an instruction, a fetch and an access cost at most, and drops a word
for a cycle at most. -/
theorem step!_eq (h : c.Sound) (hb : bus.Ready 2) (ht : bus.timing = {}) :
    c.step! bus = some (c.step bus) ∧ 1 ≤ (c.step bus).1 ∧ (c.step bus).1 ≤ 45 ∧
      (c.step bus).2.2.board.dropped ≤ bus.board.dropped + (c.step bus).1 := by
  have hbegun : (c.begun bus).Sound := h.of_eq rfl rfl
  have hbase : bus.timing.instructionCycles = 1 := by rw [ht]
  have hle := c.step_le bus
  rw [ht] at hle
  change (c.step bus).1 ≤ 45 at hle
  by_cases hi : c.isInterrupted bus = true
  · have hstep : c.step! bus = (do pure (bus.timing.instructionCycles,
        (← (c.begun bus).retireLoad!).raise .interrupt, bus)) := if_pos hi
    rw [hstep, step_interrupted hi, retireLoad!_eq hbegun, hbase]
    exact ⟨rfl, Nat.le_refl 1, by show 1 ≤ 45; decide, Nat.le_succ _⟩
  by_cases hm : c.misfetches bus = true
  · have hsound : ({ c.begun bus with currentInstruction := 0 } : Cpu).Sound := h.of_eq rfl rfl
    have hstep : c.step! bus = (do
        let retired ← ({ c.begun bus with currentInstruction := 0 } : Cpu).retireLoad!
        pure (bus.timing.instructionCycles, retired.addressError .addressErrorLoad c.pc, bus)) :=
      (if_neg hi).trans (if_pos hm)
    rw [hstep, step_misfetched (Bool.eq_false_iff.2 hi) hm, retireLoad!_eq hsound, hbase]
    exact ⟨rfl, Nat.le_refl 1, by show 1 ≤ 45; decide, Nat.le_succ _⟩
  · have hstep : c.step! bus = (do
        let (word, fetchCycles, c, bus') ← (c.begun bus).fetch! bus c.pc
        let (cycles, c, bus') ← c.execute! bus' word
        pure (← held 32 ((← held 32 (bus.timing.instructionCycles + fetchCycles)) + cycles),
          c, bus')) := (if_neg hi).trans (if_neg hm)
    have hplain : c.step bus = ((fun f : UInt32 × Nat × Cpu × Bus δ =>
        (bus.timing.instructionCycles + f.2.1 + (f.2.2.1.execute f.2.2.2 f.1).1,
          (f.2.2.1.execute f.2.2.2 f.1).2)) ((c.begun bus).fetch bus c.pc)) :=
      (if_neg hi).trans (if_neg hm)
    obtain ⟨hready, htiming, hdropped⟩ := fetch_counts hb ht (c.begun bus) c.pc
    have hfetched := hbegun.fetch bus c.pc
    rw [hplain, hbase] at hle
    rw [hstep, hplain, fetch!_eq hbegun hb, hbase]
    revert hle hready htiming hdropped hfetched
    generalize (c.begun bus).fetch bus c.pc = f
    obtain ⟨word, fetchCycles, c', bus'⟩ := f
    intro hle hready htiming hdropped hfetched
    dsimp only at hle hready htiming hdropped hfetched
    obtain ⟨he, hdropped'⟩ := execute!_eq hfetched hready htiming word
    simp only [Option.bind_eq_bind, Option.bind_some, he]
    rw [held_eq (by omega), Option.bind_some, held_eq (by omega)]
    exact ⟨rfl, by omega, by omega, by omega⟩

end Cpu

end Psx
