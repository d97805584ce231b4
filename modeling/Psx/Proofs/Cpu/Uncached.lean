import Psx.Proofs.Checked.Cpu
import Psx.Proofs.Cpu.Coherent
import Psx.Proofs.Cpu.UserMode

/-!
# Accesses without a cache

The bit of the status that isolates the cache decides where loads and stores go, but only in the
segments that have a cache. A step whose instruction loads or stores in the others does the same with
the bit as without it (`Cpu.step_unisolated`): it leaves the same registers, the same cache and the
same bus, raises the same exception if it raises one, and costs the same.
-/

namespace Psx

/-- An instruction that loads or stores. -/
def Instruction.isAccess : Instruction → Bool
  | .load .. | .store .. | .loadSide .. | .storeSide .. | .copLoad .. | .copStore .. => true
  | _ => false

/-! ### The status without the bit -/

namespace Cop0

/-- The same with the cache not isolated. -/
def unisolated (c : Cop0) : Cop0 := c.set statusReg (c.status &&& ~~~isolateCacheBit)

variable {c c' : Cop0}

theorem ext_read (h : ∀ r, c.regs.read r = c'.regs.read r) : c = c' := by
  obtain ⟨regs⟩ := c
  obtain ⟨regs'⟩ := c'
  congr 1
  exact Vector.ext fun i hi => h ⟨i, hi⟩

theorem unisolated_status (c : Cop0) : c.unisolated.status = c.status &&& ~~~isolateCacheBit := by
  unfold unisolated status
  rw [read_set, if_pos rfl]

/-- Another bit of the status is as it was. -/
theorem status_and_unisolated (c : Cop0) {mask : UInt32}
    (hm : ~~~isolateCacheBit &&& mask = mask) : c.unisolated.status &&& mask = c.status &&& mask := by
  rw [unisolated_status, UInt32.and_assoc, hm]

theorem unisolated_cause (c : Cop0) : c.unisolated.cause = c.cause := by
  unfold unisolated cause
  rw [read_set, if_neg (by decide)]

theorem userMode_unisolated (c : Cop0) : c.unisolated.userMode = c.userMode := by
  unfold userMode
  rw [c.status_and_unisolated (by decide)]

theorem isUsable_unisolated (c : Cop0) (n : CopNumber) :
    c.unisolated.isUsable n = c.isUsable n := by
  have hm : ∀ n : CopNumber,
      ~~~isolateCacheBit &&& (1 <<< (28 + UInt32.ofNat n)) = 1 <<< (28 + UInt32.ofNat n) := by decide
  unfold isUsable
  rw [c.status_and_unisolated (hm n), userMode_unisolated]

theorem interruptPending_unisolated (c : Cop0) :
    c.unisolated.interruptPending = c.interruptPending := by
  unfold interruptPending
  rw [c.status_and_unisolated (by decide), unisolated_cause, UInt32.and_assoc,
    c.status_and_unisolated (by decide), ← UInt32.and_assoc]

theorem vector_unisolated (c : Cop0) : c.unisolated.vector = c.vector := by
  unfold vector
  rw [c.status_and_unisolated (by decide)]

theorem unisolated_set (c : Cop0) {r : Reg} (hr : r ≠ statusReg) (value : UInt32) :
    c.unisolated.set r value = (c.set r value).unisolated := by
  refine ext_read fun q => ?_
  unfold unisolated
  rw [c.status_set hr]
  simp only [read_set]
  by_cases hq : r = q
  · subst hq
    rw [if_pos rfl, if_neg (Ne.symm hr), if_pos rfl]
  · rw [if_neg hq, if_neg hq]

theorem unisolated_enter (c : Cop0) (e : Exception) (epc : UInt32) (inDelaySlot : Bool) :
    c.unisolated.enter e epc inDelaySlot = (c.enter e epc inDelaySlot).unisolated := by
  have hstatus : (c.unisolated.enter e epc inDelaySlot).status =
      (c.enter e epc inDelaySlot).status &&& ~~~isolateCacheBit := by
    have hmode : c.unisolated.status &&& modeMask = c.status &&& modeMask :=
      c.status_and_unisolated (by decide)
    have hrest : (c.status &&& ~~~isolateCacheBit) &&& ~~~modeMask =
        (c.status &&& ~~~modeMask) &&& ~~~isolateCacheBit := by
      rw [UInt32.and_assoc, UInt32.and_comm (~~~isolateCacheBit), ← UInt32.and_assoc]
    rw [enter_status, enter_status, hmode, unisolated_status, hrest, or_and, UInt32.and_assoc _ modeMask,
      show modeMask &&& ~~~isolateCacheBit = modeMask by decide]
  have hcause : (c.unisolated.enter e epc inDelaySlot).cause =
      (c.enter e epc inDelaySlot).cause := by
    rw [enter_cause, enter_cause, unisolated_cause]
  refine ext_read fun q => ?_
  by_cases hs : q = statusReg
  · rw [hs]
    exact hstatus.trans (unisolated_status _).symm
  by_cases hc : q = causeReg
  · rw [hc]
    exact hcause.trans (unisolated_cause _).symm
  · unfold unisolated enter
    simp only [read_set, if_neg (Ne.symm hs), if_neg (Ne.symm hc)]

theorem unisolated_setCoprocessorError (c : Cop0) (n : CopNumber) :
    c.unisolated.setCoprocessorError n = (c.setCoprocessorError n).unisolated := by
  unfold setCoprocessorError
  rw [unisolated_cause]
  exact c.unisolated_set (by decide) _

theorem unisolated_setHardwareInterrupt (c : Cop0) (asserted : Bool) :
    c.unisolated.setHardwareInterrupt asserted = (c.setHardwareInterrupt asserted).unisolated := by
  unfold setHardwareInterrupt
  rw [unisolated_cause]
  exact c.unisolated_set (by decide) _

end Cop0

/-! ### The processor without the bit -/

namespace Cpu

def unisolated (c : Cpu) : Cpu := { c with cop0 := c.cop0.unisolated }

theorem unisolated_raise (c : Cpu) (e : Exception) :
    c.unisolated.raise e = (c.raise e).unisolated := by
  show ({ c with
    cop0 := c.cop0.unisolated.enter e _ c.inDelaySlot
    pc := c.cop0.unisolated.vector
    nextPc := c.cop0.unisolated.vector + 4
    branched := false } : Cpu) = _
  rw [Cop0.unisolated_enter, Cop0.vector_unisolated]
  rfl

theorem unisolated_addressError (c : Cpu) (e : Exception) (address : UInt32) :
    c.unisolated.addressError e address = (c.addressError e address).unisolated := by
  have hset := c.cop0.unisolated_set (r := Cop0.badAddress) (by decide) address
  unfold addressError
  rw [← unisolated_raise]
  exact congrArg (fun cop0 => Cpu.raise { c with cop0 } e) hset

theorem unisolated_coprocessorUnusable (c : Cpu) (n : CopNumber) :
    c.unisolated.coprocessorUnusable n = (c.coprocessorUnusable n).unisolated := by
  unfold coprocessorUnusable
  rw [unisolated_raise]
  exact congrArg (fun cop0 => { c.raise .coprocessorUnusable with cop0 })
    ((c.raise .coprocessorUnusable).cop0.unisolated_setCoprocessorError n)

theorem unisolated_addressAllowed (c : Cpu) (address : UInt32) :
    c.unisolated.addressAllowed address = c.addressAllowed address := by
  unfold addressAllowed
  rw [show c.unisolated.cop0 = c.cop0.unisolated from rfl, Cop0.userMode_unisolated]

theorem unisolated_finishLoad (c : Cpu) (load : DelayedLoad) :
    c.unisolated.finishLoad load = (c.finishLoad load).unisolated := by
  unfold finishLoad
  split_ifs <;> rfl

theorem unisolated_retireLoad (c : Cpu) : c.unisolated.retireLoad = c.retireLoad.unisolated := by
  unfold retireLoad
  rw [show c.unisolated.delayed = c.delayed from rfl]
  cases c.delayed with
  | none => rfl
  | some load => exact unisolated_finishLoad { c with delayed := none } load

theorem unisolated_settle (c : Cpu) (written : Reg) (issued : Option DelayedLoad) :
    c.unisolated.settle written issued = (c.settle written issued).unisolated := by
  unfold settle
  rw [show c.unisolated.delayed = c.delayed from rfl]
  cases c.delayed with
  | none => rfl
  | some load =>
    dsimp only
    split
    · rfl
    · exact unisolated_finishLoad { c with delayed := issued } load

end Cpu

namespace Execution

variable {δ : Type} {x : Execution δ} {i : Instruction}

/-! ### The addresses of accesses -/

section

variable {b : Bool} {address value : UInt32} {w : Width}

theorem isCached_of_loadAccesses (hv : x.isValid address w = true)
    (h : ∀ a ∈ x.loadAccesses address w, (Segment.of a.address).isCached = b) :
    (Segment.of address).isCached = b := by
  unfold loadAccesses at h
  rw [if_pos hv] at h
  have hone := h _ (List.mem_singleton.2 rfl)
  split at hone <;> exact hone

theorem isCached_of_storeAccesses (hv : x.isValid address w = true)
    (h : ∀ a ∈ x.storeAccesses address w value, (Segment.of a.address).isCached = b) :
    (Segment.of address).isCached = b := by
  unfold storeAccesses at h
  rw [if_pos hv] at h
  have hone := h _ (List.mem_singleton.2 rfl)
  rwa [address_storeAccess] at hone

theorem isCached_of_piece {side : Side} (hv : x.cpu.addressAllowed (wordOf address) = true)
    (h : ∀ a ∈ x.storeSideAccesses side address value, (Segment.of a.address).isCached = b) :
    ∀ p ∈ side.pieces address, (Segment.of (wordOf address + p.1)).isCached = b := by
  intro p hp
  unfold storeSideAccesses at h
  rw [if_pos hv] at h
  have hone := h _ (List.mem_map.2 ⟨p, hp, rfl⟩)
  rwa [address_storeAccess] at hone

theorem pieces_ne_nil (side : Side) (address : UInt32) : side.pieces address ≠ [] := by
  unfold Side.pieces
  cases side <;> dsimp only <;> split <;> simp

theorem wordOf_mod (address : UInt32) : (wordOf address).toNat % 4 = 0 := by
  rw [wordOf_toNat]
  omega

/-- The pieces of a word lie in the segment of the word. -/
theorem isCached_of_storeSideAccesses {side : Side}
    (hv : x.cpu.addressAllowed (wordOf address) = true)
    (h : ∀ a ∈ x.storeSideAccesses side address value, (Segment.of a.address).isCached = b) :
    (Segment.of (wordOf address)).isCached = b := by
  obtain ⟨p, hp⟩ := List.exists_mem_of_ne_nil _ (pieces_ne_nil side address)
  rw [← isCached_piece (wordOf_mod address) ((side.pieces_within address).2 p hp)]
  exact isCached_of_piece hv h p hp

end

/-! ### Loads and stores -/

def unisolated (x : Execution δ) : Execution δ := { x with cpu := x.cpu.unisolated }

/-- An instruction that accesses the segments without a cache alone. -/
def Uncached (x : Execution δ) (i : Instruction) : Prop :=
  ∀ a ∈ x.accesses i, (Segment.of a.address).isCached = false

theorem unisolated_isValid (x : Execution δ) (address : UInt32) (w : Width) :
    x.unisolated.isValid address w = x.isValid address w := by
  unfold isValid
  rw [show x.unisolated.cpu = x.cpu.unisolated from rfl, Cpu.unisolated_addressAllowed]

theorem isIsolated_of_uncached {address : UInt32} (h : (Segment.of address).isCached = false) :
    x.isIsolated address = false := by
  unfold isIsolated
  rw [h, Bool.and_false]

theorem unisolated_addressError (x : Execution δ) (e : Exception) (address : UInt32) :
    x.unisolated.addressError e address = (x.addressError e address).unisolated :=
  congrArg (fun cpu => { x with cpu }) (x.cpu.unisolated_addressError e address)

theorem unisolated_unusable (x : Execution δ) (n : CopNumber) :
    x.unisolated.unusable n = (x.unusable n).unisolated :=
  congrArg (fun cpu => { x with cpu }) (x.cpu.unisolated_coprocessorUnusable n)

theorem unisolated_issue (x : Execution δ) (r : Reg) (value : UInt32) :
    x.unisolated.issue r value = (x.issue r value).unisolated := by
  unfold issue
  split <;> rfl

theorem unisolated_chargeWrite {address : UInt32} (h : (Segment.of address).isCached = false) :
    x.unisolated.chargeWrite address = (x.chargeWrite address).unisolated := by
  unfold chargeWrite
  rw [isIsolated_of_uncached h, isIsolated_of_uncached h]
  rfl

variable [Device δ]

theorem unisolated_load {address : UInt32} {w : Width}
    (h : x.isValid address w = true → (Segment.of address).isCached = false) :
    x.unisolated.load address w = ((x.load address w).1, (x.load address w).2.unisolated) := by
  unfold load
  rw [unisolated_isValid]
  cases hv : x.isValid address w with
  | false =>
    show (none, x.unisolated.addressError _ address) = _
    rw [unisolated_addressError]
    rfl
  | true =>
    rw [isIsolated_of_uncached (h hv), isIsolated_of_uncached (h hv)]
    rfl

theorem unisolated_storeAt {address : UInt32} (h : (Segment.of address).isCached = false)
    (w : Width) (value : UInt32) :
    x.unisolated.storeAt address w value = (x.storeAt address w value).unisolated := by
  unfold storeAt
  rw [isIsolated_of_uncached h, isIsolated_of_uncached h]
  rfl

theorem unisolated_store {address : UInt32} {w : Width}
    (h : x.isValid address w = true → (Segment.of address).isCached = false) (value : UInt32) :
    x.unisolated.store address w value = (x.store address w value).unisolated := by
  unfold store
  rw [unisolated_isValid]
  cases hv : x.isValid address w with
  | false => exact x.unisolated_addressError _ address
  | true =>
    show (x.unisolated.chargeWrite address).storeAt address w value = _
    rw [unisolated_chargeWrite (h hv), unisolated_storeAt (h hv)]
    rfl

theorem unisolated_storeAts {pieces : List (UInt32 × Width)} {aligned : UInt32}
    (h : ∀ p ∈ pieces, (Segment.of (aligned + p.1)).isCached = false) (x : Execution δ)
    (value : UInt32 → UInt32) :
    pieces.foldl (fun x p => x.storeAt (aligned + p.1) p.2 (value p.1)) x.unisolated =
      (pieces.foldl (fun x p => x.storeAt (aligned + p.1) p.2 (value p.1)) x).unisolated := by
  induction pieces generalizing x with
  | nil => rfl
  | cons p pieces ih =>
    rw [List.forall_mem_cons] at h
    rw [List.foldl_cons, List.foldl_cons, unisolated_storeAt h.1, ih h.2]

theorem unisolated_storeSide {side : Side} {rt base : Reg} {offset : UInt32}
    (h : x.cpu.addressAllowed (wordOf (x.dataAddress base offset)) = true →
      (Segment.of (wordOf (x.dataAddress base offset))).isCached = false ∧
      ∀ p ∈ side.pieces (x.dataAddress base offset),
        (Segment.of (wordOf (x.dataAddress base offset) + p.1)).isCached = false) :
    x.unisolated.storeSide side rt base offset = (x.storeSide side rt base offset).unisolated := by
  have hallowed : x.unisolated.cpu.addressAllowed (wordOf (x.dataAddress base offset)) =
      x.cpu.addressAllowed (wordOf (x.dataAddress base offset)) :=
    x.cpu.unisolated_addressAllowed _
  unfold storeSide
  dsimp only
  rw [show x.unisolated.dataAddress base offset = x.dataAddress base offset from rfl, hallowed]
  cases hv : x.cpu.addressAllowed (wordOf (x.dataAddress base offset)) with
  | false => exact x.unisolated_addressError _ _
  | true =>
    obtain ⟨haligned, hpieces⟩ := h hv
    show List.foldl _ (x.unisolated.chargeWrite _) _ = _
    rw [unisolated_chargeWrite haligned]
    exact unisolated_storeAts hpieces _
      fun lane => side.lanes (x.reg rt) (x.dataAddress base offset) >>> (lane * 8)

omit [Device δ] in
theorem unisolated_withCop2 {n : CopNumber} {f : Execution δ → Execution δ}
    (hf : n = 2 ∧ x.cpu.cop0.isUsable 2 → f x.unisolated = (f x).unisolated) :
    x.unisolated.withCop2 n f = (x.withCop2 n f).unisolated := by
  have husable : x.unisolated.cpu.cop0.isUsable 2 = x.cpu.cop0.isUsable 2 :=
    x.cpu.cop0.isUsable_unisolated 2
  unfold withCop2
  rw [husable]
  split_ifs with hn
  · exact hf hn
  · exact x.unisolated_unusable n

/-- Loads and stores in the segments without a cache are the same with the cache isolated or not. -/
theorem run_unisolated (hi : i.isAccess = true) (h : x.Uncached i) :
    x.unisolated.run i = (x.run i).unisolated := by
  cases i with
  | load op rt base offset =>
    simp only [run]
    rw [show x.unisolated.dataAddress base offset = x.dataAddress base offset from rfl,
      unisolated_load fun hv => isCached_of_loadAccesses hv h]
    rcases x.load (x.dataAddress base offset) op.width with ⟨_ | value, y⟩
    · rfl
    · exact y.unisolated_issue ..
  | store => exact unisolated_store (fun hv => isCached_of_storeAccesses hv h) _
  | loadSide side rt base offset =>
    have hallowed : x.unisolated.cpu.addressAllowed (wordOf (x.dataAddress base offset)) =
        x.cpu.addressAllowed (wordOf (x.dataAddress base offset)) :=
      x.cpu.unisolated_addressAllowed _
    simp only [run, loadSide]
    rw [show x.unisolated.dataAddress base offset = x.dataAddress base offset from rfl, hallowed,
      unisolated_load fun hv => isCached_of_loadAccesses hv h]
    split
    · exact x.unisolated_addressError ..
    · rcases x.load (wordOf (x.dataAddress base offset)) .word with ⟨_ | value, y⟩
      · rfl
      · exact y.unisolated_issue ..
  | storeSide side rt base offset =>
    exact unisolated_storeSide fun hv =>
      ⟨isCached_of_storeSideAccesses hv h, isCached_of_piece hv h⟩
  | copLoad n rt base offset =>
    unfold Uncached at h
    simp only [accesses] at h
    simp only [run]
    refine unisolated_withCop2 fun hn => ?_
    rw [if_pos hn] at h
    rw [show x.unisolated.dataAddress base offset = x.dataAddress base offset from rfl,
      unisolated_load fun hv => isCached_of_loadAccesses hv h]
  | copStore n rt base offset =>
    unfold Uncached at h
    simp only [accesses] at h
    simp only [run]
    refine unisolated_withCop2 fun hn => ?_
    rw [if_pos hn] at h
    exact unisolated_store (fun hv => isCached_of_storeAccesses hv h) 0
  | _ => cases hi

end Execution

namespace Cpu

variable {δ : Type} [Device δ] {c : Cpu} {bus : Bus δ}

omit [Device δ] in
theorem begun_unisolated (c : Cpu) (bus : Bus δ) :
    c.unisolated.begun bus = (c.begun bus).unisolated :=
  congrArg
    (fun cop0 => { c with inDelaySlot := c.branched, branched := false, cop0, currentPc := c.pc })
    (c.cop0.unisolated_setHardwareInterrupt _)

theorem fetch_unisolated (c : Cpu) (bus : Bus δ) (pc : UInt32) : c.unisolated.fetch bus pc =
    ((c.fetch bus pc).1, (c.fetch bus pc).2.1, (c.fetch bus pc).2.2.1.unisolated,
      (c.fetch bus pc).2.2.2) := by
  unfold fetch
  rw [show c.unisolated.cache = c.cache from rfl]
  split
  · cases c.cache.fetch? pc <;> rfl
  · rfl

/-- A step whose instruction loads or stores in the segments without a cache does the same with the
cache isolated or not. -/
theorem step_unisolated (h : c.executes bus = true → (c.instruction bus).isAccess = true ∧
    (c.execution bus).Uncached (c.instruction bus)) :
    c.unisolated.step bus = ((c.step bus).1, (c.step bus).2.1.unisolated, (c.step bus).2.2) := by
  have hbegun := c.begun_unisolated bus
  have hfetched : c.unisolated.fetched bus = ((c.fetched bus).1, (c.fetched bus).2.1,
      (c.fetched bus).2.2.1.unisolated, (c.fetched bus).2.2.2) := by
    unfold fetched
    rw [hbegun]
    exact fetch_unisolated ..
  have hi' : c.unisolated.isInterrupted bus = c.isInterrupted bus := by
    unfold isInterrupted
    rw [hbegun]
    exact Cop0.interruptPending_unisolated _
  have hm' : c.unisolated.misfetches bus = c.misfetches bus := by
    unfold misfetches
    rw [hbegun, unisolated_addressAllowed]
    rfl
  have hx' : c.unisolated.executes bus = c.executes bus := by
    unfold executes
    rw [hi', hm']
  cases hx : c.executes bus with
  | true =>
    obtain ⟨haccess, huncached⟩ := h hx
    have hinstruction : c.unisolated.instruction bus = c.instruction bus := by
      unfold instruction
      rw [hfetched]
    have hexecution : c.unisolated.execution bus = (c.execution bus).unisolated := by
      unfold execution
      rw [hfetched]
      rfl
    have hrun := Execution.run_unisolated haccess huncached
    rw [step_executed hx, step_executed (hx'.trans hx), hinstruction, hexecution, hrun, hfetched]
    exact congrArg (fun cpu => (_, cpu, _)) (unisolated_settle ..)
  | false =>
    cases hi : c.isInterrupted bus with
    | true =>
      rw [step_interrupted hi, step_interrupted (hi'.trans hi), hbegun, unisolated_retireLoad,
        unisolated_raise]
    | false =>
      have hm : c.misfetches bus = true := by simpa [executes, hi] using hx
      have hretired := unisolated_retireLoad { c.begun bus with currentInstruction := 0 }
      rw [step_misfetched hi hm, step_misfetched (hi'.trans hi) (hm'.trans hm), hbegun]
      show (_, (({ c.begun bus with currentInstruction := 0 } : Cpu).unisolated.retireLoad).addressError
        .addressErrorLoad c.pc, _) = _
      rw [hretired, unisolated_addressError]

end Cpu

end Psx
