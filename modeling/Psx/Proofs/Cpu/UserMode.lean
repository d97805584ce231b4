import Mathlib.Data.Nat.Bitwise
import Psx.Proofs.Cpu.Accesses
import Psx.Proofs.Cpu.Return

/-!
# User mode is contained

A program in user mode that may not use the system control coprocessor gets out of user mode by an
exception alone, and reaches the lower half of the addresses alone (`Cpu.step_contained`). Each way to
reach outside asks whether the address is allowed before it does anything, and of the instructions
that change the system control coprocessor none finds nothing wrong.
-/

namespace Psx

namespace Address

/-- An address of the lower half. -/
def IsUser (address : UInt32) : Prop := address &&& 0x80000000 = 0

theorem IsUser.lt {a : UInt32} (h : IsUser a) : a.toNat < 2 ^ 31 := by
  have hbit : a.toNat.testBit 31 = false := by
    have h31 : a.toNat &&& 2 ^ 31 = 0 := congrArg UInt32.toNat h
    rw [Nat.and_two_pow] at h31
    simpa using h31
  refine Nat.lt_pow_two_of_testBit _ fun i hi => ?_
  rcases Nat.eq_or_lt_of_le hi with rfl | hi
  · exact hbit
  · exact Nat.testBit_lt_two_pow
      (Nat.lt_of_lt_of_le a.toNat_lt (Nat.pow_le_pow_right (by decide) hi))

theorem isUser_of_lt {a : UInt32} (h : a.toNat < 2 ^ 31) : IsUser a := by
  apply UInt32.toNat_inj.1
  rw [UInt32.toNat_and, show (0x80000000 : UInt32).toNat = 2 ^ 31 from rfl, Nat.and_two_pow,
    Nat.testBit_lt_two_pow h]
  rfl

/-- The word around an address of the lower half lies in the lower half. -/
theorem IsUser.wordOf_add {a lane : UInt32} (h : IsUser (wordOf a)) (hl : lane < 4) :
    IsUser (wordOf a + lane) := by
  have hlt := h.lt
  have hl' : lane.toNat < 4 := UInt32.lt_iff_toNat_lt.1 hl
  have haligned : wordOf a &&& 3 = 0 := by
    unfold wordOf
    rw [UInt32.and_assoc, show ~~~(3 : UInt32) &&& 3 = 0 by decide, UInt32.and_zero]
  have hmod : (wordOf a).toNat % 4 = 0 := by
    have hm := congrArg UInt32.toNat haligned
    rwa [UInt32.toNat_and, show (3 : UInt32).toNat = 2 ^ 2 - 1 from rfl,
      Nat.and_two_pow_sub_one_eq_mod] at hm
  apply isUser_of_lt
  rw [UInt32.toNat_add]
  omega

theorem physicalRegion_ne (a : UInt32) : physicalRegion a ≠ .cacheControl := by
  unfold physicalRegion
  repeat' first | decide | split

end Address

namespace Execution

variable {δ : Type} {x : Execution δ} {i : Instruction}

/-! ### The system control coprocessor -/

theorem setReg_cop0 (x : Execution δ) (r : Reg) (value : UInt32) :
    (x.setReg r value).cpu.cop0 = x.cpu.cop0 := by
  unfold setReg Cpu.setReg
  split_ifs <;> rfl

theorem issue_cop0 (x : Execution δ) (r : Reg) (value : UInt32) :
    (x.issue r value).cpu.cop0 = x.cpu.cop0 := by
  unfold issue
  split_ifs <;> rfl

theorem setChecked_cop0 {r : Reg} {value : Option UInt32}
    (h : (if value.isSome then none else some Fault.overflow) = none) :
    (x.setChecked r value).cpu.cop0 = x.cpu.cop0 := by
  cases value with
  | none => cases h
  | some value => exact setReg_cop0 ..

theorem branchIf_cop0 (x : Execution δ) (taken : Bool) (offset : UInt32) :
    (x.branchIf taken offset).cpu.cop0 = x.cpu.cop0 := by
  cases taken <;> rfl

theorem withUsable_cop0 {n : CopNumber} {inner : Option Fault} {g : Execution δ → Execution δ}
    (h : x.copFault? n inner = none)
    (hg : inner = none → x.cpu.cop0.isUsable n = true → (g x).cpu.cop0 = x.cpu.cop0) :
    (x.withUsable n g).cpu.cop0 = x.cpu.cop0 := by
  unfold copFault? at h
  unfold withUsable
  split_ifs at h ⊢ with hn
  exact hg h hn.2

theorem withCop2_cop0 {n : CopNumber} {inner : Option Fault} {g : Execution δ → Execution δ}
    (h : x.cop2Fault? n inner = none) (hg : inner = none → (g x).cpu.cop0 = x.cpu.cop0) :
    (x.withCop2 n g).cpu.cop0 = x.cpu.cop0 := by
  unfold cop2Fault? at h
  unfold withCop2
  split_ifs at h ⊢ with hn
  exact hg h

theorem chargeWrite_cop0 (x : Execution δ) (address : UInt32) :
    (x.chargeWrite address).cpu.cop0 = x.cpu.cop0 := by
  unfold chargeWrite
  split_ifs <;> rfl

variable [Device δ]

theorem storeAt_cop0 (x : Execution δ) (address : UInt32) (w : Width) (value : UInt32) :
    (x.storeAt address w value).cpu.cop0 = x.cpu.cop0 := by
  unfold storeAt
  split_ifs <;> rfl

theorem load_cop0 {address : UInt32} {w : Width} (h : x.isValid address w = true) :
    ∃ value y, x.load address w = (some value, y) ∧ y.cpu.cop0 = x.cpu.cop0 := by
  unfold load
  rw [if_neg (by simpa using h)]
  split_ifs
  · exact ⟨_, _, rfl, rfl⟩
  · exact ⟨_, _, rfl, rfl⟩

theorem store_cop0 {address : UInt32} {w : Width} (h : x.isValid address w = true)
    (value : UInt32) : (x.store address w value).cpu.cop0 = x.cpu.cop0 := by
  unfold store
  rw [if_neg (by simpa using h), storeAt_cop0, chargeWrite_cop0]

theorem storeSide_cop0 {side : Side} {rt base : Reg} {offset : UInt32}
    (h : x.cpu.addressAllowed (wordOf (x.dataAddress base offset)) = true) :
    (x.storeSide side rt base offset).cpu.cop0 = x.cpu.cop0 := by
  unfold storeSide
  dsimp only
  rw [if_neg (by simpa using h), ← x.chargeWrite_cop0 (wordOf (x.dataAddress base offset))]
  generalize x.chargeWrite _ = y
  generalize side.pieces _ = pieces
  -- the pieces are stored one by one
  induction pieces generalizing y with
  | nil => rfl
  | cons p pieces ih => exact (ih _).trans (storeAt_cop0 ..)

/-- An instruction that finds nothing wrong leaves the system control coprocessor alone if that may
not be used. -/
theorem run_cop0 (h : x.fault? i = none) (hu : x.cpu.cop0.isUsable 0 = false) :
    (x.run i).cpu.cop0 = x.cpu.cop0 := by
  have hno : ∀ {p : Prop}, x.cpu.cop0.isUsable 0 = true → p := fun ht => by
    rw [hu] at ht
    cases ht
  cases i with
  | nop | mulDiv | mthi | mtlo | jump | jr => rfl
  | shift | shiftVar | logic | lui | mfhi | mflo => exact setReg_cop0 ..
  | jumpLink | jalr => exact setReg_cop0 ..
  | alu | immediate => exact setChecked_cop0 h
  | branchEq | branchZero => exact branchIf_cop0 ..
  | branchSign op link rs offset =>
    simp only [run]
    rw [branchIf_cop0]
    split_ifs
    · exact setReg_cop0 ..
    · rfl
  | load op rt base offset =>
    obtain ⟨value, y, hl, hy⟩ := load_cop0 (isValid_of_accessFault h)
    simp only [run, hl]
    rw [issue_cop0, hy]
  | store => exact store_cop0 (isValid_of_accessFault h) _
  | loadSide side rt base offset =>
    have ha := addressAllowed_of_sideFault h
    obtain ⟨value, y, hl, hy⟩ := load_cop0 (isValid_wordOf ha)
    simp only [run, loadSide]
    rw [if_neg (by simpa using ha), hl]
    exact (issue_cop0 ..).trans hy
  | storeSide => exact storeSide_cop0 (addressAllowed_of_sideFault h)
  | copLoad n rt base offset =>
    refine withCop2_cop0 h fun hf => ?_
    obtain ⟨value, y, hl, hy⟩ := load_cop0 (isValid_of_accessFault hf)
    rw [hl, hy]
  | copStore n rt base offset =>
    exact withCop2_cop0 h fun hf => store_cop0 (isValid_of_accessFault hf) _
  | copMove n op rt rd =>
    simp only [run]
    refine withUsable_cop0 h fun _ hn => ?_
    split_ifs with h0
    · rw [h0] at hn
      exact hno hn
    · cases op with
      | mfc | cfc => exact issue_cop0 ..
      | mtc | ctc => rfl
  | rfe => exact withUsable_cop0 h fun _ hn => hno hn
  | cop2Command => exact withUsable_cop0 h fun _ _ => rfl
  | copReserved n word => exact withUsable_cop0 h fun hf => by cases hf
  | syscall | «break» | reserved => cases h

/-! ### Addresses -/

omit [Device δ] in
theorem isUser_of_isValid (hu : x.cpu.cop0.userMode = true) {address : UInt32} {w : Width}
    (h : x.isValid address w = true) : Address.IsUser address := by
  simp only [isValid, Cpu.addressAllowed, hu, Bool.not_true, Bool.false_or, Bool.and_eq_true,
    beq_iff_eq] at h
  exact h.2

omit [Device δ] in
theorem loadAccesses_user (hu : x.cpu.cop0.userMode = true) {address : UInt32} {w : Width}
    {a : Access}
    (ha : a ∈ x.loadAccesses address w) : Address.IsUser a.address := by
  unfold loadAccesses at ha
  split_ifs at ha with hv hi
  · rw [List.mem_singleton.1 ha]
    exact isUser_of_isValid hu hv
  · rw [List.mem_singleton.1 ha]
    exact isUser_of_isValid hu hv
  · cases ha

omit [Device δ] in
theorem address_storeAccess (x : Execution δ) (address : UInt32) (w : Width) (value : UInt32) :
    (x.storeAccess address w value).address = address := by
  unfold storeAccess
  split <;> rfl

omit [Device δ] in
theorem storeAccesses_user (hu : x.cpu.cop0.userMode = true) {address value : UInt32} {w : Width}
    {a : Access} (ha : a ∈ x.storeAccesses address w value) : Address.IsUser a.address := by
  unfold storeAccesses at ha
  split_ifs at ha with hv
  · rw [List.mem_singleton.1 ha, address_storeAccess]
    exact isUser_of_isValid hu hv
  · cases ha

theorem lane_lt_of_mem_pieces {side : Side} {address : UInt32} {p : UInt32 × Width}
    (hp : p ∈ side.pieces address) : p.1 < 4 := by
  have hall : ∀ q ∈ side.pieces address, q.1 < 4 := by
    unfold Side.pieces
    cases side <;> dsimp only <;> split <;> decide
  exact hall p hp

omit [Device δ] in
theorem storeSideAccesses_user (hu : x.cpu.cop0.userMode = true) {side : Side}
    {address value : UInt32} {a : Access} (ha : a ∈ x.storeSideAccesses side address value) :
    Address.IsUser a.address := by
  unfold storeSideAccesses at ha
  split_ifs at ha with hv
  · obtain ⟨p, hp, rfl⟩ := List.mem_map.1 ha
    rw [address_storeAccess]
    have hword : Address.IsUser (wordOf address) := by
      simp only [Cpu.addressAllowed, hu, Bool.not_true, Bool.false_or, beq_iff_eq] at hv
      exact hv
    exact hword.wordOf_add (lane_lt_of_mem_pieces hp)
  · cases ha

omit [Device δ] in
/-- An instruction in user mode reaches the lower half of the addresses alone. -/
theorem accesses_user (hu : x.cpu.cop0.userMode = true) {a : Access} (ha : a ∈ x.accesses i) :
    Address.IsUser a.address := by
  cases i with
  | load | loadSide => exact loadAccesses_user hu ha
  | store => exact storeAccesses_user hu ha
  | storeSide => exact storeSideAccesses_user hu ha
  | copLoad =>
    simp only [accesses] at ha
    split_ifs at ha
    · exact loadAccesses_user hu ha
    · cases ha
  | copStore =>
    simp only [accesses] at ha
    split_ifs at ha
    · exact storeAccesses_user hu ha
    · cases ha
  | _ => cases ha

end Execution

namespace Outside

variable {δ : Type} [Device δ] {o : Outside δ}

theorem read_memory (b : Bus δ) (address : UInt32) (w : Width) :
    (b.read address w).2.memory = b.memory := by
  unfold Bus.read Bus.readDevice
  dsimp only
  split <;> first | rfl | (split <;> rfl)

theorem write_cacheControl (b : Bus δ) {address : UInt32} (h : Address.IsUser address) (w : Width)
    (value : UInt32) :
    (b.write address w value).memory.cacheControl = b.memory.cacheControl := by
  have hlow : w.align address < 0x80000000 := by
    rw [UInt32.lt_iff_toNat_lt]
    unfold Width.align
    rw [UInt32.toNat_and]
    exact Nat.lt_of_le_of_lt Nat.and_le_left h.lt
  have hseg : Segment.of (w.align address) = .kuseg := if_pos hlow
  have hregion : Address.region (w.align address) ≠ .cacheControl := by
    unfold Address.region
    rw [hseg]
    exact Address.physicalRegion_ne _
  unfold Bus.write Bus.writeDevice
  dsimp only
  split <;> first | rfl | contradiction | (split <;> rfl)

theorem perform_cacheControl (o : Outside δ) {a : Access} (h : Address.IsUser a.address) :
    (o.perform a).bus.memory.cacheControl = o.bus.memory.cacheControl := by
  cases a with
  | fetch address => exact congrArg Memory.cacheControl (read_memory o.bus address .word)
  | read address w => exact congrArg Memory.cacheControl (read_memory o.bus address w)
  | write address w value => exact write_cacheControl o.bus h w value
  | fetchCached | readIsolated | writeIsolated => rfl

theorem performAll_cacheControl (o : Outside δ) {as : List Access}
    (h : ∀ a ∈ as, Address.IsUser a.address) :
    (o.performAll as).bus.memory.cacheControl = o.bus.memory.cacheControl := by
  induction as generalizing o with
  | nil => rfl
  | cons a as ih =>
    rw [List.forall_mem_cons] at h
    exact (ih (o.perform a) h.2).trans (o.perform_cacheControl h.1)

end Outside

namespace Cpu

variable {δ : Type} [Device δ] {c : Cpu} {bus : Bus δ}

/-! ### Exceptions -/

omit [Device δ] in
theorem masked_raise (c : Cpu) (e : Exception) : (c.raise e).cop0.Masked := c.cop0.masked_enter ..

omit [Device δ] in
theorem masked_fail (c : Cpu) (f : Fault) : (c.fail f).cop0.Masked := by
  cases f with
  | badLoad | badStore => exact masked_raise ..
  | unusable n => exact (c.masked_raise _).of_status (Cop0.status_set _ (by decide) _)
  | _ => exact c.masked_raise _

theorem masked_of_exception {e : Exception} (h : c.exception? bus = some e) :
    (c.step bus).2.1.cop0.Masked := by
  unfold exception? at h
  split_ifs at h with hi hm
  · rw [step_interrupted hi]
    exact masked_raise ..
  · rw [step_misfetched (Bool.eq_false_iff.2 hi) hm]
    exact masked_raise ..
  · obtain ⟨f, hf, -⟩ := Option.map_eq_some_iff.1 h
    unfold fault? at hf
    split_ifs at hf with hx
    rw [step_executed hx, Execution.run_of_fault hf]
    dsimp only
    rw [settle_eq]
    exact masked_fail ..

/-! ### A step -/

omit [Device δ] in
theorem userMode_begun (c : Cpu) (bus : Bus δ) :
    (c.begun bus).cop0.userMode = c.cop0.userMode := by
  unfold Cop0.userMode
  rw [show (c.begun bus).cop0.status = c.cop0.status from Cop0.status_setHardwareInterrupt ..]

theorem accesses_user (hu : c.cop0.userMode = true) {a : Access} (ha : a ∈ c.accesses bus) :
    Address.IsUser a.address := by
  rw [← userMode_begun c bus] at hu
  have hcpu := c.execution_cpu bus
  unfold accesses at ha
  split_ifs at ha with hx
  · rcases List.mem_cons.1 ha with rfl | ha
    · have hpc : (c.fetchAccess bus).address = c.pc := by
        unfold fetchAccess
        split_ifs <;> rfl
      have hm := (executes_iff.1 hx).2
      simp only [misfetches, addressAllowed, hu, Bool.not_true, Bool.false_or, Bool.or_eq_false_iff,
        Bool.not_eq_false', beq_iff_eq] at hm
      rw [hpc]
      exact hm.2
    · refine Execution.accesses_user ?_ ha
      rw [hcpu]
      exact hu
  · cases ha

theorem step_cop0 (hu : c.cop0.isUsable 0 = false) (he : c.exception? bus = none) :
    (c.step bus).2.1.cop0 = c.cop0.setHardwareInterrupt bus.board.lines.interrupts.pending := by
  obtain ⟨hx, hf⟩ := sound_of_exception?_none he
  unfold fault? at hf
  rw [if_pos hx] at hf
  have hcop0 : (c.execution bus).cpu.cop0 = (c.begun bus).cop0 := by rw [execution_cpu]
  have husable : (c.execution bus).cpu.cop0.isUsable 0 = false := by
    rw [hcop0, ← hu]
    unfold Cop0.isUsable
    rw [userMode_begun, show (c.begun bus).cop0.status = c.cop0.status from
      Cop0.status_setHardwareInterrupt ..]
  rw [step_executed hx]
  dsimp only
  rw [settle_eq]
  exact (Execution.run_cop0 hf husable).trans hcop0

/-- User mode is contained. A program in user mode that may not use the system control coprocessor
enters an exception, at the handler, in kernel mode and with interrupts disabled, or leaves the
coprocessor as it is, but for the bit of the cause that shows the interrupt controller. Either way all
it fetches, reads and writes lies in the lower half of the addresses, and so the cache control
register stays. -/
theorem step_contained (hu : c.cop0.userMode = true) (h0 : c.cop0.status &&& 0x10000000 = 0) :
    ((∃ e, c.exception? bus = some e ∧ (c.step bus).2.1.pc = c.cop0.vector ∧
        (c.step bus).2.1.cop0.Masked) ∨
      (c.exception? bus = none ∧ (c.step bus).2.1.cop0 =
        c.cop0.setHardwareInterrupt bus.board.lines.interrupts.pending)) ∧
    c.Performs bus (c.accesses bus) ∧ (∀ a ∈ c.accesses bus, Address.IsUser a.address) ∧
    (c.step bus).2.2.memory.cacheControl = bus.memory.cacheControl := by
  have hperforms := c.performs_accesses bus
  have huser : ∀ a ∈ c.accesses bus, Address.IsUser a.address := fun a ha => accesses_user hu ha
  have hunusable : c.cop0.isUsable 0 = false := by
    have hbit : c.cop0.status &&& (1 <<< (28 + UInt32.ofNat (0 : CopNumber))) = 0 := h0
    unfold Cop0.isUsable
    rw [hbit, hu]
    rfl
  refine ⟨?_, hperforms, huser, ?_⟩
  · cases he : c.exception? bus with
    | some e => exact .inl ⟨e, rfl, (step_of_exception he).1, masked_of_exception he⟩
    | none => exact .inr ⟨rfl, step_cop0 hunusable he⟩
  · have hcontrol := (c.outside bus).performAll_cacheControl huser
    rw [← hperforms.outside_step] at hcontrol
    exact hcontrol

/-- A store of register 1 into the scratchpad. -/
theorem step_contained_store :
    let c : Cpu := {
      (Cpu.initial.setPc Address.scratchpadFirst).setReg 2 Address.scratchpadFirst with
      cop0 := Cop0.initial.set Cop0.statusReg Cop0.userModeBit }
    let bus := holding [0xAC410010]
    c.cop0.userMode = true ∧ c.exception? bus = none ∧ (c.step bus).2.1.cop0.status = 2 ∧
      c.accesses bus = [.fetch 0x1F800000, .write 0x1F800010 .word 0] ∧
      ∀ a ∈ c.accesses bus, Address.IsUser a.address := by
  intro c bus
  have hu : c.cop0.userMode = true := by decide +kernel
  have h0 : c.cop0.status &&& 0x10000000 = 0 := by decide +kernel
  obtain ⟨hcop0, -, huser, -⟩ := @step_contained Empty _ c bus hu h0
  have he : c.exception? bus = none := by decide +kernel
  have hsame : (c.step bus).2.1.cop0 = c.cop0.setHardwareInterrupt false := by
    rcases hcop0 with ⟨e, hsome, -⟩ | ⟨-, h⟩
    · rw [he] at hsome
      cases hsome
    · exact h.trans (by decide +kernel)
  exact ⟨hu, he, by rw [hsame]; decide +kernel, by decide +kernel, huser⟩

end Cpu

end Psx
