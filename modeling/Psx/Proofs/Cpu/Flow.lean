import Psx.Proofs.Cpu.Faults

/-!
# Where the program goes on

An instruction that finds nothing wrong enters no exception. Where the program goes on behind it is
decided by `Execution.target?` alone, the address to which a taken branch goes (`Execution.run_flow`):
all other instructions leave the two addresses that come next as they are, and so does a branch that
is not taken, but each branch says that the next instruction stands in its shadow.
-/

namespace Psx

/-- A branch or a jump, whether it is taken or not. -/
def Instruction.isBranch : Instruction → Bool
  | .jump _ | .jumpLink _ | .jr _ | .jalr .. | .branchEq .. | .branchZero .. | .branchSign .. => true
  | _ => false

/-- The program goes on alike, and no exception has been entered in between. -/
structure Cpu.SameFlow (c c' : Cpu) : Prop where
  pc : c'.pc = c.pc
  nextPc : c'.nextPc = c.nextPc
  currentPc : c'.currentPc = c.currentPc
  branched : c'.branched = c.branched
  inDelaySlot : c'.inDelaySlot = c.inDelaySlot
  epc : c'.cop0.epc = c.cop0.epc

namespace Cpu.SameFlow

variable {c c' c'' : Cpu}

theorem refl (c : Cpu) : c.SameFlow c := ⟨rfl, rfl, rfl, rfl, rfl, rfl⟩

theorem trans (h : c.SameFlow c') (h' : c'.SameFlow c'') : c.SameFlow c'' where
  pc := h'.pc.trans h.pc
  nextPc := h'.nextPc.trans h.nextPc
  currentPc := h'.currentPc.trans h.currentPc
  branched := h'.branched.trans h.branched
  inDelaySlot := h'.inDelaySlot.trans h.inDelaySlot
  epc := h'.epc.trans h.epc

end Cpu.SameFlow

/-- A program cannot set the return address. -/
theorem Cop0.write_epc (c : Cop0) (r : Reg) (value : UInt32) : (c.write r value).epc = c.epc := by
  unfold write
  split_ifs with h h h
  · refine c.epc_set ?_ _
    rintro rfl
    revert h
    decide
  · exact c.epc_set (by rw [h]; decide) _
  · exact c.epc_set (by rw [h]; decide) _
  · rfl

namespace Execution

variable {δ : Type}

/-- The address to which a branch goes, if it is taken. -/
def target? (x : Execution δ) : Instruction → Option UInt32
  | .jump target | .jumpLink target => some (jumpTarget x.cpu.currentPc target)
  | .jr rs | .jalr _ rs => some (x.reg rs)
  | .branchEq op rs rt offset =>
    if op.test (x.reg rs) (x.reg rt) then some (branchTarget x.cpu.currentPc offset) else none
  | .branchZero op rs offset =>
    if op.test (x.reg rs) then some (branchTarget x.cpu.currentPc offset) else none
  | .branchSign op _ rs offset =>
    if op.test (x.reg rs) then some (branchTarget x.cpu.currentPc offset) else none
  | _ => none

structure Flows (x : Execution δ) (i : Instruction) (y : Execution δ) : Prop where
  pc : y.cpu.pc = x.cpu.pc
  nextPc : y.cpu.nextPc = (x.target? i).getD x.cpu.nextPc
  currentPc : y.cpu.currentPc = x.cpu.currentPc
  branched : y.cpu.branched = (i.isBranch || x.cpu.branched)
  inDelaySlot : y.cpu.inDelaySlot = x.cpu.inDelaySlot
  epc : y.cpu.cop0.epc = x.cpu.cop0.epc

variable {x y : Execution δ} {i : Instruction}

theorem flows_of_same (h : x.cpu.SameFlow y.cpu) (ht : x.target? i = none)
    (hb : i.isBranch = false) : x.Flows i y where
  pc := h.pc
  nextPc := by rw [ht]; exact h.nextPc
  currentPc := h.currentPc
  branched := by rw [hb]; exact h.branched
  inDelaySlot := h.inDelaySlot
  epc := h.epc

theorem flows_jumpTo {address : UInt32} (h : x.cpu.SameFlow y.cpu) (ht : x.target? i = some address)
    (hb : i.isBranch = true) : x.Flows i (y.jumpTo address) where
  pc := h.pc
  nextPc := by rw [ht]; rfl
  currentPc := h.currentPc
  branched := by rw [hb]; rfl
  inDelaySlot := h.inDelaySlot
  epc := h.epc

theorem flows_branchIf {taken : Bool} {offset : UInt32} (h : x.cpu.SameFlow y.cpu)
    (ht : x.target? i = if taken then some (branchTarget x.cpu.currentPc offset) else none)
    (hb : i.isBranch = true) : x.Flows i (y.branchIf taken offset) := by
  cases taken with
  | true =>
    rw [← h.currentPc] at ht
    exact flows_jumpTo h ht hb
  | false =>
    exact {
      pc := h.pc
      nextPc := by rw [ht]; exact h.nextPc
      currentPc := h.currentPc
      branched := by rw [hb]; rfl
      inDelaySlot := h.inDelaySlot
      epc := h.epc }

/-! ### Nothing wrong -/

theorem sameFlow_setReg (x : Execution δ) (r : Reg) (value : UInt32) :
    x.cpu.SameFlow (x.setReg r value).cpu := by
  unfold setReg Cpu.setReg
  split_ifs
  · exact .refl _
  · exact ⟨rfl, rfl, rfl, rfl, rfl, rfl⟩

theorem sameFlow_issue (x : Execution δ) (r : Reg) (value : UInt32) :
    x.cpu.SameFlow (x.issue r value).cpu := by
  unfold issue
  split_ifs
  · exact .refl _
  · exact .refl _

theorem sameFlow_setChecked {r : Reg} {value : Option UInt32}
    (h : (if value.isSome then none else some Fault.overflow) = none) :
    x.cpu.SameFlow (x.setChecked r value).cpu := by
  cases value with
  | none => cases h
  | some value => exact sameFlow_setReg ..

theorem sameFlow_withUsable {n : CopNumber} {inner : Option Fault}
    {g : Execution δ → Execution δ} (h : x.copFault? n inner = none)
    (hg : inner = none → x.cpu.SameFlow (g x).cpu) : x.cpu.SameFlow (x.withUsable n g).cpu := by
  unfold copFault? at h
  unfold withUsable
  split_ifs at h ⊢ with hn
  exact hg h

theorem sameFlow_withCop2 {n : CopNumber} {inner : Option Fault} {g : Execution δ → Execution δ}
    (h : x.cop2Fault? n inner = none) (hg : inner = none → x.cpu.SameFlow (g x).cpu) :
    x.cpu.SameFlow (x.withCop2 n g).cpu := by
  unfold cop2Fault? at h
  unfold withCop2
  split_ifs at h ⊢ with hn
  exact hg h

theorem sameFlow_moveCop0 {op : CopMove} {rt rd : Reg} (h : x.moveFault? 0 op rd = none) :
    x.cpu.SameFlow (x.moveCop0 op rt rd).cpu := by
  cases op with
  | mfc =>
    unfold moveFault? at h
    unfold moveCop0
    dsimp only at h ⊢
    cases hr : x.cpu.cop0.read? rd with
    | none =>
      rw [hr] at h
      cases h
    | some value => exact sameFlow_issue ..
  | mtc => exact ⟨rfl, rfl, rfl, rfl, rfl, Cop0.write_epc ..⟩
  | cfc | ctc => cases h

theorem sameFlow_moveCop2 (x : Execution δ) (op : CopMove) (rt : Reg) :
    x.cpu.SameFlow (x.moveCop2 op rt).cpu := by
  cases op with
  | mfc | cfc => exact sameFlow_issue ..
  | mtc | ctc => exact .refl _

theorem sameFlow_chargeWrite (x : Execution δ) (address : UInt32) :
    x.cpu.SameFlow (x.chargeWrite address).cpu := by
  unfold chargeWrite
  split_ifs
  · exact .refl _
  · exact .refl _

theorem isValid_of_accessFault {bad : UInt32 → Fault} {address : UInt32} {w : Width}
    (h : x.accessFault? bad address w = none) : x.isValid address w = true := by
  unfold accessFault? at h
  split_ifs at h with hv
  exact hv

theorem addressAllowed_of_sideFault {bad : UInt32 → Fault} {address : UInt32}
    (h : x.sideFault? bad address = none) : x.cpu.addressAllowed (wordOf address) = true := by
  unfold sideFault? at h
  split_ifs at h with ha
  exact ha

theorem isValid_wordOf {address : UInt32} (h : x.cpu.addressAllowed (wordOf address) = true) :
    x.isValid (wordOf address) .word = true := by
  have haligned : wordOf address &&& (Width.word.bytes - 1) = 0 := by
    unfold wordOf
    rw [UInt32.and_assoc, show ~~~(3 : UInt32) &&& (Width.word.bytes - 1) = 0 by decide,
      UInt32.and_zero]
  unfold isValid
  rw [haligned, h]
  rfl

variable [Device δ]

/-- A load that finds nothing wrong has a value. -/
theorem load_of_valid {address : UInt32} {w : Width} (h : x.isValid address w = true) :
    ∃ value y, x.load address w = (some value, y) ∧ x.cpu.SameFlow y.cpu := by
  unfold load
  rw [if_neg (by simpa using h)]
  split_ifs
  · exact ⟨_, _, rfl, .refl _⟩
  · exact ⟨_, _, rfl, .refl _⟩

theorem sameFlow_storeAt (x : Execution δ) (address : UInt32) (w : Width) (value : UInt32) :
    x.cpu.SameFlow (x.storeAt address w value).cpu := by
  unfold storeAt
  split_ifs
  · exact ⟨rfl, rfl, rfl, rfl, rfl, rfl⟩
  · exact .refl _

theorem sameFlow_store {address : UInt32} {w : Width}
    (h : x.accessFault? .badStore address w = none) (value : UInt32) :
    x.cpu.SameFlow (x.store address w value).cpu := by
  unfold store
  rw [if_neg (by simpa using isValid_of_accessFault h)]
  exact (sameFlow_chargeWrite ..).trans (sameFlow_storeAt ..)

theorem sameFlow_loadSide {side : Side} {rt base : Reg} {offset : UInt32}
    (h : x.cpu.addressAllowed (wordOf (x.dataAddress base offset)) = true) :
    x.cpu.SameFlow (x.loadSide side rt base offset).cpu := by
  obtain ⟨value, y, hl, hy⟩ := load_of_valid (isValid_wordOf h)
  unfold loadSide
  dsimp only
  rw [if_neg (by simpa using h), hl]
  exact hy.trans (sameFlow_issue ..)

theorem sameFlow_storeSide {side : Side} {rt base : Reg} {offset : UInt32}
    (h : x.cpu.addressAllowed (wordOf (x.dataAddress base offset)) = true) :
    x.cpu.SameFlow (x.storeSide side rt base offset).cpu := by
  unfold storeSide
  dsimp only
  rw [if_neg (by simpa using h)]
  generalize side.pieces _ = pieces
  have hy := sameFlow_chargeWrite x (wordOf (x.dataAddress base offset))
  revert hy
  generalize x.chargeWrite _ = y
  intro hy
  -- the pieces are stored one by one
  induction pieces generalizing y with
  | nil => exact hy
  | cons piece pieces ih => exact ih _ (hy.trans (sameFlow_storeAt ..))

theorem run_flow (h : x.fault? i = none) : x.Flows i (x.run i) := by
  cases i with
  | jump | jr => exact flows_jumpTo (.refl _) rfl rfl
  | jumpLink | jalr => exact flows_jumpTo (sameFlow_setReg ..) rfl rfl
  | branchEq | branchZero => exact flows_branchIf (.refl _) rfl rfl
  | branchSign op link rs offset =>
    simp only [run]
    refine flows_branchIf ?_ rfl rfl
    split_ifs
    · exact sameFlow_setReg ..
    · exact .refl _
  | nop => exact flows_of_same (.refl _) rfl rfl
  | shift | shiftVar | logic | lui | mfhi | mflo =>
    exact flows_of_same (sameFlow_setReg ..) rfl rfl
  | alu | immediate => exact flows_of_same (sameFlow_setChecked h) rfl rfl
  | mulDiv | mthi | mtlo => exact flows_of_same ⟨rfl, rfl, rfl, rfl, rfl, rfl⟩ rfl rfl
  | load op rt base offset =>
    refine flows_of_same ?_ rfl rfl
    obtain ⟨value, y, hl, hy⟩ := load_of_valid (isValid_of_accessFault h)
    simp only [run, hl]
    exact hy.trans (sameFlow_issue ..)
  | store => exact flows_of_same (sameFlow_store h _) rfl rfl
  | loadSide side rt base offset =>
    exact flows_of_same (sameFlow_loadSide (addressAllowed_of_sideFault h)) rfl rfl
  | storeSide side rt base offset =>
    exact flows_of_same (sameFlow_storeSide (addressAllowed_of_sideFault h)) rfl rfl
  | copLoad n rt base offset =>
    refine flows_of_same ?_ rfl rfl
    simp only [run]
    refine sameFlow_withCop2 h fun hf => ?_
    obtain ⟨value, y, hl, hy⟩ := load_of_valid (isValid_of_accessFault hf)
    rw [hl]
    exact hy
  | copStore n rt base offset =>
    refine flows_of_same ?_ rfl rfl
    simp only [run]
    exact sameFlow_withCop2 h fun hf => sameFlow_store hf _
  | copMove n op rt rd =>
    refine flows_of_same ?_ rfl rfl
    simp only [run]
    refine sameFlow_withUsable h fun hf => ?_
    by_cases hn : n = 0
    · subst hn
      rw [if_pos rfl]
      exact sameFlow_moveCop0 hf
    · rw [if_neg hn]
      exact sameFlow_moveCop2 ..
  | rfe =>
    refine flows_of_same ?_ rfl rfl
    simp only [run]
    exact sameFlow_withUsable h fun _ =>
      ⟨rfl, rfl, rfl, rfl, rfl, x.cpu.cop0.epc_set (by decide) _⟩
  | cop2Command =>
    refine flows_of_same ?_ rfl rfl
    simp only [run]
    exact sameFlow_withUsable h fun _ => .refl _
  | copReserved n word =>
    refine flows_of_same ?_ rfl rfl
    simp only [run]
    exact sameFlow_withUsable h fun hf => by cases hf
  | syscall | «break» | reserved => cases h

end Execution

end Psx
