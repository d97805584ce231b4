import Psx.Proofs.Cpu.Precise

/-!
# What an instruction writes

What an instruction writes, and what it issues a load to, is read off its fields
(`Instruction.destination?`, `Instruction.loads?`), and no instruction does both. One that finds
nothing wrong does just that to the registers (`Execution.run_touches`), and one that finds something
wrong touches none (`Execution.quiet_fail`). Nothing else in between does either: that is
`Execution.Quiet`, for each part of an instruction.
-/

namespace Psx

namespace Instruction

/-- The register that an instruction writes directly. -/
def destination? : Instruction → Option Reg
  | .shift _ rd _ _ | .shiftVar _ rd _ _ | .alu _ rd _ _ => some rd
  | .immediate _ rt _ _ | .logic _ rt _ _ | .lui rt _ => some rt
  | .mfhi rd | .mflo rd | .jalr rd _ => some rd
  | .jumpLink _ | .branchSign _ true _ _ => some 31
  | _ => none

/-- The register to which an instruction issues a load. -/
def loads? : Instruction → Option Reg
  | .load _ rt _ _ | .loadSide _ rt _ _ => some rt
  | .copMove _ .mfc rt _ | .copMove _ .cfc rt _ => some rt
  | _ => none

end Instruction

theorem Instruction.destination?_of_loads? {i : Instruction} {r : Reg} (h : i.loads? = some r) :
    i.destination? = none := by
  cases i <;> first | rfl | cases h

namespace Execution

variable {δ : Type} {x y z : Execution δ} {r : Reg}

/-! ### What an instruction touches -/

/-- No register has been written, and no load issued. -/
structure Quiet (x y : Execution δ) : Prop where
  written : y.written = x.written
  issued : y.issued = x.issued
  regs : y.cpu.regs = x.cpu.regs
  delayed : y.cpu.delayed = x.cpu.delayed

theorem Quiet.refl (x : Execution δ) : x.Quiet x := ⟨rfl, rfl, rfl, rfl⟩

theorem Quiet.trans (h : x.Quiet y) (h' : y.Quiet z) : x.Quiet z where
  written := h'.written.trans h.written
  issued := h'.issued.trans h.issued
  regs := h'.regs.trans h.regs
  delayed := h'.delayed.trans h.delayed

/-- A register may have been written, and a load been issued. -/
structure Touches (x : Execution δ) (destination load : Option Reg) (y : Execution δ) : Prop where
  written : y.written = destination.getD 0
  regs : ∀ q, destination ≠ some q → y.cpu.reg q = x.cpu.reg q
  issued : y.issued.map (·.reg) = (load.filter (· ≠ 0)).map fun q : Reg => .ofNat q
  delayed : y.cpu.delayed = x.cpu.delayed

/-- An instruction begins to run. -/
structure Fresh (x : Execution δ) : Prop where
  written : x.written = 0
  issued : x.issued = none

theorem Quiet.touches (h : x.Quiet y) (hx : x.Fresh) : x.Touches none none y where
  written := h.written.trans hx.written
  regs q _ := Cpu.reg_congr h.regs q
  issued := by
    rw [h.issued, hx.issued]
    rfl
  delayed := h.delayed

theorem Touches.trans {d l : Option Reg} (h : x.Touches d l y) (h' : y.Quiet z) :
    x.Touches d l z where
  written := h'.written.trans h.written
  regs q hq := (Cpu.reg_congr h'.regs q).trans (h.regs q hq)
  issued := by
    rw [h'.issued]
    exact h.issued
  delayed := h'.delayed.trans h.delayed

section

variable {d l : Option Reg} {q : Reg}

theorem Touches.eq_written (h : x.Touches d l y) (hq : q ≠ 0) : q = y.written ↔ d = some q := by
  rw [h.written]
  cases d with
  | none => exact iff_of_false hq (by simp)
  | some r => rw [Option.getD_some, Option.some_inj, eq_comm]

theorem Touches.any_issued (h : x.Touches d l y) (hq : q ≠ 0) :
    y.issued.any (·.reg = .ofNat q) = true ↔ l = some q := by
  have hmap : y.issued.any (·.reg = .ofNat q) =
      (y.issued.map (·.reg)).any (· = .ofNat q) := by cases y.issued <;> rfl
  rw [hmap, h.issued]
  cases l with
  | none => exact iff_of_false (by simp) (by simp)
  | some r =>
    rw [Option.some_inj, Option.filter_some]
    by_cases hr : r = 0
    · subst hr
      exact iff_of_false (by simp) (Ne.symm hq)
    · rw [if_pos (by simpa using hr), ← ofNat_inj]
      simp

end

theorem Fresh.setReg (hx : x.Fresh) (r : Reg) (value : UInt32) :
    x.Touches (some r) none (x.setReg r value) := by
  unfold Execution.setReg
  split
  · rename_i hr
    subst hr
    exact ⟨hx.written, fun q _ => rfl, by rw [hx.issued]; rfl, rfl⟩
  · rename_i hr
    refine ⟨rfl, fun q hq => x.cpu.reg_setReg_of_ne value fun h => hq (by rw [h]), ?_, ?_⟩
    · show x.issued.map _ = none
      rw [hx.issued]
      rfl
    · show (x.cpu.setReg r value).delayed = _
      unfold Cpu.setReg
      split <;> rfl

theorem Fresh.issue (hx : x.Fresh) (h : x.Quiet y) (r : Reg) (value : UInt32) :
    x.Touches none (some r) (y.issue r value) := by
  unfold Execution.issue
  split
  · rename_i hr
    subst hr
    exact ⟨h.written.trans hx.written, fun q _ => Cpu.reg_congr h.regs q,
      by rw [h.issued, hx.issued]; rfl, h.delayed⟩
  · rename_i hr
    refine ⟨h.written.trans hx.written, fun q _ => Cpu.reg_congr h.regs q, ?_, h.delayed⟩
    rw [Option.filter_some, if_pos (by simpa using hr)]
    rfl

theorem quiet_fail (x : Execution δ) (f : Fault) : x.Quiet (x.fail f) :=
  have h := x.cpu.entered_fail f
  ⟨rfl, rfl, h.regs, h.delayed⟩

theorem touches_setChecked (hx : x.Fresh) (r : Reg) {value : Option UInt32}
    (h : (if value.isSome then none else some Fault.overflow) = none) :
    x.Touches (some r) none (x.setChecked r value) := by
  cases value with
  | none => cases h
  | some value => exact hx.setReg r value

theorem quiet_chargeWrite (x : Execution δ) (address : UInt32) :
    x.Quiet (x.chargeWrite address) := by
  unfold chargeWrite
  split
  · exact .refl x
  · exact ⟨rfl, rfl, rfl, rfl⟩

theorem quiet_branchIf (x : Execution δ) (taken : Bool) (offset : UInt32) :
    x.Quiet (x.branchIf taken offset) := by
  cases taken <;> exact ⟨rfl, rfl, rfl, rfl⟩

theorem touches_moveCop0 (hx : x.Fresh) {op : CopMove} {rt rd : Reg}
    (h : x.moveFault? 0 op rd = none) :
    x.Touches none (Instruction.copMove 0 op rt rd).loads? (x.moveCop0 op rt rd) := by
  cases op with
  | mfc =>
    unfold moveFault? at h
    unfold moveCop0
    dsimp only at h ⊢
    cases hr : x.cpu.cop0.read? rd with
    | none =>
      rw [hr] at h
      cases h
    | some value => exact hx.issue (.refl x) rt value
  | mtc => exact Quiet.touches ⟨rfl, rfl, rfl, rfl⟩ hx
  | cfc | ctc => cases h

theorem touches_moveCop2 (hx : x.Fresh) (n : CopNumber) (op : CopMove) (rt rd : Reg) :
    x.Touches none (Instruction.copMove n op rt rd).loads? (x.moveCop2 op rt) := by
  cases op with
  | mfc | cfc => exact hx.issue (.refl x) rt 0
  | mtc | ctc => exact (Quiet.refl x).touches hx

theorem touches_withUsable {n : CopNumber} {inner : Option Fault} {d l : Option Reg}
    {g : Execution δ → Execution δ} (h : x.copFault? n inner = none)
    (hg : inner = none → x.Touches d l (g x)) : x.Touches d l (x.withUsable n g) := by
  unfold copFault? at h
  unfold withUsable
  split_ifs at h ⊢
  exact hg h

theorem quiet_withCop2 {n : CopNumber} {inner : Option Fault} {g : Execution δ → Execution δ}
    (h : x.cop2Fault? n inner = none) (hg : inner = none → x.Quiet (g x)) :
    x.Quiet (x.withCop2 n g) := by
  unfold cop2Fault? at h
  unfold withCop2
  split_ifs at h ⊢
  exact hg h

variable [Device δ]

/-- A load from memory that finds nothing wrong touches no register yet. -/
theorem quiet_load {address : UInt32} {w : Width} (h : x.isValid address w = true) :
    ∃ value y, x.load address w = (some value, y) ∧ x.Quiet y := by
  unfold load
  rw [if_neg (by simpa using h)]
  split_ifs
  · exact ⟨_, _, rfl, .refl x⟩
  · exact ⟨_, _, rfl, ⟨rfl, rfl, rfl, rfl⟩⟩

theorem quiet_storeAt (x : Execution δ) (address : UInt32) (w : Width) (value : UInt32) :
    x.Quiet (x.storeAt address w value) := by
  unfold storeAt
  split_ifs
  · exact ⟨rfl, rfl, rfl, rfl⟩
  · exact ⟨rfl, rfl, rfl, rfl⟩

theorem quiet_store {address : UInt32} {w : Width}
    (h : x.accessFault? .badStore address w = none) (value : UInt32) :
    x.Quiet (x.store address w value) := by
  unfold store
  rw [if_neg (by simpa using isValid_of_accessFault h)]
  exact (quiet_chargeWrite ..).trans (quiet_storeAt ..)

theorem quiet_storeSide {side : Side} {rt base : Reg} {offset : UInt32}
    (h : x.cpu.addressAllowed (wordOf (x.dataAddress base offset)) = true) :
    x.Quiet (x.storeSide side rt base offset) := by
  unfold storeSide
  dsimp only
  rw [if_neg (by simpa using h)]
  generalize side.pieces _ = pieces
  have hy := quiet_chargeWrite x (wordOf (x.dataAddress base offset))
  revert hy
  generalize x.chargeWrite _ = y
  intro hy
  -- the pieces are stored one by one
  induction pieces generalizing y with
  | nil => exact hy
  | cons piece pieces ih => exact ih _ (hy.trans (quiet_storeAt ..))

/-- An instruction that finds nothing wrong writes what its fields say, and issues the load that they
say. -/
theorem run_touches (hx : x.Fresh) {i : Instruction} (h : x.fault? i = none) :
    x.Touches i.destination? i.loads? (x.run i) := by
  cases i with
  | shift | shiftVar | logic | lui | mfhi | mflo => exact hx.setReg ..
  | alu | immediate => exact touches_setChecked hx _ h
  | nop | mulDiv | mthi | mtlo | jump | jr => exact Quiet.touches ⟨rfl, rfl, rfl, rfl⟩ hx
  | jumpLink | jalr => exact (hx.setReg ..).trans ⟨rfl, rfl, rfl, rfl⟩
  | branchEq | branchZero => exact (quiet_branchIf ..).touches hx
  | branchSign op link rs offset =>
    cases link with
    | true => exact (hx.setReg ..).trans (quiet_branchIf ..)
    | false => exact (quiet_branchIf ..).touches hx
  | load op rt base offset =>
    obtain ⟨value, y, hl, hy⟩ := quiet_load (isValid_of_accessFault h)
    simp only [run, hl]
    exact hx.issue hy rt _
  | store => exact (quiet_store h _).touches hx
  | loadSide side rt base offset =>
    have ha := addressAllowed_of_sideFault h
    obtain ⟨value, y, hl, hy⟩ := quiet_load (isValid_wordOf ha)
    simp only [run, loadSide]
    rw [if_neg (by simpa using ha), hl]
    exact hx.issue hy rt _
  | storeSide => exact (quiet_storeSide (addressAllowed_of_sideFault h)).touches hx
  | copLoad n rt base offset =>
    simp only [run]
    refine (quiet_withCop2 h fun hf => ?_).touches hx
    obtain ⟨value, y, hl, hy⟩ := quiet_load (isValid_of_accessFault hf)
    rw [hl]
    exact hy
  | copStore n rt base offset =>
    simp only [run]
    exact (quiet_withCop2 h fun hf => quiet_store hf _).touches hx
  | copMove n op rt rd =>
    simp only [run]
    refine touches_withUsable h fun hf => ?_
    by_cases hn : n = 0
    · subst hn
      rw [if_pos rfl]
      exact touches_moveCop0 hx hf
    · rw [if_neg hn]
      exact touches_moveCop2 hx n op rt rd
  | rfe | cop2Command =>
    simp only [run]
    exact touches_withUsable h fun _ => Quiet.touches ⟨rfl, rfl, rfl, rfl⟩ hx
  | copReserved n word =>
    simp only [run]
    exact touches_withUsable h fun hf => by cases hf
  | syscall | «break» | reserved => cases h

end Execution

end Psx
