import Mathlib.Tactic.SplitIfs
import Psx.Cpu.Step

/-!
# Registers and the load in flight

What a load that takes effect, and what an instruction that ends, does to each register. The load in
flight is looked at through `Cpu.loadTo?`: behind an instruction a register holds what that brings,
unless the instruction wrote the register or issued another load to it (`Cpu.reg_settle_eq`).
-/

namespace Psx

/-! ### Registers -/

theorem ofNat_eq_iff {b : UInt8} {q : Reg} : b = .ofNat q ↔ b.toNat = q := by
  have hq := q.isLt
  rw [← UInt8.toNat_inj, UInt8.toNat_ofNat', Nat.mod_eq_of_lt (by omega)]

theorem ofNat_inj {q r : Reg} : UInt8.ofNat r = .ofNat q ↔ r = q := by
  have hr := r.isLt
  rw [ofNat_eq_iff, UInt8.toNat_ofNat', Nat.mod_eq_of_lt (by omega), Fin.ext_iff]

namespace RegisterFile

theorem read_write_of_ne (f : RegisterFile) {r q : Reg} (value : UInt32) (h : r ≠ q) :
    (f.write r value).read q = f.read q := by
  unfold write read
  rw [Fin.getElem_fin, Fin.getElem_fin, Vector.getElem_set_ne]
  exact fun he => h (Fin.ext he)

theorem read_write_self (f : RegisterFile) (r : Reg) (value : UInt32) :
    (f.write r value).read r = value := by
  unfold write read
  rw [Fin.getElem_fin, Vector.getElem_set_self]

end RegisterFile

namespace Cpu

theorem reg_setReg_of_ne (c : Cpu) {r q : Reg} (value : UInt32) (h : r ≠ q) :
    (c.setReg r value).reg q = c.reg q := by
  unfold setReg
  split
  · rfl
  · unfold reg
    dsimp only
    rw [RegisterFile.read_write_of_ne _ _ h]

variable {c c' : Cpu}

/-! ### What a load leaves alone -/

theorem finishLoad_eq (c : Cpu) (load : DelayedLoad) :
    c.finishLoad load = { c with regs := (c.finishLoad load).regs } := by
  unfold finishLoad
  split_ifs <;> rfl

theorem settle_eq (c : Cpu) (written : Reg) (issued : Option DelayedLoad) :
    c.settle written issued =
      { c with regs := (c.settle written issued).regs, delayed := issued } := by
  unfold settle
  split
  · rfl
  · split_ifs
    · rfl
    · rw [finishLoad_eq]

theorem retireLoad_eq (c : Cpu) :
    c.retireLoad = { c with regs := c.retireLoad.regs, delayed := none } := by
  unfold retireLoad
  split
  · rename_i hd
    rw [← hd]
  · rw [finishLoad_eq]

theorem reg_congr (h : c'.regs = c.regs) (r : Reg) : c'.reg r = c.reg r := by
  unfold reg
  rw [h]

theorem finishLoad_congr (h : c'.regs = c.regs) (load : DelayedLoad) :
    (c'.finishLoad load).regs = (c.finishLoad load).regs := by
  unfold finishLoad
  split_ifs
  · dsimp only
    rw [h]
  · exact h

theorem retireLoad_congr (hr : c'.regs = c.regs) (hd : c'.delayed = c.delayed) :
    c'.retireLoad.regs = c.retireLoad.regs := by
  unfold retireLoad
  rw [hd]
  cases c.delayed with
  | none => exact hr
  | some load =>
    have hr' : ({ c' with delayed := none } : Cpu).regs = ({ c with delayed := none } : Cpu).regs :=
      hr
    exact finishLoad_congr hr' load

/-! ### Loads that take effect -/

/-- The value of the load in flight to a register, if there is one. -/
def loadTo? (c : Cpu) (r : Reg) : Option UInt32 :=
  (c.delayed.filter (·.reg = .ofNat r)).map (·.value)

theorem reg_finishLoad (c : Cpu) (load : DelayedLoad) {q : Reg} (hq : q ≠ 0) :
    (c.finishLoad load).reg q = if load.reg = .ofNat q then load.value else c.reg q := by
  unfold finishLoad
  split_ifs with hlt hr hr
  · have heq : (⟨load.reg.toNat, hlt⟩ : Reg) = q := Fin.ext (ofNat_eq_iff.1 hr)
    rw [heq, reg, if_neg hq]
    exact RegisterFile.read_write_self ..
  · have hne : (⟨load.reg.toNat, hlt⟩ : Reg) ≠ q := fun h => hr (ofNat_eq_iff.2 (congrArg Fin.val h))
    unfold reg
    dsimp only
    rw [RegisterFile.read_write_of_ne _ _ hne]
  · exact absurd (ofNat_eq_iff.1 hr ▸ q.isLt) hlt
  · rfl

theorem loadTo?_of_none {c : Cpu} (h : c.delayed = none) (q : Reg) : c.loadTo? q = none := by
  unfold loadTo?
  rw [h]
  rfl

theorem loadTo?_of_some {c : Cpu} {load : DelayedLoad} (h : c.delayed = some load) (q : Reg) :
    c.loadTo? q = if load.reg = .ofNat q then some load.value else none := by
  unfold loadTo?
  rw [h, Option.filter_some]
  by_cases hr : load.reg = .ofNat q
  · rw [if_pos hr, if_pos (by simpa using hr)]
    rfl
  · rw [if_neg hr, if_neg (by simpa using hr)]
    rfl

theorem reg_retireLoad (c : Cpu) {q : Reg} (hq : q ≠ 0) :
    c.retireLoad.reg q = (c.loadTo? q).getD (c.reg q) := by
  unfold retireLoad
  cases hd : c.delayed with
  | none => rw [loadTo?_of_none hd, Option.getD_none]
  | some load =>
    dsimp only
    rw [reg_finishLoad _ _ hq, loadTo?_of_some hd]
    split_ifs <;> rfl

theorem isSuperseded_iff {load : DelayedLoad} {q : Reg} (h : load.reg = .ofNat q) (written : Reg)
    (issued : Option DelayedLoad) : isSuperseded load written issued = true ↔
      q = written ∨ issued.any (·.reg = .ofNat q) = true := by
  have hw : load.reg = .ofNat written ↔ q = written := by
    rw [ofNat_eq_iff, ofNat_eq_iff.1 h, Fin.ext_iff]
  unfold isSuperseded
  rw [Bool.or_eq_true, beq_iff_eq, hw, h]
  rfl

/-- Behind an instruction a register holds what the load in flight brings, unless the instruction
wrote it or issued another load to it. -/
theorem reg_settle_eq (c : Cpu) (written : Reg) (issued : Option DelayedLoad) {q : Reg} (hq : q ≠ 0) :
    (c.settle written issued).reg q =
      if q = written ∨ issued.any (·.reg = .ofNat q) = true then c.reg q
      else (c.loadTo? q).getD (c.reg q) := by
  unfold settle
  cases hd : c.delayed with
  | none =>
    rw [loadTo?_of_none hd, Option.getD_none, ite_self]
    rfl
  | some load =>
    dsimp only
    rw [loadTo?_of_some hd]
    by_cases hr : load.reg = .ofNat q
    · rw [if_pos hr, Option.getD_some]
      by_cases hs : isSuperseded load written issued = true
      · rw [if_pos hs, if_pos ((isSuperseded_iff hr ..).1 hs)]
        rfl
      · rw [if_neg hs, if_neg (mt (isSuperseded_iff hr ..).2 hs), reg_finishLoad _ _ hq, if_pos hr]
    · rw [if_neg hr, Option.getD_none, ite_self]
      split_ifs
      · rfl
      · rw [reg_finishLoad _ _ hq, if_neg hr]
        rfl

/-- A load that nothing supersedes takes effect. -/
theorem reg_settle (hr : c'.regs = c.regs) (hd : c'.delayed = c.delayed) (r : Reg) :
    (c'.settle 0 none).reg r = c.retireLoad.reg r := by
  by_cases h0 : r = 0
  · subst h0
    rfl
  · have hload : c'.loadTo? r = c.loadTo? r := by
      unfold loadTo?
      rw [hd]
    rw [reg_settle_eq _ _ _ h0, reg_retireLoad _ h0, hload, reg_congr hr, if_neg (by simpa using h0)]

end Cpu

end Psx
