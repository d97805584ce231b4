import Mathlib.Data.Nat.Bitwise
import Psx.Proofs.Cpu.Delays
import Psx.Proofs.Cpu.Shadow

/-!
# One delay slot

Where a word transfers control is read off its fields (`Encoding.transfer?`), and so is the register
in which it leaves its link (`Encoding.link?`). That is what the processor makes of it
(`Execution.target?_eq`, `Execution.run_links`). Main statement: of three instructions that run one
after the other without an exception, the first decides where the third is, and the third is behind
the second if the first transfers nothing (`Cpu.Run.delay_slot`). What the second does, a branch or
not, has no say in that.
-/

namespace Psx

namespace Encoding

/-! ### Fields -/

/-- So many bits of a word, from one on. -/
def field (word : UInt32) (low size : Nat) : Nat := word.toNat / 2 ^ low % 2 ^ size

/-- A register that a word names. -/
def named (word : UInt32) (low : Nat) : Reg := Fin.ofNat 32 (field word low 5)

/-- A value as a signed number. -/
def signed (value : UInt32) : Int := (value.toNat : Int).bmod (2 ^ 32)

/-- The distance of a branch in words. -/
def displacement (word : UInt32) : Int := (field word 0 16 : Int).bmod (2 ^ 16)

/-- Where a word at an address transfers control, if it does. -/
def transfer? (word address : UInt32) (reg : Reg → UInt32) : Option UInt32 :=
  let rs := reg (named word 21)
  let rt := reg (named word 16)
  let branchIf (taken : Bool) : Option UInt32 :=
    if taken then some (address + 4 + 4 * .ofInt (displacement word)) else none
  match field word 26 6 with
  | 0x00 => if field word 0 6 = 0x08 ∨ field word 0 6 = 0x09 then some rs else none
  | 0x01 => branchIf (if field word 16 1 = 1 then 0 ≤ signed rs else signed rs < 0)
  | 0x02 | 0x03 => some (((address + 4) &&& 0xF0000000) ||| .ofNat (4 * field word 0 26))
  | 0x04 => branchIf (rs = rt)
  | 0x05 => branchIf (rs ≠ rt)
  | 0x06 => branchIf (signed rs ≤ 0)
  | 0x07 => branchIf (0 < signed rs)
  | _ => none

/-- The register in which a word leaves the address behind its delay slot, whether it transfers
control or not. -/
def link? (word : UInt32) : Option Reg :=
  match field word 26 6 with
  | 0x00 => if field word 0 6 = 0x09 then some (named word 11) else none
  | 0x01 => if field word 17 4 = 8 then some 31 else none
  | 0x03 => some 31
  | _ => none

theorem field_lt (word : UInt32) (low size : Nat) : field word low size < 2 ^ size :=
  Nat.mod_lt _ (Nat.two_pow_pos size)

theorem toNat_low {word mask : UInt32} {size : Nat} (hm : mask.toNat = 2 ^ size - 1) :
    (word &&& mask).toNat = field word 0 size := by
  rw [UInt32.toNat_and, hm, Nat.and_two_pow_sub_one_eq_mod]
  unfold field
  rw [Nat.pow_zero, Nat.div_one]

/-- A field is taken out of a word by a shift and a mask. -/
theorem toNat_field {word shift mask : UInt32} {low size : Nat} (hs : shift.toNat % 32 = low)
    (hm : mask.toNat = 2 ^ size - 1) : ((word >>> shift) &&& mask).toNat = field word low size := by
  rw [toNat_low hm]
  unfold field
  rw [UInt32.toNat_shiftRight, hs, Nat.shiftRight_eq_div_pow, Nat.pow_zero, Nat.div_one]

section

variable (word : UInt32)

theorem toNat_opcode : (opcode word).toNat = field word 26 6 := by
  have h := word.toNat_lt
  unfold opcode field
  rw [UInt32.toNat_shiftRight, Nat.shiftRight_eq_div_pow, Nat.mod_eq_of_lt (b := 2 ^ 6) (by omega)]
  rfl

theorem regOf_rs : Instruction.regOf (rs word) = named word 21 :=
  congrArg (Fin.ofNat 32) (toNat_field rfl rfl)

theorem regOf_rt : Instruction.regOf (rt word) = named word 16 :=
  congrArg (Fin.ofNat 32) (toNat_field rfl rfl)

theorem regOf_rd : Instruction.regOf (rd word) = named word 11 :=
  congrArg (Fin.ofNat 32) (toNat_field rfl rfl)

theorem target_eq : target word <<< 2 = .ofNat (4 * field word 0 26) := by
  have ht : (target word).toNat = field word 0 26 := toNat_low rfl
  apply UInt32.toNat_inj.1
  rw [UInt32.toNat_shiftLeft, ht, UInt32.toNat_ofNat', Nat.shiftLeft_eq, Nat.mul_comm]
  rfl

theorem bit_ne_zero {word mask : UInt32} {i : Nat} (hm : mask.toNat = 2 ^ i) :
    (word &&& mask != 0) = decide (field word i 1 = 1) := by
  have h : (word &&& mask).toNat = (word.toNat.testBit i).toNat * 2 ^ i := by
    rw [UInt32.toNat_and, hm, Nat.and_two_pow]
  unfold field
  rw [Nat.pow_one, ← Nat.testBit_eq_decide_div_mod_eq]
  cases hb : word.toNat.testBit i with
  | true =>
    rw [hb] at h
    simp [← UInt32.toNat_inj, h]
  | false =>
    rw [hb] at h
    have h0 : word &&& mask = 0 := UInt32.toNat_inj.1 (by simpa using h)
    rw [h0]
    rfl

theorem toNat_ofInt (x : Int) : (UInt32.ofInt x).toNat = (x % 2 ^ 32).toNat := by
  have h0 := Int.emod_nonneg x (b := 2 ^ 32) (by decide)
  have h := Int.emod_lt_of_pos x (b := 2 ^ 32) (by decide)
  rw [UInt32.ofInt, UInt32.toNat_ofNat_of_lt' (by change _ < 2 ^ 32; omega)]

theorem immSigned_eq : immSigned word = .ofInt (displacement word) := by
  have hi : (imm word).toNat = word.toNat % 2 ^ 16 := by
    rw [imm, UInt32.toNat_and]
    exact Nat.and_two_pow_sub_one_eq_mod _ 16
  have hor : (imm word ||| 0xFFFF0000).toNat = 0xFFFF0000 + word.toNat % 2 ^ 16 := by
    rw [UInt32.toNat_or, hi, Nat.or_comm]
    exact (Nat.two_pow_add_eq_or_of_lt (i := 16) (by omega) 0xFFFF).symm
  unfold immSigned displacement
  rw [@bit_ne_zero word _ 15 rfl]
  apply UInt32.toNat_inj.1
  rw [toNat_ofInt, Int.bmod_def]
  unfold field
  simp only [decide_eq_true_eq]
  split_ifs
  · omega
  · rw [hor]; omega
  · rw [hi]; omega
  · omega

theorem branchOffset_eq : branchOffset word = 4 * .ofInt (displacement word) := by
  unfold branchOffset
  rw [immSigned_eq]
  apply UInt32.toNat_inj.1
  rw [UInt32.toNat_shiftLeft, UInt32.toNat_mul, Nat.shiftLeft_eq, Nat.mul_comm]
  rfl

end

end Encoding

open Encoding

/-- The highest bit tells the sign. -/
theorem signBit_eq (a : UInt32) : signBit a = decide (signed a < 0) := by
  have h := a.toNat_lt
  unfold signBit signed
  rw [@bit_ne_zero a _ 31 rfl, Int.bmod_def]
  unfold field
  apply decide_eq_decide.2
  split_ifs <;> omega

theorem eq_zero_iff_signed (a : UInt32) : a = 0 ↔ signed a = 0 := by
  have h := a.toNat_lt
  rw [← UInt32.toNat_inj, UInt32.toNat_zero]
  unfold signed
  rw [Int.bmod_def]
  split_ifs <;> omega

theorem blez_eq (a : UInt32) : ZeroBranch.blez.test a = decide (signed a ≤ 0) := by
  unfold ZeroBranch.test
  dsimp only
  rw [signBit_eq, beq_eq_decide, ← Bool.decide_or]
  apply decide_eq_decide.2
  rw [eq_zero_iff_signed]
  omega

theorem bgtz_eq (a : UInt32) : ZeroBranch.bgtz.test a = decide (0 < signed a) := by
  have h : ZeroBranch.bgtz.test a = !ZeroBranch.blez.test a := by
    simp [ZeroBranch.test, bne]
  rw [h, blez_eq, ← decide_not]
  apply decide_eq_decide.2
  omega

/-! ### Words that transfer control -/

theorem opcode_of_field {word : UInt32} {n : Nat} (h : field word 26 6 = n) :
    Encoding.opcode word = .ofNat n := by
  rw [← h, ← toNat_opcode, UInt32.ofNat_toNat]

theorem funct_of_field {word : UInt32} {n : Nat} (h : field word 0 6 = n) :
    Encoding.funct word = .ofNat n := by
  have hf : (Encoding.funct word).toNat = field word 0 6 := toNat_low rfl
  rw [← h, ← hf, UInt32.ofNat_toNat]

theorem isBranch_decodeCop (word : UInt32) : (Instruction.decodeCop word).isBranch = false := by
  unfold Instruction.decodeCop
  dsimp only
  split_ifs <;> first | rfl | (split <;> rfl)

theorem isBranch_decodeSpecial {word : UInt32} (h : field word 0 6 ≠ 0x08 ∧ field word 0 6 ≠ 0x09) :
    (Instruction.decodeSpecial word).isBranch = false := by
  have hf : (Encoding.funct word).toNat = field word 0 6 := toNat_low rfl
  rw [← hf] at h
  unfold Instruction.decodeSpecial
  revert h
  generalize Encoding.funct word = funct
  intro h
  dsimp only
  split
  · split <;> rfl
  all_goals first | rfl | exact absurd rfl h.1 | exact absurd rfl h.2

theorem isBranch_decode {word : UInt32} (h : 8 ≤ field word 26 6) :
    (Instruction.decode word).isBranch = false := by
  rw [← toNat_opcode] at h
  unfold Instruction.decode
  revert h
  generalize Encoding.opcode word = op
  intro h
  dsimp only
  split
  all_goals first | rfl | exact isBranch_decodeCop word | exact absurd h (by decide)

namespace Execution

variable {δ : Type}

theorem target?_special (x : Execution δ) (word : UInt32) :
    x.target? (.decodeSpecial word) =
      if field word 0 6 = 0x08 ∨ field word 0 6 = 0x09 then some (x.reg (named word 21))
      else none := by
  split_ifs with h
  · rw [← regOf_rs]
    unfold Instruction.decodeSpecial
    rcases h with h | h <;> rw [funct_of_field h] <;> rfl
  · exact x.target?_of_not_isBranch (isBranch_decodeSpecial (not_or.1 h))

/-- The lowest bit of the register field says which comparison is made. -/
theorem target?_sign (x : Execution δ) (word : UInt32) : x.target? (.decodeSign word) =
    if (if field word 16 1 = 1 then decide (0 ≤ signed (x.reg (named word 21)))
      else decide (signed (x.reg (named word 21)) < 0)) then
      some (branchTarget x.cpu.currentPc (Encoding.branchOffset word))
    else none := by
  have hrt : (Encoding.rt word).toNat = field word 16 5 := toNat_field rfl rfl
  have hbit : (Encoding.rt word &&& 1 != 0) = decide (field word 16 1 = 1) := by
    rw [@bit_ne_zero _ 1 0 rfl]
    unfold field at hrt ⊢
    apply decide_eq_decide.2
    omega
  unfold Instruction.decodeSign target?
  rw [regOf_rs, hbit]
  by_cases h : field word 16 1 = 1
  · simp [h, SignBranch.test, signBit_eq]
  · simp [h, SignBranch.test, signBit_eq]

/-- A branch goes where its word says. -/
theorem target?_eq (x : Execution δ) (word : UInt32) :
    x.target? (.decode word) = transfer? word x.cpu.currentPc x.reg := by
  have hat : x.cpu.currentPc + 4 + 4 * .ofInt (displacement word) =
      branchTarget x.cpu.currentPc (Encoding.branchOffset word) := by
    rw [branchOffset_eq]
    rfl
  unfold transfer?
  dsimp only
  rw [hat, ← target_eq]
  split
  case h_9 =>
    exact x.target?_of_not_isBranch (isBranch_decode (by grind))
  all_goals
    rename_i h
    unfold Instruction.decode
    rw [opcode_of_field h, regOf_rs, regOf_rt]
  · exact target?_special x word
  · exact target?_sign x word
  · rfl
  · rfl
  · simp [target?, EqBranch.test]
  · simp [target?, EqBranch.test]
  · simp [target?, blez_eq]
  · simp [target?, bgtz_eq]

/-! ### Links -/

theorem reg_setReg_self (x : Execution δ) {r : Reg} (value : UInt32) (hr : r ≠ 0) :
    (x.setReg r value).written = r ∧ (x.setReg r value).cpu.reg r = value := by
  unfold setReg Cpu.setReg
  rw [if_neg hr, if_neg hr]
  refine ⟨rfl, ?_⟩
  unfold Cpu.reg
  rw [if_neg hr]
  exact RegisterFile.read_write_self ..

theorem branchIf_links (x : Execution δ) (taken : Bool) (offset : UInt32) (r : Reg) :
    (x.branchIf taken offset).written = x.written ∧
      (x.branchIf taken offset).cpu.reg r = x.cpu.reg r := by
  cases taken <;> exact ⟨rfl, rfl⟩

theorem isLink_eq (word : UInt32) :
    (Encoding.rt word &&& 0x1E == 0x10) = decide (field word 17 4 = 8) := by
  have hrt : (Encoding.rt word).toNat = field word 16 5 := toNat_field rfl rfl
  have hall : ∀ n < 32, (UInt32.ofNat n &&& 0x1E == 0x10) = decide (n / 2 = 8) := by decide
  have hhalf : field word 16 5 / 2 = field word 17 4 := by unfold field; omega
  rw [← hhalf, ← hrt, ← hall _ (hrt ▸ field_lt word 16 5), UInt32.ofNat_toNat]

/-- A link holds the address behind the delay slot. -/
theorem run_links [Device δ] (x : Execution δ) {word : UInt32} {r : Reg} (h : link? word = some r)
    (hr : r ≠ 0) : (x.run (.decode word)).written = r ∧
      (x.run (.decode word)).cpu.reg r = x.cpu.currentPc + 8 := by
  unfold link? at h
  unfold Instruction.decode
  split at h
  case h_4 => cases h
  all_goals
    rename_i hop
    rw [opcode_of_field hop]
  · split_ifs at h with hf
    obtain rfl : named word 11 = r := Option.some_inj.1 h
    change (x.run (Instruction.decodeSpecial word)).written = _ ∧
      (x.run (Instruction.decodeSpecial word)).cpu.reg _ = _
    unfold Instruction.decodeSpecial
    rw [funct_of_field hf, regOf_rd]
    exact x.reg_setReg_self x.linkAddress hr
  · split_ifs at h with hl
    obtain rfl : 31 = r := Option.some_inj.1 h
    change (x.run (Instruction.decodeSign word)).written = _ ∧
      (x.run (Instruction.decodeSign word)).cpu.reg _ = _
    unfold Instruction.decodeSign
    rw [isLink_eq, decide_eq_true hl]
    obtain ⟨hwritten, hreg⟩ := (x.setReg 31 x.linkAddress).branchIf_links _ _ 31
    obtain ⟨hwritten', hreg'⟩ := x.reg_setReg_self x.linkAddress hr
    exact ⟨hwritten.trans hwritten', hreg.trans hreg'⟩
  · obtain rfl : 31 = r := Option.some_inj.1 h
    exact x.reg_setReg_self x.linkAddress hr

end Execution

namespace Cpu

variable {δ : Type} [Device δ] {c : Cpu} {bus : Bus δ}

theorem step_links (h : c.exception? bus = none) {r : Reg}
    (hl : link? (c.fetched bus).1 = some r) (hr : r ≠ 0) :
    (c.step bus).2.1.reg r = c.pc + 8 := by
  obtain ⟨hx, -⟩ := sound_of_exception?_none h
  obtain ⟨hwritten, hreg⟩ := (c.execution bus).run_links hl hr
  rw [show (c.step bus).2.1 = _ from congrArg (·.2.1) (step_executed hx)]
  dsimp only
  rw [reg_settle_eq _ _ _ hr, if_pos (.inl hwritten.symm)]
  refine hreg.trans ?_
  rw [c.execution_cpu bus]
  rfl

theorem target?_execution (c : Cpu) (bus : Bus δ) :
    (c.execution bus).target? (c.instruction bus) = transfer? (c.fetched bus).1 c.pc c.reg := by
  have hcpu := c.execution_cpu bus
  have hreg : (c.execution bus).reg = c.reg := funext fun q => (c.reads_execution bus q).1
  unfold instruction
  rw [Execution.target?_eq, hreg, hcpu]
  rfl

/-- Three instructions that are executed one after the other, without an exception at the first two.
The word at the first decides where the third is, whatever stands between them and whatever came
before: at the target, which is taken from the registers as they were before the first, or behind
the second. A link holds the address behind the one that follows in memory. The second is behind the
first, unless the one before had transferred control. -/
theorem Run.delay_slot {last : Option Branch} (h : Run δ c last) {bus₀ bus₁ : Bus δ}
    (h₀ : c.exception? bus₀ = none) (h₁ : (c.step bus₀).2.1.exception? bus₁ = none) :
    let next := (c.step bus₀).2.1
    let third := (next.step bus₁).2.1
    third.pc = (transfer? (c.fetched bus₀).1 c.pc c.reg).getD (next.pc + 4) ∧
      (∀ r ≠ 0, link? (c.fetched bus₀).1 = some r → next.reg r = c.pc + 8) ∧
      (last.any (·.taken) = false → next.pc = c.pc + 4) := by
  intro next third
  obtain ⟨hx₀, hf₀⟩ := sound_of_exception?_none h₀
  obtain ⟨hx₁, hf₁⟩ := sound_of_exception?_none h₁
  obtain ⟨hpc, hnext, -⟩ := step_of_sound hx₀ hf₀
  refine ⟨?_, fun r hr hl => step_links h₀ hl hr, fun hlast => ?_⟩
  · rw [show third.pc = next.nextPc from (step_of_sound hx₁ hf₁).1, ← target?_execution,
      show next.pc = c.nextPc from hpc]
    exact hnext
  · exact hpc.trans (h.follows.nextPc hlast)

/-- A jump to register 31 that links in register 31, in the delay slot of a jump that links there
as well. It goes where the first link says, and one instruction at the target of the first runs
before. -/
theorem Run.delay_slot_of_jump :
    let bus := holding [0x0FE00004, 0x03E0F809]
    let c := ((Cpu.initial.setPc Address.scratchpadFirst).step bus).2.1
    let next := (c.step bus).2.1
    Run Empty c (some { address := 0x1F800000, taken := true, shadowed := false }) ∧
      c.exception? bus = none ∧ next.exception? bus = none ∧
      c.pc = 0x1F800004 ∧ next.pc = 0x1F800010 ∧ (next.step bus).2.1.pc = 0x1F800008 ∧
      next.reg 31 = 0x1F80000C := by
  intro bus c next
  have hrun : Run Empty c (some { address := 0x1F800000, taken := true, shadowed := false }) := by
    have hb : (Cpu.initial.setPc Address.scratchpadFirst).branch? bus none =
        some { address := 0x1F800000, taken := true, shadowed := false } := by decide +kernel
    rw [← hb]
    exact .step bus (.setPc ..)
  have h₀ : c.exception? bus = none := by decide +kernel
  have h₁ : next.exception? bus = none := by decide +kernel
  obtain ⟨hthird, hlink, -⟩ := hrun.delay_slot h₀ h₁
  exact ⟨hrun, h₀, h₁, by decide +kernel, by decide +kernel, hthird.trans (by decide +kernel),
    (hlink 31 (by decide) (by decide +kernel)).trans (by decide +kernel)⟩

end Cpu

end Psx
