import Psx.Proofs.Checked.Instructions
import Psx.Proofs.Cpu.DelaySlot

/-!
# Products and quotients

HI and LO as numbers. A product is exact, because two words are wide enough for it
(`MulDivOp.product_eq`). A quotient is rounded toward zero and the remainder goes with the dividend;
the words are those of the two numbers also where the quotient does not fit, so that one statement
holds of all operands but a zero divisor (`Encoding.Divided.of_tdiv`). Main statement: whatever the
registers hold, that is what a step leaves behind that executes one of the four operations, and no
operation on which a host could trap fails on the way (`Cpu.step_exact`).
-/

namespace Psx

namespace Encoding

/-! ### Words as numbers -/

theorem signed_eq_toInt (v : UInt32) : signed v = v.toInt32.toInt :=
  (BitVec.toInt_eq_toNat_bmod v.toBitVec).symm

theorem ofInt_signed (v : UInt32) : UInt32.ofInt (signed v) = v := by
  have h := v.toNat_lt
  apply UInt32.toNat_inj.1
  rw [toNat_ofInt]
  unfold signed
  rw [show (2 : Int) ^ 32 = ((2 ^ 32 : Nat) : Int) from rfl, Int.bmod_emod]
  omega

theorem ofInt_unsigned (v : UInt32) : UInt32.ofInt (v.toNat : Int) = v := by
  have h := v.toNat_lt
  apply UInt32.toNat_inj.1
  rw [toNat_ofInt]
  omega

theorem signed_ofInt (n : Int) : signed (.ofInt n) = n.bmod (2 ^ 32) := by
  have h0 := Int.emod_nonneg n (b := 2 ^ 32) (by decide)
  unfold signed
  rw [toNat_ofInt, Int.toNat_of_nonneg h0]
  exact Int.emod_bmod n (2 ^ 32)

theorem signed_inj {v v' : UInt32} (h : signed v = signed v') : v = v' := by
  rw [← ofInt_signed v, h, ofInt_signed]

/-! ### Division -/

/-- HI and LO hold the remainder and the quotient of two words, which are taken for numbers. -/
structure Divided (number : UInt32 → Int) (a b hi lo : UInt32) : Prop where
  /-- The dividend, as a sum in words. -/
  back : b ≠ 0 → lo * b + hi = a
  small : b ≠ 0 → (number hi).natAbs < (number b).natAbs
  sign : b ≠ 0 → hi = 0 ∨ (number hi).sign = (number a).sign
  quotient : b ≠ 0 → lo = .ofInt ((number a).tdiv (number b))
  byZero : b = 0 → hi = a ∧ lo = if number a < 0 then 1 else 0xFFFFFFFF

/-- All follows if the words are those of the quotient and of the remainder. -/
theorem Divided.of_tdiv {number : UInt32 → Int} (hn : ∀ v, UInt32.ofInt (number v) = v)
    {a b hi lo : UInt32} (hb : b ≠ 0) (hlo : lo = .ofInt ((number a).tdiv (number b)))
    (hhi : number hi = (number a).tmod (number b)) : Divided number a b hi lo := by
  have hdivisor : number b ≠ 0 := fun h0 => hb (by rw [← hn b, h0]; rfl)
  refine ⟨fun _ => ?_, fun _ => ?_, fun _ => ?_, fun _ => hlo, fun h0 => absurd h0 hb⟩
  · calc lo * b + hi
        = .ofInt ((number a).tdiv (number b) * number b + (number a).tmod (number b)) := by
          rw [UInt32.ofInt_add, UInt32.ofInt_mul, hn b, ← hlo, ← hhi, hn hi]
      _ = a := by rw [Int.tdiv_mul_add_tmod, hn]
  · rw [hhi, Int.natAbs_tmod]
    exact Nat.mod_lt _ (Int.natAbs_pos.2 hdivisor)
  · by_cases hdvd : number b ∣ number a
    · left
      rw [← hn hi, hhi, Int.tmod_eq_zero_of_dvd hdvd]
      rfl
    · right
      rw [hhi, Int.sign_tmod, if_neg hdvd]

theorem divided_unsigned (a b : UInt32) :
    Divided (fun v => v.toNat) a b (unsignedDivide a b).1 (unsignedDivide a b).2 := by
  unfold unsignedDivide
  by_cases hb : b = 0
  · rw [if_pos hb]
    exact ⟨fun h => absurd hb h, fun h => absurd hb h, fun h => absurd hb h, fun h => absurd hb h,
      fun _ => ⟨rfl, (if_neg (Int.not_lt.2 (Int.natCast_nonneg _))).symm⟩⟩
  · rw [if_neg hb]
    refine .of_tdiv ofInt_unsigned hb ?_ ?_
    · dsimp only
      rw [← Int.ofNat_tdiv, ← UInt32.toNat_div, ofInt_unsigned]
    · dsimp only
      rw [UInt32.toNat_mod]
      exact Int.ofNat_tmod ..

theorem divided_signed (a b : UInt32) :
    Divided signed a b (signedDivide a b).1 (signedDivide a b).2 := by
  unfold signedDivide
  by_cases hb : b = 0
  · rw [if_pos hb]
    exact ⟨fun h => absurd hb h, fun h => absurd hb h, fun h => absurd hb h, fun h => absurd hb h,
      fun _ => ⟨rfl, by rw [signBit_eq]; simp⟩⟩
  rw [if_neg hb]
  by_cases hmin : a = 0x80000000 ∧ b = 0xFFFFFFFF
  · -- the one quotient that does not fit in a word
    obtain ⟨rfl, rfl⟩ := hmin
    rw [if_pos ⟨rfl, rfl⟩]
    exact .of_tdiv ofInt_signed hb (by decide) (by decide)
  · rw [if_neg hmin]
    refine .of_tdiv ofInt_signed hb (signed_inj ?_) ?_
    · rw [signed_ofInt, signed_eq_toInt a, signed_eq_toInt b, ← Int32.toInt_div]
      exact signed_eq_toInt _
    · rw [signed_eq_toInt a, signed_eq_toInt b, ← Int32.toInt_mod]
      exact signed_eq_toInt _

end Encoding

open Encoding

namespace MulDivOp

/-- What selects the operation within the first opcode. -/
def code : MulDivOp → Nat
  | mult => 0x18
  | multu => 0x19
  | div => 0x1A
  | divu => 0x1B

/-- A word as the number that the operation takes it for. -/
def number : MulDivOp → UInt32 → Int
  | mult | div => signed
  | multu | divu => fun v => v.toNat

/-- HI and LO hold what the operation makes of two numbers. -/
def Exact (op : MulDivOp) (a b hi lo : UInt32) : Prop :=
  match op with
  | mult | multu => op.number hi * 2 ^ 32 + lo.toNat = op.number a * op.number b
  | div | divu => Divided op.number a b hi lo

/-! ### Multiplication -/

theorem split_toNat (p : UInt64) :
    (split p).1.toNat = p.toNat / 2 ^ 32 ∧ (split p).2.toNat = p.toNat % 2 ^ 32 := by
  have hp := p.toNat_lt
  refine ⟨?_, UInt64.toNat_toUInt32 p⟩
  show (p >>> 32).toUInt32.toNat = _
  rw [UInt64.toNat_toUInt32, UInt64.toNat_shiftRight, Nat.shiftRight_eq_div_pow]
  show p.toNat / 2 ^ 32 % 2 ^ 32 = _
  omega

/-- The two words of a number of 64 bits with a sign. -/
theorem split_signed (p : Int64) :
    signed (split p.toUInt64).1 * 2 ^ 32 + (split p.toUInt64).2.toNat = p.toInt := by
  have hlt := p.toUInt64.toNat_lt
  obtain ⟨hhi, hlo⟩ := split_toNat p.toUInt64
  have hp : p.toInt = (p.toUInt64.toNat : Int).bmod (2 ^ 64) := BitVec.toInt_eq_toNat_bmod _
  unfold signed
  rw [hhi, hlo, hp, Int.bmod_def, Int.bmod_def]
  split_ifs <;> omega

theorem exact_mult (a b : UInt32) :
    mult.Exact a b (mult.eval a b).1 (mult.eval a b).2 := by
  have hle : (a.toInt32.toInt * b.toInt32.toInt).natAbs ≤ 2 ^ 31 * 2 ^ 31 := by
    rw [Int.natAbs_mul]
    exact Nat.mul_le_mul (natAbs_toInt_le _) (natAbs_toInt_le _)
  calc signed (mult.eval a b).1 * 2 ^ 32 + (mult.eval a b).2.toNat
      = (a.toInt32.toInt64 * b.toInt32.toInt64).toInt := split_signed _
    _ = a.toInt32.toInt * b.toInt32.toInt := by
      rw [Int64.toInt_mul, Int32.toInt_toInt64, Int32.toInt_toInt64]
      exact Int.bmod_eq_of_le (by omega) (by omega)
    _ = signed a * signed b := by rw [signed_eq_toInt, signed_eq_toInt]

theorem exact_multu (a b : UInt32) :
    multu.Exact a b (multu.eval a b).1 (multu.eval a b).2 := by
  have hlt : a.toNat * b.toNat < 2 ^ 64 :=
    calc a.toNat * b.toNat < 2 ^ 32 * 2 ^ 32 := Nat.mul_lt_mul'' a.toNat_lt b.toNat_lt
      _ = 2 ^ 64 := by decide
  have hfits : (a.toUInt64 * b.toUInt64).toNat = a.toNat * b.toNat := by
    rw [UInt64.toNat_mul, UInt32.toNat_toUInt64, UInt32.toNat_toUInt64, Nat.mod_eq_of_lt hlt]
  obtain ⟨hhi, hlo⟩ := split_toNat (a.toUInt64 * b.toUInt64)
  show ((split (a.toUInt64 * b.toUInt64)).1.toNat : Int) * 2 ^ 32
    + (split (a.toUInt64 * b.toUInt64)).2.toNat = a.toNat * b.toNat
  rw [hhi, hlo, hfits]
  have hwords := Nat.div_add_mod (a.toNat * b.toNat) (2 ^ 32)
  push_cast at hwords ⊢
  omega

theorem exact_eval (op : MulDivOp) (a b : UInt32) :
    op.Exact a b (op.eval a b).1 (op.eval a b).2 := by
  cases op with
  | mult => exact exact_mult a b
  | multu => exact exact_multu a b
  | div => exact divided_signed a b
  | divu => exact divided_unsigned a b

end MulDivOp

theorem Instruction.decode_mulDiv {word : UInt32} {op : MulDivOp} (h : field word 26 6 = 0)
    (hop : field word 0 6 = op.code) :
    decode word = .mulDiv op (named word 21) (named word 16) := by
  unfold decode
  rw [opcode_of_field h]
  change decodeSpecial word = _
  unfold decodeSpecial
  rw [funct_of_field hop, regOf_rs, regOf_rt]
  cases op <;> rfl

namespace Cpu

variable {δ : Type} [Device δ] {c : Cpu} {bus : Bus δ}

/-- Behind a step that executes one of the four operations, HI and LO hold the exact product, or
the quotient and the remainder, of what the two registers held, for all that they can hold. The
operation raises no exception, and it computes nothing that does not fit on the way. -/
theorem step_exact (hx : c.executes bus = true) {op : MulDivOp}
    (h : field (c.fetched bus).1 26 6 = 0) (hop : field (c.fetched bus).1 0 6 = op.code) :
    let a := c.reg (named (c.fetched bus).1 21)
    let b := c.reg (named (c.fetched bus).1 16)
    let after := (c.step bus).2.1
    op.eval! a b = some (after.hi, after.lo) ∧ op.Exact a b after.hi after.lo ∧
      c.exception? bus = none := by
  intro a b after
  have hi : c.instruction bus = .mulDiv op (named (c.fetched bus).1 21)
      (named (c.fetched bus).1 16) := Instruction.decode_mulDiv h hop
  have hafter : (after.hi, after.lo) = op.eval a b := by
    have hreg : ∀ r, (c.execution bus).reg r = c.reg r := fun r => (c.reads_execution bus r).1
    rw [show after = _ from congrArg (·.2.1) (step_executed hx), hi]
    dsimp only
    rw [settle_eq]
    show op.eval ((c.execution bus).reg _) ((c.execution bus).reg _) = op.eval a b
    rw [hreg, hreg]
  refine ⟨?_, ?_, ?_⟩
  · rw [hafter, MulDivOp.eval!_eq]
  · obtain ⟨hhi, hlo⟩ := Prod.mk.inj hafter
    rw [hhi, hlo]
    exact op.exact_eval a b
  · rw [exception?_of_executes hx, fault?, if_pos hx, hi]
    rfl

/-- The quotient that does not fit: the least number over -1. -/
theorem step_exact_least :
    let c := ((Cpu.initial.setPc Address.scratchpadFirst).setReg 1 0x80000000).setReg 2 0xFFFFFFFF
    let bus := holding [0x0022001A]
    c.executes bus = true ∧ field (c.fetched bus).1 26 6 = 0 ∧
      field (c.fetched bus).1 0 6 = MulDivOp.div.code ∧
      (c.step bus).2.1.lo * 0xFFFFFFFF + (c.step bus).2.1.hi = 0x80000000 ∧
      (c.step bus).2.1.lo = .ofInt ((-2 ^ 31 : Int).tdiv (-1)) ∧
      (signed (c.step bus).2.1.hi).natAbs < 1 ∧ c.exception? bus = none := by
  intro c bus
  have hx : c.executes bus = true := by decide +kernel
  have hf : field (c.fetched bus).1 26 6 = 0 := by decide +kernel
  have hop : field (c.fetched bus).1 0 6 = MulDivOp.div.code := by decide +kernel
  have ha : c.reg (named (c.fetched bus).1 21) = 0x80000000 := by decide +kernel
  have hb : c.reg (named (c.fetched bus).1 16) = 0xFFFFFFFF := by decide +kernel
  obtain ⟨-, hexact, he⟩ := step_exact hx hf hop
  rw [ha, hb] at hexact
  change Divided signed _ _ _ _ at hexact
  have hleast : signed 0x80000000 = -2 ^ 31 := by decide
  have hminus : signed 0xFFFFFFFF = -1 := by decide
  have hquotient := hexact.quotient (by decide)
  have hsmall := hexact.small (by decide)
  rw [hleast, hminus] at hquotient
  rw [hminus] at hsmall
  exact ⟨hx, hf, hop, hexact.back (by decide), hquotient, hsmall, he⟩

end Cpu

end Psx
