import Mathlib.Tactic.SplitIfs
import Psx.Cpu.Arithmetic
import Psx.Cpu.Cache
import Psx.Cpu.Cop0
import Psx.Proofs.Checked.Operations
import Psx.Proofs.Memory.Region

/-!
# Instructions, checked

What an instruction computes before it touches the session: the fields of its word, shifts,
products and quotients, the lanes of an unaligned store, and the line of the cache that an address
names. The amount of a shift is a field of five bits, a product of two words fits in two, and the
quotients that do not exist are asked for first.
-/

namespace Psx

namespace Checked

/-! ### Wide and signed numbers -/

def mul64 (a b : UInt64) : Option UInt64 :=
  if a.toNat * b.toNat < 2 ^ 64 then some (a * b) else none

def signedMul64 (a b : Int64) : Option Int64 :=
  if -2 ^ 63 ≤ a.toInt * b.toInt ∧ a.toInt * b.toInt < 2 ^ 63 then some (a * b) else none

def div32 (a b : UInt32) : Option UInt32 := if b = 0 then none else some (a / b)

def mod32 (a b : UInt32) : Option UInt32 := if b = 0 then none else some (a % b)

/-- The one quotient that does not fit is the least number over -1. -/
def signedDiv32 (a b : Int32) : Option Int32 :=
  if b = 0 ∨ (a = Int32.minValue ∧ b = -1) then none else some (a / b)

def signedMod32 (a b : Int32) : Option Int32 :=
  if b = 0 ∨ (a = Int32.minValue ∧ b = -1) then none else some (a % b)

end Checked

open Checked

/-! ### Fields -/

theorem Encoding.toNat_and_lt (w : UInt32) : (w &&& 0x1F).toNat < 32 := by
  rw [UInt32.toNat_and]
  exact Nat.lt_succ_of_le Nat.and_le_right

namespace Instruction

open Encoding

def regOf! (field : UInt32) : Option Reg := index 32 field.toNat

def copOf! (field : UInt32) : Option CopNumber := index 4 field.toNat

theorem regOf!_eq {field : UInt32} (h : field.toNat < 32) : regOf! field = some (regOf field) := by
  rw [regOf!, index_eq h]
  exact congrArg some (Fin.ext (Nat.mod_eq_of_lt h).symm)

theorem copOf!_eq {field : UInt32} (h : field.toNat < 4) : copOf! field = some (copOf field) := by
  rw [copOf!, index_eq h]
  exact congrArg some (Fin.ext (Nat.mod_eq_of_lt h).symm)

/-- The fields that name registers are looked up in tables of as many registers. -/
def decode! (w : UInt32) : Option Instruction := do
  let _ ← regOf! (rs w)
  let _ ← regOf! (rt w)
  let _ ← regOf! (rd w)
  let _ ← copOf! (coprocessor w)
  pure (decode w)

@[simp] theorem decode!_eq (w : UInt32) : decode! w = some (decode w) := by
  have hcop : (coprocessor w).toNat < 4 := by
    rw [coprocessor, UInt32.toNat_and]
    exact Nat.lt_succ_of_le Nat.and_le_right
  have hreg : ∀ w : UInt32, regOf! (w &&& 0x1F) = some (regOf (w &&& 0x1F)) :=
    fun w => regOf!_eq (toNat_and_lt w)
  unfold decode! rs rt rd
  rw [hreg, hreg, hreg, copOf!_eq hcop]
  rfl

variable {w : UInt32} {op : ShiftOp} {rd rt : Reg} {amount : UInt32}

theorem decodeSpecial_shift (h : decodeSpecial w = .shift op rd rt amount) : amount = shamt w := by
  unfold decodeSpecial at h
  dsimp only at h
  split at h
  case h_1 =>
    split at h
    · cases h
    · cases h
      rfl
  all_goals first | (cases h; rfl) | cases h

/-- An amount by which a word is shifted comes from the field for it. -/
theorem decode_shift (h : decode w = .shift op rd rt amount) : amount = shamt w := by
  unfold decode at h
  split at h
  case h_1 => exact decodeSpecial_shift h
  all_goals first | cases h | skip
  -- what is left are the coprocessors
  all_goals
    unfold decodeCop at h
    dsimp only at h
    split_ifs at h
    split at h <;> cases h

theorem amount_lt (h : decode w = .shift op rd rt amount) : amount < 32 := by
  rw [decode_shift h]
  exact UInt32.lt_iff_toNat_lt.2 (toNat_and_lt _)

end Instruction

/-! ### Arithmetic -/

/-- Nothing is masked here: the amount must be one by which a word can be shifted. -/
def ShiftOp.eval! (a amount : UInt32) : ShiftOp → Option UInt32
  | sll => shl32 a amount
  | srl => shr32 a amount
  | sra => if amount < 32 then some (a.toInt32 >>> amount.toInt32).toUInt32 else none

theorem and_five_of_lt {amount : UInt32} (h : amount < 32) : amount &&& 0x1F = amount := by
  apply UInt32.toNat_inj.1
  rw [UInt32.toNat_and]
  exact (Nat.and_two_pow_sub_one_eq_mod _ 5).trans (Nat.mod_eq_of_lt (UInt32.lt_iff_toNat_lt.1 h))

theorem ShiftOp.eval!_eq (op : ShiftOp) (a : UInt32) {amount : UInt32} (h : amount < 32) :
    op.eval! a amount = some (op.eval a amount) := by
  cases op with
  | sll => rw [eval!, shl32_eq h, eval, and_five_of_lt h]
  | srl => rw [eval!, shr32_eq h, eval, and_five_of_lt h]
  | sra => rw [eval!, if_pos h, eval, and_five_of_lt h]

def signedDivide! (a b : UInt32) : Option (UInt32 × UInt32) := do
  if b = 0 then pure (a, if signBit a then 1 else 0xFFFFFFFF)
  else if a = 0x80000000 ∧ b = 0xFFFFFFFF then pure (0, 0x80000000)
  else
    let quotient ← signedDiv32 a.toInt32 b.toInt32
    let remainder ← signedMod32 a.toInt32 b.toInt32
    pure (remainder.toUInt32, quotient.toUInt32)

def unsignedDivide! (a b : UInt32) : Option (UInt32 × UInt32) := do
  if b = 0 then pure (a, 0xFFFFFFFF) else pure (← mod32 a b, ← div32 a b)

def MulDivOp.eval! (a b : UInt32) : MulDivOp → Option (UInt32 × UInt32)
  | mult => do pure (split (← signedMul64 a.toInt32.toInt64 b.toInt32.toInt64).toUInt64)
  | multu => do pure (split (← mul64 a.toUInt64 b.toUInt64))
  | div => signedDivide! a b
  | divu => unsignedDivide! a b

section

variable (a b : UInt32)

theorem signedDivide!_eq : signedDivide! a b = some (signedDivide a b) := by
  unfold signedDivide! signedDivide
  by_cases hb : b = 0
  · rw [if_pos hb, if_pos hb]
    rfl
  rw [if_neg hb, if_neg hb]
  split_ifs with hmin
  · rfl
  · have hno : ¬(b.toInt32 = 0 ∨ (a.toInt32 = Int32.minValue ∧ b.toInt32 = -1)) := by
      rintro (h | ⟨ha, h⟩)
      · exact hb (congrArg Int32.toUInt32 h)
      · exact hmin ⟨congrArg Int32.toUInt32 ha, congrArg Int32.toUInt32 h⟩
    rw [signedDiv32, signedMod32, if_neg hno, if_neg hno]
    rfl

theorem unsignedDivide!_eq : unsignedDivide! a b = some (unsignedDivide a b) := by
  unfold unsignedDivide! unsignedDivide
  split_ifs with hb
  · rfl
  · rw [mod32, div32, if_neg hb, if_neg hb]
    rfl

theorem natAbs_toInt_le (x : Int32) : x.toInt.natAbs ≤ 2 ^ 31 := by
  have hlow := x.le_toInt
  have hhigh := x.toInt_lt
  omega

theorem signedMul64_eq :
    signedMul64 a.toInt32.toInt64 b.toInt32.toInt64 = some (a.toInt32.toInt64 * b.toInt32.toInt64) := by
  refine if_pos ?_
  rw [Int32.toInt_toInt64, Int32.toInt_toInt64]
  have habs : (a.toInt32.toInt * b.toInt32.toInt).natAbs ≤ 2 ^ 31 * 2 ^ 31 := by
    rw [Int.natAbs_mul]
    exact Nat.mul_le_mul (natAbs_toInt_le _) (natAbs_toInt_le _)
  omega

theorem mul64_eq : mul64 a.toUInt64 b.toUInt64 = some (a.toUInt64 * b.toUInt64) := by
  refine if_pos ?_
  rw [UInt32.toNat_toUInt64, UInt32.toNat_toUInt64]
  calc a.toNat * b.toNat ≤ (2 ^ 32 - 1) * (2 ^ 32 - 1) :=
        Nat.mul_le_mul (Nat.le_sub_one_of_lt a.toNat_lt) (Nat.le_sub_one_of_lt b.toNat_lt)
    _ < 2 ^ 64 := by decide

@[simp] theorem MulDivOp.eval!_eq (op : MulDivOp) : op.eval! a b = some (op.eval a b) := by
  cases op with
  | mult => rw [eval!, signedMul64_eq]; rfl
  | multu => rw [eval!, mul64_eq]; rfl
  | div => exact signedDivide!_eq a b
  | divu => exact unsignedDivide!_eq a b

end

/-! ### Unaligned stores -/

def Side.lanes! (value address : UInt32) : Side → Option UInt32
  | left => do shr32 value (← mul32 (← sub32 3 (address &&& 3)) 8)
  | right => do shl32 value (← mul32 (address &&& 3) 8)

theorem and_three_cases (a : UInt32) :
    a &&& 3 = 0 ∨ a &&& 3 = 1 ∨ a &&& 3 = 2 ∨ a &&& 3 = 3 := by
  have h : (a &&& 3).toNat ≤ 3 := by
    rw [UInt32.toNat_and]
    exact Nat.and_le_right
  simp only [← UInt32.toNat_inj, UInt32.reduceToNat]
  omega

@[simp] theorem Side.lanes!_eq (side : Side) (value address : UInt32) :
    side.lanes! value address = some (side.lanes value address) := by
  unfold lanes! lanes
  rcases and_three_cases address with h | h | h | h <;> rw [h] <;> cases side <;> rfl

/-- The pieces of a word are one or two, and each of them ends inside it. -/
theorem Side.pieces_within (side : Side) (address : UInt32) :
    (side.pieces address).length ≤ 2 ∧
      ∀ p ∈ side.pieces address, p.1.toNat + p.2.bytes.toNat ≤ 4 := by
  unfold pieces
  rcases and_three_cases address with h | h | h | h <;> rw [h] <;> cases side <;> decide

/-! ### Coprocessors -/

/-- The bit of a coprocessor is one of the four highest. -/
def Cop0.isUsable! (c : Cop0) (n : CopNumber) : Option Bool := do
  let bit ← shl32 1 (← add32 28 (UInt32.ofNat n))
  pure (c.status &&& bit != 0 || (n == 0 && !c.userMode))

@[simp] theorem Cop0.isUsable!_eq (c : Cop0) (n : CopNumber) :
    c.isUsable! n = some (c.isUsable n) := by
  have hn : ∀ n : CopNumber, (do shl32 1 (← add32 28 (UInt32.ofNat n))) =
      some ((1 : UInt32) <<< (28 + UInt32.ofNat n)) := by decide
  unfold isUsable! isUsable
  have h := hn n
  simp only [Option.bind_eq_bind] at h ⊢
  rw [← Option.bind_assoc, h]
  rfl

/-! ### The cache -/

namespace InstructionCache

def lineAt! (c : InstructionCache) (address : UInt32) : Option CacheLine := c.lines[index address]?

def fetch! (c : InstructionCache) (address : UInt32) : Option (Option UInt32) := do
  let line ← c.lineAt! address
  pure (if line.valid && line.tag == tag address then some line.data else none)

def setLine! (c : InstructionCache) (address : UInt32) (line : CacheLine) :
    Option InstructionCache :=
  if index address < c.lines.size then
    some { lines := c.lines.setIfInBounds (index address) line }
  else none

def fill! (c : InstructionCache) (address word : UInt32) : Option InstructionCache :=
  c.setLine! address { tag := tag address, data := word, valid := true }

def readIsolated! (c : InstructionCache) (address : UInt32) (w : Width) : Option UInt32 := do
  readLane! (← c.lineAt! address).data address w

def writeIsolated! (c : InstructionCache) (address : UInt32) (w : Width) (value : UInt32)
    (tagTest : Bool) : Option InstructionCache := do
  let line ← c.lineAt! address
  let line ←
    if tagTest then pure { line with valid := false }
    else pure { line with data := ← writeLane! line.data address w value }
  c.setLine! address line

variable {c : InstructionCache} (h : c.lines.size = lineCount) (address : UInt32) (w : Width)

include h

theorem index_lt : index address < c.lines.size := by
  rw [h, index, UInt32.toNat_and]
  exact Nat.lt_succ_of_le Nat.and_le_right

theorem lineAt!_eq : c.lineAt! address = some (c.lineAt address) := by
  unfold lineAt! lineAt
  rw [Array.getElem?_eq_getElem (index_lt h address)]
  rfl

theorem fetch!_eq : c.fetch! address = some (c.fetch? address) := by
  rw [fetch!, lineAt!_eq h]
  rfl

theorem fill!_eq (word : UInt32) : c.fill! address word = some (c.fill address word) :=
  if_pos (index_lt h address)

theorem readIsolated!_eq : c.readIsolated! address w = some (c.readIsolated address w) := by
  rw [readIsolated!, lineAt!_eq h]
  exact readLane!_eq ..

theorem writeIsolated!_eq (value : UInt32) (tagTest : Bool) :
    c.writeIsolated! address w value tagTest = some (c.writeIsolated address w value tagTest) := by
  have hlt := index_lt h address
  have hline : c.lineAt address = c.lines[index address] := by
    unfold lineAt
    rw [Array.getElem?_eq_getElem hlt]
    rfl
  have hmodify : ∀ f, c.lines.modify (index address) f =
      c.lines.setIfInBounds (index address) (f (c.lineAt address)) := by
    intro f
    apply Array.ext_getElem?
    intro i
    rw [hline, Array.getElem?_modify, Array.getElem?_setIfInBounds]
    split_ifs with hi
    · rw [← hi, Array.getElem?_eq_getElem hlt]
      rfl
    · rfl
  rw [writeIsolated!, lineAt!_eq h]
  unfold writeIsolated
  rw [hmodify]
  cases tagTest with
  | true => exact if_pos hlt
  | false =>
    simp only [writeLane!_eq]
    exact if_pos hlt

end InstructionCache

end Psx
