import Psx.Memory.Bytes
import Psx.Proofs.Memory.Region

/-!
# Checked operations

The numbers of a running session have types of a fixed width, and the operations on them are
checked: a sum that does not fit, a difference below zero, a shift by the width or more, a division
by zero and an index past the end all end the program. The definitions of the machine are silent
about this, because their numbers are wide enough and their operations total.

A function whose name ends in `!` is the function of that name with every such operation checked:
its result is `none` when one of them fails, and it goes through the values that come up on the
way, in their types. The lemma beside it says when it does not fail, and that the result is then
that of the unchecked function. Operations that wrap, saturate or ask first cannot fail and are
not checked.
-/

namespace Psx

namespace Checked

/-! ### Numbers -/

/-- A number that a type of so many bits can hold. -/
def held (bits n : Nat) : Option Nat := if n < 2 ^ bits then some n else none

def sub (a b : Nat) : Option Nat := if b ≤ a then some (a - b) else none

def div (a b : Nat) : Option Nat := if b = 0 then none else some (a / b)

def mod (a b : Nat) : Option Nat := if b = 0 then none else some (a % b)

/-- A place in a table of so many elements. -/
def index (size i : Nat) : Option (Fin size) := if h : i < size then some ⟨i, h⟩ else none

theorem held_eq {bits n : Nat} (h : n < 2 ^ bits) : held bits n = some n := if_pos h

theorem sub_eq {a b : Nat} (h : b ≤ a) : sub a b = some (a - b) := if_pos h

theorem div_eq {a b : Nat} (h : b ≠ 0) : div a b = some (a / b) := if_neg h

theorem mod_eq {a b : Nat} (h : b ≠ 0) : mod a b = some (a % b) := if_neg h

theorem index_eq {size i : Nat} (h : i < size) : index size i = some ⟨i, h⟩ := dif_pos h

/-- Steps that do not fail are those of the unchecked fold, and what they keep holds after it. -/
theorem foldlM_eq {α β : Type} {P : β → Prop} {f : β → α → Option β} {g : β → α → β} {l : List α}
    (h : ∀ b, P b → ∀ a ∈ l, f b a = some (g b a) ∧ P (g b a)) {b : β} (hb : P b) :
    l.foldlM f b = some (l.foldl g b) := by
  induction l generalizing b with
  | nil => rfl
  | cons a l ih =>
    obtain ⟨e, hg⟩ := h b hb a List.mem_cons_self
    rw [List.foldlM_cons, e]
    exact ih (fun b hb a ha => h b hb a (List.mem_cons_of_mem _ ha)) hg

/-! ### Words -/

def add32 (a b : UInt32) : Option UInt32 :=
  if a.toNat + b.toNat < 2 ^ 32 then some (a + b) else none

def sub32 (a b : UInt32) : Option UInt32 := if b ≤ a then some (a - b) else none

def mul32 (a b : UInt32) : Option UInt32 :=
  if a.toNat * b.toNat < 2 ^ 32 then some (a * b) else none

def shl32 (a n : UInt32) : Option UInt32 := if n < 32 then some (a <<< n) else none

def shr32 (a n : UInt32) : Option UInt32 := if n < 32 then some (a >>> n) else none

variable {a b n : UInt32}

theorem add32_eq (h : a.toNat + b.toNat < 2 ^ 32) : add32 a b = some (a + b) := if_pos h

theorem sub32_eq (h : b ≤ a) : sub32 a b = some (a - b) := if_pos h

theorem mul32_eq (h : a.toNat * b.toNat < 2 ^ 32) : mul32 a b = some (a * b) := if_pos h

theorem shl32_eq (h : n < 32) : shl32 a n = some (a <<< n) := if_pos h

theorem shr32_eq (h : n < 32) : shr32 a n = some (a >>> n) := if_pos h

end Checked

open Checked

/-! ### Lanes -/

theorem wordOf_toNat (offset : UInt32) : (wordOf offset).toNat = offset.toNat / 4 * 4 :=
  and_not_toNat offset (n := 2) (by decide)

/-- Each of the four lanes begins inside the word. -/
theorem lane_lt (offset : UInt32) : (offset &&& 3).toNat * 8 < 32 := by
  have h : (offset &&& 3).toNat ≤ 3 := by
    rw [UInt32.toNat_and]
    exact Nat.and_le_right
  omega

theorem laneShift_lt (offset : UInt32) : laneShift offset < 32 := by
  rw [UInt32.lt_iff_toNat_lt, laneShift, UInt32.toNat_mul]
  exact Nat.lt_of_le_of_lt (Nat.mod_le ..) (lane_lt offset)

def Width.align! (w : Width) (address : UInt32) : Option UInt32 := do
  let low ← sub32 w.bytes 1
  pure (address &&& ~~~low)

@[simp] theorem Width.align!_eq (w : Width) (address : UInt32) :
    w.align! address = some (w.align address) := by
  cases w <;> rfl

def laneShift! (offset : UInt32) : Option UInt32 := mul32 (offset &&& 3) 8

@[simp] theorem laneShift!_eq (offset : UInt32) : laneShift! offset = some (laneShift offset) :=
  mul32_eq (Nat.lt_trans (lane_lt offset) (by decide))

def readLane! (register offset : UInt32) (w : Width) : Option UInt32 := do
  let low ← shr32 register (← laneShift! offset)
  pure (low &&& w.mask)

@[simp] theorem readLane!_eq (register offset : UInt32) (w : Width) :
    readLane! register offset w = some (readLane register offset w) := by
  simp [readLane!, readLane, shr32_eq (laneShift_lt offset)]

def writeLane! (register offset : UInt32) (w : Width) (value : UInt32) : Option UInt32 := do
  let shift ← laneShift! offset
  let mask ← shl32 w.mask shift
  let lanes ← shl32 (value &&& w.mask) shift
  pure ((register &&& ~~~mask) ||| lanes)

@[simp] theorem writeLane!_eq (register offset : UInt32) (w : Width) (value : UInt32) :
    writeLane! register offset w value = some (writeLane register offset w value) := by
  simp [writeLane!, writeLane, shl32_eq (laneShift_lt offset)]

/-! ### Bytes -/

namespace Bytes

def byteAt! (b : ByteArray) (i : Nat) : Option UInt8 :=
  if i < b.size then some (byteAt b i) else none

def load! (b : ByteArray) (i : Nat) : Width → Option UInt32
  | .byte => do
    let b₀ ← byteAt! b i
    pure b₀.toUInt32
  | .half => do
    let b₀ ← byteAt! b i
    let b₁ ← byteAt! b (← held 64 (i + 1))
    pure (b₀.toUInt32 ||| (b₁.toUInt32 <<< 8))
  | .word => do
    let b₀ ← byteAt! b i
    let b₁ ← byteAt! b (← held 64 (i + 1))
    let b₂ ← byteAt! b (← held 64 (i + 2))
    let b₃ ← byteAt! b (← held 64 (i + 3))
    pure (b₀.toUInt32 ||| (b₁.toUInt32 <<< 8) ||| (b₂.toUInt32 <<< 16) ||| (b₃.toUInt32 <<< 24))

/-- The bytes are stored as a slice that ends with the last of them. -/
def store! (b : ByteArray) (i : Nat) (w : Width) (value : UInt32) : Option ByteArray := do
  let last ← held 64 (i + w.bytes.toNat)
  if last ≤ b.size then pure (store b i w value) else none

variable {b : ByteArray} {i : Nat}

theorem byteAt!_eq (h : i < b.size) : byteAt! b i = some (byteAt b i) := if_pos h

theorem load!_eq {w : Width} (h : i + w.bytes.toNat ≤ b.size) (hb : b.size < 2 ^ 32) :
    load! b i w = some (load b i w) := by
  cases w with
  | byte =>
    have h : i + 1 ≤ b.size := h
    rw [load!, byteAt!_eq (by omega)]
    rfl
  | half =>
    have h : i + 2 ≤ b.size := h
    rw [load!, held_eq (by omega), byteAt!_eq (by omega)]
    simp only [Option.bind_eq_bind, Option.bind_some]
    rw [byteAt!_eq (by omega)]
    rfl
  | word =>
    have h : i + 4 ≤ b.size := h
    rw [load!, held_eq (by omega), held_eq (by omega), held_eq (by omega), byteAt!_eq (by omega)]
    simp only [Option.bind_eq_bind, Option.bind_some]
    rw [byteAt!_eq (by omega), byteAt!_eq (by omega), byteAt!_eq (by omega)]
    rfl

theorem store!_eq {w : Width} {value : UInt32} (h : i + w.bytes.toNat ≤ b.size)
    (hb : b.size < 2 ^ 32) : store! b i w value = some (store b i w value) := by
  rw [store!, held_eq (by omega)]
  exact if_pos h

end Bytes

end Psx
