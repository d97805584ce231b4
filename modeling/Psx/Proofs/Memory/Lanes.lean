import Mathlib.Data.Nat.Bitwise
import Mathlib.Data.Nat.Digits.Defs
import Psx.Proofs.Memory.Bytes

/-!
# Lanes bit by bit and byte by byte

To write lanes of a register is to change the bits in them (`writeLane_bit`), hence the bytes
(`Bytes.byteOf_writeLane`), and to read lanes is to put their bytes together, the low one first
(`readLane_toNat`).
-/

namespace Psx

/-! ### Bits -/

theorem Width.mask_bit (w : Width) (n : Nat) :
    w.mask.toBitVec.getLsbD n = decide (n < 8 * w.bytes.toNat) := by
  have hmask : w.mask.toNat = 2 ^ (8 * w.bytes.toNat) - 1 := by cases w <;> decide
  show w.mask.toNat.testBit n = _
  rw [hmask, Nat.testBit_two_pow_sub_one]

theorem laneShift_toNat (offset : UInt32) : (laneShift offset).toNat = 8 * (offset.toNat % 4) := by
  have hlane : (offset &&& 3).toNat = offset.toNat % 4 := by
    rw [UInt32.toNat_and, show (3 : UInt32).toNat = 2 ^ 2 - 1 from rfl,
      Nat.and_two_pow_sub_one_eq_mod]
  unfold laneShift
  rw [UInt32.toNat_mul, hlane, show (8 : UInt32).toNat = 8 from rfl]
  omega

/-- The bits of the addressed lanes come from the value, the others from the register. -/
theorem writeLane_bit (register offset : UInt32) (w : Width) (value : UInt32) {n : Nat}
    (hn : n < 32) : (writeLane register offset w value).toBitVec.getLsbD n =
      if 8 * (offset.toNat % 4) ≤ n ∧ n < 8 * (offset.toNat % 4 + w.bytes.toNat) then
        value.toBitVec.getLsbD (n - 8 * (offset.toNat % 4))
      else register.toBitVec.getLsbD n := by
  have hs := laneShift_toNat offset
  have hshift : ∀ v : UInt32, (v <<< laneShift offset).toBitVec.getLsbD n =
      (!decide (n < 8 * (offset.toNat % 4)) &&
        v.toBitVec.getLsbD (n - 8 * (offset.toNat % 4))) := fun v => by
    have hmod : ((laneShift offset).toBitVec % (32 : BitVec 32)).toNat =
        8 * (offset.toNat % 4) := by
      show (laneShift offset).toNat % 32 = _
      omega
    rw [UInt32.toBitVec_shiftLeft, BitVec.shiftLeft_eq', hmod, BitVec.getLsbD_shiftLeft]
    simp [hn]
  unfold writeLane
  simp only [UInt32.toBitVec_or, UInt32.toBitVec_and, UInt32.toBitVec_not, BitVec.getLsbD_or,
    BitVec.getLsbD_and, BitVec.getLsbD_not, hshift, Width.mask_bit, hn]
  by_cases h : n < 8 * (offset.toNat % 4)
  · simp [h, Nat.not_le.2 h]
  · by_cases h' : n < 8 * (offset.toNat % 4 + w.bytes.toNat)
    · have hin : n - 8 * (offset.toNat % 4) < 8 * w.bytes.toNat := by omega
      simp [h, h', hin, Nat.not_lt.1 h]
    · have hout : ¬ n - 8 * (offset.toNat % 4) < 8 * w.bytes.toNat := by omega
      simp [h, h', hout]

theorem Bytes.byteOf_bit (value : UInt32) {k n : Nat} (hk : k < 4) (hn : n < 8) :
    (byteOf value k).toBitVec.getLsbD n = value.toBitVec.getLsbD (8 * k + n) := by
  have hmod : ((UInt32.ofNat (8 * k)).toBitVec % (32 : BitVec 32)).toNat = 8 * k := by
    show (UInt32.ofNat (8 * k)).toNat % 32 = _
    rw [UInt32.toNat_ofNat']
    omega
  unfold byteOf
  rw [UInt32.toBitVec_toUInt8, UInt32.toBitVec_shiftRight, BitVec.ushiftRight_eq', hmod,
    BitVec.getLsbD_setWidth, BitVec.getLsbD_ushiftRight]
  simp [hn]

/-! ### Bytes -/

namespace Bytes

theorem eq_of_bits {a b : UInt8}
    (h : ∀ n < 8, a.toBitVec.getLsbD n = b.toBitVec.getLsbD n) : a = b :=
  UInt8.eq_of_toBitVec_eq (BitVec.eq_of_getLsbD_eq h)

theorem byteOf_toNat (value : UInt32) {k : Nat} (hk : k < 4) :
    (byteOf value k).toNat = value.toNat / 256 ^ k % 256 := by
  have hshift : (UInt32.ofNat (8 * k)).toNat % 32 = 8 * k := by
    rw [UInt32.toNat_ofNat']
    omega
  unfold byteOf
  rw [UInt32.toNat_toUInt8, UInt32.toNat_shiftRight, hshift, Nat.shiftRight_eq_div_pow, Nat.pow_mul]

/-- A word is the number whose digits are its bytes. -/
theorem toNat_eq_ofDigits (value : UInt32) : value.toNat =
    Nat.ofDigits 256 ((List.range 4).map fun k => (byteOf value k).toNat) := by
  have hlt := value.toNat_lt
  show _ = Nat.ofDigits 256 [(byteOf value 0).toNat, (byteOf value 1).toNat,
    (byteOf value 2).toNat, (byteOf value 3).toNat]
  rw [byteOf_toNat value (by decide), byteOf_toNat value (by decide),
    byteOf_toNat value (by decide), byteOf_toNat value (by decide)]
  simp only [Nat.ofDigits_cons, Nat.ofDigits_nil]
  omega

theorem byteOf_writeLane (register offset : UInt32) (w : Width) (value : UInt32) {k : Nat}
    (hk : k < 4) : byteOf (writeLane register offset w value) k =
      if offset.toNat % 4 ≤ k ∧ k < offset.toNat % 4 + w.bytes.toNat then
        byteOf value (k - offset.toNat % 4)
      else byteOf register k := by
  refine eq_of_bits fun n hn => ?_
  rw [byteOf_bit _ hk hn, writeLane_bit _ _ _ _ (by omega)]
  by_cases h : offset.toNat % 4 ≤ k ∧ k < offset.toNat % 4 + w.bytes.toNat
  · rw [if_pos h, if_pos (by omega), byteOf_bit _ (by omega) hn]
    congr 1
    omega
  · rw [if_neg h, if_neg (by omega), byteOf_bit _ hk hn]

theorem byteOf_or (a b : UInt32) {k : Nat} (hk : k < 4) :
    byteOf (a ||| b) k = byteOf a k ||| byteOf b k := by
  refine eq_of_bits fun n hn => ?_
  rw [byteOf_bit _ hk hn, UInt32.toBitVec_or, UInt8.toBitVec_or, BitVec.getLsbD_or,
    BitVec.getLsbD_or, byteOf_bit _ hk hn, byteOf_bit _ hk hn]

theorem byteOf_and (a b : UInt32) {k : Nat} (hk : k < 4) :
    byteOf (a &&& b) k = byteOf a k &&& byteOf b k := by
  refine eq_of_bits fun n hn => ?_
  rw [byteOf_bit _ hk hn, UInt32.toBitVec_and, UInt8.toBitVec_and, BitVec.getLsbD_and,
    BitVec.getLsbD_and, byteOf_bit _ hk hn, byteOf_bit _ hk hn]

section

variable {shift : UInt32} {n k : Nat} (hs : shift.toNat = 8 * n) (hn : n < 4) (hk : k < 4)
  (value : UInt32)

include hs hn hk

/-- A shift to the right by so many bytes. -/
theorem byteOf_shiftRight : byteOf (value >>> shift) k =
    if n + k < 4 then byteOf value (n + k) else 0 := by
  have hlt := value.toNat_lt
  have hshift : (value >>> shift).toNat = value.toNat / 256 ^ n := by
    have hmod : 8 * n % 32 = 8 * n := Nat.mod_eq_of_lt (by omega)
    rw [UInt32.toNat_shiftRight, hs, hmod, Nat.shiftRight_eq_div_pow, Nat.pow_mul]
  apply UInt8.toNat_inj.1
  rw [byteOf_toNat _ hk, hshift, Nat.div_div_eq_div_mul, ← Nat.pow_add]
  split
  · rw [byteOf_toNat _ ‹_›]
  · rename_i hout
    have hle : (256 : Nat) ^ 4 ≤ 256 ^ (n + k) :=
      Nat.pow_le_pow_right (by decide) (Nat.not_lt.1 hout)
    rw [Nat.div_eq_of_lt (Nat.lt_of_lt_of_le hlt hle)]
    rfl

/-- A shift to the left by so many bytes. -/
theorem byteOf_shiftLeft : byteOf (value <<< shift) k =
    if n ≤ k then byteOf value (k - n) else 0 := by
  have hshift : (value <<< shift).toNat = value.toNat * 256 ^ n % 2 ^ 32 := by
    have hmod : 8 * n % 32 = 8 * n := Nat.mod_eq_of_lt (by omega)
    rw [UInt32.toNat_shiftLeft, hs, hmod, Nat.shiftLeft_eq, Nat.pow_mul]
  apply UInt8.toNat_inj.1
  rw [byteOf_toNat _ hk, hshift]
  split
  · rw [byteOf_toNat _ (by omega)]
    interval_cases k <;> interval_cases n <;> omega
  · show _ = 0
    interval_cases k <;> interval_cases n <;> omega

end

end Bytes

theorem Width.mask_toNat (w : Width) : w.mask.toNat = 2 ^ (8 * w.bytes.toNat) - 1 := by
  cases w <;> decide

/-- Lanes are read as the number whose digits are their bytes. -/
theorem readLane_toNat (register : UInt32) {offset : UInt32} {w : Width}
    (h : offset.toNat % 4 + w.bytes.toNat ≤ 4) : (readLane register offset w).toNat =
      Nat.ofDigits 256 ((List.range w.bytes.toNat).map fun k =>
        (Bytes.byteOf register (offset.toNat % 4 + k)).toNat) := by
  have hbytes : ((List.range w.bytes.toNat).map fun k =>
      (Bytes.byteOf register (offset.toNat % 4 + k)).toNat) =
        (List.range w.bytes.toNat).map fun k =>
          register.toNat / 256 ^ (offset.toNat % 4 + k) % 256 :=
    List.map_congr_left fun k hk =>
      Bytes.byteOf_toNat register (by have := List.mem_range.1 hk; omega)
  have hlane : (readLane register offset w).toNat =
      register.toNat / 2 ^ (8 * (offset.toNat % 4)) % 2 ^ (8 * w.bytes.toNat) := by
    have hshift : 8 * (offset.toNat % 4) % 32 = 8 * (offset.toNat % 4) := by omega
    unfold readLane
    rw [UInt32.toNat_and, UInt32.toNat_shiftRight, laneShift_toNat, hshift, w.mask_toNat,
      Nat.and_two_pow_sub_one_eq_mod, Nat.shiftRight_eq_div_pow]
  have hlt := register.toNat_lt
  rw [hbytes, hlane]
  generalize offset.toNat % 4 = j at h
  cases w with
  | byte =>
    have hj : j ≤ 3 := Nat.le_of_succ_le_succ h
    show _ = Nat.ofDigits 256 [register.toNat / 256 ^ (j + 0) % 256]
    rw [Nat.ofDigits_singleton]
    interval_cases j <;> rfl
  | half =>
    have hj : j ≤ 2 := Nat.le_of_add_le_add_right h
    show _ = Nat.ofDigits 256 [register.toNat / 256 ^ (j + 0) % 256,
      register.toNat / 256 ^ (j + 1) % 256]
    simp only [Nat.ofDigits_cons, Nat.ofDigits_nil]
    change register.toNat / 2 ^ (8 * j) % 65536 = _
    interval_cases j <;> omega
  | word =>
    obtain rfl : j = 0 := Nat.le_zero.1 (Nat.le_of_add_le_add_right h)
    show _ = Nat.ofDigits 256 [register.toNat / 256 ^ 0 % 256, register.toNat / 256 ^ 1 % 256,
      register.toNat / 256 ^ 2 % 256, register.toNat / 256 ^ 3 % 256]
    simp only [Nat.ofDigits_cons, Nat.ofDigits_nil]
    change register.toNat / 1 % 4294967296 = _
    omega

end Psx
