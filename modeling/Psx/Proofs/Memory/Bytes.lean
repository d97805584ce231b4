import Mathlib.Tactic.IntervalCases
import Psx.Proofs.Bus.Frame

/-!
# Loads and stores byte by byte

A store changes the bytes that it covers and no others (`Bytes.byteAt_store`), and a load is made of
the bytes that it covers (`Bytes.load_congr`). So what is stored is loaded again (`Bytes.load_store`),
and a load apart from a store does not see it (`Bytes.load_store_disjoint`).
-/

namespace Psx.Bytes

/-- A byte of a word, counted from the low end. -/
def byteOf (value : UInt32) (k : Nat) : UInt8 := (value >>> UInt32.ofNat (8 * k)).toUInt8

theorem toUInt32_toUInt8 (v : UInt32) : v.toUInt8.toUInt32 = v &&& 0xFF := by
  apply UInt32.toNat_inj.1
  simp
  exact (Nat.and_two_pow_sub_one_eq_mod v.toNat 8).symm

theorem byteAt_eq (b : ByteArray) (i : Nat) : byteAt b i = b.data[i]?.getD 0 := by
  unfold byteAt
  split
  · rename_i h
    show b.data[i] = _
    rw [Array.getElem?_eq_getElem h]
    rfl
  · rename_i h
    rw [Array.getElem?_eq_none (Nat.le_of_not_lt h)]
    rfl

theorem byteAt_zeros (n i : Nat) : byteAt (zeros n) i = 0 := by
  rw [byteAt_eq, show (zeros n).data = Array.replicate n 0 from rfl, Array.getElem?_replicate]
  split_ifs <;> rfl

theorem load_zeros (n i : Nat) (w : Width) : load (zeros n) i w = 0 := by
  cases w <;> simp only [load, byteAt_zeros] <;> rfl

theorem setByte_data (b : ByteArray) (i : Nat) (v : UInt8) :
    (setByte b i v).data = b.data.setIfInBounds i v := by
  unfold setByte Array.setIfInBounds
  by_cases h : i < b.size
  · rw [dif_pos h, dif_pos (show i < b.data.size from h)]
    rfl
  · rw [dif_neg h, dif_neg (show ¬ i < b.data.size from h)]

variable (b : ByteArray)

theorem byteAt_setByte (i : Nat) (v : UInt8) (j : Nat) :
    byteAt (setByte b i v) j = if i = j ∧ j < b.size then v else byteAt b j := by
  have hsize : b.data.size = b.size := rfl
  rw [byteAt_eq, byteAt_eq, setByte_data, Array.getElem?_setIfInBounds, hsize]
  by_cases hij : i = j
  · subst hij
    by_cases hi : i < b.size
    · simp [hi]
    · simp [hi]
  · simp [hij]

/-- The bytes that a store covers. -/
theorem byteAt_store {i k : Nat} {w : Width} (v : UInt32) (hk : k < w.bytes.toNat)
    (h : i + k < b.size) : byteAt (store b i w v) (i + k) = byteOf v k := by
  have h0 : v.toUInt8 = byteOf v 0 := by simp [byteOf]
  have h1 : (v >>> 8).toUInt8 = byteOf v 1 := rfl
  have h2 : (v >>> 16).toUInt8 = byteOf v 2 := rfl
  have h3 : (v >>> 24).toUInt8 = byteOf v 3 := rfl
  simp only [store, h0, h1, h2, h3]
  cases w with
  | byte =>
    have hk : k < 1 := hk
    interval_cases k
    simp_all [byteAt_setByte]
  | half =>
    have hk : k < 2 := hk
    interval_cases k <;> simp_all [byteAt_setByte, setByte_size]
  | word =>
    have hk : k < 4 := hk
    interval_cases k <;> simp_all [byteAt_setByte, setByte_size]

/-- The bytes that a store does not cover. -/
theorem byteAt_store_of_ne {i j : Nat} {w : Width} (v : UInt32)
    (h : ∀ k < w.bytes.toNat, i + k ≠ j) : byteAt (store b i w v) j = byteAt b j := by
  cases w with
  | byte =>
    have h0 : i ≠ j := h 0 (by decide)
    simp [store, byteAt_setByte, h0]
  | half =>
    have h0 : i ≠ j := h 0 (by decide)
    have h1 : i + 1 ≠ j := h 1 (by decide)
    simp [store, byteAt_setByte, h0, h1]
  | word =>
    have h0 : i ≠ j := h 0 (by decide)
    have h1 : i + 1 ≠ j := h 1 (by decide)
    have h2 : i + 2 ≠ j := h 2 (by decide)
    have h3 : i + 3 ≠ j := h 3 (by decide)
    simp [store, byteAt_setByte, h0, h1, h2, h3]

variable {b} {b' : ByteArray}

/-- A load sees the bytes that it covers and no others. -/
theorem load_congr {i : Nat} {w : Width}
    (h : ∀ k < w.bytes.toNat, byteAt b' (i + k) = byteAt b (i + k)) :
    load b' i w = load b i w := by
  cases w with
  | byte =>
    have h0 := h 0 (by decide)
    simp_all [load]
  | half =>
    have h0 := h 0 (by decide)
    have h1 := h 1 (by decide)
    simp_all [load]
  | word =>
    have h0 := h 0 (by decide)
    have h1 := h 1 (by decide)
    have h2 := h 2 (by decide)
    have h3 := h 3 (by decide)
    simp_all [load]

/-- What is stored is loaded again. -/
theorem load_store {i : Nat} {w : Width} (v : UInt32) (h : i + w.bytes.toNat ≤ b.size) :
    load (store b i w v) i w = v &&& w.mask := by
  have hat : ∀ k < w.bytes.toNat,
      (byteAt (store b i w v) (i + k)).toUInt32 = (v >>> UInt32.ofNat (8 * k)) &&& 0xFF :=
    fun k hk => by rw [byteAt_store b v hk (by omega), byteOf, toUInt32_toUInt8]
  apply UInt32.eq_of_toBitVec_eq
  cases w with
  | byte =>
    have h0 := hat 0 (by decide)
    rw [Nat.add_zero] at h0
    rw [load, h0]
    rfl
  | half =>
    have h0 := hat 0 (by decide)
    have h1 := hat 1 (by decide)
    rw [Nat.add_zero] at h0
    rw [load, h0, h1]
    ext j hj
    simp [Width.mask]
    interval_cases j <;> simp
  | word =>
    have h0 := hat 0 (by decide)
    have h1 := hat 1 (by decide)
    have h2 := hat 2 (by decide)
    have h3 := hat 3 (by decide)
    rw [Nat.add_zero] at h0
    rw [load, h0, h1, h2, h3]
    ext j hj
    simp [Width.mask]
    interval_cases j <;> simp

/-- A load apart from a store does not see it. -/
theorem load_store_disjoint {i j : Nat} {w w' : Width} (v : UInt32)
    (h : j + w'.bytes.toNat ≤ i ∨ i + w.bytes.toNat ≤ j) :
    load (store b i w v) j w' = load b j w' :=
  load_congr fun _ _ => byteAt_store_of_ne b v fun _ _ => by omega

end Psx.Bytes
