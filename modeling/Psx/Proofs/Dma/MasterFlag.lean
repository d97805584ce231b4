import Mathlib.Data.Nat.Bitwise
import Mathlib.Tactic.IntervalCases
import Psx.Proofs.Dma.Progress

/-!
# The master flag

DICR bit by bit (`Dma.shows`). `masterFlag` is what bit 31 has to be, and it does not look at that
bit itself (`masterFlag_congr`), so putting it right changes nothing else (`shows_updateMasterFlag`),
and the controller asks for attention exactly when the bit goes from zero to one (`asks_iff`).

Both ways into DICR are told by the bits that they leave before the master flag is put right: a
write keeps the flags for which it has no one (`shows_writeInterrupt`), and a completed transfer
sets the flag of its channel if that is enabled (`shows_complete`).
-/

namespace Psx.Dma

/-- A bit of DICR. -/
def shows (d : Dma) (n : Nat) : Bool := d.interrupt.toBitVec.getLsbD n

/-- Bit 31 is what it has to be, and the bits that nothing can set are zero. -/
structure Consistent (d : Dma) : Prop where
  master : d.shows 31 = masterFlag d.interrupt
  unused : ∀ n < 6, d.shows n = false

theorem and_bit_bne {x mask : UInt32} {n : Nat} (hm : mask.toNat = 2 ^ n) :
    (x &&& mask != 0) = x.toBitVec.getLsbD n := by
  have h : (x &&& mask).toNat = (x.toNat.testBit n).toNat * 2 ^ n := by
    rw [UInt32.toNat_and, hm, Nat.and_two_pow]
  have hbit : x.toBitVec.getLsbD n = x.toNat.testBit n := rfl
  rw [hbit]
  cases hb : x.toNat.testBit n with
  | true =>
    rw [hb] at h
    simp [← UInt32.toNat_inj, h]
  | false =>
    rw [hb] at h
    have hzero : x &&& mask = 0 := UInt32.toNat_inj.1 (by simpa using h)
    simp [hzero]

theorem enableBit_toNat : ∀ i : Fin 7,
    (1 <<< (16 + UInt32.ofNat i) : UInt32).toNat = 2 ^ (16 + i.val) := by decide

theorem flagBit_toNat : ∀ i : Fin 7,
    (1 <<< (24 + UInt32.ofNat i) : UInt32).toNat = 2 ^ (24 + i.val) := by decide

/-! ### What the master flag has to be -/

/-- Some channel has both its enable and its flag. -/
theorem enabled_flag_iff (x : UInt32) : ((x >>> 16) &&& (x >>> 24) &&& 0x7F != 0) = true ↔
    ∃ n < 7, x.toBitVec.getLsbD (16 + n) = true ∧ x.toBitVec.getLsbD (24 + n) = true := by
  have hbit : ∀ n, ((x >>> 16) &&& (x >>> 24) &&& 0x7F).toBitVec.getLsbD n =
      (x.toBitVec.getLsbD (16 + n) && x.toBitVec.getLsbD (24 + n) && decide (n < 7)) := by
    intro n
    have hmask : (0x7F : UInt32).toBitVec.getLsbD n = decide (n < 7) := by
      show Nat.testBit (2 ^ 7 - 1) n = _
      exact Nat.testBit_two_pow_sub_one 7 n
    rw [UInt32.toBitVec_and, UInt32.toBitVec_and, BitVec.getLsbD_and, BitVec.getLsbD_and, hmask,
      UInt32.toBitVec_shiftRight, UInt32.toBitVec_shiftRight, BitVec.ushiftRight_eq',
      BitVec.ushiftRight_eq', BitVec.getLsbD_ushiftRight, BitVec.getLsbD_ushiftRight]
    rfl
  constructor
  · intro h
    by_contra hnone
    push Not at hnone
    refine absurd (bne_iff_ne.1 h) (not_not.2 ?_)
    apply UInt32.eq_of_toBitVec_eq
    apply BitVec.eq_of_getLsbD_eq
    intro n hn
    rw [hbit]
    by_cases hlt : n < 7
    · have := hnone n hlt
      cases h16 : x.toBitVec.getLsbD (16 + n) <;> simp_all
    · simp [hlt]
  · rintro ⟨n, hn, h16, h24⟩
    refine bne_iff_ne.2 fun hzero => ?_
    have h := hbit n
    rw [hzero, h16, h24, decide_eq_true hn] at h
    simp at h

theorem masterFlag_iff (x : UInt32) : masterFlag x = true ↔ x.toBitVec.getLsbD 15 = true ∨
    (x.toBitVec.getLsbD 23 = true ∧
      ∃ n < 7, x.toBitVec.getLsbD (16 + n) = true ∧ x.toBitVec.getLsbD (24 + n) = true) := by
  have hforce : (x &&& forceBit != 0) = x.toBitVec.getLsbD 15 := and_bit_bne rfl
  have henable : (x &&& masterEnableBit != 0) = x.toBitVec.getLsbD 23 := and_bit_bne rfl
  unfold masterFlag
  rw [hforce, henable, Bool.or_eq_true, Bool.and_eq_true, enabled_flag_iff]

theorem masterFlag_congr {x y : UInt32}
    (h : ∀ n < 31, x.toBitVec.getLsbD n = y.toBitVec.getLsbD n) : masterFlag x = masterFlag y := by
  rw [Bool.eq_iff_iff, masterFlag_iff, masterFlag_iff, h 15 (by decide), h 23 (by decide)]
  refine or_congr_right (and_congr_right fun _ => exists_congr fun n => and_congr_right fun hn => ?_)
  rw [h (16 + n) (by omega), h (24 + n) (by omega)]

/-! ### Putting it right -/

variable (d : Dma)

theorem shows_updateMasterFlag {n : Nat} (hn : n < 32) : d.updateMasterFlag.2.shows n =
    if n = 31 then masterFlag d.interrupt else d.shows n := by
  have hmaster : masterFlagBit.toBitVec.getLsbD n = decide (n = 31) := by
    show Nat.testBit (2 ^ 31) n = _
    rw [Nat.testBit_two_pow]
    exact decide_eq_decide.2 eq_comm
  unfold updateMasterFlag shows
  split
  · rename_i hflag
    rw [hflag, UInt32.toBitVec_or, BitVec.getLsbD_or, hmaster]
    by_cases h31 : n = 31 <;> simp [h31]
  · rename_i hflag
    rw [Bool.eq_false_iff.2 hflag, UInt32.toBitVec_and, UInt32.toBitVec_not, BitVec.getLsbD_and,
      BitVec.getLsbD_not, hmaster]
    by_cases h31 : n = 31 <;> simp [h31, hn]

theorem asks_updateMasterFlag :
    d.updateMasterFlag.1 = (!d.shows 31 && masterFlag d.interrupt) := by
  have hbit : (d.interrupt &&& masterFlagBit != 0) = d.shows 31 := and_bit_bne rfl
  unfold updateMasterFlag
  split
  · rename_i hflag
    rw [hflag, ← hbit, Bool.and_true, bne, Bool.not_not]
  · rename_i hflag
    rw [Bool.eq_false_iff.2 hflag, Bool.and_false]

/-- The controller asks for attention when the master flag goes from zero to one. -/
theorem asks_iff : d.updateMasterFlag.1 = (!d.shows 31 && d.updateMasterFlag.2.shows 31) := by
  rw [asks_updateMasterFlag, shows_updateMasterFlag _ (by decide), if_pos rfl]

variable {d} in
theorem consistent_updateMasterFlag (h : ∀ n < 6, d.shows n = false) :
    d.updateMasterFlag.2.Consistent := by
  have hbits : ∀ n < 31, d.updateMasterFlag.2.shows n = d.shows n := by
    intro n hn
    rw [shows_updateMasterFlag _ (by omega), if_neg (by omega)]
  refine ⟨?_, ?_⟩
  · rw [shows_updateMasterFlag _ (by decide), if_pos rfl]
    exact masterFlag_congr fun n hn => (hbits n hn).symm
  · intro n hn
    rw [hbits n (by omega)]
    exact h n hn

/-! ### Writes -/

/-- A write takes the bits 6 to 23 as they are and clears the flags for which it has a one. -/
theorem shows_writeInterrupt (value : UInt32) {n : Nat} (hn : n < 31) :
    (d.writeInterrupt value).2.shows n =
      if n < 6 then false
      else if n < 24 then value.toBitVec.getLsbD n
      else d.shows n && !value.toBitVec.getLsbD n := by
  unfold writeInterrupt
  dsimp only
  rw [shows_updateMasterFlag _ (by omega), if_neg (by omega)]
  unfold shows
  have hflags : (0x7F000000 : UInt32).toBitVec.getLsbD n = decide (24 ≤ n) := by
    interval_cases n <;> rfl
  have htaken : (0x00FFFFC0 : UInt32).toBitVec.getLsbD n = decide (6 ≤ n ∧ n < 24) := by
    interval_cases n <;> rfl
  have hmaster : masterFlagBit.toBitVec.getLsbD n = false := by
    interval_cases n <;> rfl
  simp only [UInt32.toBitVec_or, UInt32.toBitVec_and, UInt32.toBitVec_not, BitVec.getLsbD_or,
    BitVec.getLsbD_and, BitVec.getLsbD_not, hflags, htaken, hmaster]
  by_cases hlow : n < 6
  · simp [hlow, show ¬ 24 ≤ n by omega, show ¬ 6 ≤ n by omega]
  · by_cases hmid : n < 24
    · simp [hlow, hmid, show ¬ 24 ≤ n by omega, show 6 ≤ n by omega]
    · simp [hlow, hmid, show 24 ≤ n by omega, show n < 32 by omega]

theorem consistent_writeInterrupt (value : UInt32) : (d.writeInterrupt value).2.Consistent := by
  have hunused : ∀ n < 6, (d.writeInterrupt value).2.shows n = false := by
    intro n hn
    rw [shows_writeInterrupt _ _ (by omega), if_pos hn]
  refine consistent_updateMasterFlag fun n hn => ?_
  have hkept := hunused n hn
  unfold writeInterrupt at hkept
  rwa [shows_updateMasterFlag _ (by omega), if_neg (by omega)] at hkept

theorem asks_writeInterrupt (value : UInt32) : (d.writeInterrupt value).1 =
    (!d.shows 31 && (d.writeInterrupt value).2.shows 31) := by
  unfold writeInterrupt
  dsimp only
  rw [asks_iff]
  congr 2
  unfold shows
  have hmaster : masterFlagBit.toBitVec.getLsbD 31 = true := rfl
  simp [UInt32.toBitVec_or, UInt32.toBitVec_and, hmaster]

/-! ### Completed transfers -/

/-- A completed transfer sets the flag of its channel if that is enabled. -/
theorem shows_complete (i : Fin 7) {n : Nat} (hn : n < 31) : (d.complete i).2.shows n =
    (d.shows n || (decide (n = 24 + i) && d.shows (16 + i))) := by
  have henable : (d.interrupt &&& (1 <<< (16 + UInt32.ofNat i)) != 0) = d.shows (16 + i) :=
    and_bit_bne (enableBit_toNat i)
  have hflag : (1 <<< (24 + UInt32.ofNat i) : UInt32).toBitVec.getLsbD n = decide (n = 24 + i) := by
    show Nat.testBit (1 <<< (24 + UInt32.ofNat i) : UInt32).toNat n = _
    rw [flagBit_toNat i, Nat.testBit_two_pow]
    exact decide_eq_decide.2 eq_comm
  unfold complete
  dsimp only
  rw [shows_updateMasterFlag _ (by omega), if_neg (by omega)]
  change (if (d.interrupt &&& _ != 0) = true then _ else _ : Dma).shows n = _
  rw [henable]
  split
  · rename_i h
    rw [h, Bool.and_true]
    unfold shows
    rw [UInt32.toBitVec_or, BitVec.getLsbD_or, hflag]
    rfl
  · rename_i h
    rw [Bool.eq_false_iff.2 h, Bool.and_false, Bool.or_false]
    rfl

variable {d} in
theorem consistent_complete (h : ∀ n < 6, d.shows n = false) (i : Fin 7) :
    (d.complete i).2.Consistent := by
  refine consistent_updateMasterFlag fun n hn => ?_
  have hkept := d.shows_complete i (n := n) (by omega)
  unfold complete at hkept
  dsimp only at hkept
  rwa [shows_updateMasterFlag _ (by omega), if_neg (by omega), h n hn, Bool.false_or,
    decide_eq_false (by omega)] at hkept

theorem asks_complete (i : Fin 7) : (d.complete i).1 =
    (!d.shows 31 && (d.complete i).2.shows 31) := by
  have hflag : (1 <<< (24 + UInt32.ofNat i) : UInt32).toBitVec.getLsbD 31 = false := by
    show Nat.testBit (1 <<< (24 + UInt32.ofNat i) : UInt32).toNat 31 = _
    rw [flagBit_toNat i, Nat.testBit_two_pow]
    have := i.isLt
    exact decide_eq_false (by omega)
  unfold complete
  dsimp only
  rw [asks_iff]
  congr 2
  split
  · unfold shows
    rw [UInt32.toBitVec_or, BitVec.getLsbD_or, hflag, Bool.or_false]
    rfl
  · rfl

end Psx.Dma
