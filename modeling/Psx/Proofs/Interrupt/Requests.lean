import Psx.Proofs.Bus.Invariant
import Psx.Proofs.Memory.Lanes

/-!
# Requests are kept

A request stays in I_STAT until the program takes it back there. No signal clears one, and of all that
a part of the board is asked for, only a write to the interrupt controller itself may
(`InterruptController.Keeps`, `Board.keeps_write`). Such a write clears the requests for which it has a
zero in one of the lanes that it covers (`InterruptController.isRaised_write`), and no others, because
the other lanes are filled with ones.
-/

namespace Psx

namespace Interrupt

theorem index_lt (i : Interrupt) : i.index < 11 := by cases i <;> decide

theorem bit_toNat (i : Interrupt) : i.bit.toNat = 2 ^ i.index := by cases i <;> rfl

end Interrupt

namespace InterruptController

variable {c c' c'' : InterruptController}

theorem isRaised_iff (c : InterruptController) (i : Interrupt) :
    c.isRaised i = true ↔ c.status.toBitVec.getLsbD i.index = true := by
  unfold isRaised
  rw [bne_iff_ne, ne_eq, ← UInt16.toNat_inj, UInt16.toNat_and, i.bit_toNat, Nat.and_two_pow]
  simp [BitVec.getLsbD]

/-- The bits that belong to no source are zero. -/
def Implemented (c : InterruptController) : Prop := c.status &&& 0xF800 = 0

/-- All requests are still there, and there are none but those of sources. -/
structure Keeps (c c' : InterruptController) : Prop where
  raised : ∀ i, c.isRaised i = true → c'.isRaised i = true
  implemented : c.Implemented → c'.Implemented

namespace Keeps

theorem refl (c : InterruptController) : c.Keeps c := ⟨fun _ => id, id⟩

theorem trans (h : c.Keeps c') (h' : c'.Keeps c'') : c.Keeps c'' :=
  ⟨fun i hi => h'.raised i (h.raised i hi), fun hc => h'.implemented (h.implemented hc)⟩

theorem of_status (h : c'.status = c.status) : c.Keeps c' := by
  refine ⟨fun i hi => ?_, fun hc => ?_⟩
  · rw [isRaised_iff] at hi ⊢
    rw [h]
    exact hi
  · unfold Implemented
    rw [h]
    exact hc

end Keeps

theorem keeps_raise (c : InterruptController) (i : Interrupt) : c.Keeps (c.raise i) := by
  refine ⟨fun j hj => ?_, fun hc => ?_⟩
  · rw [isRaised_iff] at hj ⊢
    show (c.status ||| (i.bit &&& Interrupt.mask)).toBitVec.getLsbD j.index = true
    rw [UInt16.toBitVec_or, BitVec.getLsbD_or, hj, Bool.true_or]
  · have hsource : (i.bit &&& Interrupt.mask) &&& 0xF800 = 0 := by cases i <;> decide
    have hdistrib : ∀ a b m : UInt16, (a ||| b) &&& m = (a &&& m) ||| (b &&& m) := fun a b m => by
      apply UInt16.eq_of_toBitVec_eq
      ext n hn
      simp [Bool.and_or_distrib_right]
    show (c.status ||| (i.bit &&& Interrupt.mask)) &&& 0xF800 = 0
    rw [hdistrib, hsource, show c.status &&& 0xF800 = 0 from hc]
    rfl

/-! ### Writes -/

/-- A write takes back a request: one of the bytes of I_STAT that it covers has a zero there. -/
def Acknowledges (offset : UInt32) (w : Width) (value : UInt32) (i : Interrupt) : Prop :=
  ∃ k < w.bytes.toNat, offset.toNat + k = i.index / 8 ∧
    (Bytes.byteOf value k).toBitVec.getLsbD (i.index % 8) = false

theorem isRaised_writeStatus (c : InterruptController) (value : UInt32) (i : Interrupt) :
    (c.writeStatus value).isRaised i = true ↔
      c.isRaised i = true ∧ value.toBitVec.getLsbD i.index = true := by
  have hi := i.index_lt
  have hwide : i.index < 16 := by omega
  rw [isRaised_iff, isRaised_iff]
  show (c.status &&& ~~~(~~~value.toUInt16)).toBitVec.getLsbD i.index = true ↔ _
  rw [UInt16.not_not, UInt16.toBitVec_and, BitVec.getLsbD_and, Bool.and_eq_true,
    UInt32.toBitVec_toUInt16, BitVec.getLsbD_setWidth]
  simp [hwide]

theorem lt_of_wordOf {offset : UInt32} (h : wordOf offset = 0) : offset.toNat < 4 := by
  have hbits : ∀ n, 2 ≤ n → offset.toNat.testBit n = false := by
    intro n hn
    by_cases hlast : n < 32
    · have hone : (~~~(3 : UInt32)).toBitVec.getLsbD n = true := by
        interval_cases n <;> decide
      have hzero : (offset &&& ~~~(3 : UInt32)).toBitVec.getLsbD n = false := by
        rw [show offset &&& ~~~(3 : UInt32) = 0 from h]
        exact BitVec.getLsbD_zero
      rw [UInt32.toBitVec_and, BitVec.getLsbD_and, hone, Bool.and_true] at hzero
      exact hzero
    · exact BitVec.getLsbD_of_ge offset.toBitVec n (by omega)
  exact Nat.lt_pow_two_of_testBit (n := 2) _ hbits

/-- A request that is not taken back is still there. -/
theorem isRaised_write {offset : UInt32} {w : Width} {value : UInt32} {i : Interrupt}
    (h : c.isRaised i = true) (hn : ¬Acknowledges offset w value i) :
    (c.write offset w value).isRaised i = true := by
  unfold write
  split_ifs with h0 h4
  · have hlow : offset.toNat < 4 := lt_of_wordOf (beq_iff_eq.1 h0)
    have hi := i.index_lt
    have hbytes : w.bytes.toNat ≤ 4 := by cases w <;> decide
    refine (isRaised_writeStatus ..).2 ⟨h, ?_⟩
    rw [writeLane_bit _ _ _ _ (by omega), Nat.mod_eq_of_lt hlow]
    split_ifs with hin
    · by_contra hzero
      have hlane : 8 * (i.index / 8 - offset.toNat) + i.index % 8 = i.index - 8 * offset.toNat := by
        omega
      refine hn ⟨i.index / 8 - offset.toNat, by omega, by omega, ?_⟩
      rw [Bytes.byteOf_bit _ (by omega) (by omega), hlane]
      exact Bool.eq_false_iff.2 hzero
    · have hones : (0xFFFFFFFF : UInt32).toBitVec = BitVec.allOnes 32 := rfl
      rw [hones, BitVec.getLsbD_allOnes]
      exact decide_eq_true (by omega)
  · exact (Keeps.of_status (c := c) rfl).raised i h
  · exact h

theorem implemented_write (h : c.Implemented) (offset : UInt32) (w : Width) (value : UInt32) :
    (c.write offset w value).Implemented := by
  unfold write
  split_ifs
  · show (c.status &&& _) &&& 0xF800 = 0
    rw [UInt16.and_assoc, UInt16.and_comm _ 0xF800, ← UInt16.and_assoc,
      show c.status &&& 0xF800 = 0 from h, UInt16.zero_and]
  · exact h
  · exact h

end InterruptController

/-! ### Signals -/

namespace Lines

theorem keeps_raiseAll (l : Lines) (is : List Interrupt) :
    l.interrupts.Keeps (l.raiseAll is).interrupts := by
  induction is generalizing l with
  | nil => exact .refl _
  | cons i is ih => exact (l.interrupts.keeps_raise i).trans (ih (l.raise i))

theorem keeps_deliver (l : Lines) (signal : Signal) :
    l.interrupts.Keeps (l.deliver signal).interrupts := by
  cases signal with
  | raise i => exact l.interrupts.keeps_raise i
  | hblankBegin => exact keeps_raiseAll { l with timers := l.timers.hblankBegin.2 } _
  | _ => exact .refl _

theorem keeps_deliverAll (l : Lines) (signals : List Signal) :
    l.interrupts.Keeps (l.deliverAll signals).interrupts := by
  induction signals generalizing l with
  | nil => exact .refl _
  | cons signal signals ih => exact (l.keeps_deliver signal).trans (ih (l.deliver signal))

theorem keeps_advance (l : Lines) (cycles : Nat) :
    l.interrupts.Keeps (l.advance cycles).interrupts :=
  keeps_raiseAll { l with timers := (l.timers.advance cycles).2 } _

end Lines

namespace Board

variable {δ : Type} (b : Board δ)

/-- All requests on the board are still there, and there are none but those of sources. -/
abbrev Keeps (b b' : Board δ) : Prop := b.lines.interrupts.Keeps b'.lines.interrupts

theorem keeps_withDma (asks : Bool) (dma : Dma) : b.Keeps (b.withDma asks dma) := by
  cases asks with
  | true => exact b.lines.interrupts.keeps_raise .dma
  | false => exact .refl _

theorem keeps_withExternal (place : Nat) (e : External δ) (signals : List Signal) (device : δ) :
    b.Keeps (b.withExternal place e signals device) := by
  unfold Board.Keeps withExternal
  dsimp only
  split
  · exact b.lines.keeps_deliverAll signals
  · exact .refl _

variable [Device δ] (p : Part)

theorem keeps_read (offset : UInt32) (w : Width) : b.Keeps (b.read p offset w).2 := by
  cases p with
  | «external» i =>
    unfold read; dsimp only; split
    · exact .refl _
    · exact b.keeps_withExternal ..
  | _ => exact .refl _

variable {p} in
theorem keeps_write (hp : p ≠ .interrupts) (offset : UInt32) (w : Width) (value : UInt32) :
    b.Keeps (b.write p offset w value) := by
  cases p with
  | interrupts => exact absurd rfl hp
  | dma => exact b.keeps_withDma ..
  | gpu => exact b.lines.keeps_deliverAll _
  | «external» i =>
    unfold write; dsimp only; split
    · exact .refl _
    · exact b.keeps_withExternal ..
  | _ => exact .refl _

theorem keeps_consume (channel : Nat) (word : UInt32) : b.Keeps (b.consume p channel word) := by
  cases p with
  | gpu => exact b.lines.keeps_deliverAll _
  | «external» i =>
    unfold consume; dsimp only; split
    · exact .refl _
    · exact b.keeps_withExternal ..
  | _ => exact .refl _

theorem keeps_produce (channel : Nat) : b.Keeps (b.produce p channel).2 := by
  cases p with
  | «external» i =>
    unfold produce; dsimp only; split
    · exact .refl _
    · exact b.keeps_withExternal ..
  | _ => exact .refl _

theorem keeps_advance (cycles : Nat) : b.Keeps (b.advance cycles p) := by
  cases p with
  | timers => exact b.lines.keeps_advance cycles
  | gpu => exact b.lines.keeps_deliverAll _
  | «external» i =>
    unfold advance; dsimp only; split
    · exact .refl _
    · exact b.keeps_withExternal ..
  | _ => exact .refl _

/-- No source is outside of I_STAT, whatever is done on the board. -/
theorem implemented_invariant :
    Invariant (δ := δ) (fun _ => True) fun b => b.lines.interrupts.Implemented where
  read {b p} h _ offset w := (b.keeps_read p offset w).implemented h
  write {b p} h _ offset w value := by
    by_cases hp : p = .interrupts
    · subst hp; exact InterruptController.implemented_write h offset w value
    · exact (b.keeps_write hp offset w value).implemented h
  consume {b p} h _ channel word := (b.keeps_consume p channel word).implemented h
  produce {b p} h _ channel := (b.keeps_produce p channel).implemented h
  advance {b p} h _ cycles := (b.keeps_advance p cycles).implemented h

theorem implemented_reset {b : Board δ} (h : b.lines.interrupts.Implemented) (p : Part) :
    (b.reset p).lines.interrupts.Implemented := by
  cases p with
  | interrupts => exact show (0 : UInt16) &&& 0xF800 = 0 from rfl
  | gpu => exact (b.lines.keeps_deliverAll _).implemented h
  | «external» i =>
    unfold reset; dsimp only; split
    · exact h
    · exact (b.keeps_withExternal ..).implemented h
  | _ => exact h

end Board

end Psx
