import Psx.Proofs.Bus.RegisterMap

/-!
# Narrow writes

A write to some lanes of a register leaves the others alone. What that takes differs: a bit that is
cleared by a zero has to be filled with a one, one that is cleared by a one with a zero, and one
that is taken as it is with what it was (`Register.rule`). Bit by bit all registers behave alike
(`Register.stored_bit`), but for the bits that a register does not implement, which every write
leaves at zero (`Register.stored_bit_absent`), and for the master flag of DICR, which follows the
other bits. Main statement: a narrow write touches its lanes and nothing else, and a word that is
written in pieces leaves what it leaves in one piece, in whatever order the pieces come
(`Board.write_in_lanes`).

Writing a bit once more changes nothing (`BitRule.next_next`), and this is why the order does not
matter.
-/

namespace Psx

/-- What a write makes of a bit. -/
inductive BitRule where
  | taken
  | clearedByZero
  | clearedByOne
deriving DecidableEq, Repr

namespace BitRule

def next : BitRule → Bool → Bool → Bool
  | taken, _, new => new
  | clearedByZero, old, new => old && new
  | clearedByOne, old, new => old && !new

theorem next_next (rule : BitRule) (old new : Bool) :
    rule.next (rule.next old new) new = rule.next old new := by
  cases rule <;> cases old <;> cases new <;> rfl

end BitRule

/-- An access to the lanes from one on covers a bit. -/
def Width.covers (w : Width) (k : Fin 4) (n : Nat) : Bool :=
  decide (8 * k.val ≤ n ∧ n < 8 * (k.val + w.bytes.toNat))

/-- Some piece covers a bit. -/
def covered (pieces : List (Fin 4 × Width)) (n : Nat) : Bool :=
  pieces.any fun (k, w) => w.covers k n

namespace Register

/-- The flags of DICR are cleared by writing a one, the requests in I_STAT by writing a zero. -/
def rule : Register → Nat → BitRule
  | istat, _ => .clearedByZero
  | dicr, n => if n < 24 then .taken else .clearedByOne
  | _, _ => .taken

/-- The register implements the bit, and it does not follow from the others. -/
def own (r : Register) (n : Nat) : Bool :=
  r.implemented.toBitVec.getLsbD n && !(r == dicr && n == 31)

section

variable {δ : Type} (b : Board δ) (r : Register) (k : Fin 4) (w : Width) (v : UInt32) {n : Nat}

/-! ### One write -/

theorem writeLane_covers (x : UInt32) (hn : n < 32) :
    (writeLane x (r.lane k) w v).toBitVec.getLsbD n =
      if w.covers k n then v.toBitVec.getLsbD (n - 8 * k) else x.toBitVec.getLsbD n := by
  rw [writeLane_bit _ _ _ _ hn, r.lane_mod k]
  unfold Width.covers
  simp only [decide_eq_true_eq]

theorem dicr_implemented (hn : n < 32) :
    dicr.implemented.toBitVec.getLsbD n = decide (6 ≤ n) := by
  interval_cases n <;> rfl

theorem stored_bit_absent (hn : n < 32) (h : r.implemented.toBitVec.getLsbD n = false) :
    (r.stored b k w v).toBitVec.getLsbD n = false := by
  by_cases hr : r = dicr
  · subst hr
    rw [dicr_implemented hn, decide_eq_false_iff_not] at h
    exact (Dma.shows_writeInterrupt _ _ (by omega)).trans (if_pos (by omega))
  · rw [← stored_and b hr, UInt32.toBitVec_and, BitVec.getLsbD_and, h, Bool.and_false]

theorem stored_bit_dicr (h6 : 6 ≤ n) (hn : n < 31) :
    (dicr.stored b k w v).toBitVec.getLsbD n =
      if w.covers k n then
        (dicr.rule n).next (b.dma.shows n) (v.toBitVec.getLsbD (n - 8 * k))
      else b.dma.shows n := by
  have hwide : n < 32 := by omega
  have hmask : Dma.addressMask.toBitVec.getLsbD n = decide (n < 24) := by
    interval_cases n <;> rfl
  refine (Dma.shows_writeInterrupt _ _ hn).trans ?_
  rw [if_neg (by omega), writeLane_covers dicr k w v _ hwide, UInt32.toBitVec_and,
    BitVec.getLsbD_and, hmask]
  show (if n < 24 then if w.covers k n then _ else b.dma.shows n && _ else _) = _
  by_cases h24 : n < 24 <;> by_cases hc : w.covers k n = true <;>
    simp [h24, hc, rule, BitRule.next]

/-- A bit in the lanes becomes what its rule says, and the others stay. -/
theorem stored_bit (hn : n < 32) (hr : r.own n = true) :
    (r.stored b k w v).toBitVec.getLsbD n =
      if w.covers k n then
        (r.rule n).next ((r.value b).toBitVec.getLsbD n) (v.toBitVec.getLsbD (n - 8 * k))
      else (r.value b).toBitVec.getLsbD n := by
  obtain ⟨himplemented, hother⟩ := (Bool.and_eq_true ..).mp hr
  cases r with
  | istat =>
    have hones : (0xFFFFFFFF : UInt32).toBitVec.getLsbD n = true := by
      interval_cases n <;> rfl
    unfold stored
    dsimp only
    rw [UInt32.toBitVec_and, BitVec.getLsbD_and, writeLane_covers _ k w v _ hn, hones]
    split
    · rfl
    · rw [Bool.and_true]
  | dicr =>
    rw [dicr_implemented hn, decide_eq_true_eq] at himplemented
    have hmaster : n ≠ 31 := by
      rintro rfl
      cases hother
    exact stored_bit_dicr b k w v himplemented (by omega)
  | _ =>
    unfold stored
    dsimp only
    rw [UInt32.toBitVec_and, BitVec.getLsbD_and, writeLane_covers _ k w v _ hn, himplemented,
      Bool.and_true]
    rfl

theorem stored_master : (dicr.stored b k w v).toBitVec.getLsbD 31 =
    Dma.masterFlag (dicr.stored b k w v) := (Dma.consistent_writeInterrupt _ _).master

end

end Register

/-! ### Words in pieces -/

variable {δ : Type} [Device δ]

/-- Writes a word in pieces, each to the lanes from one on. -/
def Board.writePieces (b : Board δ) (r : Register) (v : UInt32) : List (Fin 4 × Width) → Board δ
  | [] => b
  | (k, w) :: pieces =>
    (b.write r.part (r.lane k) w (v >>> (8 * .ofNat k))).writePieces r v pieces

namespace Register

variable (b : Board δ) (r : Register) (v : UInt32) {pieces pieces' : List (Fin 4 × Width)} {n : Nat}

omit [Device δ] in
theorem piece_bit {k : Fin 4} {w : Width} (h : w.covers k n = true) :
    (v >>> (8 * .ofNat k)).toBitVec.getLsbD (n - 8 * k) = v.toBitVec.getLsbD n := by
  have hshift : ∀ k : Fin 4,
      ((8 * UInt32.ofNat k).toBitVec % (32 : BitVec 32)).toNat = 8 * k.val := by decide
  obtain ⟨hlow, -⟩ := of_decide_eq_true h
  rw [UInt32.toBitVec_shiftRight, BitVec.ushiftRight_eq', hshift, BitVec.getLsbD_ushiftRight,
    Nat.add_sub_cancel' hlow]

/-- A bit that several pieces cover is as behind the first of them. -/
theorem writePieces_bit (hn : n < 32) (hr : r.own n = true) :
    (r.value (b.writePieces r v pieces)).toBitVec.getLsbD n =
      if covered pieces n then
        (r.rule n).next ((r.value b).toBitVec.getLsbD n) (v.toBitVec.getLsbD n)
      else (r.value b).toBitVec.getLsbD n := by
  induction pieces generalizing b with
  | nil => rfl
  | cons piece pieces ih =>
    obtain ⟨k, w⟩ := piece
    have hcons : covered ((k, w) :: pieces) n = (w.covers k n || covered pieces n) := rfl
    unfold Board.writePieces
    rw [ih, value_write, stored_bit b r k w _ hn hr, hcons]
    cases hc : w.covers k n with
    | false => rfl
    | true =>
      rw [piece_bit v hc, if_pos rfl, Bool.true_or, if_pos rfl]
      split
      · exact (r.rule n).next_next _ _
      · rfl

/-- Behind the last piece the register holds what a write stores. -/
theorem writePieces_stored (h : pieces ≠ []) :
    ∃ (b' : Board δ) (k : Fin 4) (w : Width) (x : UInt32),
    r.value (b.writePieces r v pieces) = r.stored b' k w x := by
  induction pieces generalizing b with
  | nil => exact absurd rfl h
  | cons piece pieces ih =>
    obtain ⟨k, w⟩ := piece
    unfold Board.writePieces
    by_cases hlast : pieces = []
    · subst hlast
      exact ⟨b, k, w, _, r.value_write b k w _⟩
    · exact ih _ hlast

/-- It does not matter in which pieces a word is written, and in which order. -/
theorem value_writePieces (h : ∀ n < 32, covered pieces n = true)
    (h' : ∀ n < 32, covered pieces' n = true) :
    r.value (b.writePieces r v pieces) = r.value (b.writePieces r v pieces') := by
  have hsome : ∀ {pieces}, (∀ n < 32, covered pieces n = true) → pieces ≠ [] := by
    rintro _ hcover rfl
    cases hcover 0 (by decide)
  obtain ⟨b₁, k₁, w₁, x₁, h₁⟩ := writePieces_stored b r v (hsome h)
  obtain ⟨b₂, k₂, w₂, x₂, h₂⟩ := writePieces_stored b r v (hsome h')
  have hbits : ∀ n < 32, ¬(r = dicr ∧ n = 31) →
      (r.value (b.writePieces r v pieces)).toBitVec.getLsbD n =
        (r.value (b.writePieces r v pieces')).toBitVec.getLsbD n := by
    intro n hn hother
    cases himplemented : r.implemented.toBitVec.getLsbD n with
    | false =>
      rw [h₁, h₂, stored_bit_absent _ _ _ _ _ hn himplemented,
        stored_bit_absent _ _ _ _ _ hn himplemented]
    | true =>
      have hown : r.own n = true := by
        rcases not_and_or.1 hother with h | h <;> simp [own, himplemented, h]
      rw [writePieces_bit b r v hn hown, writePieces_bit b r v hn hown, h n hn, h' n hn]
  apply UInt32.eq_of_toBitVec_eq
  refine BitVec.eq_of_getLsbD_eq fun n hn => ?_
  by_cases hmaster : r = dicr ∧ n = 31
  · -- the flag follows the other bits, and those agree
    obtain ⟨rfl, rfl⟩ := hmaster
    rw [h₁, h₂, stored_master, stored_master, ← h₁, ← h₂]
    exact Dma.masterFlag_congr fun n hn => hbits n (by omega) (by omega)
  · exact hbits n hn hmaster

end Register

/-- What a write to the lanes of a register leaves behind, from one on. -/
structure Register.Written (r : Register) (k : Fin 4) (w : Width) (v : UInt32) (b b' : Board δ) :
    Prop where
  inside : ∀ n < 32, r.own n = true → w.covers k n = true →
    (r.value b').toBitVec.getLsbD n =
      (r.rule n).next ((r.value b).toBitVec.getLsbD n) (v.toBitVec.getLsbD (n - 8 * k))
  outside : ∀ n < 32, r.own n = true → w.covers k n = false →
    (r.value b').toBitVec.getLsbD n = (r.value b).toBitVec.getLsbD n
  /-- Bits that are not implemented are zero. -/
  absent : ∀ n < 32, r.implemented.toBitVec.getLsbD n = false →
    (r.value b').toBitVec.getLsbD n = false
  /-- Nothing else changes, unless the master flag of DICR rises. -/
  rest : b' = r.set b (r.value b')
  others : ∀ s ≠ r, s.value b' = s.value b ∨ r = .dicr ∧ s = .istat
  /-- No request is acknowledged outside the lanes. -/
  requests : ∀ i, b.lines.interrupts.isRaised i = true →
    (r = .istat → w.covers k i.index = false) → b'.lines.interrupts.isRaised i = true
  /-- No flag is cleared outside the lanes. -/
  flags : ∀ n, 24 ≤ n → n < 31 → b.dma.shows n = true →
    (r = .dicr → w.covers k n = false) → b'.dma.shows n = true

namespace Board

omit [Device δ] in
theorem isRaised_eq (b : Board δ) (i : Interrupt) : b.lines.interrupts.isRaised i =
    (Register.istat.value b).toBitVec.getLsbD i.index := by
  have hi := i.index_lt
  rw [Bool.eq_iff_iff, InterruptController.isRaised_iff]
  show _ ↔ (b.lines.interrupts.status.toUInt32).toBitVec.getLsbD i.index = true
  rw [UInt16.toBitVec_toUInt32, BitVec.getLsbD_setWidth, decide_eq_true (by omega), Bool.true_and]

theorem written_write (b : Board δ) (r : Register) (k : Fin 4) (w : Width) (v : UInt32) :
    r.Written k w v b (b.write r.part (r.lane k) w v) := by
  have hvalue := r.value_write b k w v
  have hrest := b.write_lane r k w v
  have hbit := fun {n} => Register.stored_bit b r k w v (n := n)
  rw [← hvalue] at hrest hbit
  generalize b.write r.part (r.lane k) w v = b' at *
  have hset := Register.set_cases b r (r.value b')
  rw [← hrest] at hset
  have houtside : ∀ n < 32, r.own n = true → w.covers k n = false →
      (r.value b').toBitVec.getLsbD n = (r.value b).toBitVec.getLsbD n := by
    intro n hn hown hc
    rw [hbit hn hown, hc]
    rfl
  -- the one way to another register: a write to DICR that makes the controller ask for attention
  have hothers : ∀ s ≠ r, s.value b' = s.value b ∨ r = .dicr ∧ s = .istat := by
    intro s hs
    rcases hset with h | ⟨rfl, h⟩
    · left
      rw [h]
      exact Register.value_put_of_ne b _ hs
    · by_cases hstatus : s = .istat
      · exact .inr ⟨rfl, hstatus⟩
      · left
        rw [h]
        cases s <;> first | rfl | exact absurd rfl hstatus | exact absurd rfl hs
  refine ⟨fun n hn hown hc => ?_, houtside, fun n hn himplemented => ?_, hrest, hothers,
    fun i hi hout => ?_, fun n h24 h31 hflag hout => ?_⟩
  · rw [hbit hn hown, hc]
    rfl
  · rw [hvalue]
    exact Register.stored_bit_absent b r k w v hn himplemented
  · rcases hset with h | ⟨rfl, h⟩
    · rw [b.isRaised_eq] at hi
      rw [b'.isRaised_eq, ← hi]
      by_cases hr : r = .istat
      · subst hr
        have hlt := i.index_lt
        exact houtside _ (by omega) (by cases i <;> rfl) (hout rfl)
      · rw [h, Register.value_put_of_ne b _ (Ne.symm hr)]
    · rw [h]
      exact (b.lines.interrupts.keeps_raise .dma).raised i hi
  · by_cases hr : r = .dicr
    · subst hr
      have hown : ∀ n < 31, 24 ≤ n → Register.dicr.own n = true := by decide
      exact (houtside n (by omega) (hown n h31 h24) (hout rfl)).trans hflag
    · rcases hothers .dicr (Ne.symm hr) with h | ⟨h, -⟩
      · exact (congrArg (·.toBitVec.getLsbD n) h).trans hflag
      · exact absurd h hr

/-- Writes to registers stay in their lanes, whatever the board holds, whichever lanes they cover
and whatever is written: there every bit follows its rule, and no other bit changes but those that
the register does not implement, which become zero, the master flag of DICR, and the request in
I_STAT that goes with it when it rises. A word that is written in pieces that cover it, in any
order, leaves the value that it leaves when it is written at once. -/
theorem write_in_lanes (b : Board δ) (r : Register) (v : UInt32) :
    (b.read r.part r.offset .word).1 = r.value b ∧
      (∀ k w, r.Written k w v b (b.write r.part (r.lane k) w v)) ∧
      ∀ pieces, (∀ n < 32, covered pieces n = true) →
        r.value (b.writePieces r v pieces) = r.value (b.write r.part r.offset .word v) := by
  refine ⟨b.read_register r, fun k w => b.written_write r k w v, fun pieces h => ?_⟩
  have hword : b.writePieces r v [(0, .word)] = b.write r.part r.offset .word v := by
    show b.write r.part (r.offset + 0) .word (v >>> 0) = _
    rw [UInt32.add_zero, UInt32.shiftRight_zero]
  have hall : ∀ n < 32, covered [(0, .word)] n = true := by decide
  rw [← hword]
  exact r.value_writePieces b v h hall

/-- DICR with two flags: a byte in the lane of the enables keeps both, and the four bytes of a word
that clears one of them clear it and no more, the high byte first. -/
theorem write_in_lanes_dicr :
    let b : Board Empty := { Board.ofConfig {} with dma := { sliceGap := 1, interrupt := 0x03000000 } }
    let pieces := [(3, Width.byte), (2, .byte), (1, .byte), (0, .byte)]
    (∀ n < 32, covered pieces n = true) ∧
      (b.write .dma (Register.dicr.lane 2) .byte 0x03).dma.shows 24 = true ∧
      (b.write .dma (Register.dicr.lane 2) .byte 0x03).dma.shows 25 = true ∧
      Register.dicr.value (b.writePieces .dicr 0x01030000 pieces) =
        Register.dicr.value (b.write .dma 0x74 .word 0x01030000) ∧
      Register.dicr.value (b.write .dma 0x74 .word 0x01030000) = 0x02030000 := by
  intro b pieces
  have hcover : ∀ n < 32, covered pieces n = true := by decide
  obtain ⟨-, hwritten, -⟩ := write_in_lanes b .dicr 0x03
  obtain ⟨-, -, hpieces⟩ := write_in_lanes b .dicr 0x01030000
  have hflags := (hwritten 2 .byte).flags
  exact ⟨hcover, hflags 24 (by decide) (by decide) (by decide +kernel) (fun _ => by decide),
    hflags 25 (by decide) (by decide) (by decide +kernel) (fun _ => by decide),
    hpieces _ hcover, by decide +kernel⟩

/-- A byte in the low lane of I_MASK clears a bit that no source has, if a state has set it, and a
byte in DICR that forces the master flag up is a request. -/
theorem write_beside_lanes :
    let b : Board Empty := { Board.ofConfig {} with lines.interrupts := { mask := 0xFFFF } }
    let masked := b.write .interrupts (Register.imask.lane 0) .byte 0xFF
    let forced := b.write .dma (Register.dicr.lane 1) .byte 0x80
    Width.byte.covers 0 15 = false ∧ Register.imask.value b = 0xFFFF ∧
      Register.imask.value masked = 0x07FF ∧
      Register.istat.value b = 0 ∧ Register.istat.value forced = 0x0008 := by
  decide +kernel

end Board

end Psx
