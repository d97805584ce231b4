import Psx.Proofs.Dma.MasterFlag
import Psx.Proofs.Interrupt.Requests
import Psx.Proofs.Timer.Slices

/-!
# Registers that are written in place

The registers in which a write leaves something at the place that it names, and does nothing else
but ask for attention when the master flag of DICR rises: I_STAT and I_MASK, DPCR and DICR, the
address and the size of a DMA channel, the count and the target of a timer, and the memory control
registers (`Register`). `Register.value` is what a program reads there (`Board.read_register`). To
write to some lanes of a register is to put there what `Register.stored` says (`Board.write_lane`),
which is the value that is read behind the write (`Register.value_write`).
-/

namespace Psx

inductive Register where
  /-- I_STAT -/
  | istat
  /-- I_MASK -/
  | imask
  /-- Enables and priorities of the DMA channels. -/
  | dpcr
  /-- Interrupts of the DMA channels. -/
  | dicr
  /-- Where a DMA channel moves words. -/
  | madr (i : Fin 7)
  /-- How many words a DMA channel moves. -/
  | bcr (i : Fin 7)
  | counter (i : Fin 3)
  | target (i : Fin 3)
  | memory (i : Fin 9)
  | ramSize
deriving DecidableEq, Repr

namespace Register

def part : Register → Part
  | istat | imask => .interrupts
  | dpcr | dicr | madr _ | bcr _ => .dma
  | counter _ | target _ => .timers
  | memory _ | ramSize => .memoryControl

/-- Where the register lies among those of its part. -/
def offset : Register → UInt32
  | istat => 0x00
  | imask => 0x04
  | dpcr => 0x70
  | dicr => 0x74
  | madr i => 16 * .ofNat i
  | bcr i => 16 * .ofNat i + 4
  | counter i => 16 * .ofNat i
  | target i => 16 * .ofNat i + 8
  | memory i => 4 * .ofNat i
  | ramSize => 0x60

/-- Where one of its lanes lies. -/
def lane (r : Register) (k : Fin 4) : UInt32 := r.offset + .ofNat k

/-- The bits that are implemented. -/
def implemented : Register → UInt32
  | istat | counter _ | target _ => 0x0000FFFF
  | imask => 0x000007FF
  | dicr => 0xFFFFFFC0
  | madr _ => 0x00FFFFFF
  | dpcr | bcr _ | memory _ | ramSize => 0xFFFFFFFF

section

variable {δ : Type} (b : Board δ)

def value : Register → UInt32
  | istat => b.lines.interrupts.status.toUInt32
  | imask => b.lines.interrupts.mask.toUInt32
  | dpcr => b.dma.control
  | dicr => b.dma.interrupt
  | madr i => (b.dma.channel i).address
  | bcr i => (b.dma.channel i).blockControl
  | counter i => (b.lines.timers.channels.get i).counter.toUInt32
  | target i => (b.lines.timers.channels.get i).target.toUInt32
  | memory i => b.memoryControl.registers.get i
  | ramSize => b.memoryControl.ramSize

/-- The board with another value in a register. -/
def put (x : UInt32) : Register → Board δ
  | istat => { b with lines.interrupts.status := x.toUInt16 }
  | imask => { b with lines.interrupts.mask := x.toUInt16 }
  | dpcr => { b with dma.control := x }
  | dicr => { b with dma.interrupt := x }
  | madr i => { b with dma := b.dma.modify i fun c => { c with address := x } }
  | bcr i => { b with dma := b.dma.modify i fun c => { c with blockControl := x } }
  | counter i =>
    { b with lines.timers := b.lines.timers.modify i fun c => { c with counter := x.toUInt16 } }
  | target i =>
    { b with lines.timers := b.lines.timers.modify i fun c => { c with target := x.toUInt16 } }
  | memory i => { b with memoryControl.registers := b.memoryControl.registers.set i x }
  | ramSize => { b with memoryControl.ramSize := x }

/-- The DMA controller asks for attention when the master flag of DICR rises. -/
def set (x : UInt32) (r : Register) : Board δ :=
  if r = dicr ∧ b.dma.shows 31 = false ∧ x.toBitVec.getLsbD 31 = true then
    { r.put b x with lines := b.lines.raise .dma }
  else r.put b x

/-- What a write puts into a register: the lanes that it does not cover are filled with what leaves
them as they are. -/
def stored (r : Register) (k : Fin 4) (w : Width) (v : UInt32) : UInt32 :=
  match r with
  | istat => r.value b &&& writeLane 0xFFFFFFFF (r.lane k) w v
  | dicr =>
    (b.dma.writeInterrupt (writeLane (r.value b &&& Dma.addressMask) (r.lane k) w v)).2.interrupt
  | r => writeLane (r.value b) (r.lane k) w v &&& r.implemented

/-! ### Values -/

theorem toUInt32_and_ones (x : UInt16) : x.toUInt32 &&& 0xFFFF = x.toUInt32 := by
  have hx := x.toNat_lt
  apply UInt32.toNat_inj.1
  rw [UInt32.toNat_and, UInt16.toNat_toUInt32]
  exact (Nat.and_two_pow_sub_one_eq_mod _ 16).trans (Nat.mod_eq_of_lt hx)

theorem toUInt16_and_ones (x : UInt32) : (x &&& 0xFFFF).toUInt16 = x.toUInt16 := by
  rw [UInt32.toUInt16_and]
  exact UInt16.and_neg_one

theorem toUInt32_toUInt16_of_and {x mask : UInt32} (hm : mask.toNat < 2 ^ 16)
    (h : x &&& mask = x) : x.toUInt16.toUInt32 = x := by
  have hx : x.toNat ≤ mask.toNat := by
    rw [← h, UInt32.toNat_and]
    exact Nat.and_le_right
  apply UInt32.toNat_inj.1
  rw [UInt16.toNat_toUInt32, UInt32.toNat_toUInt16, Nat.mod_eq_of_lt (by omega)]

theorem value_put {r : Register} {x : UInt32} (h : r ≠ dicr → x &&& r.implemented = x) :
    r.value (r.put b x) = x := by
  cases r with
  | istat | imask => exact toUInt32_toUInt16_of_and (by decide) (h (by decide))
  | dpcr | dicr | ramSize => rfl
  | madr i | bcr i =>
    unfold value put
    dsimp only
    rw [Dma.channel_modify, if_pos rfl]
  | counter i | target i =>
    unfold value put
    dsimp only
    rw [Timers.channel_modify, if_pos rfl]
    have hm : (0xFFFF : UInt32).toNat < 2 ^ 16 := by decide
    exact toUInt32_toUInt16_of_and hm (h (by simp))
  | memory i => exact Vector.getElem_set_self _

/-- No two registers are the same place. -/
theorem value_put_of_ne {r s : Register} (x : UInt32) (h : s ≠ r) :
    s.value (r.put b x) = s.value b := by
  cases r <;> cases s <;> first | rfl | exact absurd rfl h | skip
  case memory.memory i j =>
    exact Vector.getElem_set_ne i.isLt j.isLt fun e => h (congrArg memory (Fin.ext e.symm))
  all_goals
    unfold value put
    dsimp only
    first | rw [Dma.channel_modify] | rw [Timers.channel_modify]
    split_ifs with hi
    · subst hi
      first | rfl | exact absurd rfl h
    · rfl

theorem set_of_ne {r : Register} (x : UInt32) (h : r ≠ dicr) : r.set b x = r.put b x :=
  if_neg fun hr => h hr.1

theorem set_cases (r : Register) (x : UInt32) : r.set b x = r.put b x ∨
    r = dicr ∧ r.set b x = { r.put b x with lines := b.lines.raise .dma } := by
  unfold set
  split_ifs with h
  · exact .inr ⟨h.1, rfl⟩
  · exact .inl rfl

theorem stored_and {r : Register} (h : r ≠ dicr) (k : Fin 4) (w : Width) (v : UInt32) :
    r.stored b k w v &&& r.implemented = r.stored b k w v := by
  cases r with
  | istat =>
    show (b.lines.interrupts.status.toUInt32 &&& _) &&& (0xFFFF : UInt32) =
      b.lines.interrupts.status.toUInt32 &&& _
    rw [UInt32.and_assoc, UInt32.and_comm _ 0xFFFF, ← UInt32.and_assoc, toUInt32_and_ones]
  | dicr => exact absurd rfl h
  | _ =>
    show (_ &&& _) &&& _ = _ &&& _
    rw [UInt32.and_assoc, UInt32.and_self]

theorem stored_of_plain {r : Register} (h : r ≠ istat ∧ r ≠ dicr) (ho : r.implemented = 0xFFFFFFFF)
    (k : Fin 4) (w : Width) (v : UInt32) :
    r.stored b k w v = writeLane (r.value b) (r.lane k) w v := by
  have hones : ∀ x : UInt32, x &&& 0xFFFFFFFF = x := fun _ => UInt32.and_neg_one
  unfold stored
  split
  · exact absurd rfl h.1
  · exact absurd rfl h.2
  · rw [ho, hones]

end

/-! ### Places -/

theorem lane_mod (r : Register) (k : Fin 4) : (r.lane k).toNat % 4 = k := by
  revert k
  cases r with
  | istat | imask | dpcr | dicr | ramSize => decide
  | madr i | bcr i | counter i | target i | memory i =>
    revert i
    decide

theorem lane_dma : ∀ (i : Fin 7) (k : Fin 4),
    Dma.channelAt? (lane (madr i) k) = some i ∧ lane (madr i) k &&& 0x0C = 0x00 ∧
      Dma.channelAt? (lane (bcr i) k) = some i ∧ lane (bcr i) k &&& 0x0C = 0x04 := by decide

theorem lane_timers : ∀ (i : Fin 3) (k : Fin 4),
    Timers.channelAt? (lane (counter i) k) = some i ∧ lane (counter i) k &&& 0x0C = 0x00 ∧
      Timers.channelAt? (lane (target i) k) = some i ∧ lane (target i) k &&& 0x0C = 0x08 := by
  decide

theorem lane_memory : ∀ (i : Fin 9) (k : Fin 4),
    wordOf (lane (memory i) k) ≠ MemoryControl.ramSizeOffset ∧
      (lane (memory i) k / 4).toNat = i := by decide

theorem lane_dpcr : ∀ k, Dma.channelAt? (dpcr.lane k) = none ∧ wordOf (dpcr.lane k) = 0x70 := by
  decide

theorem lane_dicr : ∀ k, Dma.channelAt? (dicr.lane k) = none ∧ wordOf (dicr.lane k) = 0x74 := by
  decide

/-! ### What the parts do -/

variable (k : Fin 4) (w : Width) (v : UInt32)

theorem write_istat (c : InterruptController) : c.write (istat.lane k) w v =
      { c with
        status := (c.status.toUInt32 &&& writeLane 0xFFFFFFFF (istat.lane k) w v).toUInt16 } := by
  have hword : ∀ k, wordOf (istat.lane k) = 0 := by decide
  unfold InterruptController.write InterruptController.writeStatus InterruptController.acknowledge
  rw [hword, if_pos (beq_self_eq_true _), UInt16.not_not, UInt32.toUInt16_and,
    UInt16.toUInt16_toUInt32]

theorem write_imask (c : InterruptController) : c.write (imask.lane k) w v =
    { c with mask := (writeLane c.mask.toUInt32 (imask.lane k) w v &&& 0x7FF).toUInt16 } := by
  have hword : ∀ k, wordOf (imask.lane k) = 4 := by decide
  unfold InterruptController.write InterruptController.writeMask
  rw [hword, if_neg (by decide), if_pos (beq_self_eq_true _), UInt32.toUInt16_and]
  rfl

section

variable (d : Dma)

theorem write_dpcr : d.write (dpcr.lane k) w v =
    (false, { d with control := writeLane d.control (dpcr.lane k) w v }) := by
  obtain ⟨hnone, hword⟩ := lane_dpcr k
  unfold Dma.write Dma.register
  rw [hnone, hword]
  rfl

theorem write_dicr : d.write (dicr.lane k) w v =
    d.writeInterrupt (writeLane (d.interrupt &&& Dma.addressMask) (dicr.lane k) w v) := by
  obtain ⟨hnone, hword⟩ := lane_dicr k
  unfold Dma.write
  rw [hnone, hword]
  rfl

theorem updateMasterFlag_eq : d.updateMasterFlag.2 =
    { d with interrupt := d.updateMasterFlag.2.interrupt } := by
  unfold Dma.updateMasterFlag
  split <;> rfl

theorem writeInterrupt_eq (x : UInt32) : (d.writeInterrupt x).2 =
    { d with interrupt := (d.writeInterrupt x).2.interrupt } := updateMasterFlag_eq _

theorem write_madr (i : Fin 7) : d.write (lane (madr i) k) w v =
    (false, d.writeAddress i (writeLane (d.channel i).address (lane (madr i) k) w v)) := by
  obtain ⟨hchannel, hregister, -⟩ := lane_dma i k
  unfold Dma.write Dma.register
  rw [hchannel, hregister]
  rfl

theorem write_bcr (i : Fin 7) : d.write (lane (bcr i) k) w v =
    (false, d.writeBlockControl i (writeLane (d.channel i).blockControl (lane (bcr i) k) w v)) := by
  obtain ⟨-, -, hchannel, hregister⟩ := lane_dma i k
  unfold Dma.write Dma.register
  rw [hchannel, hregister]
  rfl

end

theorem write_counter (t : Timers) (i : Fin 3) : t.write (lane (counter i) k) w v =
    t.modify i fun c =>
      c.writeCounter (writeLane c.counter.toUInt32 (lane (counter i) k) w v).toUInt16 := by
  obtain ⟨hchannel, hregister, -⟩ := lane_timers i k
  unfold Timers.write
  rw [hchannel, hregister]
  rfl

theorem write_target (t : Timers) (i : Fin 3) : t.write (lane (target i) k) w v =
    t.modify i fun c =>
      c.writeTarget (writeLane c.target.toUInt32 (lane (target i) k) w v).toUInt16 := by
  obtain ⟨-, -, hchannel, hregister⟩ := lane_timers i k
  unfold Timers.write
  rw [hchannel, hregister]
  rfl

theorem write_memory (m : MemoryControl) (i : Fin 9) : m.write (lane (memory i) k) w v =
    let x := writeLane (m.registers.get i) (lane (memory i) k) w v
    { m with registers := m.registers.set i x } := by
  obtain ⟨hram, hi⟩ := lane_memory i k
  unfold MemoryControl.write
  rw [if_neg (by simpa using hram)]
  dsimp only
  simp only [hi]
  rw [dif_pos i.isLt]
  rfl

theorem write_ramSize (m : MemoryControl) : m.write (ramSize.lane k) w v =
    { m with ramSize := writeLane m.ramSize (ramSize.lane k) w v } := by
  have hword : ∀ k, wordOf (ramSize.lane k) = MemoryControl.ramSizeOffset := by decide
  unfold MemoryControl.write
  rw [hword, if_pos (beq_self_eq_true _)]

end Register

namespace Board

open Register

variable {δ : Type} [Device δ] (b : Board δ) (r : Register)

/-! ### What the board does -/

theorem read_register : (b.read r.part r.offset .word).1 = r.value b := by
  have hlane : r.offset = r.lane 0 := (UInt32.add_zero _).symm
  have hread : ∀ x, readLane x (r.lane 0) .word = x := by
    intro x
    have hshift : laneShift (r.lane 0) = 0 := by
      apply UInt32.toNat_inj.1
      rw [laneShift_toNat, r.lane_mod]
      rfl
    unfold readLane
    rw [hshift, UInt32.shiftRight_zero]
    exact UInt32.and_neg_one
  rw [hlane]
  cases r with
  | istat | imask | dpcr | dicr | ramSize => exact hread _
  | madr i =>
    obtain ⟨hchannel, hregister, -⟩ := lane_dma i 0
    show readLane (b.dma.register _) _ _ = _
    rw [hread, Dma.register, hchannel, hregister]
    rfl
  | bcr i =>
    obtain ⟨-, -, hchannel, hregister⟩ := lane_dma i 0
    show readLane (b.dma.register _) _ _ = _
    rw [hread, Dma.register, hchannel, hregister]
    rfl
  | counter i =>
    obtain ⟨hchannel, hregister, -⟩ := lane_timers i 0
    show (b.lines.timers.read _ _).1 = _
    unfold Timers.read
    rw [hchannel, hregister]
    exact hread _
  | target i =>
    obtain ⟨-, -, hchannel, hregister⟩ := lane_timers i 0
    show (b.lines.timers.read _ _).1 = _
    unfold Timers.read
    rw [hchannel, hregister]
    exact hread _
  | memory i =>
    obtain ⟨hram, hi⟩ := lane_memory i 0
    show b.memoryControl.read _ _ = _
    unfold MemoryControl.read MemoryControl.register?
    rw [if_neg (by simpa using hram), hi, Vector.getElem?_eq_getElem i.isLt]
    exact hread _

variable (k : Fin 4) (w : Width) (v : UInt32)

theorem write_lane_dicr : b.write .dma (dicr.lane k) w v = dicr.set b (dicr.stored b k w v) := by
  have hrises : (dicr = dicr ∧ b.dma.shows 31 = false ∧
      (dicr.stored b k w v).toBitVec.getLsbD 31 = true) ↔
        (b.dma.writeInterrupt
          (writeLane (b.dma.interrupt &&& Dma.addressMask) (dicr.lane k) w v)).1 = true := by
    rw [Dma.asks_writeInterrupt, Bool.and_eq_true, Bool.not_eq_true']
    exact and_iff_right rfl
  show b.withDma (b.dma.write _ w v).1 (b.dma.write _ w v).2 = _
  rw [write_dicr, writeInterrupt_eq]
  unfold Register.set
  by_cases hasks : (b.dma.writeInterrupt
      (writeLane (b.dma.interrupt &&& Dma.addressMask) (dicr.lane k) w v)).1 = true
  · rw [if_pos (hrises.2 hasks), hasks]
    rfl
  · rw [if_neg (mt hrises.1 hasks), Bool.eq_false_iff.2 hasks]
    rfl

/-- A write to some lanes of a register changes nothing but that register, and asks for attention if
that is DICR and its master flag rises. -/
theorem write_lane : b.write r.part (r.lane k) w v = r.set b (r.stored b k w v) := by
  cases r with
  | dicr => exact b.write_lane_dicr k w v
  | istat =>
    rw [set_of_ne b _ (by decide)]
    show { b with lines.interrupts := _ } = _
    rw [write_istat]
    rfl
  | imask =>
    rw [set_of_ne b _ (by decide)]
    show { b with lines.interrupts := _ } = _
    rw [write_imask]
    rfl
  | dpcr =>
    rw [set_of_ne b _ (by decide), stored_of_plain b (by decide) rfl]
    show b.withDma (b.dma.write _ w v).1 (b.dma.write _ w v).2 = _
    rw [write_dpcr]
    rfl
  | madr i =>
    rw [set_of_ne b _ (by simp)]
    show b.withDma (b.dma.write _ w v).1 (b.dma.write _ w v).2 = _
    rw [write_madr]
    rfl
  | bcr i =>
    rw [set_of_ne b _ (by simp), stored_of_plain b (by simp) rfl]
    show b.withDma (b.dma.write _ w v).1 (b.dma.write _ w v).2 = _
    rw [write_bcr]
    rfl
  | counter i =>
    rw [set_of_ne b _ (by simp)]
    show { b with lines.timers := _ } = { b with lines.timers := b.lines.timers.modify i fun c =>
      { c with counter := (writeLane _ _ w v &&& 0xFFFF).toUInt16 } }
    rw [write_counter, toUInt16_and_ones]
    rfl
  | target i =>
    rw [set_of_ne b _ (by simp)]
    show { b with lines.timers := _ } = { b with lines.timers := b.lines.timers.modify i fun c =>
      { c with target := (writeLane _ _ w v &&& 0xFFFF).toUInt16 } }
    rw [write_target, toUInt16_and_ones]
    rfl
  | memory i =>
    rw [set_of_ne b _ (by simp), stored_of_plain b (by simp) rfl]
    show { b with memoryControl := _ } = _
    rw [write_memory]
    rfl
  | ramSize =>
    rw [set_of_ne b _ (by decide), stored_of_plain b (by decide) rfl]
    show { b with memoryControl := _ } = _
    rw [write_ramSize]
    rfl

end Board

theorem Register.value_write {δ : Type} [Device δ] (r : Register) (b : Board δ) (k : Fin 4)
    (w : Width) (v : UInt32) : r.value (b.write r.part (r.lane k) w v) = r.stored b k w v := by
  have hput : r.value (r.put b (r.stored b k w v)) = r.stored b k w v :=
    value_put b fun h => stored_and b h k w v
  rw [b.write_lane]
  rcases set_cases b r (r.stored b k w v) with h | ⟨rfl, h⟩
  · rw [h, hput]
  · rw [h]
    exact hput

end Psx
