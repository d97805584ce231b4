import Psx.Proofs.Bus.Ram
import Psx.Proofs.Cpu.Accesses
import Psx.Proofs.Interrupt.Requests

/-!
# Requests behind the bus

Seen from the bus, I_STAT is the first word of the window of the interrupt controller. An access
takes a request back only if it writes a zero over its bit there (`Access.Acknowledges`), whatever
alias it comes through and whatever its width. All other accesses, the passing of time and the slices
of transfers keep every request (`Outside.isRaised_performAll`, `Bus.keeps_advance`,
`Bus.keeps_runSlice`). A slice does not need the decode table for that: what it writes goes to RAM, and
what it hands to a device does not come by the registers.
-/

namespace Psx

/-- A write through the bus covers the bit of a source in I_STAT with a zero. -/
def Access.Acknowledges (i : Interrupt) : Access → Prop
  | .write address w value => ∃ k < w.bytes.toNat,
    (Address.translate (w.align address)).toNat + k =
        InterruptController.base.toNat + i.index / 8 ∧
      (Bytes.byteOf value k).toBitVec.getLsbD (i.index % 8) = false
  | _ => False

/-- The bytes that an access covers do not depend on what is beyond its width. -/
theorem Bytes.byteOf_mask {k : Nat} {w : Width} (hk : k < w.bytes.toNat) (value : UInt32) :
    byteOf (value &&& w.mask) k = byteOf value k := by
  have hbytes : w.bytes.toNat ≤ 4 := by cases w <;> decide
  apply UInt8.eq_of_toBitVec_eq
  apply BitVec.eq_of_getLsbD_eq
  intro n hn
  rw [byteOf_bit _ (by omega) hn, byteOf_bit _ (by omega) hn, UInt32.toBitVec_and,
    BitVec.getLsbD_and, w.mask_bit, decide_eq_true (by omega), Bool.and_true]

/-- The controller answers in one window, from its base on. -/
theorem DecodeTable.interrupts_of_lookup? {physical offset : UInt32}
    (h : coreTable.lookup? physical = some (.interrupts, offset)) :
    InterruptController.base ≤ physical ∧ offset = physical - InterruptController.base := by
  have hwindows : ∀ w ∈ coreTable.windows, ∀ e, coreTable.entries[w.device]? = some e →
      e.part = .interrupts → e.base = InterruptController.base ∧ w.first = e.base := by decide
  obtain ⟨w, hw, hcontains, e, he, hpart, rfl⟩ := window_of_lookup? h
  obtain ⟨hbase, hfirst⟩ := hwindows w hw e he hpart.symm
  obtain ⟨hle, -⟩ := Window.contains_iff.1 hcontains
  rw [hfirst, hbase] at hle
  rw [hbase]
  exact ⟨hle, rfl⟩

namespace Bus

variable {δ : Type} [Device δ]

/-- All requests are still there, and there are none but those of sources. -/
abbrev Keeps (a b : Bus δ) : Prop := a.board.Keeps b.board

def isRaised (b : Bus δ) (i : Interrupt) : Bool := b.board.lines.interrupts.isRaised i

variable (b : Bus δ)

/-! ### Accesses -/

theorem keeps_readDevice (physical : UInt32) (w : Width) :
    b.Keeps (b.readDevice physical w).2 := by
  unfold readDevice
  split
  · exact .refl _
  · exact b.board.keeps_read ..

theorem keeps_read (address : UInt32) (w : Width) : b.Keeps (b.read address w).2 := by
  unfold read
  dsimp only
  split <;> first | exact .refl _ | exact b.keeps_readDevice ..

variable {b} in
theorem isRaised_write (ht : b.table = coreTable) {i : Interrupt} (h : b.isRaised i = true)
    {address value : UInt32} {w : Width} (hn : ¬(Access.write address w value).Acknowledges i) :
    (b.write address w value).isRaised i = true := by
  have hdevice : (b.writeDevice (Address.translate (w.align address)) w
      (value &&& w.mask)).isRaised i = true := by
    unfold writeDevice
    rw [ht]
    split
    · exact h
    · rename_i part offset hl
      by_cases hp : part = .interrupts
      · subst hp
        obtain ⟨hle, rfl⟩ := DecodeTable.interrupts_of_lookup? hl
        refine InterruptController.isRaised_write h ?_
        rintro ⟨k, hk, hat, hzero⟩
        rw [UInt32.toNat_sub_of_le _ _ hle] at hat
        rw [Bytes.byteOf_mask hk] at hzero
        rw [UInt32.le_iff_toNat_le] at hle
        exact hn ⟨k, hk, by omega, hzero⟩
      · exact (b.board.keeps_write hp _ _ _).raised i h
  unfold write
  dsimp only
  split <;> first | exact h | exact hdevice

theorem keeps_dmaConsume (channel : Nat) (word : UInt32) :
    b.Keeps (b.dmaConsume channel word) := by
  unfold dmaConsume
  split
  · exact .refl _
  · exact b.board.keeps_consume ..

theorem keeps_dmaProduce (channel : Nat) : b.Keeps (b.dmaProduce channel).2 := by
  unfold dmaProduce
  split
  · exact .refl _
  · exact b.board.keeps_produce ..

/-! ### Time -/

theorem keeps_advance (cycles : Nat) : b.Keeps (b.advance cycles) := by
  unfold advance
  split
  · exact .refl _
  · rw [eachPart_eq]
    show b.board.Keeps _
    generalize b.board = board
    induction b.parts generalizing board with
    | nil => exact .refl _
    | cons p ps ih => exact (board.keeps_advance p cycles).trans (ih _)

/-! ### Slices -/

theorem keeps_moveWord (channel : Fin 7) (c : Dma.Channel) : b.Keeps (b.moveWord channel c) := by
  unfold moveWord
  cases c.direction with
  | fromRam => exact b.keeps_dmaConsume ..
  | toRam => exact b.keeps_dmaProduce channel

theorem keeps_moveWords (channel : Fin 7) (c : Dma.Channel) (n : Nat) :
    b.Keeps (b.moveWords channel c n).2 := by
  induction n generalizing b c with
  | zero => exact .refl _
  | succ n ih =>
    rw [moveWords_succ]
    exact (b.keeps_moveWord ..).trans (ih _ _)

theorem keeps_moveNode (channel : Fin 7) (address : UInt32) (n : Nat) :
    b.Keeps (b.moveNode channel address n) := by
  induction n generalizing b address with
  | zero => exact .refl _
  | succ n ih =>
    rw [moveNode_succ]
    exact (b.keeps_dmaConsume ..).trans (ih _ _)

theorem keeps_clearTable (address : UInt32) (n : Nat) :
    b.Keeps (b.clearTable (address &&& Dma.ramWordMask) n).2 := by
  induction n generalizing b address with
  | zero => exact .refl _
  | succ n ih =>
    rw [clearTable_succ]
    generalize Bytes.store _ _ _ _ = ram
    exact ih { b with memory.ram := ram } _

theorem keeps_moveSlice (channel : Fin 7) (c : Dma.Channel) (p : Dma.Progress) :
    b.Keeps (b.moveSlice channel c p).2.2.2 := by
  unfold moveSlice
  cases p with
  | blocks wordsLeft blocksLeft => exact b.keeps_moveWords ..
  | linkedList =>
    dsimp only
    rw [read_masked]
    exact b.keeps_moveNode ..
  | orderingTable entries => exact b.keeps_clearTable ..

theorem keeps_runSlice : b.Keeps b.runSlice.2 := by
  unfold runSlice
  split
  · exact .refl _
  · rename_i channel _
    dsimp only
    split
    · exact .refl _
    · exact (b.keeps_moveSlice ..).trans (Board.keeps_withDma ..)

end Bus

namespace Outside

variable {δ : Type} [Device δ] {o : Outside δ} {i : Interrupt}

theorem isRaised_perform {a : Access} (ht : o.bus.table = coreTable)
    (h : o.bus.isRaised i = true) (hn : ¬a.Acknowledges i) :
    (o.perform a).bus.isRaised i = true := by
  cases a with
  | fetch address => exact (o.bus.keeps_read address .word).raised i h
  | read address w => exact (o.bus.keeps_read address w).raised i h
  | write address w value => exact Bus.isRaised_write ht h hn
  | fetchCached | readIsolated | writeIsolated => exact h

theorem isRaised_performAll {as : List Access} (ht : o.bus.table = coreTable)
    (h : o.bus.isRaised i = true) (hn : ∀ a ∈ as, ¬a.Acknowledges i) :
    (o.performAll as).bus.isRaised i = true := by
  induction as generalizing o with
  | nil => exact h
  | cons a as ih =>
    exact ih ((o.frame_perform a).table.trans ht)
      (isRaised_perform ht h (hn a List.mem_cons_self))
      fun a' h' => hn a' (List.mem_cons_of_mem a h')

end Outside

end Psx
