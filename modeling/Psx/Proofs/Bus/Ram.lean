import Psx.Dma.Transfer
import Psx.Proofs.Memory.Bytes

/-!
# RAM behind the bus

An access that falls into RAM is a load or a store at an index of the image (`Bus.read_ram`,
`Bus.write_ram`), so what is written is read again, and an access apart from it does not see it
(`Bus.read_write_ram`, `Bus.read_write_ram_apart`). Every word that a transfer moves is such an
access, at the index that its masked address names (`Bus.read_masked`, `Bus.write_masked`).
-/

namespace Psx

namespace Address

/-- The index in the image of RAM that an access falls on. -/
def ramIndex (address : UInt32) (w : Width) : Nat := Memory.ramIndex (translate (w.align address))

theorem translate_and_ramMask (a : UInt32) : translate a &&& ramMask = a &&& ramMask := by
  unfold translate
  split
  · rfl
  · rw [UInt32.and_assoc]
    rfl

/-- An access that is aligned does not cross the end of RAM. -/
theorem ramIndex_add_le (a : UInt32) (w : Width) : ramIndex a w + w.bytes.toNat ≤ ramSize := by
  have hmask : ramIndex a w = (a &&& (~~~(w.bytes - 1) &&& ramMask)).toNat := by
    unfold ramIndex Memory.ramIndex Width.align
    rw [translate_and_ramMask, UInt32.and_assoc]
  have hle : ramIndex a w ≤ (~~~(w.bytes - 1) &&& ramMask).toNat := by
    rw [hmask, UInt32.toNat_and]
    exact Nat.and_le_right
  have hfit : (~~~(w.bytes - 1) &&& ramMask).toNat + w.bytes.toNat ≤ ramSize := by
    cases w <;> decide
  omega

variable (a : UInt32)

theorem masked_and {m : UInt32} (h : Dma.ramWordMask &&& m = Dma.ramWordMask) :
    (a &&& Dma.ramWordMask) &&& m = a &&& Dma.ramWordMask := by
  rw [UInt32.and_assoc, h]

theorem masked_le : a &&& Dma.ramWordMask ≤ Dma.ramWordMask := by
  rw [UInt32.le_iff_toNat_le, UInt32.toNat_and]
  exact Nat.and_le_right

theorem align_masked : Width.word.align (a &&& Dma.ramWordMask) = a &&& Dma.ramWordMask :=
  masked_and a (by decide)

theorem segment_masked : Segment.of (a &&& Dma.ramWordMask) = .kuseg := by
  have h := masked_le a
  have hlt : a &&& Dma.ramWordMask < 0x80000000 := UInt32.lt_of_le_of_lt h (by decide)
  unfold Segment.of
  rw [if_pos hlt]

theorem translate_masked : translate (a &&& Dma.ramWordMask) = a &&& Dma.ramWordMask := by
  unfold translate
  rw [segment_masked, if_neg (by decide)]
  exact masked_and a (by decide)

theorem region_masked : region (Width.word.align (a &&& Dma.ramWordMask)) = .ram := by
  have h : a &&& Dma.ramWordMask ≤ ramMirrorLast := UInt32.le_trans (masked_le a) (by decide)
  rw [align_masked]
  unfold region physicalRegion
  rw [segment_masked, translate_masked]
  exact if_pos h

theorem ramIndex_masked :
    ramIndex (a &&& Dma.ramWordMask) .word = (a &&& Dma.ramWordMask).toNat := by
  unfold ramIndex Memory.ramIndex
  rw [align_masked, translate_masked, masked_and a (by decide)]

end Address

namespace Bus

variable {δ : Type} [Device δ] {b : Bus δ} {a : UInt32} {w : Width}

theorem read_ram (h : Address.region (w.align a) = .ram) :
    b.read a w = (Bytes.load b.memory.ram (Address.ramIndex a w) w, b) := by
  unfold read
  dsimp only
  rw [h]
  rfl

theorem write_ram (h : Address.region (w.align a) = .ram) (value : UInt32) :
    b.write a w value = { b with
      memory.ram := Bytes.store b.memory.ram (Address.ramIndex a w) w (value &&& w.mask) } := by
  unfold write
  dsimp only
  rw [h]
  rfl

theorem read_write_ram (hs : b.memory.hasSizes = true) (h : Address.region (w.align a) = .ram)
    (value : UInt32) : ((b.write a w value).read a w).1 = value &&& w.mask := by
  have hsize : b.memory.ram.size = Address.ramSize := by
    simp only [Memory.hasSizes, Bool.and_eq_true, beq_iff_eq] at hs
    exact hs.1.1
  rw [write_ram h, read_ram h]
  dsimp only
  rw [Bytes.load_store _ (by rw [hsize]; exact Address.ramIndex_add_le a w), UInt32.and_assoc,
    UInt32.and_self]

theorem read_write_ram_apart {a' : UInt32} {w' : Width} (h : Address.region (w.align a) = .ram)
    (h' : Address.region (w'.align a') = .ram)
    (hd : Address.ramIndex a' w' + w'.bytes.toNat ≤ Address.ramIndex a w ∨
      Address.ramIndex a w + w.bytes.toNat ≤ Address.ramIndex a' w') (value : UInt32) :
    ((b.write a w value).read a' w').1 = (b.read a' w').1 := by
  rw [write_ram h, read_ram h', read_ram h']
  exact Bytes.load_store_disjoint _ hd

theorem read_masked (b : Bus δ) (a : UInt32) :
    b.read (a &&& Dma.ramWordMask) .word =
      (Bytes.load b.memory.ram (a &&& Dma.ramWordMask).toNat .word, b) := by
  rw [read_ram (Address.region_masked a), Address.ramIndex_masked]

theorem write_masked (b : Bus δ) (a value : UInt32) :
    b.write (a &&& Dma.ramWordMask) .word value = { b with
      memory.ram := Bytes.store b.memory.ram (a &&& Dma.ramWordMask).toNat .word value } := by
  have hmask : value &&& Width.word.mask = value := by
    show value &&& 0xFFFFFFFF = value
    exact UInt32.and_neg_one
  rw [write_ram (Address.region_masked a), Address.ramIndex_masked, hmask]

/-! ### Transfers, word by word -/

/-- One word between RAM and the device that serves a channel, at the address of the channel. -/
def moveWord (b : Bus δ) (channel : Fin 7) (c : Dma.Channel) : Bus δ :=
  match c.direction with
  | .fromRam =>
    b.dmaConsume channel (Bytes.load b.memory.ram (c.address &&& Dma.ramWordMask).toNat .word)
  | .toRam =>
    let r := b.dmaProduce channel
    { r.2 with
      memory.ram := Bytes.store r.2.memory.ram (c.address &&& Dma.ramWordMask).toNat .word r.1 }

theorem moveWords_succ (b : Bus δ) (channel : Fin 7) (c : Dma.Channel) (n : Nat) :
    b.moveWords channel c (n + 1) =
      (b.moveWord channel c).moveWords channel { c with address := c.stepped } n := by
  rw [moveWords]
  unfold moveWord
  cases c.direction with
  | fromRam => dsimp only; rw [read_masked]
  | toRam => dsimp only; rw [write_masked]

theorem moveNode_succ (b : Bus δ) (channel : Fin 7) (address : UInt32) (n : Nat) :
    b.moveNode channel address (n + 1) =
      (b.dmaConsume channel (Bytes.load b.memory.ram
        ((address + 4) &&& Dma.ramWordMask).toNat .word)).moveNode channel
          ((address + 4) &&& Dma.ramWordMask) n := by
  rw [moveNode]
  dsimp only
  rw [read_masked]

theorem clearTable_succ (b : Bus δ) (address : UInt32) (n : Nat) :
    b.clearTable (address &&& Dma.ramWordMask) (n + 1) =
      ({ b with
        memory.ram := Bytes.store b.memory.ram (address &&& Dma.ramWordMask).toNat .word
          (Dma.tableLink (address &&& Dma.ramWordMask) (n == 0)) } : Bus δ).clearTable
        (((address &&& Dma.ramWordMask) - 4) &&& Dma.ramWordMask) n := by
  rw [clearTable, write_masked]

end Bus

end Psx
