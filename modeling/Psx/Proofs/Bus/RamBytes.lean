import Psx.Proofs.Bus.Cells
import Psx.Proofs.Bus.Ram
import Psx.Proofs.Memory.Lanes

/-!
# RAM byte by byte

The addresses that lie in RAM name its bytes over and over (`Address.region_eq_ram`,
`Cell.at?_of_ram`). A word that is read has the bytes at its address (`Bus.byteOf_read_ram`), and a
write that is aligned stores its bytes there and leaves all else on the bus as it is
(`Bus.stored_write`).
-/

namespace Psx

open Bytes

theorem Address.region_eq_ram {a : UInt32} : Address.region a = .ram ↔
    a.toNat < 0xC0000000 ∧ a.toNat % 0x20000000 < 0x00800000 := by
  by_cases h : 0xC0000000 ≤ a.toNat
  · rw [region_kseg2 h]
    refine iff_of_false ?_ fun hn => Nat.not_lt.2 h hn.1
    split_ifs <;> decide
  · have h := Nat.not_le.1 h
    have hiff := physicalRegion_eq_ram (a := translate a)
    rw [translate_toNat h] at hiff
    rw [region_eq h, ← hiff, and_iff_right h]
    cases physicalRegion (translate a) with
    | scratchpad =>
      refine iff_of_false ?_ (by decide)
      split_ifs <;> decide
    | _ => rfl

/-- The byte of RAM that an address names. -/
def ramCell (address : Nat) : Cell := ⟨.ram, address % 0x200000⟩

theorem Cell.at?_of_ram {n : Nat} (h : n < 0xC0000000 ∧ n % 0x20000000 < 0x00800000) :
    Cell.at? n = some (ramCell n) := by
  unfold Cell.at? ramCell
  dsimp only
  rw [if_neg (Nat.not_le.2 h.1), if_pos h.2, Nat.mod_mod_of_dvd _ (by decide)]

theorem Bytes.byteOf_load (b : ByteArray) (i : Nat) {l : Nat} (hl : l < 4) :
    byteOf (load b i .word) l = byteAt b (i + l) := by
  have h0 := (byteAt b i).toNat_lt
  have h1 := (byteAt b (i + 1)).toNat_lt
  have h2 := (byteAt b (i + 2)).toNat_lt
  have h3 := (byteAt b (i + 3)).toNat_lt
  have hload : (load b i .word).toNat = Nat.ofDigits 256 [(byteAt b i).toNat,
    (byteAt b (i + 1)).toNat, (byteAt b (i + 2)).toNat, (byteAt b (i + 3)).toNat] := load_toNat ..
  simp only [Nat.ofDigits_cons, Nat.ofDigits_nil] at hload
  apply UInt8.toNat_inj.1
  rw [byteOf_toNat _ hl, hload]
  interval_cases l
  · show _ / 1 % 256 = (byteAt b i).toNat
    omega
  all_goals omega

namespace Bus

variable {δ : Type}

/-- All that is different is that bytes have been stored in RAM. -/
structure StoredRam (b b' : Bus δ) (stores : List (Nat × UInt8)) : Prop where
  rest : { b' with memory := b.memory } = b
  cells : b'.memory.byte = Cell.store b.memory.byte (stores.map fun s => (ramCell s.1, s.2))
  sizes : b.memory.hasSizes = true → b'.memory.hasSizes = true
  control : b'.memory.cacheControl = b.memory.cacheControl

variable {b b' b'' : Bus δ} {a : UInt32} {w : Width}

namespace StoredRam

variable {stores stores' : List (Nat × UInt8)}

theorem refl (b : Bus δ) : b.StoredRam b [] := ⟨rfl, rfl, id, rfl⟩

theorem trans (h : b.StoredRam b' stores) (h' : b'.StoredRam b'' stores') :
    b.StoredRam b'' (stores ++ stores') where
  rest := by
    have hrest := congrArg (fun c : Bus δ => { c with memory := b.memory }) h'.rest
    exact hrest.trans h.rest
  cells := by
    rw [h'.cells, h.cells, List.map_append, Cell.store_append]
  sizes hs := h'.sizes (h.sizes hs)
  control := h'.control.trans h.control

end StoredRam

theorem ramIndex_eq (h : Address.region a = .ram) (ha : w.align a = a) :
    Address.ramIndex a w = a.toNat % 0x200000 := by
  unfold Address.ramIndex
  rw [ha, Memory.ramIndex_eq, Address.translate_toNat (Address.region_eq_ram.1 h).1,
    Nat.mod_mod_of_dvd _ (by decide)]

/-- The cells of an aligned access follow one another. -/
theorem ramCell_add (ha : w.align a = a) {k : Nat} (hk : k < w.bytes.toNat) :
    (⟨.ram, a.toNat % 0x200000 + k⟩ : Cell) = ramCell (a.toNat + k) := by
  have haligned := w.align_toNat a
  rw [ha] at haligned
  unfold ramCell
  congr 1
  cases w with
  | byte =>
    obtain rfl : k = 0 := Nat.lt_one_iff.1 hk
    rw [Nat.add_zero, Nat.add_zero]
  | half =>
    change k < 2 at hk
    change a.toNat = a.toNat / 2 * 2 at haligned
    omega
  | word =>
    change k < 4 at hk
    change a.toNat = a.toNat / 4 * 4 at haligned
    omega

variable [Device δ]

theorem byteOf_read_ram (h : Address.region a = .ram) (ha : Width.word.align a = a) {l : Nat}
    (hl : l < 4) : byteOf (b.read a .word).1 l = b.memory.byte (ramCell (a.toNat + l)) := by
  rw [read_ram (by rw [ha]; exact h), ramIndex_eq h ha, byteOf_load _ _ hl, ← ramCell_add ha hl]
  rfl

theorem stored_write (hs : b.memory.hasSizes = true) (h : Address.region a = .ram)
    (ha : w.align a = a) (value : UInt32) : b.StoredRam (b.write a w value)
      ((List.range w.bytes.toNat).map fun k => (a.toNat + k, byteOf value k)) := by
  have hwrite := write_ram (b := b) (a := a) (w := w) (by rw [ha]; exact h) value
  have hfits : ∀ k < w.bytes.toNat, Address.ramIndex a w + k < (b.memory.image .ram).size := by
    intro k hk
    have hle := Address.ramIndex_add_le a w
    rw [Memory.image_size hs]
    exact Nat.lt_of_lt_of_le (Nat.add_lt_add_left hk _) hle
  have hzip : ((List.range w.bytes.toNat).map fun k =>
      (⟨.ram, Address.ramIndex a w + k⟩ : Cell)).zip (ofWord value) =
        ((List.range w.bytes.toNat).map fun k => (a.toNat + k, byteOf value k)).map fun s =>
          (ramCell s.1, s.2) := by
    have hcells : ((List.range w.bytes.toNat).map fun k =>
        (⟨.ram, Address.ramIndex a w + k⟩ : Cell)) =
          (List.range w.bytes.toNat).map fun k => ramCell (a.toNat + k) :=
      List.map_congr_left fun k hk => by
        rw [ramIndex_eq h ha, ramCell_add ha (List.mem_range.1 hk)]
    rw [hcells, ofWord_eq]
    cases w <;> rfl
  rw [hwrite]
  refine ⟨rfl, ?_, fun _ => ?_, rfl⟩
  · rw [← hzip]
    exact Memory.byte_store value hfits
  · exact (Memory.hasSizes_setImage (i := .ram) (Bytes.store_size ..)).trans hs

end Bus

end Psx
