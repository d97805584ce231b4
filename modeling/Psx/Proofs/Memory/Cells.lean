import Mathlib.Data.List.Nodup
import Mathlib.Data.Nat.Digits.Defs
import Mathlib.Logic.Function.Basic
import Psx.Memory.Store
import Psx.Proofs.Memory.Bytes
import Psx.Proofs.Memory.Region

/-!
# Cells

The memories of the bus as cells of a byte each. `Cell.at?` says which cell a virtual address names,
in numbers alone; it agrees with the regions (`Cell.at?_region`), and an aligned access falls on as
many cells as it has bytes, one after another in one image, or on none (`Cell.addressed_eq`).

Cells are stored to one at a time (`Cell.store`): that is what a store to an image does
(`Memory.byte_setImage`), and a load puts cells together, the low byte first (`Bytes.load_toNat`).
-/

namespace Psx

/-! ### Bytes stored one after another -/

section

variable {α : Type} [DecidableEq α]

/-- What places hold once bytes have been stored in some, one after another. -/
def overlay (held : α → UInt8) (stores : List (α × UInt8)) : α → UInt8 :=
  stores.foldl (fun held s => Function.update held s.1 s.2) held

variable {held : α → UInt8} {stores : List (α × UInt8)} {c : α}

theorem overlay_append (held : α → UInt8) (stores stores' : List (α × UInt8)) :
    overlay held (stores ++ stores') = overlay (overlay held stores) stores' :=
  List.foldl_append

theorem overlay_of_notMem (h : c ∉ stores.map Prod.fst) : overlay held stores c = held c := by
  induction stores generalizing held with
  | nil => rfl
  | cons s stores ih =>
    rw [List.map_cons, List.mem_cons, not_or] at h
    exact (ih h.2).trans (Function.update_of_ne h.1 _ _)

/-- If nothing is stored in one place twice, each holds what was stored in it. -/
theorem overlay_of_mem (hn : (stores.map Prod.fst).Nodup) {v : UInt8} (h : (c, v) ∈ stores) :
    overlay held stores c = v := by
  induction stores generalizing held with
  | nil => cases h
  | cons s stores ih =>
    rw [List.map_cons, List.nodup_cons] at hn
    rcases List.mem_cons.1 h with rfl | h
    · exact (overlay_of_notMem hn.1).trans (Function.update_self ..)
    · exact ih hn.2 h

/-- Stores in different places are known by what these hold afterwards. -/
theorem eq_overlay {held' : α → UInt8} (hn : (stores.map Prod.fst).Nodup)
    (hin : ∀ s ∈ stores, held' s.1 = s.2)
    (hout : ∀ c, c ∉ stores.map Prod.fst → held' c = held c) : held' = overlay held stores := by
  funext c
  by_cases hc : c ∈ stores.map Prod.fst
  · obtain ⟨s, hs, rfl⟩ := List.mem_map.1 hc
    rw [hin s hs, overlay_of_mem hn hs]
  · rw [hout c hc, overlay_of_notMem hc]

/-- If what is stored depends on the place alone, no store hides another. -/
theorem overlay_of_same {f : α → UInt8} (h : ∀ s ∈ stores, s.2 = f s.1) (c : α) :
    overlay held stores c = if c ∈ stores.map Prod.fst then f c else held c := by
  induction stores generalizing held with
  | nil => rfl
  | cons s stores ih =>
    rw [List.forall_mem_cons] at h
    show overlay (Function.update held s.1 s.2) stores c = _
    rw [ih h.2, h.1]
    by_cases hc : c = s.1
    · subst hc
      rw [Function.update_self, ite_self, List.map_cons, if_pos List.mem_cons_self]
    · rw [Function.update_of_ne hc]
      exact if_congr (List.mem_cons.trans (or_iff_right hc)).symm rfl rfl

end

/-! ### Loads as numbers -/

theorem Bytes.shiftLeft_or_toNat {x y : UInt32} {n : Nat} (hn : n < 32) (hx : x.toNat < 2 ^ n)
    (hy : y.toNat < 2 ^ (32 - n)) : (x ||| y <<< UInt32.ofNat n).toNat = x.toNat + 2 ^ n * y.toNat := by
  have hmod : (UInt32.ofNat n).toNat % 32 = n := by
    rw [UInt32.toNat_ofNat']
    omega
  have hlt : y.toNat <<< n < 2 ^ 32 := by
    rw [Nat.shiftLeft_eq]
    calc y.toNat * 2 ^ n < 2 ^ (32 - n) * 2 ^ n := Nat.mul_lt_mul_of_pos_right hy (Nat.two_pow_pos n)
      _ = 2 ^ 32 := by rw [← Nat.pow_add, Nat.sub_add_cancel (Nat.le_of_lt hn)]
  rw [UInt32.toNat_or, UInt32.toNat_shiftLeft, hmod, Nat.mod_eq_of_lt hlt, Nat.or_comm,
    ← Nat.shiftLeft_add_eq_or_of_lt hx, Nat.shiftLeft_eq, Nat.add_comm, Nat.mul_comm]

/-- A load is the number whose digits are the bytes that it covers. -/
theorem Bytes.load_toNat (b : ByteArray) (i : Nat) (w : Width) :
    (load b i w).toNat =
      Nat.ofDigits 256 ((List.range w.bytes.toNat).map fun k => (byteAt b (i + k)).toNat) := by
  have hbyte : ∀ k, (byteAt b k).toUInt32.toNat < 2 ^ 8 := fun k => (byteAt b k).toNat_lt
  have hhalf : ((byteAt b i).toUInt32 ||| (byteAt b (i + 1)).toUInt32 <<< 8).toNat =
      (byteAt b i).toNat + 2 ^ 8 * (byteAt b (i + 1)).toNat :=
    shiftLeft_or_toNat (n := 8) (by decide) (hbyte i)
      (Nat.lt_trans (hbyte (i + 1)) (by decide))
  have h0 := (byteAt b i).toNat_lt
  have h1 := (byteAt b (i + 1)).toNat_lt
  have h2 := (byteAt b (i + 2)).toNat_lt
  cases w with
  | byte =>
    show (byteAt b i).toNat = Nat.ofDigits 256 [(byteAt b i).toNat]
    rw [Nat.ofDigits_singleton]
  | half =>
    show _ = Nat.ofDigits 256 [(byteAt b i).toNat, (byteAt b (i + 1)).toNat]
    rw [load, hhalf]
    simp [Nat.ofDigits_cons]
  | word =>
    show _ = Nat.ofDigits 256 [(byteAt b i).toNat, (byteAt b (i + 1)).toNat,
      (byteAt b (i + 2)).toNat, (byteAt b (i + 3)).toNat]
    have hthree : ((byteAt b i).toUInt32 ||| (byteAt b (i + 1)).toUInt32 <<< 8
        ||| (byteAt b (i + 2)).toUInt32 <<< 16).toNat =
        ((byteAt b i).toNat + 2 ^ 8 * (byteAt b (i + 1)).toNat)
          + 2 ^ 16 * (byteAt b (i + 2)).toNat := by
      rw [← hhalf]
      exact shiftLeft_or_toNat (n := 16) (by decide) (by rw [hhalf]; omega)
        (Nat.lt_trans (hbyte (i + 2)) (by decide))
    have hfour : (load b i .word).toNat = _ :=
      shiftLeft_or_toNat (n := 24) (by decide) (by rw [hthree]; omega) (hbyte (i + 3))
    rw [hfour, hthree]
    simp only [Nat.ofDigits_cons, Nat.ofDigits_nil, UInt8.toNat_toUInt32]
    omega

/-! ### Cells -/

theorem Memory.ramIndex_eq (a : UInt32) : ramIndex a = a.toNat % 0x200000 := by
  unfold ramIndex
  rw [UInt32.toNat_and]
  exact Nat.and_two_pow_sub_one_eq_mod a.toNat 21

/-- The memories that hold bytes. -/
inductive Image where
  | ram
  | scratchpad
  | bios
deriving DecidableEq, Repr

def Image.isWritable : Image → Bool
  | ram | scratchpad => true
  | bios => false

def Image.size : Image → Nat
  | ram => 0x200000
  | scratchpad => 0x400
  | bios => 0x80000

/-- A place for a byte. -/
structure Cell where
  image : Image
  index : Nat
deriving DecidableEq, Repr

namespace Cell

/-- The cell that a virtual address names. The segments below `0xC0000000` are aliases of each other,
though the scratchpad has none in the third, and RAM is there four times. -/
def at? (address : Nat) : Option Cell :=
  let physical := address % 0x20000000
  if 0xC0000000 ≤ address then none
  else if physical < 0x00800000 then some ⟨.ram, physical % 0x200000⟩
  else if 0x1F800000 ≤ physical ∧ physical < 0x1F800400 then
    if address < 0xA0000000 then some ⟨.scratchpad, physical - 0x1F800000⟩ else none
  else if 0x1FC00000 ≤ physical ∧ physical < 0x1FC80000 then
    some ⟨.bios, physical - 0x1FC00000⟩
  else none

/-- The cells that an access falls on, from the address rounded down to its width on. -/
def addressed (address : UInt32) (w : Width) : List Cell :=
  (List.range w.bytes.toNat).filterMap fun k =>
    at? (address.toNat / w.bytes.toNat * w.bytes.toNat + k)

/-- What the cells hold once bytes have been stored in some, one after another. -/
def store (held : Cell → UInt8) (stores : List (Cell × UInt8)) : Cell → UInt8 :=
  stores.foldl (fun held s => Function.update held s.1 s.2) held

/-- The cells of an aligned access are next to each other. -/
theorem at?_add {address k n : Nat} (hn : n ∣ 4) (hk : k < n) (ha : n ∣ address) :
    at? (address + k) = (at? address).map fun c => ⟨c.image, c.index + k⟩ := by
  have hle : n ≤ 4 := Nat.le_of_dvd (by decide) hn
  have hmod : address % n = 0 := Nat.mod_eq_zero_of_dvd ha
  have hn : 4 % n = 0 := Nat.mod_eq_zero_of_dvd hn
  unfold at?
  dsimp only
  have hp : (address + k) % 0x20000000 = address % 0x20000000 + k := by
    interval_cases n <;> omega
  rw [hp]
  -- no range begins or ends between the cells, because all bounds are multiples of four
  split_ifs <;> simp <;> interval_cases n <;> omega

/-- An access falls on as many cells as it has bytes, in one image, or on none. -/
theorem addressed_eq (address : UInt32) (w : Width) : addressed address w =
    match at? (w.align address).toNat with
    | some c => (List.range w.bytes.toNat).map fun k => ⟨c.image, c.index + k⟩
    | none => [] := by
  have hn : w.bytes.toNat ∣ 4 := by cases w <;> decide
  have hat : ∀ k ∈ List.range w.bytes.toNat,
      at? (address.toNat / w.bytes.toNat * w.bytes.toNat + k) =
        (at? (w.align address).toNat).map fun c => ⟨c.image, c.index + k⟩ := fun k hk => by
    rw [w.align_toNat]
    exact at?_add hn (List.mem_range.1 hk) (Nat.dvd_mul_left ..)
  unfold addressed
  rw [List.filterMap_congr hat]
  cases at? (w.align address).toNat with
  | none => exact List.filterMap_eq_nil_iff.2 fun _ _ => rfl
  | some c => exact congrFun (List.filterMap_eq_map ..) _

theorem at?_region (a : UInt32) : at? a.toNat =
    match Address.region a with
    | .ram => some ⟨.ram, Memory.ramIndex (Address.translate a)⟩
    | .scratchpad =>
      some ⟨.scratchpad, (Address.translate a - Address.scratchpadFirst).toNat⟩
    | .bios => some ⟨.bios, (Address.translate a - Address.biosFirst).toNat⟩
    | _ => none := by
  unfold at?
  dsimp only
  by_cases h : 0xC0000000 ≤ a.toNat
  · rw [if_pos h, Address.region_kseg2 h]
    split_ifs <;> rfl
  rw [if_neg h, Address.region_eq (Nat.not_le.1 h), ← Address.translate_toNat (Nat.not_le.1 h)]
  generalize Address.translate a = p
  cases hr : Address.physicalRegion p with
  | ram =>
    rw [if_pos (Address.physicalRegion_eq_ram.1 hr), if_neg fun hc => by cases hc.1]
    exact congrArg (fun i => some (Cell.mk .ram i)) (Memory.ramIndex_eq p).symm
  | scratchpad =>
    have hin := Address.physicalRegion_eq_scratchpad.1 hr
    have hle : Address.scratchpadFirst ≤ p := UInt32.le_iff_toNat_le.2 hin.1
    rw [if_neg (by omega), if_pos hin]
    by_cases hkseg1 : a.toNat < 0xA0000000
    · rw [if_pos hkseg1, if_neg fun hc => Nat.not_lt.2 hc.2 hkseg1]
      exact congrArg (fun i => some (Cell.mk .scratchpad i)) (UInt32.toNat_sub_of_le _ _ hle).symm
    · rw [if_neg hkseg1, if_pos ⟨rfl, Nat.not_lt.1 hkseg1⟩]
  | bios =>
    have hin := Address.physicalRegion_eq_bios.1 hr
    have hle : Address.biosFirst ≤ p := UInt32.le_iff_toNat_le.2 hin.1
    rw [if_neg (by omega), if_neg (by omega), if_pos hin, if_neg fun hc => by cases hc.1]
    exact congrArg (fun i => some (Cell.mk .bios i)) (UInt32.toNat_sub_of_le _ _ hle).symm
  | _ =>
    have hram : ¬p.toNat < 0x00800000 := mt Address.physicalRegion_eq_ram.2 (by rw [hr]; decide)
    have hpad := mt Address.physicalRegion_eq_scratchpad.2 (by rw [hr]; decide)
    have hbios := mt Address.physicalRegion_eq_bios.2 (by rw [hr]; decide)
    rw [if_neg hram, if_neg hpad, if_neg hbios]
    rfl

theorem index_lt {address : Nat} {c : Cell} (h : at? address = some c) :
    c.index < c.image.size := by
  unfold at? at h
  dsimp only at h
  split_ifs at h <;> obtain rfl := Option.some.inj h
  · exact Nat.mod_lt _ (by decide)
  · show address % 0x20000000 - 0x1F800000 < 0x400
    omega
  · show address % 0x20000000 - 0x1FC00000 < 0x80000
    omega

theorem index_add_lt {a : UInt32} {w : Width} {c : Cell} {k : Nat}
    (h : at? (w.align a).toNat = some c) (hk : k < w.bytes.toNat) :
    c.index + k < c.image.size := by
  have hn : w.bytes.toNat ∣ 4 := by cases w <;> decide
  have hdvd : w.bytes.toNat ∣ (w.align a).toNat := by
    rw [w.align_toNat]
    exact Nat.dvd_mul_left ..
  have hadd := at?_add hn hk hdvd
  rw [h] at hadd
  exact index_lt hadd

/-! ### Stores -/

variable {held : Cell → UInt8} {stores : List (Cell × UInt8)} {c : Cell}

theorem store_append (held : Cell → UInt8) (stores stores' : List (Cell × UInt8)) :
    store held (stores ++ stores') = store (store held stores) stores' :=
  overlay_append held stores stores'

/-- If no cell is stored to twice, each holds what was stored in it. -/
theorem store_of_mem (hn : (stores.map Prod.fst).Nodup) {v : UInt8} (h : (c, v) ∈ stores) :
    store held stores c = v :=
  overlay_of_mem hn h

/-- Stores to different cells are known by what the cells hold afterwards. -/
theorem eq_store {held' : Cell → UInt8} (hn : (stores.map Prod.fst).Nodup)
    (hin : ∀ s ∈ stores, held' s.1 = s.2)
    (hout : ∀ c, c ∉ stores.map Prod.fst → held' c = held c) : held' = store held stores :=
  eq_overlay hn hin hout

end Cell

namespace Memory

def image (m : Memory) : Image → ByteArray
  | .ram => m.ram
  | .scratchpad => m.scratchpad
  | .bios => m.bios

def setImage (m : Memory) (i : Image) (data : ByteArray) : Memory :=
  match i with
  | .ram => { m with ram := data }
  | .scratchpad => { m with scratchpad := data }
  | .bios => { m with bios := data }

/-- What a cell holds. -/
def byte (m : Memory) (c : Cell) : UInt8 := Bytes.byteAt (m.image c.image) c.index

variable {m : Memory}

theorem image_setImage (m : Memory) (i j : Image) (data : ByteArray) :
    (m.setImage i data).image j = if i = j then data else m.image j := by
  cases i <;> cases j <;> rfl

theorem cacheControl_setImage (m : Memory) (i : Image) (data : ByteArray) :
    (m.setImage i data).cacheControl = m.cacheControl := by
  cases i <;> rfl

theorem image_size (h : m.hasSizes = true) (i : Image) : (m.image i).size = i.size := by
  simp only [hasSizes, Bool.and_eq_true, beq_iff_eq] at h
  cases i with
  | ram => exact h.1.1
  | scratchpad => exact h.1.2
  | bios => exact h.2

theorem byte_setImage (m : Memory) (i : Image) (data : ByteArray) (c : Cell) :
    (m.setImage i data).byte c =
      if i = c.image then Bytes.byteAt data c.index else m.byte c := by
  unfold byte
  rw [image_setImage]
  split <;> rfl

theorem byte_setByte (m : Memory) {i : Image} {index : Nat} (h : index < (m.image i).size)
    (v : UInt8) : (m.setImage i (Bytes.setByte (m.image i) index v)).byte =
      Function.update m.byte ⟨i, index⟩ v := by
  funext c
  rw [byte_setImage]
  by_cases hc : c = ⟨i, index⟩
  · subst hc
    rw [if_pos rfl, Bytes.byteAt_setByte, if_pos ⟨rfl, h⟩, Function.update_self]
  · rw [Function.update_of_ne hc]
    split
    · rename_i hi
      subst hi
      rw [Bytes.byteAt_setByte, if_neg fun hn => hc (by rw [hn.1])]
      rfl
    · rfl

end Memory

end Psx
