import Psx.Proofs.Bus.Requests
import Psx.Proofs.Memory.Cells

/-!
# One memory behind its aliases

Without devices the bus is a memory of cells, each with several addresses. Accesses and bulk loads
store bytes in cells (`MemoryCall.stores`), and what a cell holds is the byte last stored in it
(`Bus.callAll_eq`). So a read yields the bytes last stored in the cells that it falls on, and a write
changes the cells that it falls on and nothing else (`Bus.holds_last_stored`).
-/

namespace Psx

/-- A use of a bus by which it may change what its memories hold. -/
inductive MemoryCall where
  | read (address : UInt32) (w : Width)
  | write (address : UInt32) (w : Width) (value : UInt32)
  | storeBytes (address : UInt32) (data : List UInt8)
  | loadBios (image : ByteArray)

/-- The bytes that a call stores, and where. An image of another size is not loaded. -/
def MemoryCall.stores : MemoryCall → List (Cell × UInt8)
  | read .. => []
  | write address w value =>
    ((Cell.addressed address w).filter (·.image.isWritable)).zip (Bytes.ofWord value)
  | storeBytes address data =>
    (data.zipIdx address.toNat).map fun (byte, n) => (⟨.ram, n % 0x200000⟩, byte)
  | loadBios image =>
    if image.size = 0x80000 then
      (List.range image.size).map fun n => (⟨.bios, n⟩, Bytes.byteAt image n)
    else []

namespace Bytes

theorem ofWord_eq (value : UInt32) : ofWord value = (List.range 4).map (byteOf value) := by
  show _ = [byteOf value 0, byteOf value 1, byteOf value 2, byteOf value 3]
  simp [ofWord, byteOf]

end Bytes

namespace Memory

variable {m : Memory}

section

variable {w : Width} {i : Image} {index : Nat}

theorem byte_store_mem (value : UInt32) {k : Nat} (hk : k < w.bytes.toNat)
    (h : index + k < (m.image i).size) :
    (m.setImage i (Bytes.store (m.image i) index w (value &&& w.mask))).byte ⟨i, index + k⟩ =
      Bytes.byteOf value k := by
  rw [byte_setImage, if_pos rfl, Bytes.byteAt_store _ _ hk h, Bytes.byteOf_mask hk]

theorem byte_store_notMem (value : UInt32) {c : Cell}
    (hc : c ∉ (List.range w.bytes.toNat).map fun k => Cell.mk i (index + k)) :
    (m.setImage i (Bytes.store (m.image i) index w value)).byte c = m.byte c := by
  rw [byte_setImage]
  split
  · rename_i hi
    subst hi
    refine Bytes.byteAt_store_of_ne _ _ fun k hk hn => hc ?_
    exact List.mem_map.2 ⟨k, List.mem_range.2 hk, by rw [hn]⟩
  · rfl

/-- A store to an image is a store to the cells that it covers. -/
theorem byte_store (value : UInt32) (h : ∀ k < w.bytes.toNat, index + k < (m.image i).size) :
    (m.setImage i (Bytes.store (m.image i) index w (value &&& w.mask))).byte =
      Cell.store m.byte (((List.range w.bytes.toNat).map fun k => ⟨i, index + k⟩).zip
        (Bytes.ofWord value)) := by
  have hle : w.bytes.toNat ≤ 4 := by cases w <;> decide
  have hfst : (((List.range w.bytes.toNat).map fun k => Cell.mk i (index + k)).zip
      (Bytes.ofWord value)).map Prod.fst =
        (List.range w.bytes.toNat).map fun k => Cell.mk i (index + k) :=
    List.map_fst_zip (by rwa [List.length_map, List.length_range])
  refine Cell.eq_store ?_ (fun s hs => ?_) fun c hc => byte_store_notMem _ (hfst ▸ hc)
  · rw [hfst]
    exact List.nodup_range.map fun j k hjk => Nat.add_left_cancel (congrArg Cell.index hjk)
  · obtain ⟨k, hk⟩ := List.mem_iff_getElem?.1 hs
    obtain ⟨hcell, hvalue⟩ := List.getElem?_zip_eq_some.1 hk
    obtain ⟨hlt, hcell⟩ := List.getElem?_eq_some_iff.1 hcell
    rw [List.length_map, List.length_range] at hlt
    rw [List.getElem_map, List.getElem_range] at hcell
    rw [Bytes.ofWord_eq, List.getElem?_map, List.getElem?_range (by omega)] at hvalue
    rw [← hcell, byte_store_mem value hlt (h k hlt)]
    exact Option.some.inj hvalue

end

theorem byte_storeBytes (h : m.ram.size = 0x200000) (address : UInt32) (data : List UInt8) :
    (m.storeBytes address data).byte =
      Cell.store m.byte (MemoryCall.storeBytes address data).stores := by
  unfold storeBytes MemoryCall.stores
  dsimp only
  have hstart : ramIndex (Address.translate address) % 0x200000 = address.toNat % 0x200000 := by
    unfold ramIndex
    rw [Address.translate_and_ramMask]
    show ramIndex address % 0x200000 = _
    rw [ramIndex_eq, Nat.mod_mod]
  generalize ramIndex (Address.translate address) = start at hstart ⊢
  generalize address.toNat = n at hstart ⊢
  induction data generalizing m start n with
  | nil => rfl
  | cons byte data ih =>
    have hbyte : ({ m with ram := Bytes.setByte m.ram (start % 0x200000) byte } : Memory).byte =
        Function.update m.byte ⟨.ram, n % 0x200000⟩ byte := by
      rw [hstart]
      exact m.byte_setByte (i := .ram) (by rw [image, h]; exact Nat.mod_lt _ (by decide)) byte
    have hih := ih (m := { m with ram := Bytes.setByte m.ram (start % 0x200000) byte })
      ((Bytes.setByte_size ..).trans h) (start + 1) (n + 1) (by omega)
    rw [hbyte] at hih
    exact hih

/-- To put in another image is to store all its bytes. -/
theorem byte_replaced (i : Image) {data : ByteArray} (h : data.size = (m.image i).size) :
    (m.setImage i data).byte = Cell.store m.byte
      ((List.range data.size).map fun n => (⟨i, n⟩, Bytes.byteAt data n)) := by
  have hfst : ((List.range data.size).map fun n => (Cell.mk i n, Bytes.byteAt data n)).map
      Prod.fst = (List.range data.size).map (Cell.mk i) := List.map_map ..
  refine Cell.eq_store ?_ (fun s hs => ?_) fun c hc => ?_
  · rw [hfst]
    exact List.nodup_range.map fun j k hjk => congrArg Cell.index hjk
  · obtain ⟨n, -, rfl⟩ := List.mem_map.1 hs
    rw [byte_setImage, if_pos rfl]
  · rw [hfst] at hc
    rw [byte_setImage]
    split
    · rename_i hi
      subst hi
      have hn : ¬c.index < data.size := fun hlt =>
        hc (List.mem_map.2 ⟨c.index, List.mem_range.2 hlt, rfl⟩)
      rw [byte, Bytes.byteAt, Bytes.byteAt, dif_neg hn, dif_neg (h ▸ hn)]
    · rfl

theorem hasSizes_setImage {i : Image} {data : ByteArray} (h : data.size = (m.image i).size) :
    (m.setImage i data).hasSizes = m.hasSizes := by
  cases i with
  | ram => unfold hasSizes setImage; rw [h]; rfl
  | scratchpad => unfold hasSizes setImage; rw [h]; rfl
  | bios => unfold hasSizes setImage; rw [h]; rfl

end Memory

namespace Bus

variable {δ : Type} [Device δ] {b : Bus δ}

/-- Makes a call. A boot image that is refused changes nothing. -/
def call (b : Bus δ) : MemoryCall → Bus δ
  | .read address w => (b.read address w).2
  | .write address w value => b.write address w value
  | .storeBytes address data => b.storeBytes address data
  | .loadBios image => (b.loadBios image).toOption.getD b

def callAll (b : Bus δ) (calls : List MemoryCall) : Bus δ := calls.foldl call b

/-- What the cells hold after calls: the bytes last stored in them. -/
def held (b : Bus δ) (calls : List MemoryCall) : Cell → UInt8 :=
  Cell.store b.memory.byte (calls.flatMap MemoryCall.stores)

omit [Device δ] in
theorem lookup?_of_entries (h : b.table.entries = #[]) (a : UInt32) : b.table.lookup? a = none := by
  cases hl : b.table.lookup? a with
  | none => rfl
  | some r =>
    obtain ⟨part, offset⟩ := r
    obtain ⟨w, -, -, e, he, -⟩ := DecodeTable.window_of_lookup? hl
    rw [h] at he
    cases he

theorem read_eq (h : b.table.entries = #[]) (a : UInt32) (w : Width) : b.read a w =
    match Cell.at? (w.align a).toNat with
    | some c => (Bytes.load (b.memory.image c.image) c.index w, b)
    | none =>
      if w.align a = Address.cacheControl then (readLane b.memory.cacheControl 0 w, b)
      else (b.openBus &&& w.mask, b) := by
  have hdevice : b.readDevice (Address.translate (w.align a)) w = (b.openBus &&& w.mask, b) := by
    unfold readDevice
    rw [lookup?_of_entries h]
  unfold read
  dsimp only
  rw [Cell.at?_region, hdevice]
  simp only [← Address.region_eq_cacheControl]
  cases Address.region (w.align a) <;> rfl

theorem write_eq (h : b.table.entries = #[]) (a : UInt32) (w : Width) (value : UInt32) :
    b.write a w value =
    match Cell.at? (w.align a).toNat with
    | some c =>
      if c.image.isWritable then
        { b with
          memory := b.memory.setImage c.image
            (Bytes.store (b.memory.image c.image) c.index w (value &&& w.mask)) }
      else b
    | none =>
      if w.align a = Address.cacheControl then
        { b with
          memory.cacheControl := writeLane b.memory.cacheControl 0 w (value &&& w.mask) }
      else b := by
  have hdevice : b.writeDevice (Address.translate (w.align a)) w (value &&& w.mask) = b := by
    unfold writeDevice
    rw [lookup?_of_entries h]
  unfold write
  dsimp only
  rw [Cell.at?_region, hdevice]
  simp only [← Address.region_eq_cacheControl]
  cases Address.region (w.align a) <;> rfl

/-! ### Calls -/

/-- What a write does: the cells that it falls on hold its bytes if they can be written, and all else
stays as it is. The register beside the memories has an address of its own. -/
structure Wrote (b b' : Bus δ) (address : UInt32) (w : Width) (value : UInt32) : Prop where
  stored : ∀ (k : Nat) c, (Cell.addressed address w)[k]? = some c → c.image.isWritable = true →
    b'.memory.byte c = Bytes.byteOf value k
  kept : ∀ c, (c ∈ Cell.addressed address w → c.image.isWritable = false) →
    b'.memory.byte c = b.memory.byte c
  sizes : b'.memory.hasSizes = b.memory.hasSizes
  control : w.align address ≠ Address.cacheControl → b'.memory.cacheControl = b.memory.cacheControl
  rest : { b' with memory := b.memory } = b

theorem wrote_write (hs : b.memory.hasSizes = true) (hd : b.table.entries = #[]) (a : UInt32)
    (w : Width) (value : UInt32) : b.Wrote (b.write a w value) a w value := by
  rw [write_eq hd]
  cases hat : Cell.at? (w.align a).toNat with
  | none =>
    have hnil : Cell.addressed a w = [] := by rw [Cell.addressed_eq, hat]
    have hstored : ∀ (k : Nat) c, (Cell.addressed a w)[k]? ≠ some c := fun k c hc => by
      rw [hnil] at hc
      cases hc
    dsimp only
    split
    · rename_i hcc
      exact ⟨fun k c hc => absurd hc (hstored k c), fun c _ => rfl, rfl, fun hne => absurd hcc hne,
        rfl⟩
    · exact ⟨fun k c hc => absurd hc (hstored k c), fun c _ => rfl, rfl, fun _ => rfl, rfl⟩
  | some d =>
    have hcells : Cell.addressed a w =
        (List.range w.bytes.toNat).map fun k => ⟨d.image, d.index + k⟩ := by
      rw [Cell.addressed_eq, hat]
    have himage : ∀ c ∈ Cell.addressed a w, c.image = d.image := fun c hc => by
      rw [hcells] at hc
      obtain ⟨k, -, rfl⟩ := List.mem_map.1 hc
      rfl
    dsimp only
    split
    · -- an image that can be written
      rename_i hw
      refine ⟨fun k c hc _ => ?_, fun c hc => ?_, ?_, fun _ => ?_, rfl⟩
      · rw [hcells] at hc
        obtain ⟨hlt, rfl⟩ := List.getElem?_eq_some_iff.1 hc
        rw [List.length_map, List.length_range] at hlt
        rw [List.getElem_map, List.getElem_range]
        refine Memory.byte_store_mem value hlt ?_
        rw [Memory.image_size hs]
        exact Cell.index_add_lt hat hlt
      · refine Memory.byte_store_notMem _ fun hmem => ?_
        have hmem : c ∈ Cell.addressed a w := hcells ▸ hmem
        have hno := hc hmem
        rw [himage c hmem, hw] at hno
        cases hno
      · exact Memory.hasSizes_setImage (Bytes.store_size ..)
      · exact Memory.cacheControl_setImage ..
    · -- the others stay as they are
      rename_i hw
      refine ⟨fun k c hc hwritable => ?_, fun c _ => rfl, rfl, fun _ => rfl, rfl⟩
      rw [himage c (List.mem_of_getElem? hc)] at hwritable
      exact absurd hwritable hw

theorem stores_write (a : UInt32) (w : Width) (value : UInt32) :
    (MemoryCall.write a w value).stores =
      match Cell.at? (w.align a).toNat with
      | some c =>
        if c.image.isWritable then
          ((List.range w.bytes.toNat).map fun k => ⟨c.image, c.index + k⟩).zip (Bytes.ofWord value)
        else []
      | none => [] := by
  unfold MemoryCall.stores
  dsimp only
  rw [Cell.addressed_eq]
  cases Cell.at? (w.align a).toNat with
  | none => rfl
  | some c =>
    dsimp only
    split
    · rename_i hw
      rw [List.filter_eq_self.2 fun d hd => ?_]
      obtain ⟨k, -, rfl⟩ := List.mem_map.1 hd
      exact hw
    · rename_i hw
      rw [List.filter_eq_nil_iff.2 fun d hd => ?_, List.zip_nil_left]
      obtain ⟨k, -, rfl⟩ := List.mem_map.1 hd
      exact hw

theorem call_loadBios (b : Bus δ) (image : ByteArray) : b.call (.loadBios image) =
    if image.size = 0x80000 then { b with memory.bios := image } else b := by
  rw [call, loadBios, Memory.loadBios]
  by_cases hi : image.size = 0x80000
  · rw [if_pos hi, if_pos (show image.size = Address.biosSize from hi)]
    rfl
  · rw [if_neg hi, if_neg (show ¬image.size = Address.biosSize from hi)]
    rfl

/-- A call stores its bytes. -/
theorem byte_call (hs : b.memory.hasSizes = true) (hd : b.table.entries = #[])
    (call : MemoryCall) : (b.call call).memory.byte = Cell.store b.memory.byte call.stores := by
  cases call with
  | read a w =>
    rw [call, read_eq hd]
    cases Cell.at? (w.align a).toNat with
    | none => dsimp only; split <;> rfl
    | some c => rfl
  | write a w value =>
    rw [call, write_eq hd, stores_write]
    cases hat : Cell.at? (w.align a).toNat with
    | none => dsimp only; split <;> rfl
    | some c =>
      dsimp only
      split
      · refine Memory.byte_store value fun k hk => ?_
        rw [Memory.image_size hs]
        exact Cell.index_add_lt hat hk
      · rfl
  | storeBytes a data => exact Memory.byte_storeBytes (Memory.image_size hs .ram) a data
  | loadBios image =>
    rw [call_loadBios, MemoryCall.stores]
    split
    · rename_i hi
      exact Memory.byte_replaced .bios (hi.trans (Memory.image_size hs .bios).symm)
    · rfl

/-- A call changes nothing but the memories, and no size. -/
theorem call_eq (hs : b.memory.hasSizes = true) (hd : b.table.entries = #[])
    (call : MemoryCall) : ∃ memory : Memory, b.call call = { b with memory } ∧
      memory.hasSizes = true := by
  cases call with
  | read a w =>
    refine ⟨b.memory, ?_, hs⟩
    rw [Bus.call, read_eq hd]
    cases Cell.at? (w.align a).toNat with
    | none => dsimp only; split <;> rfl
    | some c => rfl
  | write a w value =>
    have hw := wrote_write hs hd a w value
    exact ⟨_, congrArg (fun c : Bus δ => { c with memory := (b.write a w value).memory }) hw.rest,
      hw.sizes.trans hs⟩
  | storeBytes a data => exact ⟨_, rfl, Memory.hasSizes_storeBytes hs a data⟩
  | loadBios image =>
    rw [call_loadBios]
    split
    · rename_i hi
      have hsize := hi.trans (Memory.image_size hs .bios).symm
      exact ⟨_, rfl, (Memory.hasSizes_setImage (i := .bios) hsize).trans hs⟩
    · exact ⟨b.memory, rfl, hs⟩

theorem callAll_eq (hs : b.memory.hasSizes = true) (hd : b.table.entries = #[])
    (calls : List MemoryCall) : ∃ memory : Memory, b.callAll calls = { b with memory } ∧
      memory.hasSizes = true ∧ memory.byte = b.held calls := by
  induction calls generalizing b with
  | nil => exact ⟨b.memory, rfl, hs, rfl⟩
  | cons call calls ih =>
    obtain ⟨memory, hcall, hsizes⟩ := call_eq hs hd call
    have hbyte := byte_call hs hd call
    rw [hcall] at hbyte
    obtain ⟨memory', hall, hsizes', hbyte'⟩ := ih (b := { b with memory }) hsizes hd
    refine ⟨memory', ?_, hsizes', ?_⟩
    · rw [callAll, List.foldl_cons, hcall]
      exact hall
    · rw [hbyte', held, held, List.flatMap_cons, Cell.store_append, ← hbyte]

/-- After any calls, the cells hold the bytes last stored in them. A read that falls on cells yields
those bytes, the low one first; one that falls on none, and not on the register beside the memories,
yields the open-bus value as far as it reaches; neither changes anything. A write changes the cells
that it falls on, if they can be written, and nothing else. -/
theorem holds_last_stored (hs : b.memory.hasSizes = true) (hd : b.table.entries = #[])
    (calls : List MemoryCall) :
    (b.callAll calls).memory.byte = b.held calls ∧
    (∀ a w, ((b.callAll calls).read a w).2 = b.callAll calls ∧
      ((Cell.addressed a w).length = w.bytes.toNat ∧
          ((b.callAll calls).read a w).1.toNat =
            Nat.ofDigits 256 ((Cell.addressed a w).map fun c => (b.held calls c).toNat) ∨
        Cell.addressed a w = [] ∧ (w.align a ≠ Address.cacheControl →
          ((b.callAll calls).read a w).1 = b.openBus &&& w.mask))) ∧
    ∀ a w value, (b.callAll calls).Wrote ((b.callAll calls).write a w value) a w value := by
  obtain ⟨memory, hall, hsizes, hbyte⟩ := callAll_eq hs hd calls
  rw [hall]
  refine ⟨hbyte, fun a w => ?_, fun a w value =>
    wrote_write (b := { b with memory }) hsizes hd a w value⟩
  rw [read_eq (b := { b with memory }) hd, Cell.addressed_eq]
  cases Cell.at? (w.align a).toNat with
  | none =>
    dsimp only
    split
    · rename_i hcc
      exact ⟨rfl, .inr ⟨rfl, fun hne => absurd hcc hne⟩⟩
    · exact ⟨rfl, .inr ⟨rfl, fun _ => rfl⟩⟩
  | some c =>
    refine ⟨rfl, .inl ⟨by rw [List.length_map, List.length_range], ?_⟩⟩
    rw [List.map_map, ← hbyte]
    exact Bytes.load_toNat ..

/-- Bytes loaded across the end of RAM, one of them overwritten, and read through another alias. -/
theorem holds_last_stored_ofConfig :
    ((ofConfig {} : Bus Empty).memory.hasSizes = true ∧
      (ofConfig {} : Bus Empty).table.entries = #[]) ∧
    (((ofConfig {} : Bus Empty).callAll [.storeBytes 0x001FFFFE [1, 2, 3, 4],
      .write 0xA0200001 .byte 0x105, .write 0xBF800000 .word 6]).read 0x80600001 .half).1.toNat =
        0x0503 := by
  have h := holds_last_stored (b := (ofConfig {} : Bus Empty)) Memory.hasSizes_initial rfl
    [.storeBytes 0x001FFFFE [1, 2, 3, 4], .write 0xA0200001 .byte 0x105, .write 0xBF800000 .word 6]
  refine ⟨⟨Memory.hasSizes_initial, rfl⟩, ?_⟩
  rcases (h.2.1 0x80600001 .half).2 with ⟨-, hr⟩ | ⟨hnil, -⟩
  · rw [hr]
    decide +kernel
  · exact absurd hnil (by decide +kernel)

end Bus

end Psx
