import Mathlib.Tactic.SplitIfs
import Psx.Proofs.Bus.Transfers
import Psx.Proofs.Memory.DecodeTable

/-!
# What accesses leave alone

No access, no wait and no transfer touches the decode table, the costs or the open-bus value, changes
the size of a memory, or adds or removes a device: all of that is one relation, `Bus.Frame`, from the
bus before to the bus after.
-/

namespace Psx

/-! ### Sizes -/

namespace Bytes

theorem setByte_size (b : ByteArray) (i : Nat) (v : UInt8) : (setByte b i v).size = b.size := by
  unfold setByte
  split
  · exact Array.size_set ..
  · rfl

theorem store_size (b : ByteArray) (i : Nat) (w : Width) (v : UInt32) :
    (store b i w v).size = b.size := by
  cases w <;> simp only [store, setByte_size]

end Bytes

namespace Memory

variable {m m' : Memory}

theorem hasSizes_iff : m.hasSizes = true ↔
    (m.ram.size = Address.ramSize ∧ m.scratchpad.size = Address.scratchpadSize) ∧
      m.bios.size = Address.biosSize := by
  simp [hasSizes]

theorem hasSizes_of_eq (h : m.hasSizes = true) (hr : m'.ram.size = m.ram.size)
    (hs : m'.scratchpad.size = m.scratchpad.size) (hb : m'.bios.size = m.bios.size) :
    m'.hasSizes = true := by
  unfold hasSizes at h ⊢
  rw [hr, hs, hb]; exact h

theorem hasSizes_initial : initial.hasSizes = true := by
  simp [hasSizes, initial, Bytes.zeros, ByteArray.size]

theorem hasSizes_reset (h : m.hasSizes = true) : m.reset.hasSizes = true := by
  exact hasSizes_iff.2 ⟨(hasSizes_iff.1 hasSizes_initial).1, (hasSizes_iff.1 h).2⟩

theorem hasSizes_storeBytes (h : m.hasSizes = true) (address : UInt32) (data : List UInt8) :
    (m.storeBytes address data).hasSizes = true := by
  refine hasSizes_of_eq h ?_ rfl rfl
  unfold storeBytes
  dsimp only
  generalize ramIndex _ = start
  generalize m.ram = ram
  induction data generalizing ram start with
  | nil => rfl
  | cons byte data ih => exact (ih (start + 1) _).trans (Bytes.setByte_size ..)

theorem hasSizes_loadBios (h : m.hasSizes = true) {image : ByteArray}
    (hl : m.loadBios image = .ok m') : m'.hasSizes = true := by
  unfold loadBios at hl
  split at hl
  · rename_i hi
    cases hl
    exact hasSizes_iff.2 ⟨(hasSizes_iff.1 h).1, hi⟩
  · cases hl

end Memory

/-! ### Places -/

namespace Board

variable {δ : Type}

theorem withExternal_places (b : Board δ) (i : Nat) (e : External δ) (signals : List Signal)
    (device : δ) : (b.withExternal i e signals device).externals.size = b.externals.size :=
  Array.size_setIfInBounds

variable [Device δ] (b : Board δ) (p : Part)

theorem read_places (offset : UInt32) (w : Width) :
    (b.read p offset w).2.externals.size = b.externals.size := by
  cases p with
  | «external» i => unfold read; dsimp only; split <;> simp [withExternal_places]
  | _ => rfl

theorem write_places (offset : UInt32) (w : Width) (value : UInt32) :
    (b.write p offset w value).externals.size = b.externals.size := by
  cases p with
  | «external» i => unfold write; dsimp only; split <;> simp [withExternal_places]
  | _ => rfl

theorem consume_places (channel : Nat) (word : UInt32) :
    (b.consume p channel word).externals.size = b.externals.size := by
  cases p with
  | «external» i => unfold consume; dsimp only; split <;> simp [withExternal_places]
  | _ => rfl

theorem produce_places (channel : Nat) :
    (b.produce p channel).2.externals.size = b.externals.size := by
  cases p with
  | «external» i => unfold produce; dsimp only; split <;> simp [withExternal_places]
  | _ => rfl

theorem advance_places (cycles : Nat) :
    (b.advance cycles p).externals.size = b.externals.size := by
  cases p with
  | «external» i => unfold advance; dsimp only; split <;> simp [withExternal_places]
  | _ => rfl

omit [Device δ] in
theorem decode_eq_ok {α : Type} {c : Snapshot.Codec α} {f : α → Board δ} {data : ByteArray}
    {b' : Board δ} (h : (do let a ← decode c data; pure (f a)) = Except.ok b') :
    ∃ a, c.decode? data = some a ∧ b' = f a := by
  unfold decode at h
  cases hc : c.decode? data with
  | none => rw [hc] at h; cases h
  | some a => rw [hc] at h; cases h; exact ⟨a, rfl, rfl⟩

theorem load_places {data : ByteArray} {b' : Board δ} (h : b.load p data = .ok b') :
    b'.externals.size = b.externals.size := by
  cases p with
  | «external» i =>
    unfold load at h
    dsimp only at h
    split at h
    · cases h; rfl
    · rename_i e _
      cases hl : Device.load e.device data with
      | error e => rw [hl] at h; cases h
      | ok d => rw [hl] at h; cases h; exact withExternal_places ..
  | _ => obtain ⟨a, -, rfl⟩ := decode_eq_ok h; rfl

theorem spoil_places (data : ByteArray) :
    (b.spoil p data).externals.size = b.externals.size := by
  cases p with
  | «external» i => unfold spoil; dsimp only; split <;> simp [withExternal_places]
  | _ => rfl

theorem reset_places : (b.reset p).externals.size = b.externals.size := by
  cases p with
  | «external» i => unfold reset; dsimp only; split <;> simp [withExternal_places]
  | _ => rfl

end Board

namespace Bus

variable {δ : Type}

/-- The same devices at the same addresses, the same costs, and memories of the same sizes. -/
structure Frame (a b : Bus δ) : Prop where
  table : b.table = a.table
  timing : b.timing = a.timing
  openBus : b.openBus = a.openBus
  places : b.board.externals.size = a.board.externals.size
  sizes : a.memory.hasSizes = true → b.memory.hasSizes = true

namespace Frame

variable {a b c : Bus δ}

theorem refl (a : Bus δ) : Frame a a := ⟨rfl, rfl, rfl, rfl, id⟩

theorem trans (h : Frame a b) (h' : Frame b c) : Frame a c :=
  ⟨h'.table.trans h.table, h'.timing.trans h.timing, h'.openBus.trans h.openBus,
    h'.places.trans h.places, h'.sizes ∘ h.sizes⟩

theorem parts (h : Frame a b) : b.parts = a.parts := by
  unfold Bus.parts
  rw [h.table]

theorem of_board {board : Board δ} (h : board.externals.size = a.board.externals.size) :
    Frame a { a with board } := ⟨rfl, rfl, rfl, h, id⟩

theorem of_memory {memory : Memory}
    (h : a.memory.hasSizes = true → memory.hasSizes = true) : Frame a { a with memory } :=
  ⟨rfl, rfl, rfl, rfl, h⟩

theorem of_eachPart {f : Board δ → Part → Board δ}
    (hf : ∀ b p, (f b p).externals.size = b.externals.size) : Frame a (a.eachPart f) := by
  refine of_board ?_
  rw [← Array.foldl_toList]
  generalize a.board = board
  induction a.table.entries.toList generalizing board with
  | nil => rfl
  | cons e es ih => exact (ih _).trans (hf ..)

end Frame

theorem mem_parts_of_lookup? {b : Bus δ} {address offset : UInt32} {part : Part}
    (h : b.table.lookup? address = some (part, offset)) : part ∈ b.parts := by
  obtain ⟨w, -, -, e, he, rfl, -⟩ := DecodeTable.window_of_lookup? h
  exact List.mem_map_of_mem (Array.mem_toList_iff.2 (Array.mem_of_getElem? he))

theorem mem_parts_of_served? {b : Bus δ} {channel : Nat} {part : Part}
    (h : b.table.served? channel = some part) : part ∈ b.parts := by
  unfold DecodeTable.served? at h
  simp only [Option.bind_eq_bind, Option.bind_eq_some_iff] at h
  obtain ⟨device, -, e, he, hp⟩ := h
  cases hp
  exact List.mem_map_of_mem (Array.mem_toList_iff.2 (Array.mem_of_getElem? he))

variable [Device δ] (b : Bus δ)

theorem frame_readDevice (physical : UInt32) (w : Width) : Frame b (b.readDevice physical w).2 := by
  unfold readDevice
  split
  · exact .refl b
  · exact .of_board (Board.read_places ..)

theorem frame_read (address : UInt32) (w : Width) : Frame b (b.read address w).2 := by
  unfold read
  dsimp only
  split <;> first | exact .refl b | exact b.frame_readDevice ..

theorem frame_writeDevice (physical : UInt32) (w : Width) (value : UInt32) :
    Frame b (b.writeDevice physical w value) := by
  unfold writeDevice
  split
  · exact .refl b
  · exact .of_board (Board.write_places ..)

theorem frame_write (address : UInt32) (w : Width) (value : UInt32) :
    Frame b (b.write address w value) := by
  unfold write
  dsimp only
  split
  · exact .of_memory fun h => Memory.hasSizes_of_eq h (Bytes.store_size ..) rfl rfl
  · exact .of_memory fun h => Memory.hasSizes_of_eq h rfl (Bytes.store_size ..) rfl
  · exact .of_memory fun h => Memory.hasSizes_of_eq h rfl rfl rfl
  all_goals first | exact .refl b | exact b.frame_writeDevice ..

theorem frame_dmaConsume (channel : Nat) (word : UInt32) :
    Frame b (b.dmaConsume channel word) := by
  unfold dmaConsume
  split
  · exact .refl b
  · exact .of_board (Board.consume_places ..)

theorem frame_dmaProduce (channel : Nat) : Frame b (b.dmaProduce channel).2 := by
  unfold dmaProduce
  split
  · exact .refl b
  · exact .of_board (Board.produce_places ..)

theorem frame_advance (cycles : Nat) : Frame b (b.advance cycles) := by
  unfold advance
  split
  · exact .refl b
  · exact .of_eachPart fun b p => b.advance_places p cycles

theorem frame_reset : Frame b b.reset :=
  (Frame.of_memory Memory.hasSizes_reset).trans (.of_eachPart Board.reset_places)

omit [Device δ] in
theorem frame_loadBios {b b' : Bus δ} {image : ByteArray} (h : b.loadBios image = .ok b') :
    Frame b b' := by
  unfold loadBios at h
  cases hl : b.memory.loadBios image with
  | error e => rw [hl] at h; cases h
  | ok memory =>
    rw [hl] at h
    cases h
    exact .of_memory fun h => Memory.hasSizes_loadBios h hl

theorem loadEach_places (board : Board δ) (states : List SavedDevice) (ps : List Part) :
    (loadEach board states ps).2.externals.size = board.externals.size := by
  induction ps generalizing board states with
  | nil => cases states <;> rfl
  | cons p ps ih =>
    cases states with
    | nil => rfl
    | cons state states =>
      unfold loadEach
      cases h : board.load p state.2 with
      | error e => exact board.spoil_places p _
      | ok board' => exact (ih board' states).trans (board.load_places p h)

theorem frame_loadDevices (states : List SavedDevice) : Frame b (b.loadDevices states).2 := by
  unfold loadDevices
  split
  · exact .refl b
  · exact .of_board (loadEach_places ..)

theorem frame_runSlice : Frame b b.runSlice.2 :=
  -- the relation of the bus with itself; what the slice leaves in the controller does not matter
  ((Mover.of_kept (P := Frame b) (fun b' h a w => h.trans (b'.frame_read a w))
    (fun b' h a w v => h.trans (b'.frame_write a w v))
    (fun b' h c w => h.trans (b'.frame_dmaConsume c w))
    (fun b' h c => h.trans (b'.frame_dmaProduce c))).runSlice ⟨rfl, .refl b⟩ rfl
    (fun h => by rw [h.1]) fun h _ _ => ⟨by rw [h.1], h.2.trans (.of_board rfl)⟩).2.2

end Bus

end Psx
