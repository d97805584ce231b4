import Psx.Proofs.Bus.PowerOn
import Psx.Proofs.Checked.Bus
import Psx.Proofs.Dma.Operated

/-!
# Chips that can run on

What the checked operations of the chips rely on (`Board.Steady`) holds at power on, and whatever is
done with the board keeps it: the divided clocks keep less than a period, the beam is inside its frame,
what the video port counts down fits in its types, and a slice with its gap lasts less than 2^32
cycles. The channels of the controller are regular besides (`Dma.Regular`).

Two counts grow for ever and are bounded by nothing on the board: the frames and the dropped words.
Accesses and transfers leave the frames alone, and a wait counts no more of them than its cycles.
-/

namespace Psx

/-! ### The video port -/

namespace Gpu

theorem polygonLength_le (opcode : UInt8) : polygonLength opcode ≤ 12 := by
  have hquad := bitOf_le opcode 0x08
  have htexture := bitOf_le opcode 0x04
  have hcoordinates : (3 + bitOf opcode 0x08) * (1 + bitOf opcode 0x04) ≤ 4 * 2 :=
    Nat.mul_le_mul (by omega) (by omega)
  unfold polygonLength
  dsimp only
  split <;> omega

theorem rectangleLength_le (opcode : UInt8) : rectangleLength opcode ≤ 4 := by
  have htexture := bitOf_le opcode 0x04
  unfold rectangleLength
  split <;> omega

/-- No packet has more than twelve words before its data. -/
theorem packetLength_le (opcode : UInt8) :
    (∀ n, packetLength opcode = .words n → n ≤ 12) ∧
      ∀ n, packetLength opcode = .polyline n → n ≤ 12 := by
  have hshaded := bitOf_le opcode 0x10
  have hpolygon := polygonLength_le opcode
  have hrectangle := rectangleLength_le opcode
  unfold packetLength lineLength
  dsimp only
  refine ⟨fun n hn => ?_, fun n hn => ?_⟩
  all_goals
    split_ifs at hn <;> cases hn <;> omega

theorem imageWords_lt (size : UInt32) : imageWords size < 2 ^ 32 := by
  have hwidth : (((size &&& 0xFFFF) - 1) &&& 0x3FF).toNat ≤ 1023 := by
    rw [UInt32.toNat_and]
    exact Nat.and_le_right
  have hheight : (((size >>> 16) - 1) &&& 0x1FF).toNat ≤ 511 := by
    rw [UInt32.toNat_and]
    exact Nat.and_le_right
  have harea : ((((size &&& 0xFFFF) - 1) &&& 0x3FF).toNat + 1)
      * ((((size >>> 16) - 1) &&& 0x1FF).toNat + 1) ≤ 1024 * 512 :=
    Nat.mul_le_mul (by omega) (by omega)
  unfold imageWords
  dsimp only
  omega

namespace Packet

/-- What is left of a packet fits in its type. -/
def Narrow : Packet → Prop
  | idle => True
  | command _ remaining => remaining < 2 ^ 32
  | polyline mandatory => mandatory < 2 ^ 32
  | imageData remaining => remaining < 2 ^ 32

theorem narrow_first (word : UInt32) : (first word).1.Narrow ∧
    ∀ words, (first word).2 = .imageRead words → words < 2 ^ 32 := by
  obtain ⟨hwords, hpolyline⟩ := packetLength_le (opcodeOf word)
  unfold first
  dsimp only
  split
  · exact ⟨trivial, fun _ h => by cases h⟩
  · rename_i n _ hn
    have hle := hwords n hn
    exact ⟨show n - 1 < 2 ^ 32 by omega, fun _ h => by cases h⟩
  · rename_i n hn
    have hle := hpolyline n hn
    exact ⟨show n < 2 ^ 32 by omega, fun _ h => by cases h⟩

theorem narrow_complete (opcode : UInt8) (last : UInt32) : (complete opcode last).1.Narrow ∧
    ∀ words, (complete opcode last).2 = .imageRead words → words < 2 ^ 32 := by
  unfold complete
  split_ifs
  · exact ⟨trivial, fun _ h => by cases h⟩
  · exact ⟨imageWords_lt last, fun _ h => by cases h⟩
  · exact ⟨trivial, fun _ h => by cases h; exact imageWords_lt last⟩
  · exact ⟨trivial, fun _ h => by cases h⟩

theorem Narrow.feed {p : Packet} (h : p.Narrow) (word : UInt32) : (p.feed word).1.Narrow ∧
    ∀ words, (p.feed word).2 = .imageRead words → words < 2 ^ 32 := by
  cases p with
  | idle => exact narrow_first word
  | command opcode remaining =>
    simp only [Packet.feed]
    split_ifs
    · exact ⟨Nat.lt_of_le_of_lt (Nat.sub_le ..) h, fun _ h => by cases h⟩
    · exact narrow_complete opcode word
  | polyline mandatory =>
    simp only [Packet.feed]
    split_ifs
    · exact ⟨Nat.lt_of_le_of_lt (Nat.sub_le ..) h, fun _ h => by cases h⟩
    · exact ⟨trivial, fun _ h => by cases h⟩
    · exact ⟨show 0 < 2 ^ 32 by decide, fun _ h => by cases h⟩
  | imageData remaining =>
    simp only [Packet.feed]
    split_ifs
    · exact ⟨Nat.lt_of_le_of_lt (Nat.sub_le ..) h, fun _ h => by cases h⟩
    · exact ⟨trivial, fun _ h => by cases h⟩

end Packet

/-- What the port counts down fits in its types, and so does the size of its queue. -/
structure Narrow (g : Gpu) : Prop where
  packet : g.packet.Narrow
  vramReadWords : g.vramReadWords < 2 ^ 32
  capacity : g.queue.capacity < 2 ^ 64

namespace Narrow

variable {g g' : Gpu}

theorem of_eq (h : g.Narrow) (hp : g'.packet = g.packet) (hv : g'.vramReadWords = g.vramReadWords)
    (hq : g'.queue.capacity = g.queue.capacity) : g'.Narrow :=
  ⟨hp ▸ h.packet, hv ▸ h.vramReadWords, hq ▸ h.capacity⟩

theorem initial {capacity : Nat} (h : capacity < 2 ^ 64) (standard : VideoStandard) :
    (Gpu.initial capacity standard).Narrow :=
  ⟨trivial, show 0 < 2 ^ 32 by decide, Nat.max_lt.2 ⟨h, by decide⟩⟩

theorem execute (h : g.Narrow) (opcode : UInt8) (word : UInt32) :
    (g.execute opcode word).2.Narrow := by
  unfold Gpu.execute
  split <;> first | exact h.of_eq rfl rfl rfl | (split <;> exact h.of_eq rfl rfl rfl)

theorem writeGp0 (h : g.Narrow) (word : UInt32) : (g.writeGp0 word).2.Narrow := by
  obtain ⟨hpacket, hread⟩ := h.packet.feed word
  have hq : (g.queue.push word).capacity < 2 ^ 64 := by
    rw [CommandQueue.push_capacity]
    exact h.capacity
  unfold Gpu.writeGp0 frame
  dsimp only
  split
  · exact ⟨hpacket, h.vramReadWords, hq⟩
  · exact (show Narrow { g with queue := g.queue.push word, packet := (g.packet.feed word).1 } from
      ⟨hpacket, h.vramReadWords, hq⟩).execute ..
  · rename_i words he
    exact ⟨hpacket, hread words he, hq⟩

theorem resetCommands (h : g.Narrow) : g.resetCommands.Narrow :=
  ⟨trivial, show 0 < 2 ^ 32 by decide, h.capacity⟩

theorem writeGp1 (h : g.Narrow) (value : UInt32) : (g.writeGp1 value).2.Narrow := by
  unfold Gpu.writeGp1
  split
  · exact h.resetCommands.of_eq rfl rfl rfl
  · exact h.resetCommands
  all_goals first | exact h.of_eq rfl rfl rfl | (split <;> exact h.of_eq rfl rfl rfl)

theorem write (h : g.Narrow) (offset value : UInt32) : (g.write offset value).2.Narrow := by
  unfold Gpu.write
  split
  · exact h.writeGp0 value
  · exact h.writeGp1 value

theorem readLatch (h : g.Narrow) : g.readLatch.2.Narrow := by
  unfold Gpu.readLatch
  split
  · exact ⟨h.packet, Nat.lt_of_le_of_lt (Nat.sub_le ..) h.vramReadWords, h.capacity⟩
  · exact h

theorem read (h : g.Narrow) (offset : UInt32) (w : Width) : (g.read offset w).2.Narrow := by
  unfold Gpu.read
  split
  · exact h.readLatch
  · exact h

end Narrow

/-! ### Frames -/

variable (g : Gpu)

theorem setStandard_frames (b : Beam) (s : VideoStandard) :
    (b.setStandard s).frames = b.frames := by
  unfold Beam.setStandard
  split <;> rfl

theorem write_frames (offset value : UInt32) :
    (g.write offset value).2.beam.frames = g.beam.frames := by
  unfold write
  split
  · rw [writeGp0_beam]
  · unfold writeGp1
    split
    · exact setStandard_frames ..
    all_goals first | rfl | exact setStandard_frames .. | (split <;> rfl)

theorem advance_frames_le (h : g.beam.InFrame) (cycles : Nat) :
    (g.advance cycles).2.beam.frames ≤ g.beam.frames + cycles := Beam.run_frames_le h []

end Gpu

/-! ### The board -/

namespace Board

variable {δ : Type}

/-- What the checked operations of the chips rely on, but for the channels of the controller. -/
structure Steady (b : Board δ) : Prop where
  timers : b.lines.timers.Kept
  beam : b.gpu.beam.InFrame
  gpu : b.gpu.Narrow
  gap : b.dma.sliceGap + 0x10000 < 2 ^ 32

namespace Steady

variable {b : Board δ}

theorem withDma (h : b.Steady) (asks : Bool) {dma : Dma} (hd : dma.sliceGap = b.dma.sliceGap) :
    (b.withDma asks dma).Steady :=
  ⟨by cases asks <;> exact h.timers, h.beam, h.gpu, hd ▸ h.gap⟩

theorem withGpu (h : b.Steady) (signals : List Signal) {g : Gpu} (hb : g.beam.InFrame)
    (hg : g.Narrow) : (b.withGpu signals g).Steady :=
  ⟨Lines.kept_deliverAll h.timers signals, hb, hg, h.gap⟩

theorem withExternal (h : b.Steady) (i : Nat) (e : External δ) (signals : List Signal)
    (device : δ) : (b.withExternal i e signals device).Steady := by
  refine ⟨?_, h.beam, h.gpu, h.gap⟩
  unfold Board.withExternal
  dsimp only
  split
  · exact Lines.kept_deliverAll h.timers signals
  · exact h.timers

end Steady

variable [Device δ]

theorem steady_invariant : Invariant (δ := δ) (fun _ => True) Steady where
  read {b p} h _ offset w := by
    cases p with
    | timers => exact ⟨h.timers.read offset w, h.beam, h.gpu, h.gap⟩
    | gpu => exact ⟨h.timers, b.gpu.read_beam offset w ▸ h.beam, h.gpu.read offset w, h.gap⟩
    | «external» i => unfold read; dsimp only; split; exacts [h, h.withExternal ..]
    | _ => exact h
  write {b p} h _ offset w value := by
    cases p with
    | timers => exact ⟨h.timers.write offset w value, h.beam, h.gpu, h.gap⟩
    | dma => exact h.withDma _ (b.dma.sliceGap_write offset w value)
    | gpu =>
      exact h.withGpu _ ((Gpu.drives_write b.gpu offset value).beam h.beam)
        (h.gpu.write offset value)
    | «external» i => unfold write; dsimp only; split; exacts [h, h.withExternal ..]
    | _ => exact ⟨h.timers, h.beam, h.gpu, h.gap⟩
  consume {b p} h _ channel word := by
    cases p with
    | gpu =>
      exact h.withGpu _ ((Gpu.drives_writeGp0 b.gpu word).beam h.beam) (h.gpu.writeGp0 word)
    | «external» i => unfold consume; dsimp only; split; exacts [h, h.withExternal ..]
    | _ => exact h
  produce {b p} h _ channel := by
    cases p with
    | gpu => exact ⟨h.timers, b.gpu.readLatch_beam ▸ h.beam, h.gpu.readLatch, h.gap⟩
    | «external» i => unfold produce; dsimp only; split; exacts [h, h.withExternal ..]
    | _ => exact h
  advance {b p} h _ cycles := by
    cases p with
    | timers => exact ⟨Lines.kept_advance h.timers cycles, h.beam, h.gpu, h.gap⟩
    | gpu =>
      exact h.withGpu _ ((Gpu.drives_advance b.gpu cycles).beam h.beam) (h.gpu.of_eq rfl rfl rfl)
    | «external» i => unfold advance; dsimp only; split; exacts [h, h.withExternal ..]
    | _ => exact h

theorem Steady.reset {b : Board δ} (h : b.Steady) (p : Part) : (b.reset p).Steady := by
  cases p with
  | timers => exact ⟨Timers.kept_reset _, h.beam, h.gpu, h.gap⟩
  | dma => exact ⟨h.timers, h.beam, h.gpu, h.gap⟩
  | gpu =>
    exact h.withGpu _ ((Gpu.drives_reset b.gpu).beam h.beam) (.initial h.gpu.capacity _)
  | «external» i => unfold Board.reset; dsimp only; split; exacts [h, h.withExternal ..]
  | _ => exact ⟨h.timers, h.beam, h.gpu, h.gap⟩

theorem regular_invariant : Invariant (δ := δ) (fun _ => True) fun b => b.dma.Regular :=
  dma_invariant fun h => h.write

theorem regular_reset {b : Board δ} (h : b.dma.Regular) (p : Part) : (b.reset p).dma.Regular :=
  dma_reset (K := Dma.Regular) Dma.Regular.reset h p

/-! ### Frames -/

omit [Device δ] in
def frames (b : Board δ) : Nat := b.gpu.beam.frames

variable (b : Board δ) (p : Part)

theorem frames_read (offset : UInt32) (w : Width) : (b.read p offset w).2.frames = b.frames := by
  cases p with
  | gpu => exact congrArg (·.frames) (b.gpu.read_beam offset w)
  | «external» i => unfold read; dsimp only; split <;> rfl
  | _ => rfl

theorem frames_write (offset : UInt32) (w : Width) (value : UInt32) :
    (b.write p offset w value).frames = b.frames := by
  cases p with
  | gpu => exact b.gpu.write_frames offset value
  | «external» i => unfold write; dsimp only; split <;> rfl
  | _ => rfl

theorem frames_consume (channel : Nat) (word : UInt32) :
    (b.consume p channel word).frames = b.frames := by
  cases p with
  | gpu => exact congrArg (·.frames) (b.gpu.writeGp0_beam word)
  | «external» i => unfold consume; dsimp only; split <;> rfl
  | _ => rfl

theorem frames_produce (channel : Nat) : (b.produce p channel).2.frames = b.frames := by
  cases p with
  | gpu => exact congrArg (·.frames) b.gpu.readLatch_beam
  | «external» i => unfold produce; dsimp only; split <;> rfl
  | _ => rfl

end Board

/-! ### Frames on the bus -/

namespace Bus

variable {δ : Type} [Device δ]

section

variable (b : Bus δ)

/-- An access is answered by one part at most. -/
theorem read_board (address : UInt32) (w : Width) : (b.read address w).2.board = b.board ∨
    ∃ p offset, (b.read address w).2.board = (b.board.read p offset w).2 := by
  have hdevice : ∀ physical, (b.readDevice physical w).2.board = b.board ∨
      ∃ p offset, (b.readDevice physical w).2.board = (b.board.read p offset w).2 := by
    intro physical
    unfold readDevice
    split
    · exact .inl rfl
    · exact .inr ⟨_, _, rfl⟩
  unfold read
  dsimp only
  split <;> first | exact .inl rfl | exact hdevice _

theorem write_board (address : UInt32) (w : Width) (value : UInt32) :
    (b.write address w value).board = b.board ∨
      ∃ p offset low, (b.write address w value).board = b.board.write p offset w low := by
  have hdevice : ∀ physical low, (b.writeDevice physical w low).board = b.board ∨
      ∃ p offset low', (b.writeDevice physical w low).board = b.board.write p offset w low' := by
    intro physical low
    unfold writeDevice
    split
    · exact .inl rfl
    · exact .inr ⟨_, _, _, rfl⟩
  unfold write
  dsimp only
  split <;> first | exact .inl rfl | exact hdevice ..

theorem frames_read (address : UInt32) (w : Width) :
    (b.read address w).2.board.frames = b.board.frames := by
  rcases b.read_board address w with e | ⟨p, offset, e⟩ <;> rw [e]
  exact b.board.frames_read p offset w

theorem frames_write (address : UInt32) (w : Width) (value : UInt32) :
    (b.write address w value).board.frames = b.board.frames := by
  rcases b.write_board address w value with e | ⟨p, offset, low, e⟩ <;> rw [e]
  exact b.board.frames_write p offset w low

theorem frames_runSlice : b.runSlice.2.board.frames = b.board.frames := by
  have hmover := Mover.of_kept (P := fun b' : Bus δ => b'.board.frames = b.board.frames)
    (fun b' h address w => (b'.frames_read address w).trans h)
    (fun b' h address w value => (b'.frames_write address w value).trans h)
    (fun b' h channel word => by
      unfold dmaConsume
      split
      · exact h
      · exact (b'.board.frames_consume _ channel word).trans h)
    (fun b' h channel => by
      unfold dmaProduce
      split
      · exact h
      · exact (b'.board.frames_produce _ channel).trans h)
  exact (hmover.runSlice (a := b) (b := b) ⟨rfl, rfl⟩ rfl (fun h => by rw [h.1])
    fun h asks dma => ⟨by rw [h.1], h.2⟩).2.2

end

variable {b : Bus δ}

theorem frames_advance_le (ht : b.table = coreTable) (h : b.board.gpu.beam.InFrame)
    (cycles : Nat) : (b.advance cycles).board.frames ≤ b.board.frames + cycles := by
  unfold advance
  split_ifs with h0
  · exact Nat.le_add_right ..
  · rw [eachPart_eq, parts_of_table ht]
    exact b.board.gpu.advance_frames_le h cycles

theorem dropped_advance (b : Bus δ) (cycles : Nat) :
    (b.advance cycles).board.dropped = b.board.dropped := by
  unfold advance
  split_ifs
  · rfl
  · rw [eachPart_eq]
    exact List.foldlRecOn (motive := fun board : Board δ => board.dropped = b.board.dropped)
      b.parts (fun board p => board.advance cycles p) rfl
      fun board hb p _ => (Board.dropped_advance p board cycles).trans hb

/-! ### Slices -/

theorem Within.runSlice_steady (h : b.Within (fun _ => True) Board.Steady) :
    b.runSlice.2.Within (fun _ => True) Board.Steady :=
  h.runSlice_gap Board.steady_invariant fun _ hb asks _ hd => hb.withDma asks hd

theorem Within.runSlice_regular (h : b.Within (fun _ => True) fun b => b.dma.Regular) :
    b.runSlice.2.Within (fun _ => True) fun b => b.dma.Regular :=
  ⟨fun _ _ => trivial, h.board.runSlice⟩

end Bus

end Psx
