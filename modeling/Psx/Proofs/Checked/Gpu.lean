import Psx.Proofs.Checked.Operations
import Psx.Proofs.Gpu.Grammar
import Psx.Proofs.Gpu.Port

/-!
# The video port, checked

The port counts three things without end: the words it dropped, the frames, and the cycles of the
line the beam is on. The last starts over with each line, and a beam inside its frame takes a cycle
or more for every pulse, so a wait of some cycles adds no more frames than that. The words are
counted one by one.
-/

namespace Psx

open Checked

namespace Gpu

/-! ### Packets -/

def imageWords! (size : UInt32) : Option Nat := do
  let width ← held 32 ((((size &&& 0xFFFF) - 1) &&& 0x3FF).toNat + 1)
  let height ← held 32 ((((size >>> 16) - 1) &&& 0x1FF).toNat + 1)
  let pixels ← held 32 (width * height)
  held 32 (pixels / 2 + pixels % 2)

def polygonLength! (opcode : UInt8) : Option Nat := do
  let vertices := 3 + bitOf opcode 0x08
  let each ← held 32 (1 + bitOf opcode 0x04)
  let colors ← if opcode &&& 0x10 != 0 then sub vertices 1 else pure 0
  let points ← held 32 (vertices * each)
  held 32 ((← held 32 (1 + points)) + colors)

def rectangleLength! (opcode : UInt8) : Option Nat := do
  let sized ← held 32 (2 + bitOf opcode 0x04)
  held 32 (sized + (if opcode &&& 0x18 == 0 then 1 else 0))

def packetLength! (opcode : UInt8) : Option PacketLength := do
  if opcode == 0x02 then pure (.words 3)
  else if opcode < 0x20 then pure (.words 1)
  else if opcode < 0x40 then pure (.words (← polygonLength! opcode))
  else if opcode < 0x60 then pure (lineLength opcode)
  else if opcode < 0x80 then pure (.words (← rectangleLength! opcode))
  else if opcode < 0xA0 then pure (.words 4)
  else if opcode < 0xE0 then pure (.words 3)
  else pure (.words 1)

namespace Packet

def first! (word : UInt32) : Option (Packet × Effect) := do
  let opcode := opcodeOf word
  match ← packetLength! opcode with
  | .words 1 => pure (idle, .execute opcode word)
  | .words n => pure (command opcode (← sub n 1), .none)
  | .polyline mandatory => pure (polyline mandatory, .none)

def complete! (opcode : UInt8) (last : UInt32) : Option (Packet × Effect) := do
  if opcode < 0xA0 then pure (idle, .none)
  else if opcode < 0xC0 then pure (imageData (← imageWords! last), .none)
  else if opcode < 0xE0 then pure (idle, .imageRead (← imageWords! last))
  else pure (idle, .none)

def feed! (word : UInt32) : Packet → Option (Packet × Effect)
  | idle => first! word
  | command opcode remaining =>
    if remaining > 1 then do pure (command opcode (← sub remaining 1), .none)
    else complete! opcode word
  | polyline mandatory =>
    if mandatory > 0 then do pure (polyline (← sub mandatory 1), .none)
    else if isTerminator word then pure (idle, .none)
    else pure (polyline 0, .none)
  | imageData remaining =>
    if remaining > 1 then do pure (imageData (← sub remaining 1), .none) else pure (idle, .none)

end Packet

theorem bitOf_le (opcode bit : UInt8) : bitOf opcode bit ≤ 1 := by
  unfold bitOf
  split <;> decide

@[simp] theorem imageWords!_eq (size : UInt32) : imageWords! size = some (imageWords size) := by
  have hw : (((size &&& 0xFFFF) - 1) &&& 0x3FF).toNat ≤ 0x3FF := by
    rw [UInt32.toNat_and]
    exact Nat.and_le_right
  have hh : (((size >>> 16) - 1) &&& 0x1FF).toNat ≤ 0x1FF := by
    rw [UInt32.toNat_and]
    exact Nat.and_le_right
  unfold imageWords! imageWords
  generalize (((size &&& 0xFFFF) - 1) &&& 0x3FF).toNat = w at hw
  generalize (((size >>> 16) - 1) &&& 0x1FF).toNat = h at hh
  have hp : (w + 1) * (h + 1) ≤ 0x400 * 0x200 := Nat.mul_le_mul (by omega) (by omega)
  rw [held_eq (by omega), held_eq (by omega)]
  simp only [Option.bind_eq_bind, Option.bind_some]
  rw [held_eq (by omega)]
  simp only [Option.bind_some]
  rw [held_eq (by omega)]
  exact congrArg some (by omega)

@[simp] theorem polygonLength!_eq (opcode : UInt8) :
    polygonLength! opcode = some (polygonLength opcode) := by
  have h4 := bitOf_le opcode 0x04
  have h8 := bitOf_le opcode 0x08
  unfold polygonLength! polygonLength
  generalize bitOf opcode 0x04 = t at h4
  generalize bitOf opcode 0x08 = v at h8
  have hp : (3 + v) * (1 + t) ≤ 4 * 2 := Nat.mul_le_mul (by omega) (by omega)
  dsimp only
  split_ifs <;> simp (disch := omega) only [held_eq, sub_eq, Option.bind_eq_bind,
    Option.bind_some, Option.pure_def]

@[simp] theorem rectangleLength!_eq (opcode : UInt8) :
    rectangleLength! opcode = some (rectangleLength opcode) := by
  have h4 := bitOf_le opcode 0x04
  unfold rectangleLength! rectangleLength
  rw [held_eq (by omega)]
  simp only [Option.bind_eq_bind, Option.bind_some]
  exact held_eq (by split <;> omega)

@[simp] theorem packetLength!_eq (opcode : UInt8) :
    packetLength! opcode = some (packetLength opcode) := by
  unfold packetLength! packetLength
  simp only [polygonLength!_eq, rectangleLength!_eq, Option.bind_eq_bind, Option.bind_some,
    Option.pure_def]
  split_ifs <;> rfl

namespace Packet

@[simp] theorem first!_eq (word : UInt32) : first! word = some (first word) := by
  unfold first! first
  simp only [packetLength!_eq, Option.bind_eq_bind, Option.bind_some, Option.pure_def]
  rw [packetLength_eq]
  split_ifs
  · rfl
  · -- a packet has its first word at least
    cases parameters (opcodeOf word) with
    | zero => rfl
    | succ n => exact congrArg (Option.bind · _) (sub_eq (by omega : 1 ≤ n + 2))

@[simp] theorem complete!_eq (opcode : UInt8) (last : UInt32) :
    complete! opcode last = some (complete opcode last) := by
  unfold complete! complete
  simp only [imageWords!_eq, Option.bind_eq_bind, Option.bind_some, Option.pure_def]
  split_ifs <;> rfl

@[simp] theorem feed!_eq (word : UInt32) (p : Packet) : p.feed! word = some (p.feed word) := by
  cases p with
  | idle => exact first!_eq word
  | command opcode remaining =>
    simp only [feed!, feed]
    split_ifs
    · rw [sub_eq (by omega)]; rfl
    · exact complete!_eq opcode word
  | polyline mandatory =>
    simp only [feed!, feed]
    split_ifs
    · rw [sub_eq (by omega)]; rfl
    · rfl
    · rfl
  | imageData remaining =>
    simp only [feed!, feed]
    split_ifs
    · rw [sub_eq (by omega)]; rfl
    · rfl

end Packet

/-! ### The beam -/

namespace Beam

/-- The distance to the end of the line saturates. -/
def cyclesToPulse! (b : Beam) : Option Nat :=
  if !b.inHblank && b.lineCycle < b.timing.hblankStart then sub b.timing.hblankStart b.lineCycle
  else pure (b.timing.cyclesPerLine - b.lineCycle)

def nextLine! (b : Beam) : Option (List Signal × Beam) := do
  let line ← held 16 (b.line + 1)
  if line ≥ b.timing.linesPerFrame then
    pure (if b.inVblank then [.vblankEnd] else [], { b with line := 0, inVblank := false })
  else if line == b.timing.vblankStart && !b.inVblank then
    let frames ← held 64 (b.frames + 1)
    pure ([.vblankBegin, .raise .vblank], { b with line, inVblank := true, frames })
  else pure ([], { b with line })

def endLine! (b : Beam) : Option (List Signal × Beam) := do
  if b.lineCycle < b.timing.cyclesPerLine then pure ([], b)
  else
    let lineCycle ← sub b.lineCycle b.timing.cyclesPerLine
    let (signals, b) ← { b with lineCycle, inHblank := false }.nextLine!
    pure (.hblankEnd :: signals, b)

def fire! (b : Beam) : Option (List Signal × Beam) := do
  let (first, b) := b.enterHblank
  let (rest, b) ← b.endLine!
  pure (first ++ rest, b)

/-- A run that its hops do not end has no result either. -/
def hops! (b : Beam) (cycles : Nat) (emitted : List Signal) : Nat → Option (List Signal × Beam)
  | 0 => if cycles = 0 then pure (emitted, b) else none
  | hops + 1 =>
    if cycles = 0 then pure (emitted, b)
    else do
      let step := min cycles (← b.cyclesToPulse!)
      let lineCycle ← held 32 (b.lineCycle + step)
      let rest ← sub cycles step
      let (signals, b) ← { b with lineCycle }.fire!
      b.hops! rest (signals.reverse ++ emitted) hops

/-- A hop that moves the beam takes a cycle or more; one that moves it nowhere does not end. -/
def run! (b : Beam) (cycles : Nat) (emitted : List Signal) : Option (List Signal × Beam) :=
  b.hops! cycles emitted cycles

def advance! (b : Beam) (cycles : Nat) : Option (List Signal × Beam) := do
  let (emitted, b) ← b.run! cycles []
  pure (emitted.reverse, b)

def setStandard! (b : Beam) (standard : VideoStandard) : Option Beam := do
  if standard = b.standard then pure b
  else
    let lastCycle ← sub standard.timing.cyclesPerLine 1
    let lastLine ← sub standard.timing.linesPerFrame 1
    pure { b with
      standard
      lineCycle := min b.lineCycle lastCycle
      line := min b.line lastLine }

variable {b : Beam} {cycles : Nat}

theorem timing_bounds (b : Beam) :
    b.timing.cyclesPerLine ≤ 2157 ∧ b.timing.linesPerFrame ≤ 314 := by
  unfold timing VideoStandard.timing
  cases b.standard <;> decide

@[simp] theorem cyclesToPulse!_eq (b : Beam) : b.cyclesToPulse! = some b.cyclesToPulse := by
  unfold cyclesToPulse! cyclesToPulse
  split
  · rename_i h
    simp only [Bool.and_eq_true, decide_eq_true_eq] at h
    exact sub_eq (Nat.le_of_lt h.2)
  · rfl

theorem InFrame.cyclesToPulse_pos (h : b.InFrame) : 0 < b.cyclesToPulse := by
  have := h.cycle
  unfold cyclesToPulse
  split
  · rename_i hb
    simp only [Bool.and_eq_true, decide_eq_true_eq] at hb
    omega
  · omega

theorem nextLine!_eq (hl : b.line < b.timing.linesPerFrame) (hf : b.frames + 1 < 2 ^ 64) :
    b.nextLine! = some b.nextLine := by
  have := b.timing_bounds
  unfold nextLine! nextLine
  rw [held_eq (by omega), held_eq hf]
  simp only [Option.bind_eq_bind, Option.bind_some, Option.pure_def]
  split_ifs <;> rfl

theorem endLine!_eq (hl : b.line < b.timing.linesPerFrame) (hf : b.frames + 1 < 2 ^ 64) :
    b.endLine! = some b.endLine := by
  unfold endLine! endLine
  split_ifs with h
  · rfl
  · rw [sub_eq (Nat.le_of_not_lt h)]
    simp only [Option.bind_eq_bind, Option.bind_some]
    rw [nextLine!_eq (by exact hl) (by exact hf)]
    rfl

theorem fire!_eq (hl : b.line < b.timing.linesPerFrame) (hf : b.frames + 1 < 2 ^ 64) :
    b.fire! = some b.fire := by
  obtain ⟨i, e⟩ := b.enterHblank_frame
  unfold fire! fire
  simp only [e]
  rw [endLine!_eq (by exact hl) (by exact hf)]
  rfl

theorem nextLine_frames_le (b : Beam) : b.nextLine.2.frames ≤ b.frames + 1 := by
  unfold nextLine
  dsimp only
  split_ifs <;> simp

theorem hop_frames_le (b : Beam) (step : Nat) : (b.hop step).2.frames ≤ b.frames + 1 := by
  obtain ⟨i, e⟩ := ({ b with lineCycle := b.lineCycle + step } : Beam).enterHblank_frame
  simp only [hop, fire, endLine, e]
  split_ifs
  · exact Nat.le_succ _
  · exact nextLine_frames_le _

/-- In a frame every pulse takes a cycle or more, so a run ends and counts no more frames than
cycles. -/
theorem hops!_eq (h : b.InFrame) (hn : cycles < 2 ^ 32) (hf : b.frames + cycles < 2 ^ 64)
    (emitted : List Signal) {hops : Nat} (hh : cycles ≤ hops) :
    b.hops! cycles emitted hops = some (b.run cycles emitted) := by
  induction hops generalizing b cycles emitted with
  | zero =>
    obtain rfl : cycles = 0 := Nat.le_zero.mp hh
    rw [hops!, if_pos rfl, run_zero]
    rfl
  | succ hops ih =>
    by_cases h0 : cycles = 0
    · subst h0
      rw [hops!, if_pos rfl, run_zero]
      rfl
    · have hp := h.cyclesToPulse_pos
      have hle := b.cyclesToPulse_le
      have hb := b.timing_bounds
      have hcycle := h.cycle
      have hstep : min cycles b.cyclesToPulse ≤ b.cyclesToPulse := Nat.min_le_right ..
      rw [hops!, if_neg h0, run_pos b h0, cyclesToPulse!_eq]
      generalize hs : min cycles b.cyclesToPulse = step at hstep
      simp only [Option.bind_eq_bind, Option.bind_some, hs]
      rw [held_eq (by omega), sub_eq (by omega)]
      simp only [Option.bind_some]
      rw [fire!_eq (by exact h.line) (by show b.frames + 1 < _; omega)]
      have hframes := b.hop_frames_le step
      exact ih (h.hop hstep) (by omega) (by omega) _ (by omega)

theorem run!_eq (h : b.InFrame) (hn : cycles < 2 ^ 32) (hf : b.frames + cycles < 2 ^ 64)
    (emitted : List Signal) : b.run! cycles emitted = some (b.run cycles emitted) :=
  hops!_eq h hn hf emitted (Nat.le_refl _)

theorem advance!_eq (h : b.InFrame) (hn : cycles < 2 ^ 32) (hf : b.frames + cycles < 2 ^ 64) :
    b.advance! cycles = some (b.advance cycles) := by
  rw [advance!, run!_eq h hn hf]
  rfl

theorem run_frames_le (h : b.InFrame) (emitted : List Signal) :
    (b.run cycles emitted).2.frames ≤ b.frames + cycles := by
  induction cycles using Nat.strongRecOn generalizing b emitted with
  | ind cycles ih =>
    by_cases h0 : cycles = 0
    · subst h0
      rw [run_zero]
      exact Nat.le_refl _
    · have hp := h.cyclesToPulse_pos
      have hstep : min cycles b.cyclesToPulse ≤ b.cyclesToPulse := Nat.min_le_right ..
      rw [run_pos b h0]
      generalize hs : min cycles b.cyclesToPulse = step at hstep
      have hframes := b.hop_frames_le step
      have := ih (cycles - step) (by omega) (h.hop hstep) ((b.hop step).1.reverse ++ emitted)
      omega

@[simp] theorem setStandard!_eq (b : Beam) (s : VideoStandard) :
    b.setStandard! s = some (b.setStandard s) := by
  unfold setStandard! setStandard
  rw [sub_eq (by cases s <;> decide), sub_eq (by cases s <;> decide)]
  split_ifs <;> rfl

end Beam

/-! ### The port -/

namespace CommandQueue

def push! (q : CommandQueue) (word : UInt32) : Option CommandQueue := do
  let q ← if q.size ≥ q.capacity then do
      let dropped ← held 64 (q.dropped + 1)
      pure { q with words := q.words.extract 1, dropped }
    else pure q
  pure { q with words := q.words.push word }

theorem push!_eq {q : CommandQueue} (h : q.dropped + 1 < 2 ^ 64) (word : UInt32) :
    q.push! word = some (q.push word) := by
  unfold push! push
  rw [held_eq h]
  split_ifs <;> rfl

theorem push_dropped_le (q : CommandQueue) (word : UInt32) :
    (q.push word).dropped ≤ q.dropped + 1 := by
  unfold push
  dsimp only
  split_ifs
  · exact Nat.le_refl _
  · exact Nat.le_succ _

end CommandQueue

def frame! (g : Gpu) (word : UInt32) : Option (List Signal × Gpu) := do
  let (packet, effect) ← g.packet.feed! word
  let g := { g with packet }
  pure (match effect with
    | .none => ([], g)
    | .execute opcode word => g.execute opcode word
    | .imageRead words => ([], { g with vramReadWords := words }))

def writeGp0! (g : Gpu) (word : UInt32) : Option (List Signal × Gpu) := do
  let queue ← g.queue.push! word
  { g with queue }.frame! word

def readLatch! (g : Gpu) : Option (UInt32 × Gpu) := do
  if g.vramReadWords > 0 then
    let vramReadWords ← sub g.vramReadWords 1
    pure (0, { g with vramReadWords, latch := 0 })
  else pure (g.latch, g)

def applyStandard! (g : Gpu) : Option Gpu := do
  pure { g with beam := ← g.beam.setStandard! g.status.standard }

def resetPort! (g : Gpu) : Option (List Signal × Gpu) := do
  let g ← { g.resetCommands with status := {}, display := {}, environment := {} }.applyStandard!
  pure (g.dotClock, g)

def setDisplayMode! (g : Gpu) (value : UInt32) : Option (List Signal × Gpu) := do
  let g ← { g with
    status.horizontalRes1 := (value &&& 3).toUInt8
    status.verticalRes := value &&& 0x04 != 0
    status.palMode := value &&& 0x08 != 0
    status.trueColor := value &&& 0x10 != 0
    status.interlaced := value &&& 0x20 != 0
    status.horizontalRes2 := value &&& 0x40 != 0
    status.reversed := value &&& 0x80 != 0 }.applyStandard!
  pure (g.dotClock, g)

/-- The other commands only store what they are given. -/
def writeGp1! (g : Gpu) (value : UInt32) : Option (List Signal × Gpu) :=
  if (value >>> 24) &&& 0x3F = 0x00 then g.resetPort!
  else if (value >>> 24) &&& 0x3F = 0x08 then g.setDisplayMode! value
  else pure (g.writeGp1 value)

def read! (g : Gpu) (offset : UInt32) (w : Width) : Option (UInt32 × Gpu) := do
  if wordOf offset == 0 then
    let (value, g) ← g.readLatch!
    pure (← readLane! value offset w, g)
  else pure (← readLane! g.statusWord offset w, g)

def write! (g : Gpu) (offset : UInt32) (value : UInt32) : Option (List Signal × Gpu) :=
  if wordOf offset == 0 then g.writeGp0! value else g.writeGp1! value

def advance! (g : Gpu) (cycles : Nat) : Option (List Signal × Gpu) := do
  let (signals, beam) ← g.beam.advance! cycles
  pure (signals, { g with beam })

def untilEvent! (g : Gpu) : Option Nat := do pure (max (← g.beam.cyclesToPulse!) 1)

variable {g : Gpu} {cycles : Nat}

@[simp] theorem frame!_eq (g : Gpu) (word : UInt32) : g.frame! word = some (g.frame word) := by
  unfold frame! frame
  rw [Packet.feed!_eq]
  rfl

theorem writeGp0!_eq (h : g.queue.dropped + 1 < 2 ^ 64) (word : UInt32) :
    g.writeGp0! word = some (g.writeGp0 word) := by
  rw [writeGp0!, CommandQueue.push!_eq h]
  exact frame!_eq ..

@[simp] theorem readLatch!_eq (g : Gpu) : g.readLatch! = some g.readLatch := by
  unfold readLatch! readLatch
  split_ifs
  · rw [sub_eq (by omega)]
    rfl
  · rfl

@[simp] theorem applyStandard!_eq (g : Gpu) : g.applyStandard! = some g.applyStandard := by
  simp [applyStandard!, applyStandard]

@[simp] theorem writeGp1!_eq (g : Gpu) (value : UInt32) :
    g.writeGp1! value = some (g.writeGp1 value) := by
  unfold writeGp1!
  split_ifs with h0 h8
  · unfold resetPort! writeGp1
    rw [h0]
    simp only [applyStandard!_eq, Option.bind_eq_bind, Option.bind_some]
    rfl
  · unfold setDisplayMode! writeGp1
    rw [h8]
    simp only [applyStandard!_eq, Option.bind_eq_bind, Option.bind_some]
    rfl
  · rfl

@[simp] theorem read!_eq (g : Gpu) (offset : UInt32) (w : Width) :
    g.read! offset w = some (g.read offset w) := by
  unfold read! read
  simp only [readLatch!_eq, readLane!_eq, Option.bind_eq_bind, Option.bind_some, Option.pure_def]
  split_ifs <;> rfl

theorem write!_eq (h : g.queue.dropped + 1 < 2 ^ 64) (offset value : UInt32) :
    g.write! offset value = some (g.write offset value) := by
  unfold write! write
  split_ifs
  · exact writeGp0!_eq h value
  · exact writeGp1!_eq g value

theorem advance!_eq (h : g.beam.InFrame) (hn : cycles < 2 ^ 32)
    (hf : g.beam.frames + cycles < 2 ^ 64) : g.advance! cycles = some (g.advance cycles) := by
  rw [advance!, Beam.advance!_eq h hn hf]
  rfl

@[simp] theorem untilEvent!_eq (g : Gpu) : g.untilEvent! = some g.untilEvent := by
  simp [untilEvent!, untilEvent]

/-! ### What is counted -/

@[simp] theorem read_queue (g : Gpu) (offset : UInt32) (w : Width) :
    (g.read offset w).2.queue = g.queue := by
  unfold read
  split
  · exact g.readLatch_queue
  · rfl

@[simp] theorem advance_queue (g : Gpu) (cycles : Nat) : (g.advance cycles).2.queue = g.queue := rfl

theorem writeGp0_dropped_le (g : Gpu) (word : UInt32) :
    (g.writeGp0 word).2.queue.dropped ≤ g.queue.dropped + 1 := by
  rw [writeGp0_queue]
  exact g.queue.push_dropped_le word

theorem writeGp1_dropped (g : Gpu) (value : UInt32) :
    (g.writeGp1 value).2.queue.dropped = g.queue.dropped := by
  unfold writeGp1
  split <;> first | rfl | (split <;> rfl)

theorem write_dropped_le (g : Gpu) (offset value : UInt32) :
    (g.write offset value).2.queue.dropped ≤ g.queue.dropped + 1 := by
  unfold write
  split
  · exact g.writeGp0_dropped_le value
  · rw [writeGp1_dropped]
    exact Nat.le_succ _

end Gpu

end Psx
