import Psx.Proofs.Gpu.Raster
import Psx.Proofs.Timer.Slices

/-!
# What the video port drives

The timers keep a copy of the length of a dot, which the port alone knows: it depends on the
resolution that the status selects. `Gpu.Drives g r`: in going from `g` to `r.2` and driving `r.1`
the port keeps the beam inside the frame and that copy in step. Every operation of the port does
(`drives_write`, `drives_advance`, and so on), because those that may change the resolution drive
the dot clock afterwards and the others drive interrupts and blanking pulses alone.
-/

namespace Psx

/-- The signal sets the length of a dot. -/
def Signal.isDot : Signal → Bool
  | .dotClock _ => true
  | _ => false

/-- The beam drives the signal. -/
def Signal.isPulse : Signal → Bool
  | .hblankBegin | .hblankEnd | .vblankBegin | .vblankEnd | .raise .vblank => true
  | _ => false

theorem Signal.isDot_of_isPulse {s : Signal} (h : s.isPulse = true) : s.isDot = false := by
  cases s with
  | dotClock divider => cases h
  | _ => rfl

/-- The length of a dot as the timers know it. -/
def Lines.dot (l : Lines) : UInt32 := l.timers.dotDivider

def Gpu.dot (g : Gpu) : UInt32 := g.status.horizontalRes.dotDivider

namespace Lines

variable (l : Lines)

theorem deliver_dot {s : Signal} (h : s.isDot = false) : (l.deliver s).dot = l.dot := by
  cases s with
  | dotClock divider => cases h
  | hblankBegin =>
    unfold deliver dot
    simp only [raiseAll_timers, Timers.hblankBegin]
    split <;> rfl
  | raise | hblankEnd | vblankBegin | vblankEnd => rfl

theorem deliverAll_dot {signals : List Signal} (h : ∀ s ∈ signals, s.isDot = false) :
    (l.deliverAll signals).dot = l.dot := by
  induction signals generalizing l with
  | nil => rfl
  | cons s signals ih =>
    have hs := l.deliver_dot (h s List.mem_cons_self)
    exact (ih (l.deliver s) fun s' hs' => h s' (List.mem_cons_of_mem _ hs')).trans hs

theorem advance_dot (cycles : Nat) : (l.advance cycles).dot = l.dot := by
  unfold advance dot
  simp only [raiseAll_timers]
  rfl

end Lines

theorem HorizontalRes.dotDivider_pos (r : HorizontalRes) : max r.dotDivider 1 = r.dotDivider := by
  cases r <;> decide

namespace Gpu

/-- The dot clock brings the timers in step. -/
theorem deliver_dotClock (g : Gpu) (l : Lines) : (l.deliverAll g.dotClock).dot = g.dot :=
  HorizontalRes.dotDivider_pos _

/-! ### The beam -/

namespace Beam

theorem enterHblank_pulse (b : Beam) : ∀ s ∈ b.enterHblank.1, s.isPulse = true := by
  unfold enterHblank; split_ifs <;> simp [Signal.isPulse]

theorem nextLine_pulse (b : Beam) : ∀ s ∈ b.nextLine.1, s.isPulse = true := by
  unfold nextLine; dsimp only; split_ifs <;> simp [Signal.isPulse]

theorem endLine_pulse (b : Beam) : ∀ s ∈ b.endLine.1, s.isPulse = true := by
  unfold endLine; split_ifs
  · simp
  · intro s hs
    rcases List.mem_cons.1 hs with rfl | hs
    · rfl
    · exact nextLine_pulse _ s hs

theorem fire_pulse (b : Beam) : ∀ s ∈ b.fire.1, s.isPulse = true := by
  intro s hs
  rcases List.mem_append.1 hs with hs | hs
  · exact enterHblank_pulse _ s hs
  · exact endLine_pulse _ s hs

theorem run_pulse (b : Beam) (cycles : Nat) (emitted : List Signal)
    (h : ∀ s ∈ emitted, s.isPulse = true) : ∀ s ∈ (b.run cycles emitted).1, s.isPulse = true := by
  fun_induction run b cycles emitted with
  | case1 => exact h
  | case2 b cycles emitted hc step r ih =>
    refine ih fun s hs => ?_
    rcases List.mem_append.1 hs with hs | hs
    · exact fire_pulse _ s (List.mem_reverse.1 hs)
    · exact h s hs

theorem advance_pulse (b : Beam) (cycles : Nat) : ∀ s ∈ (b.advance cycles).1, s.isPulse = true :=
  fun s hs => b.run_pulse cycles [] (by simp) s (List.mem_reverse.1 hs)

theorem advance_quiet (b : Beam) (cycles : Nat) : ∀ s ∈ (b.advance cycles).1, s.isDot = false :=
  fun s hs => Signal.isDot_of_isPulse (b.advance_pulse cycles s hs)

end Beam

/-! ### The port -/

/-- What a change of the port keeps, given the signals that go with it. -/
structure Drives (g : Gpu) (r : List Signal × Gpu) : Prop where
  beam : g.beam.InFrame → r.2.beam.InFrame
  dot : ∀ l : Lines, l.dot = g.dot → (l.deliverAll r.1).dot = r.2.dot

variable {g : Gpu}

/-- The port tells nobody of a change that concerns neither the beam nor the resolution. -/
theorem Drives.quiet {g' : Gpu} {signals : List Signal} (hb : g'.beam = g.beam)
    (hd : g'.dot = g.dot) (hs : ∀ s ∈ signals, s.isDot = false) : Drives g (signals, g') :=
  ⟨fun h => by rw [hb]; exact h, fun l h => (l.deliverAll_dot hs).trans (h.trans hd.symm)⟩

/-- After a change of the resolution the port drives its dot clock. -/
theorem Drives.told {g' : Gpu} (hb : g.beam.InFrame → g'.beam.InFrame) :
    Drives g (g'.dotClock, g') := ⟨hb, fun l _ => g'.deliver_dotClock l⟩

theorem Drives.of_eq {g₀ : Gpu} {r : List Signal × Gpu} (h : Drives g₀ r) (hb : g₀.beam = g.beam)
    (hd : g₀.dot = g.dot) : Drives g r :=
  ⟨fun hg => h.beam (by rw [hb]; exact hg), fun l hl => h.dot l (hl.trans hd.symm)⟩

theorem drives_reset (g : Gpu) : Drives g g.reset :=
  Drives.told fun _ => Beam.inFrame_initial _

theorem drives_execute (g : Gpu) (opcode : UInt8) (word : UInt32) :
    Drives g (g.execute opcode word) := by
  unfold execute
  split
  · split
    · exact .quiet rfl rfl (by simp)
    · exact .quiet rfl rfl (by simp [Signal.isDot])
  all_goals exact .quiet rfl rfl (by simp)

theorem drives_frame (g : Gpu) (word : UInt32) : Drives g (g.frame word) := by
  unfold frame
  dsimp only
  split
  · exact .quiet rfl rfl (by simp)
  · exact (drives_execute _ _ _).of_eq rfl rfl
  · exact .quiet rfl rfl (by simp)

theorem drives_writeGp0 (g : Gpu) (word : UInt32) : Drives g (g.writeGp0 word) :=
  (drives_frame _ word).of_eq rfl rfl

theorem drives_writeGp1 (g : Gpu) (value : UInt32) : Drives g (g.writeGp1 value) := by
  unfold writeGp1
  split
  · exact .told fun h => h.setStandard _
  · exact .quiet rfl rfl (by simp)
  · exact .quiet rfl rfl (by simp)
  · exact .quiet rfl rfl (by simp)
  · exact .quiet rfl rfl (by simp)
  · exact .quiet rfl rfl (by simp)
  · exact .quiet rfl rfl (by simp)
  · exact .quiet rfl rfl (by simp)
  · exact .told fun h => h.setStandard _
  · split
    · exact .quiet rfl rfl (by simp)
    · exact .quiet rfl rfl (by simp)

theorem drives_write (g : Gpu) (offset value : UInt32) : Drives g (g.write offset value) := by
  unfold Gpu.write
  split
  · exact drives_writeGp0 g value
  · exact drives_writeGp1 g value

theorem drives_advance (g : Gpu) (cycles : Nat) : Drives g (g.advance cycles) :=
  ⟨fun h => h.advance cycles, fun l h => (l.deliverAll_dot (g.beam.advance_quiet cycles)).trans h⟩

theorem execute_beam (g : Gpu) (opcode : UInt8) (word : UInt32) :
    (g.execute opcode word).2.beam = g.beam := by
  unfold execute
  split <;> first | rfl | (split <;> rfl)

theorem writeGp0_beam (g : Gpu) (word : UInt32) : (g.writeGp0 word).2.beam = g.beam := by
  unfold writeGp0 frame
  dsimp only
  split
  · rfl
  · exact execute_beam ..
  · rfl

theorem CommandQueue.push_capacity (q : CommandQueue) (word : UInt32) :
    (q.push word).capacity = q.capacity := by
  unfold push
  dsimp only
  split <;> rfl

theorem execute_queue (g : Gpu) (opcode : UInt8) (word : UInt32) :
    (g.execute opcode word).2.queue = g.queue := by
  unfold execute
  split <;> first | rfl | (split <;> rfl)

theorem writeGp0_queue (g : Gpu) (word : UInt32) :
    (g.writeGp0 word).2.queue = g.queue.push word := by
  unfold writeGp0 frame
  dsimp only
  split
  · rfl
  · exact execute_queue ..
  · rfl

@[simp] theorem readLatch_queue (g : Gpu) : g.readLatch.2.queue = g.queue := by
  unfold readLatch; split <;> rfl

theorem readLatch_beam (g : Gpu) : g.readLatch.2.beam = g.beam := by
  unfold readLatch; split <;> rfl

theorem readLatch_status (g : Gpu) : g.readLatch.2.status = g.status := by
  unfold readLatch; split <;> rfl

theorem read_beam (g : Gpu) (offset : UInt32) (w : Width) : (g.read offset w).2.beam = g.beam := by
  unfold Gpu.read
  split
  · exact g.readLatch_beam
  · rfl

theorem read_dot (g : Gpu) (offset : UInt32) (w : Width) : (g.read offset w).2.dot = g.dot := by
  unfold Gpu.read
  split
  · exact congrArg (·.horizontalRes.dotDivider) g.readLatch_status
  · rfl

end Gpu

end Psx
