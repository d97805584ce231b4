import Psx.Proofs.Checked.Machine
import Psx.Proofs.Machine.PowerCycle
import Psx.Proofs.Snapshot.Admission

/-!
# A session, checked

No program brings down its host (`Machine.Driven.no_operation_fails`). Whatever a session of the core
has been through, with whatever images in its memories, however its bus was accessed from outside and
however often it was reset or went back to a snapshot, no operation of its next move fails.

What carries this from move to move is `Machine.Safe`, and with it what snapshots rely on
(`Machine.Intact`): a session whose counts are bounded fits its own snapshot, and what is taken back is
as safe as it was. Restoring itself compares names and sizes and puts values back, and none of that
can fail.

The time that passes bounds what a program can count. What is written from outside takes no time, but
each such word may be dropped by the video port, which counts these in a double word. So the words
from outside are bounded beside the clock.
-/

namespace Psx

open Checked Snapshot

namespace Move

/-- The words that a move writes from outside. -/
def writes : Move → Nat
  | write .. => 1
  | _ => 0

/-- The host can hold the bytes that it stores. -/
def Held : Move → Prop
  | storeBytes _ data => data.length < 2 ^ 63
  | _ => True

end Move

variable {δ : Type} [Device δ] {config : SessionConfig}

namespace Machine

variable {m m₀ : Machine δ} {n n₀ : Nat}

/-! ### Moves -/

def reset! (m : Machine δ) : Option (Machine δ) := do
  pure { m with
    cpu := .initial
    bus := ← m.bus.reset!
    scheduler := m.scheduler.deactivateAll }

def perform! (m : Machine δ) : Move → Option (Machine δ)
  | .step => do pure (← m.step!).2
  | .read address w => do pure { m with bus := (← m.bus.read! address w).2 }
  | .write address w value => do pure { m with bus := ← m.bus.write! address w value }
  | .storeBytes address data => do pure { m with bus := ← m.bus.storeBytes! address data }
  | .loadBios image => do
    match ← m.bus.loadBios! image with
    | .ok bus => pure { m with bus }
    | .error _ => pure m
  | .reset => m.reset!
  | .enableTracing sink limit => pure (m.enableTracing sink limit)
  | .disableTracing => pure m.disableTracing.2

namespace Tallied

omit [Device δ] in
theorem mono (h : m.Tallied n m.now) (hn : n ≤ n₀) : m.Tallied n₀ m.now :=
  ⟨h.now, h.frames, h.dropped.trans (Nat.add_le_add_left hn _)⟩

theorem read (h : m.Tallied n m.now) (address : UInt32) (w : Width) :
    (m.perform (.read address w)).Tallied n m.now :=
  ⟨h.now, (m.bus.frames_read address w).trans_le h.frames,
    (m.bus.dropped_read address w).trans_le h.dropped⟩

theorem write (h : m.Tallied n m.now) (address : UInt32) (w : Width) (value : UInt32) :
    (m.perform (.write address w value)).Tallied (n + 1) m.now :=
  ⟨h.now, (m.bus.frames_write address w value).trans_le h.frames,
    (m.bus.dropped_write_le address w value).trans (Nat.succ_le_succ h.dropped)⟩

/-- A reset counts anew, on a clock that runs on. -/
theorem reset (m : Machine δ) (ht : m.bus.table = coreTable) (n : Nat) :
    m.reset.Tallied n m.reset.now := by
  have hgpu : m.reset.bus.board.gpu = m.bus.board.gpu.reset.2 := by
    unfold Machine.reset Bus.reset
    rw [Bus.eachPart_eq, Bus.parts_of_table (b := { m.bus with memory := m.bus.memory.reset }) ht]
    rfl
  refine ⟨Nat.le_refl _, ?_, ?_⟩
  · show m.reset.bus.board.gpu.beam.frames ≤ _
    rw [hgpu]
    exact Nat.zero_le _
  · show m.reset.bus.board.gpu.queue.dropped ≤ _
    rw [hgpu]
    exact Nat.zero_le _

end Tallied

namespace Safe

omit [Device δ] in
theorem mono (h : m.Safe n) (hn : n ≤ n₀) : m.Safe n₀ :=
  ⟨h.steady, h.tallied.mono hn, h.sound, h.timing⟩

theorem perform!_eq (h : m.Safe n) (hroom : m.now + n + 2 ^ 50 < 2 ^ 64) {move : Move}
    (hm : move.Held) : m.perform! move = some (m.perform move) := by
  have hdropped := h.tallied.dropped
  have hready : m.bus.Ready 1 := ⟨h.steady.table, h.steady.sizes, by omega⟩
  cases move with
  | step =>
    rw [perform!, (h.step!_eq hroom).1]
    rfl
  | read address w =>
    rw [perform!, Bus.read!_eq hready]
    rfl
  | write address w value =>
    rw [perform!, Bus.write!_eq hready]
    rfl
  | storeBytes address data =>
    rw [perform!, Bus.storeBytes!_eq h.steady.sizes address hm]
    rfl
  | loadBios image =>
    rw [perform!, Bus.loadBios!_eq h.steady.sizes]
    simp only [perform, Option.bind_eq_bind, Option.bind_some]
    cases m.bus.loadBios image <;> rfl
  | reset =>
    rw [perform!, reset!, Bus.reset!_eq]
    rfl
  | enableTracing | disableTracing => rfl

theorem perform (h : m.Safe n) (hroom : m.now + n + 2 ^ 50 < 2 ^ 64) (move : Move) :
    (m.perform move).Safe (n + move.writes) where
  steady := h.steady.perform move
  sound := h.sound.perform move
  timing := (frame_perform m move).timing.trans h.timing
  tallied := by
    cases move with
    | step => exact (h.step!_eq hroom).2
    | read address w => exact h.tallied.read address w
    | write address w value => exact h.tallied.write address w value
    | reset => exact .reset m h.steady.table n
    | loadBios image =>
      obtain ⟨memory, e⟩ := m.perform_loadBios image
      rw [e]
      exact h.tallied.of_eq rfl rfl
    | storeBytes | enableTracing | disableTracing => exact h.tallied.of_eq rfl rfl

omit [Device δ] in
/-- What was restored is as safe as it was, with the cost of an access of this session. -/
theorem adopt (h : m.Safe n) (h₀ : m₀.Safe n₀) : (m.adopt m₀).Safe n₀ where
  steady := {
    paced := h₀.steady.paced.of_eq rfl rfl
    table := h.steady.table
    sizes := h₀.steady.sizes
    board := ⟨h₀.steady.board.timers, h₀.steady.board.beam, h₀.steady.board.gpu,
      h₀.steady.board.gap⟩
    dma := h₀.steady.dma }
  tallied := h₀.tallied.of_eq rfl rfl
  sound := h₀.sound.adopt
  timing := h.timing

end Safe

/-! ### Power on -/

theorem safe_powerOn {file : Option Bus.BiosFile} (ht : config.timing = {})
    (hg : config.dma.sliceGapCycles + 0x10000 < 2 ^ 32) (hq : config.gpuFifoCapacity < 2 ^ 64)
    (h : ofConfig config file = .ok m) : m.Safe 0 := by
  have hpaced := paced_powerOn h
  have hsound := sound_powerOn h
  obtain ⟨memory, hsizes, rfl⟩ := ofConfig_eq h
  have htimers : (bus₀ config : Bus δ).board.lines.timers.Kept :=
    Lines.kept_deliverAll (Lines.kept_deliverAll Timers.kept_initial _) _
  have hgap : max config.dma.sliceGapCycles 1 + 0x10000 < 2 ^ 32 := by omega
  exact {
    steady := ⟨hpaced, rfl, hsizes, ⟨htimers, Gpu.Beam.inFrame_initial _, .initial hq _, hgap⟩,
      .initial (by omega)⟩
    tallied := ⟨Nat.le_refl _, Nat.le_refl _, Nat.le_refl _⟩
    sound := hsound
    timing := ht }

/-! ### Snapshots -/

/-- The rows that grow in a session, as the host can hold them. -/
structure Held (m : Machine δ) : Prop where
  captured : m.bus.board.gpu.queue.words.size < 2 ^ 63
  line : m.bus.board.expansion.line.toUTF8.size < 2 ^ 63
  saved : ∀ x ∈ m.bus.saveDevices, x.2.size < 2 ^ 63

/-- What holds of a session of the core, with what its snapshots rely on. -/
structure Intact (config : SessionConfig) (writes : Nat) (m : Machine δ) : Prop where
  safe : m.Safe writes
  laid : m.Laid { config }
  names : m.scheduler.names = scheduler₀.names
  inRange : m.scheduler.InRange
  inStep : m.bus.board.InStep

theorem fits_board (h : m.Safe n) (hclock : m.now < 2 ^ 63) (hn : n < 2 ^ 62) (hh : m.Held) :
    ∀ p ∈ Part.core, m.bus.board.Fits p := by
  intro p hp
  cases p with
  | interrupts => exact ⟨trivial, trivial⟩
  | timers =>
    refine ⟨fun ch hch => ?_, trivial⟩
    obtain ⟨i, hi, rfl⟩ := List.mem_iff_getElem.1 hch
    have hkept : m.bus.board.lines.timers.channels.toList[i].prescale < 2 ^ 35 := by
      rw [Vector.getElem_toList]
      exact h.steady.board.timers ⟨i, by simpa using hi⟩
    exact ⟨trivial, ⟨trivial, trivial, trivial, trivial, trivial, trivial, trivial, trivial⟩,
      trivial, trivial, trivial, trivial, trivial, trivial, trivial, trivial,
      hkept.trans (by decide)⟩
  | dma => exact h.steady.dma.fits
  | memoryControl => exact ⟨fun _ _ => trivial, trivial⟩
  | expansion => exact ⟨trivial, hh.line.trans (by decide)⟩
  | gpu =>
    have hframes : m.bus.board.gpu.beam.frames ≤ m.now := h.tallied.frames
    have hdropped : m.bus.board.gpu.queue.dropped ≤ m.now + n := h.tallied.dropped
    obtain ⟨hcycle, hline⟩ := h.steady.board.beam
    obtain ⟨hcycles, hlines⟩ := m.bus.board.gpu.beam.timing_bounds
    obtain ⟨hpacket, hread, hcapacity⟩ := h.steady.board.gpu
    have hpacket' : Gpu.Packet.law.fits m.bus.board.gpu.packet := by
      revert hpacket
      cases m.bus.board.gpu.packet <;> exact id
    refine ⟨⟨trivial, trivial, trivial, trivial, trivial, trivial, trivial, trivial, trivial,
      trivial, trivial, trivial, trivial, trivial⟩, ⟨trivial, trivial, trivial, trivial, trivial,
      trivial⟩, ⟨trivial, trivial, trivial, trivial⟩, ⟨⟨hh.captured.trans (by decide),
      fun _ _ => trivial⟩, hcapacity, ?_⟩, hpacket', trivial, hread, trivial, trivial, ?_, ?_, ?_,
      trivial, trivial⟩
    · show m.bus.board.gpu.queue.dropped < 256 ^ 8
      omega
    · show m.bus.board.gpu.beam.line < 256 ^ 2
      omega
    · show m.bus.board.gpu.beam.lineCycle < 256 ^ 4
      omega
    · show m.bus.board.gpu.beam.frames < 256 ^ 8
      omega
  | «external» i => trivial

/-- What a scheduler keeps is kept by every move. -/
theorem scheduler_perform {P : Scheduler → Prop} (schedule : ∀ s i n, P s → P (s.schedule i n))
    (deactivate : ∀ s i, P s → P (s.deactivate i))
    (take : ∀ s c, P s → P (s.advanceTo c).takeDue.2)
    (deactivateAll : ∀ s, P s → P s.deactivateAll) (h : P m.scheduler) (move : Move) :
    P (m.perform move).scheduler := by
  cases move with
  | step => exact step_scheduler schedule deactivate take h
  | loadBios image =>
    obtain ⟨memory, e⟩ := m.perform_loadBios image
    rw [e]
    exact h
  | reset => exact deactivateAll _ h
  | _ => exact h

namespace Intact

theorem fits (h : m.Intact config n) (hclock : m.now < 2 ^ 63) (hn : n < 2 ^ 62) (hh : m.Held) :
    m.Fits := by
  have hchips := fits_board h.safe hclock hn hh
  have hnow : m.scheduler.now ≤ Scheduler.lastCycle := by
    have : m.scheduler.now < 2 ^ 63 := hclock
    unfold Scheduler.lastCycle
    omega
  refine fits_of h.safe.sound.cpu.lines h.safe.steady.sizes
    (fits_scheduler h.names hnow h.inRange) (fun p hp => hchips p ?_) ?_ fun x hx => ?_
  · rwa [Bus.parts_of_table h.safe.steady.table] at hp
  · unfold Bus.saveDevices
    rw [h.safe.steady.table]
    show 6 < 256
    decide
  · obtain ⟨e, he, rfl⟩ := List.mem_map.1 hx
    have hsaved := hh.saved _ hx
    rw [h.safe.steady.table] at he
    have hname := (coreTable_names e he).1
    dsimp only at hsaved ⊢
    omega

theorem perform (h : m.Intact config n) (hroom : m.now + n + 2 ^ 50 < 2 ^ 64) (move : Move) :
    (m.perform move).Intact config (n + move.writes) where
  safe := h.safe.perform hroom move
  laid := h.laid.of_frame (frame_perform m move) (events_perform m move)
  names := scheduler_perform (P := fun s => s.names = scheduler₀.names)
    (fun s i n h => (s.names_setDue ..).trans h) (fun s i h => (s.names_setDue ..).trans h)
    (fun s c h => (s.advanceTo c).names_takeDue.trans h)
    (fun s h => s.names_deactivateAll.trans h) h.names move
  inRange := scheduler_perform (P := Scheduler.InRange) (fun _ i n h => h.schedule i n)
    (fun _ i h => h.deactivate i) (fun _ c h => h.take c)
    (fun s _ i c hc => by
      rw [Scheduler.dueAt?_deactivateAll] at hc
      cases hc) h.inRange move
  inStep := inStep_perform h.inStep h.laid (.inr fun _ h => h) move

omit [Device δ] in
theorem mono (h : m.Intact config n) (hn : n ≤ n₀) : m.Intact config n₀ :=
  ⟨h.safe.mono hn, h.laid, h.names, h.inRange, h.inStep⟩

omit [Device δ] in
theorem adopt (h : m.Intact config n) (h₀ : m₀.Intact config n₀) :
    (m.adopt m₀).Intact config n₀ where
  safe := h.safe.adopt h₀.safe
  laid := {
    timing := h.laid.timing
    openBus := h.laid.openBus
    events := h₀.laid.events
    sizes := h₀.laid.sizes
    parts := h.laid.parts
    bare := h.laid.bare }
  names := h₀.names
  inRange := h₀.inRange
  inStep := h₀.inStep

/-- A session takes a snapshot of another one whole, or it is left alone. -/
theorem rewind (h : m.Intact config n) (h₀ : m₀.Intact config n₀) (hclock : m₀.now < 2 ^ 63)
    (hn : n₀ < 2 ^ 62) (hh : m₀.Held) :
    (m.restore m₀.snapshot).2.Intact config (max n n₀) := by
  have ht : m₀.bus.table = m.bus.table := h₀.safe.steady.table.trans h.safe.steady.table.symm
  rw [restore_snapshot (h₀.fits hclock hn hh) h₀.inStep ht
    (Bus.parts_of_table h₀.safe.steady.table) h₀.laid.sizes
    (h₀.laid.events.trans h.laid.events.symm)]
  split
  · exact (h.adopt h₀).mono (Nat.le_max_right ..)
  · exact h.mono (Nat.le_max_left ..)

end Intact

theorem intact_powerOn {file : Option Bus.BiosFile} (ht : config.timing = {})
    (hg : config.dma.sliceGapCycles + 0x10000 < 2 ^ 32) (hq : config.gpuFifoCapacity < 2 ^ 64)
    (h : ofConfig config file = .ok m) : m.Intact config 0 where
  safe := safe_powerOn ht hg hq h
  laid := laid_powerOn h
  names := (remembers_powerOn h).names
  inRange := by
    obtain ⟨memory, -, rfl⟩ := ofConfig_eq h
    exact scheduler₀_inRange
  inStep := inStep_powerOn h

/-! ### Sessions -/

/-- What can have become of a session of the core, with the words that were written to it from
outside. Its clock stays below half its range, and it is given snapshots of sessions of the same
configuration that the host can hold. -/
inductive Driven (config : SessionConfig) : Nat → Machine δ → Prop
  | powerOn {m : Machine δ} {file : Option Bus.BiosFile} :
    ofConfig config file = .ok m → Driven config 0 m
  | perform {n : Nat} {m : Machine δ} (move : Move) : Driven config n m → m.now < 2 ^ 63 →
    Driven config (n + move.writes) (m.perform move)
  | rewind {n n₀ : Nat} {m m₀ : Machine δ} : Driven config n m → Driven config n₀ m₀ →
    m₀.now < 2 ^ 63 → m₀.Held → Driven config (max n n₀) (m.restore m₀.snapshot).2

namespace Driven

theorem intact (ht : config.timing = {}) (hg : config.dma.sliceGapCycles + 0x10000 < 2 ^ 32)
    (hq : config.gpuFifoCapacity < 2 ^ 64) (h : Driven config n m) (hn : n < 2 ^ 62) :
    m.Intact config n := by
  induction h with
  | powerOn h => exact intact_powerOn ht hg hq h
  | perform move _ hclock ih =>
    exact (ih (Nat.lt_of_le_of_lt (Nat.le_add_right ..) hn)).perform (by omega) move
  | rewind _ _ hclock hh ih ih₀ =>
    obtain ⟨hm, hm₀⟩ := Nat.max_lt.1 hn
    exact (ih hm).rewind (ih₀ hm₀) hclock hm₀ hh

/-- Whatever a session has been through, no operation of its next move fails. -/
theorem no_operation_fails (ht : config.timing = {})
    (hg : config.dma.sliceGapCycles + 0x10000 < 2 ^ 32) (hq : config.gpuFifoCapacity < 2 ^ 64)
    (h : Driven config n m) (hn : n < 2 ^ 62) (hclock : m.now < 2 ^ 63) :
    m.step! = some m.step ∧
      (∀ address w, m.bus.read! address w = some (m.bus.read address w)) ∧
      ∀ move : Move, move.Held → m.perform! move = some (m.perform move) := by
  have hroom : m.now + n + 2 ^ 50 < 2 ^ 64 := by omega
  have hs := (h.intact ht hg hq hn).safe
  have hdropped := hs.tallied.dropped
  have hready : m.bus.Ready 0 := ⟨hs.steady.table, hs.steady.sizes, by omega⟩
  exact ⟨(hs.step!_eq hroom).1, fun address w => Bus.read!_eq hready address w,
    fun move hm => hs.perform!_eq hroom hm⟩

/-- A session to which a word was written. -/
theorem no_operation_fails_written :
    Driven {} 1 ((fresh {} : Machine Empty).perform (.write Gpu.base .word 0xFFFFFFFF)) ∧
      ((fresh {} : Machine Empty).perform (.write Gpu.base .word 0xFFFFFFFF)).step! =
        some ((fresh {} : Machine Empty).perform (.write Gpu.base .word 0xFFFFFFFF)).step := by
  have hd : Driven {} 1 ((fresh {} : Machine Empty).perform (.write Gpu.base .word 0xFFFFFFFF)) :=
    .perform (.write Gpu.base .word 0xFFFFFFFF) (.powerOn (fresh_eq {})) (show 0 < 2 ^ 63 by decide)
  exact ⟨hd, (hd.no_operation_fails rfl (by decide) (by decide) (by decide)
    (show 0 < 2 ^ 63 by decide)).1⟩

end Driven

end Machine

end Psx
