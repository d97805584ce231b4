import Psx.Proofs.Bus.PowerOn
import Psx.Proofs.Machine.Later
import Psx.Proofs.Machine.TimeSlices

/-!
# A reset is a power cycle

What a session has been through is gone after a reset, but for the hour (`Machine.power_cycle`). Its
chips come out as its configuration asks for them (`Board.Remembers.reset_core`), its events are idle,
and its clock runs on: it is the twin of the session that is built with the same boot image, with the
clock of that one set forward (`Machine.Reachable.reset_like`). Twins go on alike, and none of the two
minds the hour.
-/

namespace Psx

/-! ### The board -/

/-- Resetting the chips one after the other leaves the board as it is when they have been connected
one after the other. -/
theorem Board.Remembers.reset_core {δ : Type} [Device δ] {config : SessionConfig} {b : Board δ}
    (h : b.Remembers config) :
    (Part.core.foldl Board.reset b).Twin (Part.core.foldl Board.connect (.ofConfig config)) := by
  refine ⟨#[], #[], ?_⟩
  have hreset : Part.core.foldl Board.reset b =
      { lines := ({ timers := b.lines.timers.reset } : Lines).deliverAll b.gpu.reset.2.dotClock
        dma := b.dma.reset
        gpu := b.gpu.reset.2
        externals := b.externals
        console := b.console } := rfl
  rw [hreset, h.timers, h.dma, h.gpu]
  rfl

namespace Machine

variable {δ : Type} [Device δ] {config : SessionConfig} {m : Machine δ}

/-- The session is reset to what its configuration asks for. -/
structure Remembers (config : SessionConfig) (m : Machine δ) : Prop where
  board : m.bus.board.Remembers config
  names : m.scheduler.names = scheduler₀.names

namespace Remembers

omit [Device δ] in
theorem within (h : m.Remembers config) :
    m.bus.Within (fun _ => True) (Board.Remembers config) := ⟨fun _ _ => trivial, h.board⟩

theorem perform_board (h : m.Remembers config) (move : Move) :
    (m.perform move).bus.board.Remembers config :=
  Machine.perform_board Board.remembers_invariant (fun _ h => h.runSlice_remembers)
    (reset_board (fun h p => h.reset p) h.within) h.within move

theorem perform (h : m.Remembers config) (move : Move) : (m.perform move).Remembers config := by
  refine ⟨h.perform_board move, ?_⟩
  cases move with
  | step =>
    exact step_scheduler (P := fun s => s.names = scheduler₀.names)
      (fun s i n h => (s.names_setDue ..).trans h) (fun s i h => (s.names_setDue ..).trans h)
      (fun s c h => (s.advanceTo c).names_takeDue.trans h) h.names
  | reset => exact m.scheduler.names_deactivateAll.trans h.names
  | loadBios image =>
    obtain ⟨memory, e⟩ := m.perform_loadBios image
    rw [e]
    exact h.names
  | _ => exact h.names

omit [Device δ] in
theorem adopt {m₀ : Machine δ} (h : m₀.Remembers config) : (m.adopt m₀).Remembers config :=
  ⟨h.board.of_eq rfl rfl rfl, h.names⟩

end Remembers

theorem remembers_powerOn {file : Option Bus.BiosFile} (h : ofConfig config file = .ok m) :
    m.Remembers config := by
  obtain ⟨memory, -, rfl⟩ := ofConfig_eq h
  exact ⟨(Board.remembers_ofConfig config).of_eq (Lines.timers_reset_deliverAll _ _) rfl rfl, rfl⟩

/-- A session of the core is reset to what its configuration asks for, if it is given no states from
elsewhere. -/
theorem Reachable.remembers (h : m.Reachable { config }) : m.Remembers config := by
  induction h with
  | powerOn h _ => exact remembers_powerOn h
  | perform move _ _ ih => exact ih.perform move
  | attach _ _ hd _ _ _ => exact absurd hd id
  | rewind h h₀ _ ih ih₀ =>
    rcases h.rewind_cases (fun _ h => h) h₀ with e | e <;> rw [e]
    · exact ih₀.adopt
    · exact ih
  | restore _ ho _ _ => exact absurd ho id

/-- A session as it is built, with a boot image. -/
def built (config : SessionConfig) (bios : ByteArray) : Machine δ where
  bus := { (bus₀ config : Bus δ) with memory := { Memory.initial with bios } }
  scheduler := scheduler₀
  config := config

theorem ofConfig_image (config : SessionConfig) {image : ByteArray}
    (h : image.size = Address.biosSize) :
    ofConfig config (some (.image image)) = .ok (built config image : Machine δ) := by
  have hl : (bus₀ config : Bus δ).memory.loadBios image =
      .ok { Memory.initial with bios := image } := if_pos h
  unfold ofConfig
  rw [build_eq]
  show loadBios _ _ = _
  unfold loadBios Bus.loadBiosFile Bus.loadBios
  simp only [hl]
  rfl

/-! ### A session that has run -/

theorem settled_fresh : (fresh {} : Machine Empty).bus.board.gpu.beam.Settled :=
  ⟨by decide, by decide⟩

theorem step_fresh_bus : (fresh {} : Machine Empty).step.2.now = 23 ∧
    (fresh {} : Machine Empty).step.2.bus = (fresh {} : Machine Empty).bus.advance 23 := by
  have hp := paced_powerOn (fresh_eq (δ := Empty) {})
  obtain ⟨hcost, hcpu⟩ := cpu_step_fresh
  have hbus : (fresh {} : Machine Empty).executed.2.bus = (fresh {} : Machine Empty).bus :=
    (executed_frame _).1.trans hcpu
  have hcalm : (fresh {} : Machine Empty).executed.2.Calm := {
    parts := by rw [hbus]; rfl
    beam := by rw [hbus]; exact settled_fresh
    idle := by rw [hbus]; decide
    events := hp.executed.events
    onTime := hp.executed.onTime }
  have hzero : (fresh {} : Machine Empty).executed.2.now = 0 := executed_now _
  have ht := (hcalm.advance (n := 23) (by rw [hzero]; decide)).2
  have hstep : (fresh {} : Machine Empty).step.2 =
      ((fresh {} : Machine Empty).executed.2.advance 23).2 := by
    rw [step_eq, show (fresh {} : Machine Empty).executed.1 = 23 from hcost]
  rw [hstep]
  refine ⟨by rw [ht.now, hzero], ?_⟩
  rw [ht.bus, hzero, hbus]
  exact (Bus.advance_ticks rfl settled_fresh (by decide)).symm

theorem scheduler₀_inRange : scheduler₀.InRange := by
  have hidle : ∀ e ∈ scheduler₀.events.toList, e.due = none := by decide
  intro i c hc
  obtain ⟨e, he, hd⟩ := Scheduler.mem_events_of_dueAt? hc
  rw [hidle e he] at hd
  cases hd

/-- The numbers of a scheduler with the events of a session lie in their ranges. -/
theorem fits_scheduler {s : Scheduler} (hn : s.names = scheduler₀.names)
    (hnow : s.now ≤ Scheduler.lastCycle) (hr : s.InRange) : Scheduler.law.fits s := by
  have hlast : Scheduler.lastCycle < 256 ^ 8 := by decide
  have hsizes : ∀ name ∈ scheduler₀.names.toList, name.toUTF8.size < 256 ^ 8 := by decide +kernel
  have hcount : s.events.size = 2 := by
    have hsize := congrArg Array.size hn
    rwa [Scheduler.names, Scheduler.names, Array.size_map, Array.size_map] at hsize
  refine ⟨hnow.trans_lt hlast, ?_, fun e he => ⟨hsizes e.name ?_, fun due hd => ?_⟩⟩
  · show s.events.size < 256 ^ 8
    rw [hcount]
    decide
  · rw [← hn, Scheduler.names, Array.toList_map]
    exact List.mem_map_of_mem he
  · obtain ⟨i, hi⟩ := List.getElem?_of_mem he
    have hc : s.dueAt? i = some due := by
      rw [Scheduler.dueAt?, ← Array.getElem?_toList, hi]
      exact hd
    have hle := hr i due hc
    rw [Nat.max_eq_right hnow] at hle
    exact hle.trans_lt hlast

/-- The timers have counted, and the beam has moved. -/
theorem step_fresh_board : (fresh {} : Machine Empty).step.2.bus.board =
    { (Board.ofConfig {} : Board Empty) with
      lines := (Board.ofConfig {} : Board Empty).lines.advance 23
      gpu.beam.lineCycle := 23 } := by
  have hquiet : (fresh {} : Machine Empty).bus.board.gpu.advance 23 =
      ([], { (fresh {} : Machine Empty).bus.board.gpu with beam.lineCycle := 23 }) := by
    rw [Gpu.advance, settled_fresh.advance_quiet (by decide)]
    rfl
  rw [step_fresh_bus.2, Bus.advance_core rfl (by decide), hquiet]
  rfl

theorem fits_step_fresh_board : ∀ p ∈ Part.core,
    (fresh {} : Machine Empty).step.2.bus.board.Fits p := by
  have hbuilt : ∀ p ∈ Part.core, (Board.ofConfig {} : Board Empty).Fits p :=
    Board.fits_ofConfig ⟨by decide, by decide⟩
  have hprescale : ∀ ch ∈ ((Board.ofConfig {} : Board Empty).lines.advance 23).timers.channels.toList,
      ch.prescale < 256 ^ 8 := by decide +kernel
  intro p hp
  rw [step_fresh_board]
  cases p with
  | interrupts => exact ⟨trivial, trivial⟩
  | timers =>
    exact ⟨fun ch hch => ⟨trivial, ⟨trivial, trivial, trivial, trivial, trivial, trivial, trivial,
      trivial⟩, trivial, trivial, trivial, trivial, trivial, trivial, trivial, trivial,
      hprescale ch hch⟩, trivial⟩
  | gpu =>
    obtain ⟨hstatus, hdisplay, henvironment, hqueue, hpacket, hlatch, hwords, hstandard, hbeam⟩ :=
      hbuilt .gpu hp
    exact ⟨hstatus, hdisplay, henvironment, hqueue, hpacket, hlatch, hwords, hstandard, hbeam.1,
      hbeam.2.1, show 23 < 256 ^ 4 by decide, hbeam.2.2.2⟩
  | _ => exact hbuilt _ hp

theorem fits_step_fresh : (fresh {} : Machine Empty).step.2.Fits := by
  have hfresh := fresh_eq (δ := Empty) {}
  have htable : (fresh {} : Machine Empty).step.2.bus.table = coreTable := (frame_step _).table
  have hscheduler : Scheduler.law.fits (fresh {} : Machine Empty).step.2.scheduler := by
    have hnow : (fresh {} : Machine Empty).step.2.scheduler.now = 23 := step_fresh_bus.1
    have hrange := step_scheduler (m := (fresh {} : Machine Empty)) (P := Scheduler.InRange)
      (fun _ i n h => h.schedule i n) (fun _ i h => h.deactivate i) (fun _ c h => h.take c)
      scheduler₀_inRange
    exact fits_scheduler ((remembers_powerOn hfresh).perform .step).names
      (by rw [hnow]; decide) hrange
  refine fits_of ((sound_powerOn hfresh).step).cpu.lines
    ((frame_step _).sizes Memory.hasSizes_initial) hscheduler
    (fun p hp => fits_step_fresh_board p ?_) ?_ fun x hx => ?_
  · rwa [Bus.parts_of_table htable] at hp
  · unfold Bus.saveDevices
    rw [htable]
    show 6 < 256
    decide
  · refine Nat.lt_of_le_of_lt (saveDevices_size_le htable fits_step_fresh_board x hx) ?_
    rw [step_fresh_board]
    show 576 + 0 * 9 + "".toUTF8.size < 256 ^ 8
    decide

/-! ### Reset -/

theorem scheduler₀_later (t : Nat) : scheduler₀.later t = { scheduler₀ with now := t } := by
  simp [Scheduler.later, scheduler₀]

omit [Device δ] in
theorem Remembers.deactivateAll (h : m.Remembers config) :
    m.scheduler.deactivateAll = scheduler₀.later m.now := by
  have hidle : scheduler₀.names.map (fun name => { name }) = scheduler₀.events := by
    simp [Scheduler.names, scheduler₀]
  rw [Scheduler.deactivateAll_eq, h.names, hidle, scheduler₀_later]
  rfl

/-- A bus that is reset is the twin of the one that is built. -/
theorem Remembers.reset_twin (h : m.Remembers config) (hm : m.Laid { config }) :
    m.reset.bus.Twin (built config m.bus.memory.bios).bus := by
  have ht : m.bus.table = coreTable := hm.bare fun _ h => h
  have hp : m.bus.parts = Part.core := Bus.parts_of_table ht
  have hreset : m.reset.bus = {
      memory := m.bus.memory.reset
      table := coreTable
      board := Part.core.foldl Board.reset m.bus.board
      timing := config.timing
      openBus := config.openBusValue } := by
    rw [← ht, ← hm.timing, ← hm.openBus, ← hp]
    exact Bus.eachPart_eq ..
  have hbuilt : (built config m.bus.memory.bios : Machine δ).bus = {
      memory := m.bus.memory.reset
      table := coreTable
      board := Part.core.foldl Board.connect (Board.ofConfig config)
      timing := config.timing
      openBus := config.openBusValue } := by
    unfold built bus₀ Bus.connectAll
    rw [Bus.eachPart_eq]
    rfl
  rw [hreset, hbuilt]
  exact ⟨fun p h => h, _, h.board.reset_core, rfl⟩

/-- A session that has been reset is the twin of the one that is built, as it is at a later hour. -/
theorem Reachable.reset_like (h : m.Reachable { config }) :
    Like Bus.Twin m.reset ((built config m.bus.memory.bios).later m.now) :=
  ⟨rfl, h.remembers.deactivateAll, h.remembers.reset_twin h.laid⟩

/-- A reset is a power cycle: however many steps follow, each takes the same number of cycles as in
the session that is built anew with the same boot image, and the processor, the memories and the
chips end in the same state. The clock runs on, as long as it does not run over: all due times are
later by what it stood at. -/
theorem power_cycle (h : m.Reachable { config }) :
    ∃ f : Machine δ, ofConfig config (some (.image m.bus.memory.bios)) = .ok f ∧
      ∀ k, m.now + (f.run k).1.sum < Scheduler.lastCycle →
        (m.reset.run k).1 = (f.run k).1 ∧ (m.reset.run k).2.Same ((f.run k).2.later m.now) := by
  have hsize : m.bus.memory.bios.size = Address.biosSize := (Memory.hasSizes_iff.1 h.laid.sizes).2
  have hf := ofConfig_image (δ := δ) config hsize
  refine ⟨built config m.bus.memory.bios, hf, fun k hk => ?_⟩
  have hzero : (built config m.bus.memory.bios : Machine δ).now = 0 := rfl
  have hlater := (paced_powerOn hf).run_later (t := m.now) (k := k) (by omega)
  obtain ⟨hc, hl⟩ := h.reset_like.run Bus.Twin.lockstep k
  rw [hlater] at hc hl
  exact ⟨hc, hl.same⟩

/-- A session that is reset after its first instruction executes that again, at a later hour. -/
theorem power_cycle_step :
    ((fresh {} : Machine Empty).step.2.Reachable { config := {} } ∧
      (fresh {} : Machine Empty).step.2.now + ((fresh {} : Machine Empty).run 1).1.sum <
        Scheduler.lastCycle) ∧
    ((fresh {} : Machine Empty).step.2.reset.run 1).1 = [23] ∧
      ((fresh {} : Machine Empty).step.2.reset.run 1).2.Same
        (((fresh {} : Machine Empty).run 1).2.later 23) := by
  have hr : (fresh {} : Machine Empty).step.2.Reachable { config := {} } :=
    .perform .step (reachable_fresh ⟨by decide, by decide⟩) fits_step_fresh
  have hrun : ((fresh {} : Machine Empty).run 1).1 = [23] := by
    rw [run_succ, step_fresh]
    rfl
  have hroom : (fresh {} : Machine Empty).step.2.now + ((fresh {} : Machine Empty).run 1).1.sum <
      Scheduler.lastCycle := by
    rw [step_fresh_bus.1, hrun]
    decide
  obtain ⟨f, hf, hk⟩ := power_cycle hr
  have hbios : (fresh {} : Machine Empty).step.2.bus.memory.bios = Memory.initial.bios := by
    rw [step_fresh_bus.2, Bus.advance_core rfl (by decide)]
    rfl
  have hsize : Memory.initial.bios.size = Address.biosSize := Array.size_replicate
  rw [hbios, ofConfig_image {} hsize] at hf
  obtain rfl : (fresh {} : Machine Empty) = f := Except.ok.inj hf
  obtain ⟨hc, hs⟩ := hk 1 hroom
  rw [step_fresh_bus.1] at hs
  exact ⟨⟨hr, hroom⟩, hc.trans hrun, hs⟩

end Machine

end Psx
