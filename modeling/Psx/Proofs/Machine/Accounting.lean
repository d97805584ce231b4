import Psx.Proofs.Cpu.Precise
import Psx.Proofs.Machine.Rounds
import Psx.Proofs.Memory.Bytes
import Psx.Proofs.Snapshot.Allowance

/-!
# What a step costs

A step is an instruction and then a wait (`Machine.executed`, `Machine.step_rounds`). What the step
answers is by how much the clock has gone on, and every device has been given just as many cycles,
however the slices moved the end of the wait (`Machine.step_accounts`). An instruction of `c` cycles
lets at most `c + 1` slices run, whatever they find in memory and however many channels are busy
(`Machine.step_slices`).
-/

namespace Psx

/-- An instruction that does nothing costs its fetch. -/
theorem Cpu.step_nop {δ : Type} [Device δ] {c : Cpu} {bus : Bus δ} (hx : c.executes bus = true)
    (hcache : usesCache bus c.pc = false) (hword : (bus.read c.pc .word).1 = 0) :
    (c.step bus).1 = bus.timing.instructionCycles + bus.fetchCycles c.pc ∧
      (c.step bus).2.2 = (bus.read c.pc .word).2 := by
  have hfetched : c.fetched bus =
      (0, bus.fetchCycles c.pc, c.begun bus, (bus.read c.pc .word).2) := by
    unfold fetched fetch
    rw [if_neg (Bool.eq_false_iff.1 hcache), ← hword]
  rw [step_executed hx]
  unfold instruction execution
  rw [hfetched]
  dsimp only
  rw [show Instruction.decode 0 = .nop by decide]
  exact ⟨rfl, rfl⟩

namespace Machine

variable {δ : Type} [Device δ] {s : Surroundings δ} {m m' : Machine δ} {target : Nat}
  {rounds : List Round}

/-! ### Devices in a wait -/

theorem frame_round (m : Machine δ) (target : Nat) : m.bus.Frame (m.round target).2.bus := by
  have he : m.bus.Frame (m.elapse target).2.bus := by
    rw [elapse_bus]
    exact m.bus.frame_advance _
  by_cases hdue : (m.elapse target).1 = true
  · rw [round_of_due hdue, runDmaSlice_bus]
    exact he.trans (Bus.frame_runSlice _)
  · rw [round_of_idle hdue]
    exact he

theorem metered_round {reading : δ → Nat} (meter : Device.Meter reading) (m : Machine δ)
    (target i : Nat) :
    (m.round target).2.bus.board.metered reading i =
      (m.bus.board.metered reading i).map (· + Part.given (.external i) (m.note target).calls) := by
  have he : (m.elapse target).2.bus.board.metered reading i = _ :=
    (elapse_bus m target).symm ▸ m.bus.metered_advance meter _ i
  by_cases hdue : (m.elapse target).1 = true
  · rw [round_of_due hdue, runDmaSlice_bus, Bus.metered_runSlice meter]
    exact he
  · rw [round_of_idle hdue]
    exact he

namespace Rounds

/-- A device is given as many cycles as the clock goes on. -/
theorem given (h : m.Rounds target rounds m') (hd : m.bus.parts.Nodup) {part : Part}
    (hpart : part ∈ m.bus.parts) :
    part.given (rounds.flatMap (·.calls)) = (rounds.map (·.cycles)).sum := by
  induction h with
  | @last m target _ =>
    rw [List.flatMap_singleton, List.map_singleton, List.sum_singleton]
    exact Bus.given_advanceCalls hd hpart _
  | @next m target rounds m' _ _ ih =>
    have hparts := (m.frame_round target).parts
    rw [hparts] at ih
    rw [List.flatMap_cons, Part.given_append, ih hd hpart, List.map_cons, List.sum_cons]
    congr 1
    exact Bus.given_advanceCalls hd hpart _

theorem metered {reading : δ → Nat} (meter : Device.Meter reading)
    (h : m.Rounds target rounds m') (i : Nat) :
    m'.bus.board.metered reading i = (m.bus.board.metered reading i).map
      (· + Part.given (.external i) (rounds.flatMap (·.calls))) := by
  induction h with
  | @last m target _ =>
    rw [List.flatMap_singleton]
    exact metered_round meter m target i
  | @next m target rounds m' _ _ ih =>
    rw [ih, metered_round meter m target i, Option.map_map, List.flatMap_cons, Part.given_append]
    congr 1
    funext n
    exact Nat.add_assoc ..

end Rounds

omit [Device δ] in
theorem Laid.nodup (h : m.Laid s) : m.bus.parts.Nodup := by
  rw [h.parts, List.nodup_append]
  refine ⟨by decide, ?_, ?_⟩
  · exact List.Pairwise.map Part.external (fun _ _ hne e => hne (Part.external.inj e))
      List.nodup_range
  · intro p hp q hq
    obtain ⟨i, -, rfl⟩ := List.mem_map.1 hq
    rintro rfl
    simp [Part.core] at hp

/-! ### An instruction and a wait -/

/-- The instruction of a step, which makes the first slice of a transfer due when it is over; the
answer is its cycles. -/
def executed (m : Machine δ) : Nat × Machine δ :=
  let (cost, cpu, bus) := m.cpu.step m.bus
  (cost, ({ m with cpu, bus }.trace).wakeDma cost)

theorem step_eq (m : Machine δ) :
    m.step = (m.executed.1 + (m.executed.2.advance m.executed.1).1,
      (m.executed.2.advance m.executed.1).2) := rfl

omit [Device δ] in
theorem trace_frame (m : Machine δ) : m.trace.bus = m.bus ∧ m.trace.scheduler = m.scheduler := by
  unfold trace
  split <;> exact ⟨rfl, rfl⟩

omit [Device δ] in
theorem wakeDma_frame (m : Machine δ) (cost : Nat) : (m.wakeDma cost).bus = m.bus ∧
    ((m.wakeDma cost).scheduler = m.scheduler ∨
      (m.wakeDma cost).scheduler = m.scheduler.schedule dmaEvent cost) := by
  unfold wakeDma
  split
  · exact ⟨rfl, .inr rfl⟩
  · exact ⟨rfl, .inl rfl⟩

theorem executed_frame (m : Machine δ) : m.executed.2.bus = (m.cpu.step m.bus).2.2 ∧
    (m.executed.2.scheduler = m.scheduler ∨
      m.executed.2.scheduler = m.scheduler.schedule dmaEvent m.executed.1) := by
  let m₁ : Machine δ := { m with cpu := (m.cpu.step m.bus).2.1, bus := (m.cpu.step m.bus).2.2 }
  obtain ⟨hb, hs⟩ := m₁.trace_frame
  obtain ⟨hb', hs'⟩ := m₁.trace.wakeDma_frame m.executed.1
  rw [hs] at hs'
  exact ⟨hb'.trans hb, hs'⟩

theorem executed_idle (h : (m.cpu.step m.bus).2.2.board.dma.hasPendingWork = false) :
    m.executed.2.scheduler = m.scheduler := by
  let m₁ : Machine δ := { m with cpu := (m.cpu.step m.bus).2.1, bus := (m.cpu.step m.bus).2.2 }
  obtain ⟨hb, hs⟩ := m₁.trace_frame
  have hidle : m₁.trace.wakeDma m.executed.1 = m₁.trace := by
    unfold wakeDma
    rw [hb, show m₁.bus.board.dma.hasPendingWork = false from h, Bool.and_false]
    rfl
  exact (congrArg (·.scheduler) hidle).trans hs

theorem executed_now (m : Machine δ) : m.executed.2.now = m.now := by
  unfold now
  rcases m.executed_frame.2 with h | h
  · rw [h]
  · rw [h, Scheduler.schedule_now]

theorem frame_executed (m : Machine δ) : m.bus.Frame m.executed.2.bus := by
  have hkept := Bus.Simulation.of_kept (P := m.bus.Frame)
    (fun b h address w => h.trans (b.frame_read address w))
    fun b h address w value => h.trans (b.frame_write address w value)
  obtain ⟨cost, cpu, b, -, hb, -, -, hf⟩ := hkept.step ⟨rfl, .refl m.bus⟩ m.cpu
  rw [m.executed_frame.1, hb]
  exact hf

namespace Paced

theorem executed (h : m.Paced) : m.executed.2.Paced := by
  have hkept := Bus.Simulation.of_kept (P := Bus.Within (δ := δ) (fun _ => True) Board.Paced)
    (fun _ h => h.read Board.paced_invariant) fun _ h => h.write Board.paced_invariant
  obtain ⟨cost, cpu, b, -, hb, -, -, hw⟩ := hkept.step ⟨rfl, h.within⟩ m.cpu
  have hgap : m.executed.2.bus.board.Paced := by
    rw [m.executed_frame.1, hb]
    exact hw.board
  rcases m.executed_frame.2 with hs | hs
  · exact ⟨hs ▸ h.events, hs ▸ h.onTime, hgap⟩
  · exact ⟨hs ▸ (m.scheduler.schedule_size _ _).trans h.events, hs ▸ h.onTime.schedule _ _, hgap⟩

theorem step_rounds (h : m.Paced) (hroom : m.now + m.step.1 < Scheduler.lastCycle) :
    ∃ rounds, m.executed.2.Rounds (m.now + m.executed.1) rounds m.step.2 ∧
      m.step.1 = m.executed.1 + (rounds.map (·.words)).sum := by
  rw [step_eq] at hroom ⊢
  have hp := h.executed
  rw [← m.executed_now] at hroom ⊢
  -- no slice is due before now, so the wait is as far behind its event as its cycles
  have hbudget : ∀ c, m.executed.2.scheduler.dueAt? dmaEvent = some c →
      m.executed.2.now + m.executed.1 < c + sliceAllowance m.executed.1 := by
    intro c hc
    have : m.executed.2.now ≤ c := hp.onTime _ _ hc
    unfold sliceAllowance
    omega
  dsimp only at hroom ⊢
  unfold advance at hroom ⊢
  have hroom' : m.executed.2.now + m.executed.1 + (m.executed.2.catchUp
      (sliceAllowance m.executed.1) (m.executed.2.now + m.executed.1) 0).1 <
        Scheduler.lastCycle + 0 := by omega
  obtain ⟨rounds, hr, hsum⟩ := hp.exists_rounds (Nat.le_add_right ..) hbudget hroom'
  refine ⟨rounds, hr, ?_⟩
  rw [hsum, Nat.zero_add]

/-- The slices of a step are at most as many as the cycles of its instruction, and one. -/
theorem step_served_le (h : m.Paced) (hroom : m.now + m.step.1 < Scheduler.lastCycle)
    {rounds : List Round} (hr : m.executed.2.Rounds (m.now + m.executed.1) rounds m.step.2)
    (hcost : m.step.1 = m.executed.1 + (rounds.map (·.words)).sum) :
    rounds.countP (·.served) ≤ m.executed.1 + 1 := by
  have hnow := m.executed_now
  refine hr.served_le h.executed (by omega) (by omega) fun c hc => ?_
  have : m.executed.2.now ≤ c := h.executed.onTime _ _ hc
  omega

theorem step_now (h : m.Paced) (hroom : m.now + m.step.1 < Scheduler.lastCycle) :
    m.step.2.now = m.now + m.step.1 := by
  obtain ⟨rounds, hr, hcost⟩ := h.step_rounds hroom
  have hnow := m.executed_now
  rw [hr.now h.executed (by omega), hcost, Nat.add_assoc]

theorem step_idle (h : m.Paced) (hnone : m.scheduler.dueAt? dmaEvent = none)
    (hidle : (m.cpu.step m.bus).2.2.board.dma.hasPendingWork = false) :
    m.step.1 = (m.cpu.step m.bus).1 := by
  have hquiet : ∀ c, m.executed.2.scheduler.dueAt? dmaEvent = some c →
      m.executed.2.now + m.executed.1 < c := by
    intro c hc
    rw [executed_idle hidle, hnone] at hc
    cases hc
  rw [step_eq]
  dsimp only
  unfold advance
  rw [h.executed.catchUp_quiet (Nat.le_add_right ..) hquiet]
  rfl

end Paced

/-- Time accounting is exact, as long as the clock does not run over. States from elsewhere may have
been restored before, if they left the session paced. -/
theorem step_accounts
    (ho : ∀ {m data}, m.Reachable s → s.offers m data → (m.restore data).2.Paced)
    (h : m.Reachable s) (hroom : m.now + m.step.1 < Scheduler.lastCycle) :
    m.step.2.now = m.now + m.step.1 ∧ m.step.2.scheduler.OnTime ∧
    ∃ rounds, m.executed.2.Rounds (m.now + m.executed.1) rounds m.step.2 ∧
      (m.now :: rounds.map (·.clock)).IsChain (· ≤ ·) ∧
      (∀ r ∈ rounds, r.served = true ↔ r.due = some r.clock) ∧
      (∀ part ∈ m.bus.parts, part.given (rounds.flatMap (·.calls)) = m.step.1) ∧
      ∀ {reading}, Device.Meter reading → ∀ i, .external i ∈ m.bus.parts →
        m.step.2.bus.board.metered reading i =
          (m.bus.board.metered reading i).map (· + m.step.1) := by
  have hp := h.paced ho
  obtain ⟨rounds, hr, hcost⟩ := hp.step_rounds hroom
  have hnow := m.executed_now
  have hle : m.executed.2.now ≤ m.now + m.executed.1 := by omega
  have hend := hp.step_now hroom
  have hframe := m.frame_executed
  have hgiven : ∀ part ∈ m.bus.parts, part.given (rounds.flatMap (·.calls)) = m.step.1 := by
    intro part hpart
    have hsum := hr.elapsed hp.executed hle
    rw [← hframe.parts] at hpart
    rw [hr.given (hframe.parts ▸ h.laid.nodup) hpart]
    omega
  refine ⟨hend, hp.step.onTime, rounds, hr, ?_, hr.punctual hp.executed hle, hgiven, ?_⟩
  · rw [← hnow]
    exact hr.forward hp.executed hle
  · intro reading meter i hi
    rw [hr.metered meter, m.executed_frame.1, Bus.metered_step meter, hgiven _ hi]

/-- Without a boot image the first instruction does nothing. -/
theorem cpu_step_blank {bus : Bus δ} (hpending : bus.board.lines.interrupts.pending = false)
    (hcontrol : bus.memory.cacheControl = 0)
    (hbios : bus.memory.bios = Bytes.zeros Address.biosSize) :
    (Cpu.initial.step bus).1 = bus.timing.instructionCycles + bus.timing.bios.read ∧
      (Cpu.initial.step bus).2.2 = bus := by
  have hx : Cpu.initial.executes bus = true := by
    unfold Cpu.executes Cpu.isInterrupted Cpu.misfetches Cpu.begun
    rw [hpending]
    decide
  have hcache : Cpu.usesCache bus Cpu.initial.pc = false := by
    unfold Cpu.usesCache
    rw [hcontrol]
    decide
  have hregion : Address.region (Width.word.align Cpu.initial.pc) = .bios := by decide
  have hread : bus.read Cpu.initial.pc .word = (0, bus) := by
    unfold Bus.read
    dsimp only
    rw [hregion, hbios]
    dsimp only
    rw [Bytes.load_zeros]
  obtain ⟨hcost, hbus⟩ := Cpu.step_nop hx hcache (congrArg (·.1) hread)
  rw [hread] at hbus
  exact ⟨hcost, hbus⟩

/-- The session that was built executes an instruction that does nothing. -/
theorem cpu_step_fresh :
    ((fresh {} : Machine Empty).cpu.step (fresh {} : Machine Empty).bus).1 = 23 ∧
      ((fresh {} : Machine Empty).cpu.step (fresh {} : Machine Empty).bus).2.2 =
        (fresh {} : Machine Empty).bus :=
  cpu_step_blank (by decide) rfl rfl

/-- The session that was built does nothing and waits. -/
theorem step_fresh : (fresh {} : Machine Empty).step.1 = 23 := by
  obtain ⟨hcost, hbus⟩ := cpu_step_fresh
  have hidle : (fresh {} : Machine Empty).bus.board.dma.hasPendingWork = false := by decide
  rw [(paced_powerOn (fresh_eq {})).step_idle rfl (by rw [hbus]; exact hidle), hcost]

theorem step_accounts_fresh :
    (fresh {} : Machine Empty).step.1 = 23 ∧ (fresh {} : Machine Empty).step.2.now = 23 ∧
      ∃ rounds, (fresh {} : Machine Empty).executed.2.Rounds
          ((fresh {} : Machine Empty).now + (fresh {} : Machine Empty).executed.1) rounds
          (fresh {} : Machine Empty).step.2 ∧
        Part.timers.given (rounds.flatMap (·.calls)) = 23 := by
  have hr : (fresh {} : Machine Empty).Reachable { config := {} } :=
    reachable_fresh ⟨by decide, by decide⟩
  have hzero : (fresh {} : Machine Empty).now = 0 := rfl
  have hroom : (fresh {} : Machine Empty).now + (fresh {} : Machine Empty).step.1 <
      Scheduler.lastCycle := by
    rw [hzero, step_fresh]
    decide
  obtain ⟨hnow, -, rounds, hrounds, -, -, hgiven, -⟩ :=
    step_accounts (fun _ h => False.elim h) hr hroom
  rw [step_fresh] at hnow hgiven
  rw [hzero] at hnow
  exact ⟨step_fresh, hnow, rounds, hrounds, hgiven .timers (by decide)⟩

/-- The session with other things in memory, other transfers under way and other priorities. -/
def withTransfers (m : Machine δ) (memory : Memory) (channels : Vector Dma.Channel 7)
    (control : UInt32) : Machine δ :=
  { m with bus := { m.bus with
    memory, board := { m.bus.board with dma := { m.bus.board.dma with channels, control } } } }

/-- No step hangs. Whatever is in memory and whatever transfers are under way, also on a list that
leads back into itself, the wait behind an instruction runs in one way and comes to an end, and a
slice is taken at most once for each cycle of the instruction and once more. -/
theorem step_slices
    (ho : ∀ {m data}, m.Reachable s → s.offers m data → (m.restore data).2.Paced)
    (h : m.Reachable s) (memory : Memory) (channels : Vector Dma.Channel 7) (control : UInt32)
    (hroom : m.now + (m.withTransfers memory channels control).step.1 < Scheduler.lastCycle) :
    let m' := m.withTransfers memory channels control
    ∃ rounds, (∀ rounds' m'', m'.executed.2.Rounds (m.now + m'.executed.1) rounds' m'' ↔
        rounds' = rounds ∧ m'' = m'.step.2) ∧
      m'.step.1 = m'.executed.1 + (rounds.map (·.words)).sum ∧
      rounds.countP (·.served) ≤ m'.executed.1 + 1 := by
  intro m'
  have hp : m'.Paced := (h.paced ho).of_eq rfl rfl
  obtain ⟨rounds, hr, hcost⟩ := hp.step_rounds hroom
  have hsame : m'.now = m.now := rfl
  have hnow : m'.executed.2.now = m.now := m'.executed_now
  have hle : m'.executed.2.now ≤ m.now + m'.executed.1 := by omega
  refine ⟨rounds, fun rounds' m'' => ⟨fun h' => h'.unique hr, ?_⟩, hcost,
    hr.served_le hp.executed hle ?_ ?_⟩
  · rintro ⟨rfl, rfl⟩
    exact hr
  · rw [Nat.add_assoc, ← hcost]
    exact hroom
  · intro c hc
    have : m'.executed.2.now ≤ c := hp.executed.onTime _ _ hc
    omega

/-- A list of one node, at address 0 of a memory that holds nothing, which leads back to itself. -/
def looping : Machine Empty :=
  (fresh {}).withTransfers { Memory.initial with ram := .empty, bios := .empty }
    ((fresh {} : Machine Empty).bus.board.dma.channels.set 2
      { Dma.Channel.initial 2 with control := 0x01000401, progress := some .linkedList }) 0x800

theorem paced_looping : looping.Paced := (paced_powerOn (fresh_eq {})).of_eq rfl rfl

theorem looping_step : looping.step.1 = 24 := by
  have hcost : looping.executed.1 = 23 := by decide +kernel
  have hnow : looping.executed.2.now = 0 := by decide +kernel
  have hdue : (looping.executed.2.elapse 23).1 = true := by decide +kernel
  have hround : looping.executed.2.round 23 = (looping.executed.2.elapse 23).2.runDmaSlice :=
    round_of_due hdue
  have hwords : (looping.executed.2.round 23).1 = 1 := by decide +kernel
  have hnext : (looping.executed.2.round 23).2.scheduler.dueAt? dmaEvent = some 40 := by
    decide +kernel
  have hle : looping.executed.2.now ≤ 23 := by omega
  have hlast := looping.executed.2.boundary_le 23
  obtain ⟨hp, hboundary⟩ := paced_looping.executed.round hle
  have hrest : ((looping.executed.2.round 23).2.catchUp (22 + 0x100000000) 24 1).1 = 1 := by
    refine hp.catchUp_quiet (by omega) ?_
    intro c hc
    cases hnext.symm.trans hc
    decide
  have hstolen : (looping.executed.2.catchUp (22 + 0x100000000 + 1) 23 0).1 = 1 := by
    rw [catchUp_due_succ 0 hdue, ← round_of_due hdue, hwords,
      paced_looping.executed.elapse_now hle, if_neg (by omega)]
    exact hrest
  rw [step_eq, hcost]
  unfold advance
  rw [hnow]
  exact congrArg (23 + ·) hstolen

theorem step_slices_looping :
    looping.step.1 = 24 ∧
      ∃ rounds, looping.executed.2.Rounds (0 + looping.executed.1) rounds looping.step.2 ∧
        rounds.countP (·.served) ≤ looping.executed.1 + 1 := by
  have hr : (fresh {} : Machine Empty).Reachable { config := {} } :=
    reachable_fresh ⟨by decide, by decide⟩
  obtain ⟨rounds, hrounds, -, hserved⟩ := step_slices (fun _ h => False.elim h) hr _ _ _
    (show 0 + looping.step.1 < Scheduler.lastCycle by rw [looping_step]; decide)
  exact ⟨looping_step, rounds, (hrounds _ _).2 ⟨rfl, rfl⟩, hserved⟩

end Machine

end Psx
