import Psx.Proofs.Bus.Requests
import Psx.Proofs.Cpu.Return
import Psx.Proofs.Machine.Accounting
import Psx.Proofs.Snapshot.Admission

/-!
# Requests are never lost

The one way to lose a request is to take it back: a step keeps every request over whose bit in I_STAT
its instruction does not write a zero (`Machine.step_requests`). The instruction keeps it access by
access, and in the wait behind it the beam, the timers and the slices of transfers only ever add to
the requests. That I_STAT has no other bits holds of a session from power on, also in a snapshot.
-/

namespace Psx.Machine

variable {δ : Type} [Device δ] {s : Surroundings δ} {m m' : Machine δ}

/-! ### A step -/

theorem keeps_wait (m : Machine δ) (cycles : Nat) : m.bus.Keeps (m.advance cycles).2.bus :=
  catchUp_keeps (P := fun m' => m.bus.Keeps m'.bus)
    (fun m' target h => by
      rw [elapse_bus]
      exact h.trans (m'.bus.keeps_advance _))
    (fun m' h => by
      rw [runDmaSlice_bus]
      exact h.trans m'.bus.keeps_runSlice)
    (.refl _) _ _ _

/-- The instruction of a step leaves the bus as its accesses leave it. -/
theorem executed_bus (m : Machine δ) : m.executed.2.bus =
    ((m.cpu.outside m.bus).performAll (m.cpu.accesses m.bus)).bus := by
  rw [m.executed_frame.1]
  exact congrArg (·.bus) (Cpu.performs_accesses m.cpu m.bus).outside_step

theorem isRaised_step (ht : m.bus.table = coreTable) {i : Interrupt} (h : m.bus.isRaised i = true)
    (hn : ∀ a ∈ m.cpu.accesses m.bus, ¬a.Acknowledges i) : m.step.2.bus.isRaised i = true := by
  rw [step_eq]
  refine (keeps_wait _ _).raised i ?_
  rw [executed_bus]
  exact Outside.isRaised_performAll ht h hn

/-! ### The other bits of I_STAT -/

/-- I_STAT holds requests of sources alone. -/
def Implemented (m : Machine δ) : Prop := m.bus.board.lines.interrupts.Implemented

theorem Implemented.perform (h : m.Implemented) (move : Move) : (m.perform move).Implemented := by
  have hw : m.bus.Within (fun _ => True) fun b => b.lines.interrupts.Implemented :=
    ⟨fun _ _ => trivial, h⟩
  exact perform_board Board.implemented_invariant
    (fun _ h => h.runSlice Board.implemented_invariant fun b hb asks dma =>
      (b.keeps_withDma asks dma).implemented hb) (reset_board Board.implemented_reset hw) hw move

theorem implemented_powerOn {config : SessionConfig} {file : Option Bus.BiosFile}
    (h : ofConfig config file = .ok m) : m.Implemented := by
  obtain ⟨memory, -, rfl⟩ := ofConfig_eq h
  exact (Lines.keeps_deliverAll {} _).implemented rfl

/-- A session of the core has no bits set but those of sources, if the states from elsewhere that it
is given have none. -/
theorem Reachable.implemented (hs : ∀ device, ¬s.attaches device)
    (ho : ∀ {m data}, m.Reachable s → s.offers m data → (m.restore data).2.Implemented)
    (h : m.Reachable s) : m.Implemented := by
  induction h with
  | powerOn h _ => exact implemented_powerOn h
  | perform move _ _ ih => exact ih.perform move
  | attach slot _ hd _ _ _ => exact absurd hd (hs _)
  | rewind h h₀ _ ih ih₀ =>
    rcases h.rewind_cases hs h₀ with e | e <;> rw [e]
    · exact ih₀
    · exact ih
  | restore h hd _ _ => exact ho h hd

/-- Interrupt requests are never lost. A request that is there is still there after a step, unless the
instruction of the step wrote a zero over its bit of I_STAT; neither the passing of time nor a slice
of a transfer nor any other access ever takes it away, and I_STAT never shows a bit that belongs to
no source. -/
theorem step_requests (hs : ∀ device, ¬s.attaches device)
    (ho : ∀ {m data}, m.Reachable s → s.offers m data → (m.restore data).2.Implemented)
    (h : m.Reachable s) :
    m.bus.board.lines.interrupts.status &&& 0xF800 = 0 ∧
    m.cpu.Performs m.bus (m.cpu.accesses m.bus) ∧
    ∀ i, m.bus.isRaised i = true →
      (m.step.2.bus.isRaised i = true ∨ ∃ a ∈ m.cpu.accesses m.bus, a.Acknowledges i) ∧
      (∀ cycles, (m.bus.advance cycles).isRaised i = true) ∧
      m.bus.runSlice.2.isRaised i = true ∧
      (∀ a : Access, ¬a.Acknowledges i →
        ((m.cpu.outside m.bus).perform a).bus.isRaised i = true) ∧
      (∀ part offset w,
        (m.bus.board.read part offset w).2.lines.interrupts.isRaised i = true) ∧
      ∀ part, part ≠ .interrupts → ∀ offset w value,
        (m.bus.board.write part offset w value).lines.interrupts.isRaised i = true := by
  have ht := h.laid.bare hs
  refine ⟨h.implemented hs ho, m.cpu.performs_accesses m.bus, fun i hi => ⟨?_, fun cycles => ?_, ?_,
    fun a ha => ?_, fun part offset w => ?_, fun part hp offset w value => ?_⟩⟩
  · by_cases hn : ∃ a ∈ m.cpu.accesses m.bus, a.Acknowledges i
    · exact .inr hn
    · exact .inl (isRaised_step ht hi fun a ha hacknowledged => hn ⟨a, ha, hacknowledged⟩)
  · exact (m.bus.keeps_advance cycles).raised i hi
  · exact m.bus.keeps_runSlice.raised i hi
  · exact Outside.isRaised_perform (o := m.cpu.outside m.bus) ht hi ha
  · exact (m.bus.board.keeps_read part offset w).raised i hi
  · exact (m.bus.board.keeps_write hp offset w value).raised i hi

/-- The session that was built, after the controller of transfers has been made to ask for
attention. -/
def asking : Machine Empty := (fresh {}).perform (.write 0x1F8010F4 .word 0x8000)

theorem asking_fits : asking.Fits := by
  have hconfig : ({} : SessionConfig).Fits := ⟨by decide, by decide⟩
  have hcore := Board.fits_ofConfig (δ := Empty) hconfig
  have hchips : ∀ p ∈ Part.core, asking.bus.board.Fits p := by
    intro p hp
    cases p with
    | interrupts => exact ⟨trivial, trivial⟩
    | dma => exact ⟨(hcore .dma hp).1, trivial, trivial, (hcore .dma hp).2.2.2⟩
    | _ => exact hcore _ hp
  refine fits_of Cpu.sound_initial.lines Memory.hasSizes_initial scheduler₀_fits
    (fun p hp => hchips p hp) (show 6 < 256 by decide) fun x hx => ?_
  exact Nat.lt_of_le_of_lt (saveDevices_size_le rfl hchips x hx)
    (show 576 + 0 * 9 + "".toUTF8.size < 256 ^ 8 by decide)

theorem reachable_asking : asking.Reachable { config := {} } :=
  .perform _ (reachable_fresh ⟨by decide, by decide⟩) asking_fits

theorem step_requests_asking :
    asking.bus.isRaised .dma = true ∧ asking.step.2.bus.isRaised .dma = true ∧
      (asking.bus.advance 1000).isRaised .dma = true ∧
      asking.bus.runSlice.2.isRaised .dma = true := by
  have hraised : asking.bus.isRaised .dma = true := by decide
  have hx : asking.cpu.executes asking.bus = true := by decide
  have hcache : Cpu.usesCache asking.bus asking.cpu.pc = false := by decide
  have hregion : Address.region (Width.word.align asking.cpu.pc) = .bios := by decide
  have hread : (asking.bus.read asking.cpu.pc .word).1 = 0 := by
    unfold Bus.read
    dsimp only
    rw [hregion, show asking.bus.memory.bios = Bytes.zeros Address.biosSize from rfl]
    dsimp only
    rw [Bytes.load_zeros]
  have hnop : asking.cpu.instruction asking.bus = .decode 0 := by
    unfold Cpu.instruction
    rw [Cpu.fetched_uncached hcache, hread]
  have haccesses : asking.cpu.accesses asking.bus = [asking.cpu.fetchAccess asking.bus] := by
    unfold Cpu.accesses
    rw [hx, hnop]
    rfl
  obtain ⟨hstep, hadvance, hslice, -⟩ :=
    (step_requests (fun _ h => h) (fun _ h => False.elim h) reachable_asking).2.2 .dma hraised
  refine ⟨hraised, hstep.resolve_right ?_, hadvance 1000, hslice⟩
  rintro ⟨a, ha, hacknowledged⟩
  rw [haccesses, List.mem_singleton] at ha
  subst ha
  unfold Cpu.fetchAccess at hacknowledged
  split at hacknowledged <;> exact hacknowledged

end Psx.Machine
