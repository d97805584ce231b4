import Psx.Proofs.Checked.Chips
import Psx.Proofs.Checked.Transfers
import Psx.Proofs.Machine.Accounting

/-!
# What slices move

The count registers name 0x10000 words at most, and with regular channels that is the most that a
slice moves (`Machine.runDmaSlice_words_le`). A wait runs few slices, so what it steals is bounded too
(`Machine.Rounds.words_le`). A session that can be reached has regular channels and the gap of its
configuration (`Machine.Spaced`): no register holds the gap, and a snapshot of a session of the same
kind brings back the one that is there.
-/

namespace Psx

variable {δ : Type} [Device δ]

namespace Machine

variable {m m' : Machine δ} {target gap : Nat} {rounds : List Round}

/-! ### Regular channels -/

section

variable (h : m.bus.board.dma.Regular)

include h

theorem regular_elapse (target : Nat) : (m.elapse target).2.bus.board.dma.Regular := by
  have hw : m.bus.Within (fun _ => True) fun b => b.dma.Regular := ⟨fun _ _ => trivial, h⟩
  rw [elapse_bus]
  exact (hw.advance Board.regular_invariant _).board

theorem regular_runDmaSlice : m.runDmaSlice.2.bus.board.dma.Regular := by
  rw [runDmaSlice_bus]
  exact h.runSlice

theorem regular_round (target : Nat) : (m.round target).2.bus.board.dma.Regular := by
  by_cases hdue : (m.elapse target).1 = true
  · rw [round_of_due hdue]
    exact regular_runDmaSlice (regular_elapse h target)
  · rw [round_of_idle hdue]
    exact regular_elapse h target

/-- A slice moves as many words as a count register can name. -/
theorem runDmaSlice_words_le : m.runDmaSlice.1 ≤ 0x10000 := by
  rcases hr : m.bus.runSlice with ⟨_ | slice, b⟩
  · rw [runDmaSlice_none hr]
    exact Nat.zero_le _
  · rw [runDmaSlice_some hr]
    exact (Bus.runSlice_counts h.channels hr).1

/-- Only a slice moves words. -/
theorem note_words_le (target : Nat) :
    (m.note target).words ≤ 0x10000 * if (m.note target).served = true then 1 else 0 := by
  show (m.round target).1 ≤ 0x10000 * if (m.elapse target).1 = true then 1 else 0
  by_cases hdue : (m.elapse target).1 = true
  · rw [round_of_due hdue, if_pos hdue]
    exact runDmaSlice_words_le (regular_elapse h target)
  · rw [round_of_idle hdue]
    exact Nat.zero_le _

end

theorem Rounds.words_le (hr : m.Rounds target rounds m') (h : m.bus.board.dma.Regular) :
    (rounds.map (·.words)).sum ≤ 0x10000 * rounds.countP (·.served) := by
  induction hr with
  | @last m target _ =>
    rw [List.map_singleton, List.sum_singleton, List.countP_singleton]
    exact note_words_le h target
  | @next m target rounds m' _ _ ih =>
    have hwords := note_words_le h target
    have hrest := ih (regular_round h target)
    rw [List.map_cons, List.sum_cons, List.countP_cons, Nat.mul_add]
    omega

/-- A wait steals less than its allowance of slices can. -/
theorem catchUp_words_le (h : m.bus.board.dma.Regular) (slices target stolen : Nat) :
    (m.catchUp slices target stolen).1 ≤ stolen + 0x10000 * slices := by
  induction m, slices, target, stolen using catchUp_induct with
  | out m target stolen hdue =>
    rw [catchUp_due_zero stolen hdue]
    exact Nat.le_add_right ..
  | last m slices target stolen hdue hend =>
    have hwords := runDmaSlice_words_le (regular_elapse h target)
    rw [catchUp_due_succ stolen hdue, if_pos hend, Nat.mul_succ]
    dsimp only
    omega
  | slice m slices target stolen hdue hmore ih =>
    have hwords := runDmaSlice_words_le (regular_elapse h target)
    have hrest := ih (regular_runDmaSlice (regular_elapse h target))
    rw [catchUp_due_succ stolen hdue, if_neg hmore, Nat.mul_succ]
    omega
  | more m slices target stolen hidle hmore ih =>
    rw [catchUp_idle stolen hidle, if_pos hmore]
    exact ih (regular_elapse h target)
  | done m slices target stolen hidle hdone =>
    rw [catchUp_idle stolen hidle, if_neg hdone]
    exact Nat.le_add_right ..

/-- The clock does not run over in a step that begins so early that its allowance of slices fits. -/
theorem step_lt_lastCycle (h : m.executed.2.bus.board.dma.Regular)
    (hroom : m.now + m.executed.1 + 0x10000 * sliceAllowance m.executed.1 < Scheduler.lastCycle) :
    m.now + m.step.1 < Scheduler.lastCycle := by
  have hwords := catchUp_words_le h (sliceAllowance m.executed.1) (m.executed.2.now + m.executed.1) 0
  rw [step_eq]
  unfold advance
  dsimp only
  omega

/-! ### The gap of the configuration -/

/-- A paced session with regular channels and such a gap between its slices. -/
structure Spaced (gap : Nat) (m : Machine δ) : Prop where
  paced : m.Paced
  regular : m.bus.board.dma.Regular
  gap : m.bus.board.dma.sliceGap = gap

namespace Spaced

omit [Device δ] in
theorem of_dma (h : m.Spaced gap) (hp : m'.Paced) (hd : m'.bus.board.dma = m.bus.board.dma) :
    m'.Spaced gap :=
  ⟨hp, hd ▸ h.regular, hd ▸ h.gap⟩

omit [Device δ] in
theorem withinRegular (h : m.Spaced gap) :
    m.bus.Within (fun _ => True) fun b => b.dma.Regular :=
  ⟨fun _ _ => trivial, h.regular⟩

omit [Device δ] in
theorem withinGap (h : m.Spaced gap) :
    m.bus.Within (fun _ => True) fun b => b.dma.sliceGap = gap :=
  ⟨fun _ _ => trivial, h.gap⟩

theorem runSlice_gap {b : Bus δ} (h : b.Within (fun _ => True) fun b => b.dma.sliceGap = gap) :
    b.runSlice.2.Within (fun _ => True) fun b => b.dma.sliceGap = gap :=
  h.runSlice_gap (Board.gap_invariant (· = gap)) fun _ hb _ _ e => e.trans hb

theorem perform (h : m.Spaced gap) (move : Move) : (m.perform move).Spaced gap where
  paced := h.paced.perform move
  regular := perform_board Board.regular_invariant (fun _ h => h.runSlice_regular)
    (reset_board (P := fun b => b.dma.Regular) Board.regular_reset h.withinRegular)
    h.withinRegular move
  gap := perform_board (Board.gap_invariant (· = gap)) (fun _ h => runSlice_gap h)
    (reset_board (P := fun b => b.dma.sliceGap = gap) (Board.gap_reset (P := (· = gap)))
      h.withinGap) h.withinGap move

theorem elapse (h : m.Spaced gap) (target : Nat) : (m.elapse target).2.Spaced gap where
  paced := h.paced.elapse target
  regular := regular_elapse h.regular target
  gap := by
    rw [elapse_bus]
    exact (h.withinGap.advance (Board.gap_invariant (· = gap)) _).board

theorem runDmaSlice (h : m.Spaced gap) : m.runDmaSlice.2.Spaced gap where
  paced := h.paced.runDmaSlice
  regular := regular_runDmaSlice h.regular
  gap := by
    rw [runDmaSlice_bus]
    exact (runSlice_gap h.withinGap).board

theorem executed (h : m.Spaced gap) : m.executed.2.Spaced gap := by
  have hkept := Bus.Simulation.of_kept
    (P := fun b : Bus δ => b.Within (fun _ => True) (fun b => b.dma.Regular) ∧
      b.Within (fun _ => True) fun b => b.dma.sliceGap = gap)
    (fun _ h _ _ => ⟨h.1.read Board.regular_invariant ..,
      h.2.read (Board.gap_invariant (· = gap)) ..⟩)
    fun _ h _ _ _ => ⟨h.1.write Board.regular_invariant ..,
      h.2.write (Board.gap_invariant (· = gap)) ..⟩
  obtain ⟨cost, cpu, b, -, hb, -, -, hr, hg⟩ :=
    hkept.step ⟨rfl, h.withinRegular, h.withinGap⟩ m.cpu
  have he : m.executed.2.bus = b := by rw [m.executed_frame.1, hb]
  exact ⟨h.paced.executed, he ▸ hr.board, he ▸ hg.board⟩

end Spaced

variable {s : Surroundings δ}

theorem spaced_powerOn {config : SessionConfig} {file : Option Bus.BiosFile}
    (hg : config.dma.sliceGapCycles < 2 ^ 32) (h : ofConfig config file = .ok m) :
    m.Spaced (max config.dma.sliceGapCycles 1) := by
  have hp := paced_powerOn h
  obtain ⟨memory, -, rfl⟩ := ofConfig_eq h
  exact ⟨hp, .initial hg, rfl⟩

/-- A session that has gone back to a snapshot has the controller of one of the two sessions. -/
theorem rewind_dma {m₀ : Machine δ} (hm : m.Laid s) (hf : m.Fits) (hm₀ : m₀.Laid s)
    (hf₀ : m₀.Fits) : (m.restore m₀.snapshot).2.bus.board.dma = m.bus.board.dma ∨
      (m.restore m₀.snapshot).2.bus.board.dma = m₀.bus.board.dma := by
  rcases m.restore_cases m₀.snapshot with ⟨-, e, he⟩ | ⟨t, m', ha, hap, he⟩ |
    ⟨t, e, m', ha, hap, he⟩
  · exact .inl (by rw [he])
  · cases decode_snapshot hf₀ ha.decode
    exact .inr (by rw [he]; exact apply_capture_dma hm hm₀ hf₀ ha.validate hap)
  · obtain ⟨ss, rest, -, hback⟩ := restore_refused hm hf ha hap
    exact .inl (by rw [he]; exact congrArg (·.bus.board.dma) hback)

/-- A session has the gap of its configuration, if the states from elsewhere that it is given do. -/
theorem Reachable.spaced (hg : s.config.dma.sliceGapCycles < 2 ^ 32)
    (ho : ∀ {m data}, m.Reachable s → s.offers m data →
      (m.restore data).2.Spaced (max s.config.dma.sliceGapCycles 1))
    (h : m.Reachable s) : m.Spaced (max s.config.dma.sliceGapCycles 1) := by
  induction h with
  | powerOn h _ => exact spaced_powerOn hg h
  | perform move _ _ ih => exact ih.perform move
  | attach slot _ _ hp _ ih =>
    have hpaced := ih.paced.plug hp
    obtain ⟨-, he⟩ := plug_eq hp
    exact ih.of_dma hpaced (by rw [he])
  | rewind h h₀ _ ih ih₀ =>
    have hpaced := ih.paced.rewind h.laid h.fits ih₀.paced h₀.laid h₀.fits
    rcases rewind_dma h.laid h.fits h₀.laid h₀.fits with hd | hd
    · exact ih.of_dma hpaced hd
    · exact ih₀.of_dma hpaced hd
  | restore h hd _ _ => exact ho h hd

end Machine

end Psx
