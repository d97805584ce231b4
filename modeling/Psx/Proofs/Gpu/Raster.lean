import Mathlib.Tactic.SplitIfs
import Psx.Gpu.Port

/-!
# The raster

`Beam.InFrame`: the beam lies inside the frame of its standard. Every operation keeps it, also a
change of standard, which clamps the beam. `Beam.Settled`: besides, the beam is in the horizontal
blank exactly where that lies on the line. A settled beam drives nothing before its next pulse
(`Settled.advance_quiet`), so cycles may pass for it in two parts if the first ends before the pulse
(`Settled.advance_add`).
-/

namespace Psx.Gpu

namespace Beam

/-- The beam lies inside the frame. -/
structure InFrame (b : Beam) : Prop where
  cycle : b.lineCycle < b.timing.cyclesPerLine
  line : b.line < b.timing.linesPerFrame

/-- The beam knows whether it is in the horizontal blank. -/
def KnowsBlank (b : Beam) : Prop := b.inHblank = decide (b.timing.hblankStart ≤ b.lineCycle)

instance (b : Beam) : Decidable b.KnowsBlank := inferInstanceAs (Decidable (_ = _))

/-- The beam lies on its line and knows whether that is in the horizontal blank. -/
structure Settled (b : Beam) : Prop where
  cycle : b.lineCycle < b.timing.cyclesPerLine
  blank : b.KnowsBlank

variable {b : Beam}

theorem hblankStart_lt (b : Beam) : b.timing.hblankStart < b.timing.cyclesPerLine := by
  unfold timing VideoStandard.timing; cases b.standard <;> decide

theorem hblankStart_pos (b : Beam) : 0 < b.timing.hblankStart := by
  unfold timing VideoStandard.timing; cases b.standard <;> decide

theorem linesPerFrame_pos (b : Beam) : 0 < b.timing.linesPerFrame := by
  unfold timing VideoStandard.timing; cases b.standard <;> decide

/-! ### One pulse -/

theorem nextLine_standard (b : Beam) : b.nextLine.2.standard = b.standard := by
  unfold nextLine; dsimp only; split_ifs <;> rfl

theorem nextLine_inHblank (b : Beam) : b.nextLine.2.inHblank = b.inHblank := by
  unfold nextLine; dsimp only; split_ifs <;> rfl

theorem nextLine_line_lt (b : Beam) : b.nextLine.2.line < b.timing.linesPerFrame := by
  have := b.linesPerFrame_pos
  unfold nextLine; dsimp only; split_ifs <;> dsimp only <;> omega

theorem enterHblank_frame (b : Beam) :
    ∃ inHblank, b.enterHblank.2 = { b with inHblank := inHblank } := by
  unfold enterHblank; split_ifs <;> exact ⟨_, rfl⟩

theorem fire_standard (b : Beam) : b.fire.2.standard = b.standard := by
  obtain ⟨i, e⟩ := b.enterHblank_frame
  simp only [fire, endLine, e]
  split_ifs
  · rfl
  · exact nextLine_standard _

theorem fire_line_lt (h : b.line < b.timing.linesPerFrame) :
    b.fire.2.line < b.timing.linesPerFrame := by
  obtain ⟨i, e⟩ := b.enterHblank_frame
  simp only [fire, endLine, e]
  split_ifs
  · exact h
  · exact nextLine_line_lt
      { b with inHblank := false, lineCycle := b.lineCycle - b.timing.cyclesPerLine }

theorem cyclesToPulse_le (b : Beam) :
    b.lineCycle + b.cyclesToPulse ≤ max b.lineCycle b.timing.cyclesPerLine := by
  have := b.hblankStart_lt
  unfold cyclesToPulse; split_ifs with h
  · simp at h; omega
  · omega

/-- Moving on, but not past the next pulse, and driving what is due there. -/
def hop (b : Beam) (step : Nat) : List Signal × Beam :=
  { b with lineCycle := b.lineCycle + step }.fire

theorem InFrame.hop (h : b.InFrame) {step : Nat} (hs : step ≤ b.cyclesToPulse) :
    (b.hop step).2.InFrame := by
  have hle := b.cyclesToPulse_le
  have hc := h.cycle
  have hpos := b.cyclesPerLine_pos
  have ht : (b.hop step).2.timing = b.timing := by
    unfold Beam.timing Beam.hop; rw [fire_standard]
  refine ⟨?_, ?_⟩
  · rw [ht, Beam.hop, fire_lineCycle]
    show (if b.lineCycle + step < b.timing.cyclesPerLine then b.lineCycle + step
      else b.lineCycle + step - b.timing.cyclesPerLine) < b.timing.cyclesPerLine
    split_ifs <;> omega
  · rw [ht]; exact fire_line_lt (b := { b with lineCycle := b.lineCycle + step }) h.line

theorem run_zero (b : Beam) (emitted : List Signal) : b.run 0 emitted = (emitted, b) := by
  rw [run]; simp

theorem run_pos (b : Beam) {cycles : Nat} (hc : cycles ≠ 0) (emitted : List Signal) :
    b.run cycles emitted =
      (b.hop (min cycles b.cyclesToPulse)).2.run (cycles - min cycles b.cyclesToPulse)
        ((b.hop (min cycles b.cyclesToPulse)).1.reverse ++ emitted) := by
  rw [run, if_neg hc]; rfl

/-- What holds at every pulse holds at the end. -/
theorem run_induct {P : Beam → Prop}
    (hop : ∀ b step, step ≤ b.cyclesToPulse → P b → P (b.hop step).2)
    (b : Beam) (cycles : Nat) (emitted : List Signal) (h : P b) : P (b.run cycles emitted).2 := by
  fun_induction run b cycles emitted with
  | case1 => exact h
  | case2 b cycles emitted hc step r ih => exact ih (hop b _ (Nat.min_le_right _ _) h)

theorem InFrame.advance (h : b.InFrame) (cycles : Nat) : (b.advance cycles).2.InFrame :=
  run_induct (fun _ _ hs hb => hb.hop hs) b cycles [] h

theorem InFrame.setStandard (h : b.InFrame) (s : VideoStandard) : (b.setStandard s).InFrame := by
  unfold Beam.setStandard; split_ifs
  · exact h
  · have hc := cyclesPerLine_pos { b with standard := s }
    have hl := linesPerFrame_pos { b with standard := s }
    change 0 < s.timing.cyclesPerLine at hc
    change 0 < s.timing.linesPerFrame at hl
    exact ⟨by show min _ _ < s.timing.cyclesPerLine; omega,
      by show min _ _ < s.timing.linesPerFrame; omega⟩

/-! ### Between two pulses -/

theorem Settled.cyclesToPulse_eq (h : b.Settled) : b.cyclesToPulse =
    if b.lineCycle < b.timing.hblankStart then b.timing.hblankStart - b.lineCycle
    else b.timing.cyclesPerLine - b.lineCycle := by
  have hb : b.inHblank = decide (b.timing.hblankStart ≤ b.lineCycle) := h.blank
  unfold cyclesToPulse
  rw [hb]
  by_cases hlt : b.lineCycle < b.timing.hblankStart
  · simp [hlt, Nat.not_le.2 hlt]
  · simp [hlt]

theorem Settled.cyclesToPulse_pos (h : b.Settled) : 0 < b.cyclesToPulse := by
  have := h.cycle
  rw [h.cyclesToPulse_eq]; split_ifs <;> omega

/-- Nothing is driven before the next pulse. -/
theorem Settled.hop_quiet (h : b.Settled) {step : Nat} (hs : step < b.cyclesToPulse) :
    b.hop step = ([], { b with lineCycle := b.lineCycle + step }) := by
  have hb : b.inHblank = decide (b.timing.hblankStart ≤ b.lineCycle) := h.blank
  have hlt := b.hblankStart_lt
  rw [h.cyclesToPulse_eq] at hs
  have ht : ({ b with lineCycle := b.lineCycle + step } : Beam).timing = b.timing := rfl
  have henter : ({ b with lineCycle := b.lineCycle + step } : Beam).enterHblank =
      ([], { b with lineCycle := b.lineCycle + step }) := by
    rw [enterHblank, if_neg]
    rw [ht]
    simp only [hb]
    split_ifs at hs with hl <;> simp <;> omega
  simp only [hop, fire, henter, endLine, ht]
  rw [if_pos (by split_ifs at hs <;> omega)]
  rfl

theorem Settled.quiet (h : b.Settled) {step : Nat} (hs : step < b.cyclesToPulse) :
    ({ b with lineCycle := b.lineCycle + step } : Beam).Settled ∧
      ({ b with lineCycle := b.lineCycle + step } : Beam).cyclesToPulse =
        b.cyclesToPulse - step := by
  have hb : b.inHblank = decide (b.timing.hblankStart ≤ b.lineCycle) := h.blank
  have hc := h.cycle
  have hlt := b.hblankStart_lt
  have ht : ({ b with lineCycle := b.lineCycle + step } : Beam).timing = b.timing := rfl
  rw [h.cyclesToPulse_eq] at hs ⊢
  have hset : ({ b with lineCycle := b.lineCycle + step } : Beam).Settled := by
    refine ⟨?_, ?_⟩
    · rw [ht]; show b.lineCycle + step < _
      split_ifs at hs <;> omega
    · show b.inHblank = decide (b.timing.hblankStart ≤ b.lineCycle + step)
      rw [hb, decide_eq_decide]; split_ifs at hs <;> omega
  refine ⟨hset, ?_⟩
  rw [hset.cyclesToPulse_eq, ht]
  show (if b.lineCycle + step < b.timing.hblankStart then b.timing.hblankStart - (b.lineCycle + step)
    else b.timing.cyclesPerLine - (b.lineCycle + step)) = _
  split_ifs at hs ⊢ <;> omega

/-- The horizontal blank begins. -/
theorem Settled.hop_hblankStart (h : b.Settled) (hl : b.lineCycle < b.timing.hblankStart) :
    b.hop (b.timing.hblankStart - b.lineCycle) =
      ([.hblankBegin], { b with lineCycle := b.timing.hblankStart, inHblank := true }) := by
  have hb : b.inHblank = decide (b.timing.hblankStart ≤ b.lineCycle) := h.blank
  have hf : b.inHblank = false := by rw [hb]; simpa using hl
  have e : b.lineCycle + (b.timing.hblankStart - b.lineCycle) = b.timing.hblankStart := by omega
  have ht : ∀ i c, ({ b with lineCycle := c, inHblank := i } : Beam).timing = b.timing :=
    fun _ _ => rfl
  simp [Beam.hop, fire, enterHblank, endLine, ht, e, hf, b.hblankStart_lt]

/-- The line ends. -/
theorem Settled.hop_lineEnd (h : b.Settled) (hl : b.timing.hblankStart ≤ b.lineCycle) :
    b.hop (b.timing.cyclesPerLine - b.lineCycle) =
      let r := ({ b with lineCycle := 0, inHblank := false } : Beam).nextLine
      (.hblankEnd :: r.1, r.2) := by
  have hb : b.inHblank = decide (b.timing.hblankStart ≤ b.lineCycle) := h.blank
  have hf : b.inHblank = true := by rw [hb]; simpa using hl
  have hc := h.cycle
  have e : b.lineCycle + (b.timing.cyclesPerLine - b.lineCycle) = b.timing.cyclesPerLine := by
    omega
  have ht : ∀ i c, ({ b with lineCycle := c, inHblank := i } : Beam).timing = b.timing :=
    fun _ _ => rfl
  simp [Beam.hop, fire, enterHblank, endLine, ht, e, hf]

/-- At the next pulse the beam is settled again. -/
theorem Settled.hop (h : b.Settled) {step : Nat} (hs : step ≤ b.cyclesToPulse) :
    (b.hop step).2.Settled := by
  rcases Nat.lt_or_eq_of_le hs with hlt | rfl
  · rw [h.hop_quiet hlt]; exact (h.quiet hlt).1
  have ht : ∀ i c, ({ b with lineCycle := c, inHblank := i } : Beam).timing = b.timing :=
    fun _ _ => rfl
  rw [h.cyclesToPulse_eq]
  split_ifs with hl
  · rw [h.hop_hblankStart hl]
    exact ⟨b.hblankStart_lt, by simp [KnowsBlank, ht]⟩
  · have hs : ∀ b : Beam, b.nextLine.2.timing = b.timing := fun b => by
      unfold Beam.timing; rw [nextLine_standard]
    rw [h.hop_lineEnd (Nat.le_of_not_lt hl)]
    refine ⟨?_, ?_⟩
    · rw [hs, nextLine_lineCycle]; exact b.cyclesPerLine_pos
    · rw [KnowsBlank, hs, nextLine_lineCycle, nextLine_inHblank, ht]
      simpa using Nat.ne_of_gt b.hblankStart_pos

theorem Settled.advance (h : b.Settled) (cycles : Nat) : (b.advance cycles).2.Settled :=
  run_induct (fun _ _ hs hb => hb.hop hs) b cycles [] h

/-- Before the next pulse the beam only moves. -/
theorem Settled.advance_quiet (h : b.Settled) {j : Nat} (hj : j < b.cyclesToPulse) :
    b.advance j = ([], { b with lineCycle := b.lineCycle + j }) := by
  unfold Beam.advance
  by_cases h0 : j = 0
  · subst h0; rw [run_zero]; rfl
  · rw [run_pos b h0, Nat.min_eq_left (Nat.le_of_lt hj), h.hop_quiet hj, Nat.sub_self, run_zero]
    rfl

/-- The first part of a wait may be taken off if it ends before the next pulse. -/
theorem Settled.advance_add (h : b.Settled) {j : Nat} (k : Nat) (hj : j < b.cyclesToPulse) :
    b.advance (j + k) = ({ b with lineCycle := b.lineCycle + j } : Beam).advance k := by
  have hp := (h.quiet hj).2
  unfold Beam.advance
  by_cases hk : k = 0
  · subst hk
    have := h.advance_quiet hj
    unfold Beam.advance at this
    rw [Nat.add_zero, run_zero]; exact this
  · -- the first hop of the whole wait is the quiet part and the first hop of the rest
    have e : min (j + k) b.cyclesToPulse = j + min k (b.cyclesToPulse - j) := by omega
    have ehop : b.hop (j + min k (b.cyclesToPulse - j)) =
        ({ b with lineCycle := b.lineCycle + j } : Beam).hop (min k (b.cyclesToPulse - j)) := by
      unfold Beam.hop; rw [← Nat.add_assoc]
    rw [run_pos b (show j + k ≠ 0 by omega), run_pos _ hk, hp, e, ehop,
      show j + k - (j + min k (b.cyclesToPulse - j)) = k - min k (b.cyclesToPulse - j) by omega]

theorem inFrame_initial (s : VideoStandard) : ({ standard := s } : Beam).InFrame :=
  ⟨cyclesPerLine_pos _, linesPerFrame_pos _⟩

end Beam

end Psx.Gpu
