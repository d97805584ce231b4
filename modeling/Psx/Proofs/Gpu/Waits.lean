import Psx.Proofs.Gpu.Raster

/-!
# Waits in parts

A beam inside its frame may be `Overdue`: it lies where the horizontal blank has begun on its line
and has not entered it. Up to its next point the beam moves along the line and, if it is overdue,
enters the blank (`Beam.hop_short`); at that point it drives something (`Beam.hop_cyclesToPulse`)
and it is never overdue behind a hop (`Beam.not_overdue_hop`). So a wait may be cut anywhere: its
parts drive together what the whole wait drives, and lead to the same place (`Beam.advance_add`).
-/

namespace Psx.Gpu

namespace Beam

/-- The beam lies where the horizontal blank has begun on its line and has not entered it. -/
def Overdue (b : Beam) : Prop := b.inHblank = false ∧ b.timing.hblankStart ≤ b.lineCycle

instance (b : Beam) : Decidable b.Overdue := inferInstanceAs (Decidable (_ ∧ _))

variable {b : Beam} {step : Nat}

theorem cyclesToPulse_pos (h : b.lineCycle < b.timing.cyclesPerLine) : 0 < b.cyclesToPulse := by
  unfold cyclesToPulse
  split_ifs with hblank
  · simp only [Bool.and_eq_true, decide_eq_true_eq] at hblank
    omega
  · omega

/-! ### One hop -/

theorem enterHblank_eq (b : Beam) : b.enterHblank =
    (if b.Overdue then [.hblankBegin] else [],
      { b with inHblank := b.inHblank || decide b.Overdue }) := by
  unfold enterHblank Overdue
  rcases b with ⟨standard, line, lineCycle, frames, inHblank, inVblank⟩
  cases inHblank with
  | true => rfl
  | false =>
    simp only [Bool.not_false, Bool.true_and, decide_eq_true_eq, true_and, Bool.false_or]
    split_ifs with h
    · simp [h]
    · simp [h]

theorem fire_inLine (h : b.lineCycle < b.timing.cyclesPerLine) : b.fire = b.enterHblank := by
  have hline : b.enterHblank.2.lineCycle < b.enterHblank.2.timing.cyclesPerLine := by
    rw [enterHblank_timing, enterHblank_lineCycle]
    exact h
  simp only [fire, endLine, if_pos hline, List.append_nil]

/-- Before its next point the beam moves, and enters the blank if it is overdue. -/
theorem hop_short (h : step < b.cyclesToPulse) : b.hop step =
    (if b.Overdue then [.hblankBegin] else [],
      { b with lineCycle := b.lineCycle + step, inHblank := b.inHblank || decide b.Overdue }) := by
  have ht : ({ b with lineCycle := b.lineCycle + step } : Beam).timing = b.timing := rfl
  have hlt := b.hblankStart_lt
  have hsame : ({ b with lineCycle := b.lineCycle + step } : Beam).Overdue ↔ b.Overdue := by
    unfold Overdue
    unfold cyclesToPulse at h
    rw [ht]
    cases hb : b.inHblank <;> simp [hb] at h ⊢
    split_ifs at h <;> omega
  have hline : b.lineCycle + step < b.timing.cyclesPerLine := by
    unfold cyclesToPulse at h
    split_ifs at h <;> omega
  rw [hop, fire_inLine (b := { b with lineCycle := b.lineCycle + step }) hline, enterHblank_eq]
  simp only [hsame]

/-- The next point is where the blank begins or the line ends, and the beam drives something there.
-/
theorem hop_cyclesToPulse (h : b.lineCycle < b.timing.cyclesPerLine) :
    (b.hop b.cyclesToPulse).1 ≠ [] := by
  have ht : ∀ cycle, ({ b with lineCycle := cycle } : Beam).timing = b.timing := fun _ => rfl
  unfold hop cyclesToPulse
  split_ifs with hblank
  · simp only [Bool.and_eq_true, Bool.not_eq_eq_eq_not, Bool.not_true, decide_eq_true_eq] at hblank
    have hat : b.lineCycle + (b.timing.hblankStart - b.lineCycle) = b.timing.hblankStart := by omega
    have henter : ({ b with lineCycle := b.timing.hblankStart } : Beam).Overdue :=
      ⟨hblank.1, Nat.le_refl _⟩
    rw [hat]
    unfold fire
    rw [enterHblank_eq, if_pos henter]
    simp
  · have hat : b.lineCycle + (b.timing.cyclesPerLine - b.lineCycle) = b.timing.cyclesPerLine := by
      omega
    rw [hat]
    unfold fire
    simp only [endLine, enterHblank_timing, enterHblank_lineCycle, ht]
    rw [if_neg (Nat.lt_irrefl _)]
    simp

/-- After a hop the beam is in the blank, or before it. -/
theorem not_overdue_hop (h : b.lineCycle < b.timing.cyclesPerLine) (hs : step ≤ b.cyclesToPulse) :
    ¬(b.hop step).2.Overdue := by
  have hle := b.cyclesToPulse_le
  rintro ⟨hblank, hcycle⟩
  rcases Nat.lt_or_ge (b.lineCycle + step) b.timing.cyclesPerLine with hlt | hge
  · -- the line goes on, and the beam has just looked whether the blank has begun
    rw [hop, fire_inLine (b := { b with lineCycle := b.lineCycle + step }) hlt,
      enterHblank_eq] at hblank hcycle
    simp only [Bool.or_eq_false_iff, decide_eq_false_iff_not] at hblank
    exact hblank.2 ⟨hblank.1, hcycle⟩
  · have ht : (b.hop step).2.timing = b.timing := by
      unfold Beam.timing hop
      rw [fire_standard]
    have hpos := b.hblankStart_pos
    rw [ht, hop, fire_lineCycle] at hcycle
    change b.timing.hblankStart ≤ if b.lineCycle + step < b.timing.cyclesPerLine then _
      else b.lineCycle + step - b.timing.cyclesPerLine at hcycle
    rw [if_neg (by omega)] at hcycle
    omega

/-- Before its next point the beam comes closer to it, also when it enters the blank. -/
theorem cyclesToPulse_hop (h : step < b.cyclesToPulse) :
    (b.hop step).2.cyclesToPulse = b.cyclesToPulse - step := by
  rw [hop_short h]
  have ht : ∀ cycle blank,
      ({ b with lineCycle := cycle, inHblank := blank } : Beam).timing = b.timing := fun _ _ => rfl
  unfold cyclesToPulse at h ⊢
  unfold Overdue
  simp only [ht]
  rcases Bool.eq_false_or_eq_true b.inHblank with hb | hb
  · simp only [hb, Bool.not_true, Bool.false_and, Bool.true_or, Bool.false_eq_true, if_false] at h ⊢
    omega
  · rcases Nat.lt_or_ge b.lineCycle b.timing.hblankStart with hlt | hge
    · simp only [hb, hlt, Bool.not_false, decide_true, Bool.and_self, if_true] at h
      have hlt' : b.lineCycle + step < b.timing.hblankStart := by omega
      simp [hb, Nat.not_le.2 hlt, hlt, hlt']
      omega
    · simp [hb, hge, Nat.not_lt.2 hge]
      omega

/-- A hop may be cut before the next point. -/
theorem hop_add {i j : Nat} (hj : j < b.cyclesToPulse) : b.hop (j + i) =
    ((b.hop j).1 ++ ((b.hop j).2.hop i).1, ((b.hop j).2.hop i).2) := by
  rw [hop_short hj]
  have hat : b.lineCycle + j + i = b.lineCycle + (j + i) := Nat.add_assoc ..
  by_cases ho : b.Overdue
  · -- the blank is entered in the first part, and nothing is left of that for the second
    have hthere : ({ b with lineCycle := b.lineCycle + (j + i) } : Beam).Overdue :=
      ⟨ho.1, Nat.le_trans ho.2 (Nat.le_add_right ..)⟩
    have hentered :
        ¬({ b with lineCycle := b.lineCycle + (j + i), inHblank := true } : Beam).Overdue :=
      fun h => Bool.noConfusion h.1
    simp only [hop, hat, fire, ho, decide_true, Bool.or_true, if_true]
    rw [enterHblank_eq, enterHblank_eq, if_pos hthere, if_neg hentered]
    simp [hthere]
  · simp only [hop, hat, ho, decide_false, Bool.or_false, if_false, List.nil_append]

/-! ### Waits -/

theorem advance_zero (b : Beam) : b.advance 0 = ([], b) := by
  unfold advance
  rw [run_zero]
  rfl

/-- What a run drives is put before what has been driven. -/
theorem run_append (b : Beam) (cycles : Nat) (latest emitted : List Signal) :
    b.run cycles (latest ++ emitted) =
      ((b.run cycles latest).1 ++ emitted, (b.run cycles latest).2) := by
  fun_induction run b cycles latest with
  | case1 => rw [run_zero]
  | case2 b cycles latest hc step r ih =>
    rw [run_pos b hc, ← List.append_assoc]
    exact ih

theorem advance_pos (b : Beam) {cycles : Nat} (hc : cycles ≠ 0) : b.advance cycles =
    let step := min cycles b.cyclesToPulse
    ((b.hop step).1 ++ ((b.hop step).2.advance (cycles - step)).1,
      ((b.hop step).2.advance (cycles - step)).2) := by
  have happend := fun step => run_append (b.hop step).2 (cycles - step) [] (b.hop step).1.reverse
  simp only [List.nil_append] at happend
  simp only [advance, run_pos b hc, List.append_nil, happend, List.reverse_append,
    List.reverse_reverse]

/-- A wait that ends before the next point is a hop. -/
theorem advance_eq_hop (hpos : step ≠ 0) (h : step ≤ b.cyclesToPulse) :
    b.advance step = b.hop step := by
  rw [advance_pos b hpos]
  dsimp only
  rw [Nat.min_eq_left h, Nat.sub_self, advance_zero, List.append_nil]

/-- A wait may be cut anywhere. -/
theorem advance_add (h : b.InFrame) (j k : Nat) : b.advance (j + k) =
    ((b.advance j).1 ++ ((b.advance j).2.advance k).1, ((b.advance j).2.advance k).2) := by
  induction j using Nat.strongRecOn generalizing b with
  | ind j ih =>
    have hpulse := cyclesToPulse_pos h.cycle
    rcases Nat.eq_zero_or_pos j with rfl | hj
    · rw [advance_zero, Nat.zero_add, List.nil_append]
    rcases Nat.eq_zero_or_pos k with rfl | hk
    · rw [advance_zero, Nat.add_zero, List.append_nil]
    rcases Nat.lt_or_ge j b.cyclesToPulse with hlt | hge
    · -- the first hop of the whole wait is the first part and the first hop of the second
      rw [advance_eq_hop (Nat.ne_of_gt hj) (Nat.le_of_lt hlt),
        advance_pos _ (show j + k ≠ 0 by omega), advance_pos (b.hop j).2 (Nat.ne_of_gt hk)]
      dsimp only
      have hstep : min (j + k) b.cyclesToPulse = j + min k (b.cyclesToPulse - j) := by omega
      have hrest : j + k - (j + min k (b.cyclesToPulse - j)) = k - min k (b.cyclesToPulse - j) := by
        omega
      rw [cyclesToPulse_hop hlt, hstep, hrest, hop_add hlt, List.append_assoc]
    · -- both begin with the same hop
      have hstep := Nat.min_eq_right hge
      have hwhole : min (j + k) b.cyclesToPulse = b.cyclesToPulse := by omega
      have hrest : j + k - b.cyclesToPulse = j - b.cyclesToPulse + k := by omega
      rw [advance_pos b (show j + k ≠ 0 by omega), advance_pos b (Nat.ne_of_gt hj)]
      dsimp only
      rw [hwhole, hstep, hrest, ih _ (by omega) (h.hop (Nat.le_refl _)), List.append_assoc]

/-- Behind a wait the beam is in the blank, or before it. -/
theorem not_overdue_advance (h : b.InFrame) {cycles : Nat} (hpos : cycles ≠ 0) :
    ¬(b.advance cycles).2.Overdue := by
  have hle := Nat.min_le_right cycles b.cyclesToPulse
  have hhop : ∀ (b : Beam) step, step ≤ b.cyclesToPulse → b.InFrame ∧ ¬b.Overdue →
      (b.hop step).2.InFrame ∧ ¬(b.hop step).2.Overdue :=
    fun b step hs hb => ⟨hb.1.hop hs, not_overdue_hop hb.1.cycle hs⟩
  unfold advance
  rw [run_pos b hpos]
  exact (run_induct hhop _ _ _ ⟨h.hop hle, not_overdue_hop h.cycle hle⟩).2

/-! ### The vertical blank -/

/-- The beam with another count of frames, in the vertical blank or not. -/
def recount (b : Beam) (frames : Nat) (inVblank : Bool) : Beam := { b with frames, inVblank }

theorem nextLine_recount (b : Beam) (frames : Nat) (inVblank : Bool) :
    ∃ frames' inVblank', (b.recount frames inVblank).nextLine.2 =
      b.nextLine.2.recount frames' inVblank' := by
  unfold nextLine recount
  dsimp only
  change ∃ frames' inVblank',
    (if b.line + 1 ≥ b.timing.linesPerFrame then _ else _ : List Signal × Beam).2 = _
  by_cases h : b.line + 1 ≥ b.timing.linesPerFrame
  · rw [if_pos h, if_pos h]
    exact ⟨_, _, rfl⟩
  · rw [if_neg h, if_neg h]
    split_ifs <;> exact ⟨_, _, rfl⟩

theorem hop_recount (b : Beam) (frames : Nat) (inVblank : Bool) (step : Nat) :
    ∃ frames' inVblank', ((b.recount frames inVblank).hop step).2 =
      (b.hop step).2.recount frames' inVblank' := by
  have henter : ∀ b : Beam, (b.recount frames inVblank).enterHblank =
      (b.enterHblank.1, b.enterHblank.2.recount frames inVblank) := by
    intro b
    rw [enterHblank_eq, enterHblank_eq]
    rfl
  have hend : ∀ b : Beam, ∃ frames' inVblank', (b.recount frames inVblank).endLine.2 =
      b.endLine.2.recount frames' inVblank' := by
    intro b
    unfold endLine
    change ∃ frames' inVblank',
      (if b.lineCycle < b.timing.cyclesPerLine then _ else _ : List Signal × Beam).2 = _
    by_cases h : b.lineCycle < b.timing.cyclesPerLine
    · rw [if_pos h, if_pos h]
      exact ⟨_, _, rfl⟩
    · rw [if_neg h, if_neg h]
      exact nextLine_recount
        { b with lineCycle := b.lineCycle - b.timing.cyclesPerLine, inHblank := false }
        frames inVblank
  have hmoved : ({ b.recount frames inVblank with lineCycle := b.lineCycle + step } : Beam) =
      ({ b with lineCycle := b.lineCycle + step } : Beam).recount frames inVblank := rfl
  change ∃ frames' inVblank', ({ b.recount frames inVblank with
    lineCycle := b.lineCycle + step } : Beam).fire.2 = _
  rw [hmoved]
  simp only [fire, henter]
  exact hend _

theorem run_recount (b : Beam) (frames : Nat) (inVblank : Bool) (cycles : Nat)
    (emitted emitted' : List Signal) : ∃ frames' inVblank',
      ((b.recount frames inVblank).run cycles emitted').2 =
        (b.run cycles emitted).2.recount frames' inVblank' := by
  fun_induction run b cycles emitted generalizing frames inVblank emitted' with
  | case1 b emitted => exact ⟨_, _, congrArg Prod.snd (run_zero ..)⟩
  | case2 b cycles emitted hc step r ih =>
    obtain ⟨frames', inVblank', hhop⟩ := b.hop_recount frames inVblank step
    have hstep : min cycles (b.recount frames inVblank).cyclesToPulse = step := rfl
    rw [run_pos _ hc, hstep, hhop]
    exact ih ..

/-- The vertical blank does not steer the beam. -/
theorem advance_recount (b : Beam) (frames : Nat) (inVblank : Bool) (cycles : Nat) :
    ∃ frames' inVblank', ((b.recount frames inVblank).advance cycles).2 =
      (b.advance cycles).2.recount frames' inVblank' :=
  b.run_recount frames inVblank cycles [] []

end Beam

end Psx.Gpu
