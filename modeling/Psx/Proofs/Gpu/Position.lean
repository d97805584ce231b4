import Mathlib.Algebra.Ring.Nat
import Psx.Proofs.Gpu.Raster

/-!
# Where the beam is

A beam that starts at power on is where the elapsed cycles say (`Beam.after`), and it has driven
what they say (`Beam.driven`): a beginning and an end of the horizontal blank for each line, with
the edges of the vertical blank behind the ends at which they fall. One hop of the beam keeps both
(`Beam.hop_drawn`). So position and signals are closed forms of the elapsed time, however it was
cut (`elapsed_from_power_on`).
-/

namespace Psx.Gpu

namespace Beam

/-! ### Lines and cycles -/

/-- In how many frames the vertical blank has begun after so many lines. -/
def frameCount (t : VideoTiming) (lines : Nat) : Nat :=
  (lines + t.linesPerFrame - t.vblankStart) / t.linesPerFrame

/-- The beam after so many lines and so many cycles of the next. -/
def drawn (standard : VideoStandard) (lines cycle : Nat) : Beam :=
  let t := standard.timing
  { standard
    line := lines % t.linesPerFrame
    lineCycle := cycle
    frames := frameCount t lines
    inHblank := decide (t.hblankStart ≤ cycle)
    inVblank := decide (t.vblankStart ≤ lines % t.linesPerFrame) }

/-- What is driven besides when a line begins: the vertical blank ends on the first line of a frame
and begins further down. -/
def frameEdge (t : VideoTiming) (line : Nat) : List Signal :=
  if line % t.linesPerFrame = 0 then [.vblankEnd]
  else if line % t.linesPerFrame = t.vblankStart then [.vblankBegin, .raise .vblank]
  else []

/-- What is driven in so many lines. -/
def wholeLines (t : VideoTiming) (lines : Nat) : List Signal :=
  (List.range lines).flatMap fun line => .hblankBegin :: .hblankEnd :: frameEdge t (line + 1)

/-- What is driven in so many lines and so many cycles of the next. -/
def trace (t : VideoTiming) (lines cycle : Nat) : List Signal :=
  wholeLines t lines ++ if t.hblankStart ≤ cycle then [.hblankBegin] else []

variable {standard : VideoStandard} {lines cycle : Nat}

/-- The next line is the first of a frame, the first of the vertical blank, or neither. A frame is
counted at the second. -/
theorem line_cases (standard : VideoStandard) (lines : Nat) :
    let t := standard.timing
    let line := lines % t.linesPerFrame
    let next := (lines + 1) % t.linesPerFrame
    (t.vblankStart ≤ line ∧ line + 1 = t.linesPerFrame ∧ next = 0 ∧
        frameCount t (lines + 1) = frameCount t lines) ∨
      (line < t.vblankStart ∧ line + 1 = t.vblankStart ∧ next = t.vblankStart ∧
        frameCount t (lines + 1) = frameCount t lines + 1) ∨
      (line + 1 < t.linesPerFrame ∧ line + 1 ≠ t.vblankStart ∧ next = line + 1 ∧
        frameCount t (lines + 1) = frameCount t lines) := by
  cases standard <;> dsimp only [VideoStandard.timing, frameCount] <;> omega

theorem vblankStart_pos (standard : VideoStandard) : 0 < standard.timing.vblankStart := by
  cases standard <;> decide

theorem vblankStart_lt (standard : VideoStandard) :
    standard.timing.vblankStart < standard.timing.linesPerFrame := by
  cases standard <;> decide

theorem nextLine_drawn (standard : VideoStandard) (lines cycle : Nat) :
    ({ drawn standard lines cycle with lineCycle := 0, inHblank := false } : Beam).nextLine =
      (frameEdge standard.timing (lines + 1), drawn standard (lines + 1) 0) := by
  have hpos := Nat.ne_of_gt (vblankStart_pos standard)
  have hlt := Nat.not_le.2 (vblankStart_lt standard)
  have hblank : standard.timing.hblankStart ≠ 0 :=
    Nat.ne_of_gt (hblankStart_pos (drawn standard lines cycle))
  simp only [nextLine, drawn, frameEdge, timing]
  obtain ⟨hv, hl, hn, hf⟩ | ⟨hv, hl, hn, hf⟩ | ⟨hl, hv, hn, hf⟩ := line_cases standard lines
  · simp [hv, hl, hn, hf, hpos, hblank]
  · simp [Nat.not_le.2 hv, hl, hn, hf, hlt, hpos, hblank]
  · have hblanks : standard.timing.vblankStart ≤ lines % standard.timing.linesPerFrame ↔
        standard.timing.vblankStart ≤ lines % standard.timing.linesPerFrame + 1 := by omega
    simp [Nat.not_le.2 hl, hv, hn, hf, hblank, ← hblanks]

theorem wholeLines_succ (t : VideoTiming) (lines : Nat) : wholeLines t (lines + 1) =
    wholeLines t lines ++ .hblankBegin :: .hblankEnd :: frameEdge t (lines + 1) := by
  simp [wholeLines, List.range_succ]

theorem trace_succ (t : VideoTiming) (h : t.hblankStart ≤ cycle) (hpos : 0 < t.hblankStart) :
    trace t (lines + 1) 0 = trace t lines cycle ++ .hblankEnd :: frameEdge t (lines + 1) := by
  simp [trace, wholeLines_succ, h, Nat.not_le.2 hpos]

/-- A hop takes the beam on along the line, into the horizontal blank or to the next line, and
drives what has to be driven there. -/
theorem hop_drawn {step : Nat} (hc : cycle < standard.timing.cyclesPerLine)
    (hs : step ≤ (drawn standard lines cycle).cyclesToPulse) :
    ∃ lines' cycle' signals, cycle' < standard.timing.cyclesPerLine ∧
      standard.timing.cyclesPerLine * lines' + cycle' =
        standard.timing.cyclesPerLine * lines + cycle + step ∧
      (drawn standard lines cycle).hop step = (signals, drawn standard lines' cycle') ∧
      trace standard.timing lines' cycle' = trace standard.timing lines cycle ++ signals := by
  have hset : (drawn standard lines cycle).Settled := ⟨hc, rfl⟩
  have hstart : standard.timing.hblankStart < standard.timing.cyclesPerLine :=
    hblankStart_lt { standard }
  have hpulse : (drawn standard lines cycle).cyclesToPulse =
      if cycle < standard.timing.hblankStart then standard.timing.hblankStart - cycle
      else standard.timing.cyclesPerLine - cycle := hset.cyclesToPulse_eq
  rcases Nat.lt_or_eq_of_le hs with hlt | rfl
  · rw [hset.hop_quiet hlt]
    rw [hpulse] at hlt
    have hsame : standard.timing.hblankStart ≤ cycle ↔
        standard.timing.hblankStart ≤ cycle + step := by split_ifs at hlt <;> omega
    refine ⟨lines, cycle + step, [], by split_ifs at hlt <;> omega, by omega, ?_, ?_⟩
    · simp [drawn, hsame]
    · simp [trace, hsame]
  · rw [hpulse]
    split_ifs with hl
    · refine ⟨lines, standard.timing.hblankStart, [.hblankBegin], hstart, by omega, ?_, ?_⟩
      · exact (hset.hop_hblankStart hl).trans (by simp [drawn, timing])
      · simp [trace, hl]
    · have hl := Nat.le_of_not_lt hl
      refine ⟨lines + 1, 0, _, by omega, by rw [Nat.mul_add]; omega,
        (hset.hop_lineEnd hl).trans (by rw [nextLine_drawn]), ?_⟩
      exact trace_succ _ hl (hblankStart_pos { standard })

/-! ### Elapsed cycles -/

/-- The beam so many cycles after power on. -/
def after (standard : VideoStandard) (n : Nat) : Beam :=
  drawn standard (n / standard.timing.cyclesPerLine) (n % standard.timing.cyclesPerLine)

/-- What the beam has driven so many cycles after power on. -/
def driven (standard : VideoStandard) (n : Nat) : List Signal :=
  trace standard.timing (n / standard.timing.cyclesPerLine) (n % standard.timing.cyclesPerLine)

variable (standard : VideoStandard) (n : Nat)

theorem settled_after : (after standard n).Settled :=
  ⟨Nat.mod_lt n (cyclesPerLine_pos { standard }), rfl⟩

theorem hop_after {step : Nat} (hs : step ≤ (after standard n).cyclesToPulse) :
    ∃ signals, (after standard n).hop step = (signals, after standard (n + step)) ∧
      driven standard (n + step) = driven standard n ++ signals := by
  have hpos : 0 < standard.timing.cyclesPerLine := cyclesPerLine_pos { standard }
  obtain ⟨lines, cycle, signals, hc, hn, hhop, htrace⟩ := hop_drawn (Nat.mod_lt n hpos) hs
  rw [Nat.div_add_mod] at hn
  have hdiv : (n + step) / standard.timing.cyclesPerLine = lines := by
    rw [← hn, Nat.mul_add_div hpos, Nat.div_eq_of_lt hc, Nat.add_zero]
  have hmod : (n + step) % standard.timing.cyclesPerLine = cycle := by
    rw [← hn, Nat.mul_add_mod, Nat.mod_eq_of_lt hc]
  refine ⟨signals, ?_, ?_⟩
  · rw [after, after, hdiv, hmod, hhop]
  · rw [driven, driven, hdiv, hmod, htrace]

theorem run_after (cycles : Nat) (emitted : List Signal) :
    ∃ signals, (after standard n).run cycles emitted =
        (signals.reverse ++ emitted, after standard (n + cycles)) ∧
      driven standard (n + cycles) = driven standard n ++ signals := by
  induction cycles using Nat.strongRecOn generalizing n emitted with
  | ind cycles ih =>
    by_cases hne : cycles = 0
    · subst hne
      exact ⟨[], by rw [run_zero]; rfl, (List.append_nil _).symm⟩
    · -- a settled beam is never at its next pulse, so the hop takes some of the cycles
      have hpos := (settled_after standard n).cyclesToPulse_pos
      have hle := Nat.min_le_right cycles (after standard n).cyclesToPulse
      obtain ⟨first, hhop, hfirst⟩ := hop_after standard n hle
      rw [run_pos _ hne, hhop]
      generalize hstep : min cycles (after standard n).cyclesToPulse = step at *
      obtain ⟨rest, hrun, hrest⟩ :=
        ih (cycles - step) (by omega) (n + step) (first.reverse ++ emitted)
      have e : n + step + (cycles - step) = n + cycles := by omega
      rw [e] at hrun hrest
      refine ⟨first ++ rest, ?_, ?_⟩
      · rw [hrun]; simp
      · rw [hrest, hfirst, List.append_assoc]

theorem advance_after (cycles : Nat) :
    ∃ signals, (after standard n).advance cycles = (signals, after standard (n + cycles)) ∧
      driven standard (n + cycles) = driven standard n ++ signals := by
  obtain ⟨signals, hrun, hdriven⟩ := run_after standard n cycles []
  exact ⟨signals, by simp [Beam.advance, hrun], hdriven⟩

/-! ### What has been driven -/

theorem hblanks :
    (n + standard.timing.cyclesPerLine - standard.timing.hblankStart) /
        standard.timing.cyclesPerLine =
      n / standard.timing.cyclesPerLine +
        if standard.timing.hblankStart ≤ n % standard.timing.cyclesPerLine then 1 else 0 := by
  split_ifs with h <;> revert h <;> cases standard <;> dsimp only [VideoStandard.timing] <;> omega

/-- So many edges of the horizontal blank, beginning and end by turns. -/
def alternation (k : Nat) : List Signal :=
  (List.range k).map fun j => if j % 2 = 0 then .hblankBegin else .hblankEnd

def isHblankEdge : Signal → Bool
  | .hblankBegin | .hblankEnd => true
  | _ => false

theorem alternation_succ (k : Nat) :
    alternation (k + 1) = alternation k ++ [if k % 2 = 0 then .hblankBegin else .hblankEnd] := by
  simp [alternation, List.range_succ]

theorem count_alternation (k : Nat) :
    (alternation k).count .hblankBegin = (k + 1) / 2 ∧
      (alternation k).count .hblankEnd = k / 2 := by
  induction k with
  | zero => exact ⟨rfl, rfl⟩
  | succ k ih =>
    obtain ⟨hbegin, hend⟩ := ih
    rw [alternation_succ, List.count_append, List.count_append, hbegin, hend]
    rcases Nat.mod_two_eq_zero_or_one k with h | h
    all_goals
      simp [h]
      omega

theorem filter_frameEdge (t : VideoTiming) (line : Nat) :
    (frameEdge t line).filter isHblankEdge = [] := by
  unfold frameEdge
  split_ifs <;> rfl

theorem filter_wholeLines (t : VideoTiming) (lines : Nat) :
    (wholeLines t lines).filter isHblankEdge = alternation (2 * lines) := by
  induction lines with
  | zero => rfl
  | succ lines ih =>
    have e : 2 * (lines + 1) = 2 * lines + 1 + 1 := rfl
    rw [wholeLines_succ, List.filter_append, ih, e, alternation_succ, alternation_succ]
    simp [List.filter_cons, isHblankEdge, filter_frameEdge, Nat.add_mod]

theorem filter_trace (t : VideoTiming) (lines cycle : Nat) :
    (trace t lines cycle).filter isHblankEdge =
      alternation (2 * lines + if t.hblankStart ≤ cycle then 1 else 0) := by
  rw [trace, List.filter_append, filter_wholeLines]
  split_ifs
  · rw [alternation_succ]
    simp [isHblankEdge]
  · exact List.append_nil _

theorem count_frameEdge (lines : Nat) :
    frameCount standard.timing lines +
        (frameEdge standard.timing (lines + 1)).count (.raise .vblank) =
      frameCount standard.timing (lines + 1) := by
  have hpos := Nat.ne_of_gt (vblankStart_pos standard)
  unfold frameEdge
  obtain ⟨-, -, hn, hf⟩ | ⟨-, -, hn, hf⟩ | ⟨-, hv, hn, hf⟩ := line_cases standard lines
  · simp [hn, hf]
  · simp [hn, hf, hpos]
  · simp [hn, hf, hv]

theorem count_trace (lines cycle : Nat) :
    (trace standard.timing lines cycle).count (.raise .vblank) =
      frameCount standard.timing lines := by
  have hblank : (if standard.timing.hblankStart ≤ cycle then [.hblankBegin] else []).count
      (Signal.raise .vblank) = 0 := by
    split_ifs <;> rfl
  rw [trace, List.count_append, hblank, Nat.add_zero]
  induction lines with
  | zero => cases standard <;> rfl
  | succ lines ih =>
    rw [wholeLines_succ, List.count_append, ih, ← count_frameEdge]
    simp

end Beam

/-! ### From power on -/

/-- Lets the parts of some time pass one after the other. -/
def advanceAll (g : Gpu) : List Nat → List Signal × Gpu
  | [] => ([], g)
  | n :: parts =>
    let (signals, g) := g.advance n
    let (more, g) := advanceAll g parts
    (signals ++ more, g)

/-- What the elapsed cycles say of the beam and of what it has driven. -/
structure Elapsed (t : VideoTiming) (n : Nat) (r : List Signal × Gpu) : Prop where
  lineCycle : r.2.beam.lineCycle = n % t.cyclesPerLine
  line : r.2.beam.line = n / t.cyclesPerLine % t.linesPerFrame
  inHblank : r.2.beam.inHblank = true ↔ t.hblankStart ≤ n % t.cyclesPerLine
  inVblank : r.2.beam.inVblank = true ↔ t.vblankStart ≤ r.2.beam.line
  frames : r.2.beam.frames =
    (n / t.cyclesPerLine + t.linesPerFrame - t.vblankStart) / t.linesPerFrame
  raises : r.1.count (.raise .vblank) = r.2.beam.frames
  begins : r.1.count .hblankBegin = (n + t.cyclesPerLine - t.hblankStart) / t.cyclesPerLine
  ends : r.1.count .hblankEnd = n / t.cyclesPerLine
  turns : r.1.filter Beam.isHblankEdge =
    Beam.alternation (r.1.count .hblankBegin + r.1.count .hblankEnd)

theorem advanceAll_after {g : Gpu} {standard : VideoStandard} {n : Nat}
    (h : g.beam = .after standard n) (parts : List Nat) :
    ∃ signals, g.advanceAll parts = (signals, { g with beam := .after standard (n + parts.sum) }) ∧
      Beam.driven standard (n + parts.sum) = Beam.driven standard n ++ signals := by
  induction parts generalizing g n with
  | nil => exact ⟨[], by rw [advanceAll, List.sum_nil, Nat.add_zero, ← h], by simp⟩
  | cons cycles parts ih =>
    obtain ⟨first, hadvance, hfirst⟩ := Beam.advance_after standard n cycles
    have hbeam : ({ g with beam := .after standard (n + cycles) } : Gpu).beam =
        .after standard (n + cycles) := rfl
    obtain ⟨rest, hall, hrest⟩ := ih hbeam
    refine ⟨first ++ rest, ?_, ?_⟩
    · rw [advanceAll, advance, h, hadvance]
      dsimp only
      rw [hall, List.sum_cons, Nat.add_assoc]
    · rw [List.sum_cons, ← Nat.add_assoc, hrest, hfirst, List.append_assoc]

theorem elapsed_after (standard : VideoStandard) (n : Nat) {r : List Signal × Gpu}
    (hsignals : r.1 = Beam.driven standard n) (hbeam : r.2.beam = .after standard n) :
    Elapsed standard.timing n r := by
  have hfilter := Beam.filter_trace standard.timing (n / standard.timing.cyclesPerLine)
    (n % standard.timing.cyclesPerLine)
  have hraises := Beam.count_trace standard (n / standard.timing.cyclesPerLine)
    (n % standard.timing.cyclesPerLine)
  rw [← Beam.driven, ← hsignals] at hfilter hraises
  have hblanks := Beam.hblanks standard n
  -- whether the blank of the line that is being drawn has begun
  generalize hbegun : (if standard.timing.hblankStart ≤ n % standard.timing.cyclesPerLine
    then 1 else 0) = begun at hfilter hblanks
  have hle : begun ≤ 1 := by split_ifs at hbegun <;> omega
  obtain ⟨hbegins, hends⟩ :=
    Beam.count_alternation (2 * (n / standard.timing.cyclesPerLine) + begun)
  rw [← hfilter, List.count_filter rfl] at hbegins hends
  constructor
  · rw [hbeam]; rfl
  · rw [hbeam]; rfl
  · rw [hbeam]; exact decide_eq_true_iff
  · rw [hbeam]; exact decide_eq_true_iff
  · rw [hbeam]; rfl
  · rw [hraises, hbeam]; rfl
  · rw [hbegins, hblanks]; omega
  · rw [hends]; omega
  · rw [hfilter, hbegins, hends]
    congr 1
    omega

theorem advance_initial (capacity : Nat) (standard : VideoStandard) (n : Nat) :
    (initial capacity standard).advance n =
      (Beam.driven standard n, { initial capacity standard with beam := .after standard n }) := by
  have hbeam : (initial capacity standard).beam = .after standard 0 := by
    cases standard <;> rfl
  have hnone : Beam.driven standard 0 = [] := by cases standard <;> rfl
  obtain ⟨signals, hadvance, hdriven⟩ := Beam.advance_after standard 0 n
  rw [Nat.zero_add] at hadvance hdriven
  rw [advance, hbeam, hadvance, hdriven, hnone]
  rfl

/-- From power on or reset the beam is where the elapsed cycles say, and has driven what they say,
however they were cut. -/
theorem elapsed_from_power_on :
    (∀ capacity standard parts,
      Elapsed standard.timing parts.sum ((initial capacity standard).advanceAll parts)) ∧
    ∀ (g : Gpu) parts,
      Elapsed g.powerOnStandard.timing parts.sum (g.reset.2.advanceAll parts) := by
  have hinitial : ∀ capacity standard parts,
      Elapsed standard.timing parts.sum ((initial capacity standard).advanceAll parts) := by
    intro capacity standard parts
    have hbeam : (initial capacity standard).beam = .after standard 0 := by
      cases standard <;> rfl
    obtain ⟨signals, hall, hdriven⟩ := advanceAll_after hbeam parts
    have hnone : Beam.driven standard 0 = [] := by cases standard <;> rfl
    rw [Nat.zero_add] at hall hdriven
    rw [hall]
    exact elapsed_after standard _ (by rw [hdriven, hnone, List.nil_append]) rfl
  exact ⟨hinitial, fun g => hinitial g.queue.capacity g.powerOnStandard⟩

end Psx.Gpu
