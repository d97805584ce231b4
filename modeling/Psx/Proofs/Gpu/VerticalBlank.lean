import Psx.Proofs.Gpu.Frames

/-!
# The vertical blank

Every frame has one vertical blank, unless a change of standard carries the beam past it
(`vblank_once_iff`): the standards begin it on different lines, and it begins where the line that
the beam comes to is that of the standard. `changing_frame` shows a frame with a change of standard
moment by moment. A change above these lines or below them does no harm (`vblank_once_early`), but
one between them can leave the frame without a vertical blank (`vblank_missed`).
-/

namespace Psx.Gpu

open VideoStandard (ntsc pal)

/-! ### A change of standard in a frame -/

namespace Beam

/-- The beam is where so many cycles from power on lead, whatever it knows of the vertical blank and
however many frames it has counted. -/
def StandsAt (b : Beam) (standard : VideoStandard) (n : Nat) : Prop :=
  ∃ frames inVblank, b = (after standard n).recount frames inVblank

variable {b : Beam} {standard : VideoStandard} {n : Nat}

theorem StandsAt.standard_eq (h : b.StandsAt standard n) : b.standard = standard := by
  obtain ⟨frames, inVblank, rfl⟩ := h
  rfl

theorem StandsAt.line_eq (h : b.StandsAt standard n) :
    b.line = n / standard.timing.cyclesPerLine % standard.timing.linesPerFrame := by
  obtain ⟨frames, inVblank, rfl⟩ := h
  rfl

theorem StandsAt.inFrame (h : b.StandsAt standard n) : b.InFrame := by
  obtain ⟨frames, inVblank, rfl⟩ := h
  refine ⟨Nat.mod_lt _ ?_, Nat.mod_lt _ ?_⟩
  · exact cyclesPerLine_pos { standard }
  · exact linesPerFrame_pos { standard }

theorem StandsAt.advance (h : b.StandsAt standard n) (k : Nat) :
    (b.advance k).2.StandsAt standard (n + k) := by
  obtain ⟨frames, inVblank, rfl⟩ := h
  obtain ⟨frames', inVblank', hrecount⟩ := (after standard n).advance_recount frames inVblank k
  obtain ⟨signals, hafter, -⟩ := advance_after standard n k
  rw [hafter] at hrecount
  exact ⟨frames', inVblank', hrecount⟩

/-- A change at the beginning of a line leaves the beam there. -/
theorem StandsAt.setStandard {line : Nat} (hline : line < 263)
    (h : b.StandsAt pal (2157 * (314 + line))) :
    (b.setStandard ntsc).StandsAt ntsc (2146 * line) := by
  obtain ⟨frames, inVblank, rfl⟩ := h
  have hpal : 2157 * (314 + line) / 2157 = 314 + line := Nat.mul_div_cancel_left _ (by decide)
  have hntsc : 2146 * line / 2146 = line := Nat.mul_div_cancel_left _ (by decide)
  have hat : (314 + line) % 314 = line := by omega
  have hmin : min line 262 = line := by omega
  refine ⟨frames, inVblank, ?_⟩
  simp only [after, drawn, VideoStandard.timing, hpal, Nat.mul_mod_right, hntsc, hat,
    Nat.mod_eq_of_lt hline, Beam.setStandard, recount]
  rw [if_neg (by decide)]
  simp only [hmin, Nat.zero_min]
  rfl

end Beam

/-- Where a wait leads moment by moment. -/
theorem stands_of_ticks {g : Gpu} {standard : VideoStandard} {n : Nat}
    (h : g.beam.StandsAt standard n) {cycles : Nat} {m : Moment}
    (hm : m ∈ g.moments (List.replicate cycles (.advance 1))) :
    ∃ k < cycles, m.before.StandsAt standard (n + k) ∧ m.after.StandsAt standard (n + (k + 1)) := by
  obtain ⟨k, hk, hbefore, hafter⟩ := mem_moments_ticks h.inFrame hm
  rw [hbefore, hafter]
  exact ⟨k, hk, h.advance k, h.advance (k + 1)⟩

theorem Beam.StandsAt.ticks {g : Gpu} {standard : VideoStandard} {n : Nat}
    (h : g.beam.StandsAt standard n) (cycles : Nat) :
    (g.operateAll (List.replicate cycles (.advance 1))).2.beam.StandsAt standard (n + cycles) := by
  rw [operateAll_ticks h.inFrame]
  exact h.advance cycles

theorem mod_le_mod_of_div_eq {a b m : Nat} (hle : a ≤ b) (h : a / m = b / m) : a % m ≤ b % m := by
  have ha := Nat.div_add_mod a m
  have hb := Nat.div_add_mod b m
  rw [h] at ha
  omega

/-- A wait that stays in a frame goes down it line by line. -/
theorem descends_of_ticks {g : Gpu} {standard : VideoStandard} {n : Nat}
    (h : g.beam.StandsAt standard n) (cycles first last : Nat)
    (hfirst : n / standard.timing.cyclesPerLine % standard.timing.linesPerFrame = first)
    (hlast : (n + cycles) / standard.timing.cyclesPerLine % standard.timing.linesPerFrame = last)
    (hframe : n / standard.timing.cyclesPerLine / standard.timing.linesPerFrame =
      (n + cycles) / standard.timing.cyclesPerLine / standard.timing.linesPerFrame) :
    ∀ m ∈ g.moments (List.replicate cycles (.advance 1)),
      ¬m.Wraps ∧ m.after.standard = standard ∧ first ≤ m.after.line ∧ m.after.line ≤ last := by
  intro m hm
  obtain ⟨k, hk, hbefore, hafter⟩ := stands_of_ticks h hm
  have hat := hbefore.line_eq
  have hat' := hafter.line_eq
  generalize standard.timing.cyclesPerLine = cpl at *
  generalize standard.timing.linesPerFrame = lpf at *
  -- the lines drawn so far lie in one frame, so that the line count cannot go back
  have hle₁ : n / cpl ≤ (n + k) / cpl := Nat.div_le_div_right (by omega)
  have hle₂ : (n + k) / cpl ≤ (n + (k + 1)) / cpl := Nat.div_le_div_right (by omega)
  have hle₃ : (n + (k + 1)) / cpl ≤ (n + cycles) / cpl := Nat.div_le_div_right (by omega)
  have hdiv₁ := Nat.div_le_div_right (c := lpf) hle₁
  have hdiv₂ := Nat.div_le_div_right (c := lpf) hle₂
  have hdiv₃ := Nat.div_le_div_right (c := lpf) hle₃
  have hmod₁ := mod_le_mod_of_div_eq (m := lpf) hle₁ (by omega)
  have hmod₂ := mod_le_mod_of_div_eq (m := lpf) hle₂ (by omega)
  have hmod₃ := mod_le_mod_of_div_eq (m := lpf) hle₃ (by omega)
  rw [hfirst, ← hat] at hmod₁
  rw [← hat, ← hat'] at hmod₂
  rw [hlast, ← hat'] at hmod₃
  refine ⟨?_, hafter.standard_eq, hmod₁.trans hmod₂, hmod₃⟩
  rintro ⟨hne, hzero⟩
  omega

/-- A wait, a change to the standard with fewer lines, and another wait. -/
def changing (first second : Nat) : List Operation :=
  [.advance first, .writeGp1 0x08000000, .advance second]

theorem moments_changing (g : Gpu) (a b c : Nat) :
    let ticks := fun n => List.replicate n (Operation.advance 1)
    let g₁ := (g.operateAll (ticks a)).2
    let g₂ := (g₁.operate (.advance 1)).2
    let g₃ := (g₂.operateAll (ticks b)).2
    let g₄ := (g₃.operate (.writeGp1 0x08000000)).2
    let g₅ := (g₄.operateAll (ticks c)).2
    g.moments ((changing (a + 1 + b) (c + 1)).flatMap Operation.atoms) =
      g.moments (ticks a) ++ ⟨g₁.beam, (g₁.operate (.advance 1)).1, g₂.beam⟩ ::
        ((g₂.moments (ticks b) ++
            ⟨g₃.beam, (g₃.operate (.writeGp1 0x08000000)).1, g₄.beam⟩ :: g₄.moments (ticks c)) ++
          [⟨g₅.beam, (g₅.operate (.advance 1)).1, (g₅.operate (.advance 1)).2.beam⟩]) := by
  intro ticks g₁ g₂ g₃ g₄ g₅
  have hatoms : (changing (a + 1 + b) (c + 1)).flatMap Operation.atoms =
      ticks a ++ .advance 1 :: (ticks b ++ .writeGp1 0x08000000 :: (ticks c ++ [.advance 1])) := by
    have hsum : a + 1 + b = a + (1 + b) := Nat.add_assoc ..
    simp only [changing, Operation.atoms, List.flatMap_cons, List.flatMap_nil, List.append_nil,
      List.singleton_append, hsum, ← List.replicate_append_replicate, List.append_assoc, ticks]
    rfl
  rw [hatoms, moments_append, moments, moments_append, moments, moments_append]
  simp only [List.append_assoc, List.cons_append]
  rfl

/-- The frame in which the standard changes at the beginning of a line. -/
theorem changing_frame {line : Nat} (hline : line < 263) : ∃ earlier first frame last,
    (initial 16 pal).moments
        ((changing (2157 * (314 + line)) (2146 * (263 - line))).flatMap Operation.atoms) =
      earlier ++ first :: (frame ++ [last]) ∧
    first.Wraps ∧ last.Wraps ∧ (∀ m ∈ frame, ¬m.Wraps) ∧
    (∀ m ∈ frame, m.after.standard = pal ∧ m.after.line ≤ line ∨
      m.after.standard = ntsc ∧ line ≤ m.after.line) ∧
    ∃ m ∈ frame, m.before.standard = pal ∧ m.after.standard = ntsc ∧ m.before.line = line := by
  obtain ⟨a, ha⟩ : ∃ a, a + 1 = 2157 * 314 := ⟨2157 * 314 - 1, by decide⟩
  obtain ⟨c, hc⟩ : ∃ c, c + 1 = 2146 * (263 - line) := ⟨2146 * (263 - line) - 1, by omega⟩
  have hwait : 2157 * (314 + line) = a + 1 + 2157 * line := by omega
  have hmoments := (initial 16 pal).moments_changing a (2157 * line) c
  extract_lets ticks g₁ g₂ g₃ g₄ g₅ at hmoments
  -- where the beam is at each step
  have h₁ : g₁.beam.StandsAt pal a := by
    unfold g₁
    rw [operateAll_ticks (Beam.inFrame_initial pal), advance_initial]
    exact ⟨_, _, rfl⟩
  have h₂ : g₂.beam.StandsAt pal (a + 1) := h₁.advance 1
  have h₃ : g₃.beam.StandsAt pal (2157 * (314 + line)) := by
    rw [hwait]
    exact h₂.ticks _
  have h₄ : g₄.beam.StandsAt ntsc (2146 * line) := h₃.setStandard hline
  have h₅ : g₅.beam.StandsAt ntsc (2146 * line + c) := h₄.ticks c
  have h₆ : (g₅.operate (.advance 1)).2.beam.StandsAt ntsc (2146 * line + c + 1) := h₅.advance 1
  have hat₁ := h₁.line_eq
  have hat₂ := h₂.line_eq
  have hat₃ := h₃.line_eq
  have hat₄ := h₄.line_eq
  have hat₅ := h₅.line_eq
  have hat₆ := h₆.line_eq
  simp only [VideoStandard.timing] at hat₁ hat₂ hat₃ hat₄ hat₅ hat₆
  have hline₃ : g₃.beam.line = line := by omega
  have hline₄ : g₄.beam.line = line := by omega
  have hupper := descends_of_ticks h₂ (2157 * line) 0 line
  have hlower := descends_of_ticks h₄ c line 262
  simp only [VideoStandard.timing] at hupper hlower
  specialize hupper (by omega) (by omega) (by omega)
  specialize hlower (by omega) (by omega) (by omega)
  rw [hwait, ← hc]
  refine ⟨_, _, _, _, hmoments, ⟨?_, ?_⟩, ⟨?_, ?_⟩, ?_, ?_, ?_⟩
  · change g₁.beam.line ≠ 0
    omega
  · change g₂.beam.line = 0
    omega
  · change g₅.beam.line ≠ 0
    omega
  · change (g₅.operate (.advance 1)).2.beam.line = 0
    omega
  · rw [List.forall_mem_append, List.forall_mem_cons]
    refine ⟨fun m hm => (hupper m hm).1, ?_, fun m hm => (hlower m hm).1⟩
    rintro ⟨hne, hzero⟩
    exact hne (hline₃.trans (hline₄.symm.trans hzero))
  · rw [List.forall_mem_append, List.forall_mem_cons]
    refine ⟨fun m hm => .inl ?_, .inr ⟨h₄.standard_eq, hline₄.ge⟩, fun m hm => .inr ?_⟩
    · obtain ⟨-, hstandard, -, hle⟩ := hupper m hm
      exact ⟨hstandard, hle⟩
    · obtain ⟨-, hstandard, hge, -⟩ := hlower m hm
      exact ⟨hstandard, hge⟩
  · exact ⟨⟨g₃.beam, _, g₄.beam⟩, List.mem_append_right _ List.mem_cons_self, h₃.standard_eq,
      h₄.standard_eq, hline₃⟩

theorem begins_of_begun? {ms : List Moment} {line : Nat} {standard : VideoStandard}
    (h : begun? ms line = some standard) :
    ∃ m ∈ ms, m.after.line = line ∧ m.after.standard = standard := by
  obtain ⟨m, hm, hbegins⟩ := List.exists_of_findSome?_eq_some h
  unfold Moment.begins? at hbegins
  split_ifs at hbegins with hat
  exact ⟨m, hm, hat.2, Option.some.inj hbegins⟩

/-! ### The vertical blanks of a run -/

/-- The vertical blank begins and ends by turns. The beam knows at every moment whether it is in the
vertical blank just if no change of standard falls between the lines where that begins in the one
and in the other. From one wrap to the next the vertical blank begins once, asks for attention once
and counts one frame, unless the upper of these lines was begun in the standard of the lower one and
the lower one in the standard of the upper one; then it does not begin at all. -/
theorem vblank_once_iff (capacity : Nat) (standard : VideoStandard) (ops : List Operation) :
    let g := initial capacity standard
    let atoms := ops.flatMap Operation.atoms
    g.operateAll atoms = g.operateAll ops ∧
      (.vblankEnd :: (g.operateAll ops).1.filter isVblankEdge).IsChain (· ≠ ·) ∧
      ((∀ m ∈ g.moments atoms, m.after.KnowsVblank) ↔ ∀ m ∈ g.moments atoms, ¬m.Disturbs) ∧
      ∀ earlier first frame last later,
        g.moments atoms = earlier ++ first :: (frame ++ last :: later) →
        first.Wraps → last.Wraps → (∀ m ∈ frame, ¬m.Wraps) →
        last.after.frames = first.after.frames + raised (frame ++ [last]) ∧
          ((frame ++ [last]).flatMap Moment.signals).count .vblankBegin = raised (frame ++ [last]) ∧
          ∃ upper lower, begun? frame ntsc.timing.vblankStart = some upper ∧
            begun? frame pal.timing.vblankStart = some lower ∧
            raised (frame ++ [last]) = if upper = pal ∧ lower = ntsc then 0 else 1 := by
  intro g atoms
  have hf : g.beam.InFrame := Beam.inFrame_initial standard
  have hcourse := course_atoms hf ops
  have hsame : g.operateAll atoms = g.operateAll ops := operateAll_atoms hf ops
  refine ⟨hsame, ?_, hcourse.knowsVblank_iff (knowsVblank_initial capacity standard), ?_⟩
  · have hturns := hcourse.turns
    rw [signals_moments, hsame] at hturns
    exact hturns
  · intro earlier first frame last later hsplit hfirst hlast hstay
    exact raised_between_wraps hf hsplit hfirst hlast hstay

/-- The change comes on a line above those where the vertical blank begins. -/
theorem vblank_once_early : ∃ earlier first frame last,
    (initial 16 pal).moments ((changing (2157 * 414) (2146 * 163)).flatMap Operation.atoms) =
      earlier ++ first :: (frame ++ [last]) ∧
    first.Wraps ∧ last.Wraps ∧ (∀ m ∈ frame, ¬m.Wraps) ∧ raised (frame ++ [last]) = 1 := by
  obtain ⟨earlier, first, frame, last, hsplit, hfirst, hlast, hstay, hlines, -⟩ :=
    changing_frame (show 100 < 263 by decide)
  obtain ⟨-, -, upper, lower, hupper, hlower, hraised⟩ :=
    (vblank_once_iff 16 pal (changing (2157 * 414) (2146 * 163))).2.2.2 earlier first frame last []
      hsplit hfirst hlast hstay
  refine ⟨earlier, first, frame, last, hsplit, hfirst, hlast, hstay, ?_⟩
  obtain ⟨m, hm, hline, hstandard⟩ := begins_of_begun? hupper
  rw [hraised, if_neg]
  rintro ⟨rfl, -⟩
  rcases hlines m hm with ⟨-, hle⟩ | ⟨hntsc, -⟩
  · rw [hline] at hle
    exact absurd hle (by decide)
  · rw [hstandard] at hntsc
    cases hntsc

/-- The change comes between the lines where the vertical blank begins in the one standard and in
the other: the frame has no vertical blank. -/
theorem vblank_missed : ∃ earlier first frame last,
    (initial 16 pal).moments ((changing (2157 * 560) (2146 * 17)).flatMap Operation.atoms) =
      earlier ++ first :: (frame ++ [last]) ∧
    first.Wraps ∧ last.Wraps ∧ (∀ m ∈ frame, ¬m.Wraps) ∧
    raised (frame ++ [last]) = 0 ∧ last.after.frames = first.after.frames ∧
    ¬∀ m ∈ earlier ++ first :: (frame ++ [last]), m.after.KnowsVblank := by
  obtain ⟨earlier, first, frame, last, hsplit, hfirst, hlast, hstay, hlines, hchange⟩ :=
    changing_frame (show 246 < 263 by decide)
  have hf : (initial 16 pal).beam.InFrame := Beam.inFrame_initial pal
  obtain ⟨hframes, -, upper, lower, hupper, hlower, hraised⟩ :=
    raised_between_wraps hf hsplit hfirst hlast hstay
  have hpal : upper = pal := by
    obtain ⟨m, hm, hline, rfl⟩ := begins_of_begun? hupper
    rcases hlines m hm with ⟨hstandard, -⟩ | ⟨-, hle⟩
    · exact hstandard
    · rw [hline] at hle
      exact absurd hle (by decide)
  have hntsc : lower = ntsc := by
    obtain ⟨m, hm, hline, rfl⟩ := begins_of_begun? hlower
    rcases hlines m hm with ⟨-, hle⟩ | ⟨hstandard, -⟩
    · rw [hline] at hle
      exact absurd hle (by decide)
    · exact hstandard
  rw [if_pos ⟨hpal, hntsc⟩] at hraised
  rw [hraised] at hframes
  refine ⟨earlier, first, frame, last, hsplit, hfirst, hlast, hstay, hraised, hframes, ?_⟩
  intro hknows
  obtain ⟨m, hm, hbefore, hafter, hline⟩ := hchange
  have hcourse := course_atoms hf (changing (2157 * 560) (2146 * 17))
  rw [hsplit] at hcourse
  have hmem : m ∈ earlier ++ first :: (frame ++ [last]) :=
    List.mem_append_right _ (List.mem_cons_of_mem _ (List.mem_append_left _ hm))
  refine (hcourse.knowsVblank_iff (knowsVblank_initial 16 pal)).1 hknows m hmem ⟨?_, ?_, ?_⟩
  · rw [hbefore, hafter]
    decide
  · rw [hline]
    decide
  · rw [hline]
    decide

end Psx.Gpu
