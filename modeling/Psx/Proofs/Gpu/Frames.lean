import Psx.Proofs.Gpu.Moments
import Psx.Proofs.Gpu.Position

/-!
# Frames

The beam goes from the last line of a frame to the first (`Moment.Wraps`) and in between enters the
vertical blank where that begins in the standard of the moment, which is on another line in each.
`Beam.Row.Drawn` is what has happened in the frame so far: in which standards these two lines were
begun, and whether attention was asked for. Each moment keeps it (`Move.drawn`), so that it tells at
the end of the frame whether the vertical blank has begun (`raised_between_wraps`). A row that is in
the vertical blank exactly from the line of its standard on stays so, unless a change of standard
falls between the two lines (`Move.aligned_iff`).
-/

namespace Psx.Gpu

open VideoStandard (ntsc pal)

/-! ### What a moment does -/

/-- The beam knows whether it is in the vertical blank. -/
def Beam.KnowsVblank (b : Beam) : Prop := b.inVblank = true ↔ b.timing.vblankStart ≤ b.line

/-- The signal begins or ends the vertical blank. -/
def isVblankEdge : Signal → Bool
  | .vblankBegin | .vblankEnd => true
  | _ => false

namespace Moment

/-- The beam goes from the last line of a frame to the first. -/
def Wraps (m : Moment) : Prop := m.before.line ≠ 0 ∧ m.after.line = 0

/-- The standard changes between the lines where the vertical blank begins in the one and in the
other. -/
def Disturbs (m : Moment) : Prop :=
  m.before.standard ≠ m.after.standard ∧
    ntsc.timing.vblankStart ≤ m.before.line ∧ m.before.line < pal.timing.vblankStart

/-- The standard in which the beam begins the line, if it does. -/
def begins? (m : Moment) (line : Nat) : Option VideoStandard :=
  if m.before.line ≠ line ∧ m.after.line = line then some m.after.standard else none

end Moment

/-- The standard in which the beam first begins the line. -/
def begun? (ms : List Moment) (line : Nat) : Option VideoStandard := ms.findSome? (·.begins? line)

/-- How often attention is asked for on entering the vertical blank. -/
def raised (ms : List Moment) : Nat := (ms.flatMap Moment.signals).count (.raise .vblank)

namespace Beam.Row

variable {r r' : Row} {vertical : List Signal}

/-- Each beginning of the vertical blank counts a frame and asks for attention. -/
theorem Move.frames (h : r.Move vertical r') :
    r'.frames = r.frames + vertical.count (.raise .vblank) ∧
      vertical.count .vblankBegin = vertical.count (.raise .vblank) := by
  cases h with
  | blanks => exact ⟨rfl, rfl⟩
  | wraps => cases r.inVblank <;> exact ⟨rfl, rfl⟩
  | _ => exact ⟨rfl, rfl⟩

/-- The edge of the vertical blank that comes before what is driven now. -/
def lastEdge (r : Row) : Signal := if r.inVblank then .vblankBegin else .vblankEnd

/-- What is driven of the vertical blank is an edge that differs from the last, or nothing. -/
theorem Move.edge (h : r.Move vertical r') :
    (vertical.filter isVblankEdge = [] ∧ r'.lastEdge = r.lastEdge) ∨
      (vertical.filter isVblankEdge = [r'.lastEdge] ∧ r'.lastEdge ≠ r.lastEdge) := by
  cases h with
  | stays => exact .inl ⟨rfl, rfl⟩
  | switches => exact .inl ⟨rfl, rfl⟩
  | wraps =>
    cases hv : r.inVblank with
    | true => exact .inr ⟨by simp [isVblankEdge, lastEdge], by simp [lastEdge, hv]⟩
    | false => exact .inl ⟨by simp, by simp [lastEdge, hv]⟩
  | blanks hline hout =>
    exact .inr ⟨rfl, by simp [lastEdge, hout]⟩
  | descends => exact .inl ⟨rfl, rfl⟩

/-- The row is in the vertical blank from the line on where that begins in its standard. -/
def Aligned (r : Row) : Prop := r.inVblank = true ↔ r.timing.vblankStart ≤ r.line

/-- An aligned row stays aligned, unless the standard changes between the lines where the vertical
blank begins in the one and in the other. -/
theorem Move.aligned_iff (h : r.Move vertical r') (ha : r.Aligned) :
    r'.Aligned ↔ ¬(r.standard ≠ r'.standard ∧
      ntsc.timing.vblankStart ≤ r.line ∧ r.line < pal.timing.vblankStart) := by
  have hpos : 0 < r.timing.vblankStart := Beam.vblankStart_pos r.standard
  unfold Aligned at *
  cases h with
  | stays => simp [ha]
  | switches standard hne =>
    rcases r with ⟨old, line, frames, inVblank⟩
    cases old <;> cases standard <;>
      simp only [timing, VideoStandard.timing, ne_eq, reduceCtorEq, not_true_eq_false] at ha hne ⊢
    all_goals
      simp only [ha, not_false_eq_true, true_and]
      omega
  | wraps =>
    simp only [ne_eq, not_true_eq_false, false_and, not_false_eq_true, iff_true]
    exact iff_of_false Bool.false_ne_true (Nat.not_le.2 hpos)
  | blanks hline hout =>
    simp only [timing, ne_eq, not_true_eq_false, false_and, not_false_eq_true, iff_true, true_iff]
    exact Nat.le_of_eq hline.symm
  | descends hline hin =>
    simp only [timing, ne_eq, not_true_eq_false, false_and, not_false_eq_true, iff_true]
    rw [ha]
    constructor
    · exact Nat.le_succ_of_le
    · intro hle
      rcases Nat.lt_or_eq_of_le hle with hlt | heq
      · exact Nat.le_of_lt_succ hlt
      · exact ha.1 (hin heq.symm)

/-! ### Within a frame -/

/-- What has happened in the frame so far: in which standards the lines were begun on which the
vertical blank begins in the one and in the other, and how often attention was asked for. -/
structure Drawn (upper lower : Option VideoStandard) (raised : Nat) (r : Row) : Prop where
  upper_iff : upper.isSome = true ↔ ntsc.timing.vblankStart ≤ r.line
  lower_iff : lower.isSome = true ↔ pal.timing.vblankStart ≤ r.line
  blank_iff : r.inVblank = true ↔ upper = some ntsc ∨ lower = some pal
  raised_eq : raised = if r.inVblank then 1 else 0

/-- The standard in which the line is begun, if it is. -/
def begins? (r r' : Row) (line : Nat) : Option VideoStandard :=
  if r.line ≠ line ∧ r'.line = line then some r'.standard else none

variable {upper lower : Option VideoStandard} {n : Nat}

theorem drawn_first (h : r.line = 0) (hout : r.inVblank = false) : r.Drawn none none 0 := by
  constructor
  · simp [h, VideoStandard.timing]
  · simp [h, VideoStandard.timing]
  · simp [hout]
  · simp [hout]

/-- A move along the line, or among the lines below. -/
theorem Drawn.keep (hd : r.Drawn upper lower n) (hblank : r'.inVblank = r.inVblank)
    (hline : r'.line = r.line ∨
      pal.timing.vblankStart < r.line ∧ pal.timing.vblankStart < r'.line) :
    r'.Drawn (upper.or (r.begins? r' ntsc.timing.vblankStart))
      (lower.or (r.begins? r' pal.timing.vblankStart)) n := by
  have hnone : ∀ line ≤ pal.timing.vblankStart, r.begins? r' line = none := by
    intro line hle
    refine if_neg ?_
    rintro ⟨hne, heq⟩
    omega
  have hupper : ntsc.timing.vblankStart ≤ pal.timing.vblankStart := by decide
  rw [hnone _ hupper, hnone _ (Nat.le_refl _), Option.or_none, Option.or_none]
  constructor
  · rw [hd.upper_iff]
    omega
  · rw [hd.lower_iff]
    omega
  · rw [hblank, hd.blank_iff]
  · rw [hblank, hd.raised_eq]

theorem isSome_or_begun {found : Option VideoStandard} {standard : VideoStandard}
    {line lineAt : Nat} (h : found.isSome = true ↔ lineAt ≤ line) :
    (found.or (if line + 1 = lineAt then some standard else none)).isSome = true ↔
      lineAt ≤ line + 1 := by
  rw [Option.isSome_or, Bool.or_eq_true, h]
  split_ifs with hat
  · simp [hat]
  · simp only [Option.isSome_none, Bool.false_eq_true, or_false]
    omega

/-- A move to the next line. -/
theorem Drawn.next (hd : r.Drawn upper lower n) (hline : r'.line = r.line + 1)
    (hstandard : r'.standard = r.standard)
    (hblank : r'.inVblank = true ↔ r.inVblank = true ∨ r.line + 1 = r.timing.vblankStart) :
    r'.Drawn (upper.or (r.begins? r' ntsc.timing.vblankStart))
      (lower.or (r.begins? r' pal.timing.vblankStart)) (if r'.inVblank then 1 else 0) := by
  have hbegins : ∀ line, r.begins? r' line =
      if r.line + 1 = line then some r.standard else none := by
    intro line
    unfold begins?
    rw [hline, hstandard]
    congr 1
    rw [eq_iff_iff]
    omega
  rw [hbegins, hbegins]
  refine ⟨?_, ?_, ?_, rfl⟩
  · rw [hline]
    exact isSome_or_begun hd.upper_iff
  · rw [hline]
    exact isSome_or_begun hd.lower_iff
  · rw [hblank, hd.blank_iff]
    have hupper := hd.upper_iff
    have hlower := hd.lower_iff
    unfold timing
    by_cases hu : r.line + 1 = ntsc.timing.vblankStart
    · have hnone : upper = none := by
        rw [← Option.not_isSome_iff_eq_none, hupper]
        omega
      cases hs : r.standard <;> simp [hu, hnone, VideoStandard.timing]
    · by_cases hl : r.line + 1 = pal.timing.vblankStart
      · have hnone : lower = none := by
          rw [← Option.not_isSome_iff_eq_none, hlower]
          omega
        cases hs : r.standard <;> simp [hl, hnone, VideoStandard.timing]
      · cases hs : r.standard <;> simp [hu, hl]

/-- A moment in which the beam stays in the frame. -/
theorem Move.drawn (h : r.Move vertical r') (hd : r.Drawn upper lower n)
    (hstay : ¬(r.line ≠ 0 ∧ r'.line = 0)) :
    r'.Drawn (upper.or (r.begins? r' ntsc.timing.vblankStart))
      (lower.or (r.begins? r' pal.timing.vblankStart)) (n + vertical.count (.raise .vblank)) := by
  cases h with
  | stays => exact hd.keep rfl (.inl rfl)
  | switches standard hne =>
    refine hd.keep rfl ?_
    cases standard <;> simp only [VideoStandard.timing] <;> omega
  | wraps hlast =>
    have hfirst : r.line = 0 := by
      by_contra hne
      exact hstay ⟨hne, rfl⟩
    rw [hfirst] at hlast
    unfold timing at hlast
    cases hs : r.standard <;> rw [hs] at hlast <;> simp [VideoStandard.timing] at hlast
  | blanks hline hout =>
    have hn : n = 0 := by
      rw [hd.raised_eq, hout]
      rfl
    rw [hn]
    exact hd.next rfl rfl (by simp [hline])
  | descends hline hin =>
    have hnext : ({ r with line := r.line + 1 } : Row).Drawn _ _ _ :=
      hd.next rfl rfl ⟨.inl, fun h => h.elim id hin⟩
    rw [← hd.raised_eq] at hnext
    exact hnext

/-- The beam goes to the first line from a line below those where the vertical blank begins. -/
theorem Move.wrap (h : r.Move vertical r') (hwrap : r.line ≠ 0 ∧ r'.line = 0) :
    pal.timing.vblankStart ≤ r.line ∧ r'.inVblank = false ∧
      vertical.count (.raise .vblank) = 0 := by
  cases h with
  | stays => exact absurd hwrap.2 hwrap.1
  | switches standard =>
    have hzero : min r.line (standard.timing.linesPerFrame - 1) = 0 := hwrap.2
    have hne := hwrap.1
    cases standard <;> simp only [VideoStandard.timing] at hzero <;> omega
  | wraps hlast =>
    refine ⟨?_, rfl, ?_⟩
    · unfold timing at hlast
      cases hs : r.standard <;> simp only [hs, VideoStandard.timing] at hlast ⊢ <;> omega
    · split_ifs <;> rfl
  | blanks => exact absurd hwrap.2 (Nat.succ_ne_zero _)
  | descends => exact absurd hwrap.2 (Nat.succ_ne_zero _)

/-- At the end of the frame attention was asked for once, unless the beam came past both lines. -/
theorem Drawn.raised_of_last (hd : r.Drawn upper lower n)
    (hlast : pal.timing.vblankStart ≤ r.line) :
    ∃ first second, upper = some first ∧ lower = some second ∧
      n = if first = pal ∧ second = ntsc then 0 else 1 := by
  have hupper := hd.upper_iff.2 (Nat.le_trans (by decide) hlast)
  have hlower := hd.lower_iff.2 hlast
  obtain ⟨first, rfl⟩ := Option.isSome_iff_exists.1 hupper
  obtain ⟨second, rfl⟩ := Option.isSome_iff_exists.1 hlower
  have hblank := hd.blank_iff
  refine ⟨first, second, rfl, rfl, ?_⟩
  rw [hd.raised_eq]
  cases first <;> cases second <;> simp_all

end Beam.Row

/-! ### Courses -/

namespace Course

variable {b last : Beam} {ms : List Moment}

theorem count_isVertical {s : Signal} (h : s.isVertical = true) (signals : List Signal) :
    (signals.filter Signal.isVertical).count s = signals.count s := List.count_filter h

theorem frames (h : Course b ms last) : last.frames = b.frames + raised ms ∧
    (ms.flatMap Moment.signals).count .vblankBegin = raised ms := by
  induction h with
  | nil b => exact ⟨rfl, rfl⟩
  | @cons b later last signals ms hmove _ ih =>
    obtain ⟨hframes, hbegins⟩ := hmove.frames
    rw [count_isVertical rfl] at hframes hbegins
    rw [count_isVertical rfl] at hbegins
    have hframes : later.frames = b.frames + signals.count (.raise .vblank) := hframes
    unfold raised
    rw [List.flatMap_cons, List.count_append, List.count_append]
    exact ⟨by rw [ih.1, hframes, Nat.add_assoc]; rfl, by rw [hbegins, ih.2]; rfl⟩

/-- The vertical blank begins and ends by turns. -/
theorem turns (h : Course b ms last) :
    (b.row.lastEdge :: (ms.flatMap Moment.signals).filter isVblankEdge).IsChain (· ≠ ·) := by
  induction h with
  | nil b => exact .singleton _
  | @cons b later last signals ms hmove _ ih =>
    have hedges : (signals.filter Signal.isVertical).filter isVblankEdge =
        signals.filter isVblankEdge := by
      rw [List.filter_filter]
      congr 1
      funext s
      cases s <;> rfl
    have hstep := hmove.edge
    rw [hedges] at hstep
    rw [List.flatMap_cons, List.filter_append]
    rcases hstep with ⟨hnone, hsame⟩ | ⟨hone, hother⟩
    · rw [hnone, List.nil_append, ← hsame]
      exact ih
    · rw [hone, List.singleton_append]
      exact List.isChain_cons_cons.2 ⟨hother.symm, ih⟩

/-- The beam always knows whether it is in the vertical blank just if no moment disturbs it. -/
theorem knowsVblank_iff (h : Course b ms last) (hb : b.KnowsVblank) :
    (∀ m ∈ ms, m.after.KnowsVblank) ↔ ∀ m ∈ ms, ¬m.Disturbs := by
  induction h with
  | nil b => simp
  | @cons b later last signals ms hmove _ ih =>
    have hstep : later.KnowsVblank ↔ ¬(Moment.mk b signals later).Disturbs := hmove.aligned_iff hb
    rw [List.forall_mem_cons, List.forall_mem_cons]
    constructor
    · rintro ⟨hlater, hrest⟩
      exact ⟨hstep.1 hlater, (ih hlater).1 hrest⟩
    · rintro ⟨hkeeps, hrest⟩
      have hlater := hstep.2 hkeeps
      exact ⟨hlater, (ih hlater).2 hrest⟩

/-- Within a frame. -/
theorem drawn (h : Course b ms last) {upper lower : Option VideoStandard} {n : Nat}
    (hb : b.row.Drawn upper lower n) (hstay : ∀ m ∈ ms, ¬m.Wraps) :
    last.row.Drawn (upper.or (begun? ms ntsc.timing.vblankStart))
      (lower.or (begun? ms pal.timing.vblankStart)) (n + raised ms) := by
  induction h generalizing upper lower n with
  | nil b => simpa [begun?, raised] using hb
  | @cons b later last signals ms hmove _ ih =>
    obtain ⟨hfirst, hrest⟩ := List.forall_mem_cons.1 hstay
    have hbegun : ∀ line, begun? (⟨b, signals, later⟩ :: ms) line =
        (b.row.begins? later.row line).or (begun? ms line) := by
      intro line
      have hsame : (Moment.mk b signals later).begins? line = b.row.begins? later.row line := rfl
      unfold begun?
      rw [List.findSome?_cons, hsame]
      cases b.row.begins? later.row line <;> rfl
    have hstep := hmove.drawn hb hfirst
    rw [count_isVertical rfl] at hstep
    have hlast := ih hstep hrest
    rw [hbegun, hbegun]
    unfold raised at hlast ⊢
    rw [List.flatMap_cons, List.count_append]
    simpa only [Option.or_assoc, Nat.add_assoc] using hlast

/-- Between two wraps. -/
theorem raised_frame {first next : Moment} (h : Course b (first :: (ms ++ [next])) last)
    (hfirst : first.Wraps) (hnext : next.Wraps) (hstay : ∀ m ∈ ms, ¬m.Wraps) :
    next.after.frames = first.after.frames + raised (ms ++ [next]) ∧
      ((ms ++ [next]).flatMap Moment.signals).count .vblankBegin = raised (ms ++ [next]) ∧
      ∃ upper lower, begun? ms ntsc.timing.vblankStart = some upper ∧
        begun? ms pal.timing.vblankStart = some lower ∧
        raised (ms ++ [next]) = if upper = pal ∧ lower = ntsc then 0 else 1 := by
  cases h with
  | cons hwrap hrest =>
    obtain ⟨between, hframe, hend⟩ := hrest.append
    have hdrawn := hframe.drawn (Beam.Row.drawn_first hfirst.2 (hwrap.wrap hfirst).2.1) hstay
    rw [Option.none_or, Option.none_or, Nat.zero_add] at hdrawn
    cases hend with
    | cons hwrap' hnil =>
      obtain ⟨hlow, -, hquiet⟩ := hwrap'.wrap hnext
      rw [count_isVertical rfl] at hquiet
      cases hnil
      obtain ⟨hframes, hbegins⟩ := hrest.frames
      obtain ⟨upper, lower, hupper, hlower, hraised⟩ := hdrawn.raised_of_last hlow
      refine ⟨hframes, hbegins, upper, lower, hupper, hlower, ?_⟩
      rw [← hraised]
      simp [raised, hquiet]

end Course

theorem course_atoms {g : Gpu} (h : g.beam.InFrame) (ops : List Operation) :
    Course g.beam (g.moments (ops.flatMap Operation.atoms)) (g.operateAll ops).2.beam := by
  rw [← operateAll_atoms h]
  refine moments_course h fun atom hatom => ?_
  obtain ⟨op, -, hatom⟩ := List.mem_flatMap.1 hatom
  exact Operation.isAtom_of_mem_atoms hatom

theorem knowsVblank_initial (capacity : Nat) (standard : VideoStandard) :
    (initial capacity standard).beam.KnowsVblank :=
  iff_of_false Bool.false_ne_true (Nat.not_le.2 (Beam.vblankStart_pos standard))

/-- From one wrap to the next. -/
theorem raised_between_wraps {g : Gpu} (h : g.beam.InFrame) {ops : List Operation}
    {earlier frame later : List Moment} {first last : Moment}
    (hsplit : g.moments (ops.flatMap Operation.atoms) =
      earlier ++ first :: (frame ++ last :: later))
    (hfirst : first.Wraps) (hlast : last.Wraps) (hstay : ∀ m ∈ frame, ¬m.Wraps) :
    last.after.frames = first.after.frames + raised (frame ++ [last]) ∧
      ((frame ++ [last]).flatMap Moment.signals).count .vblankBegin = raised (frame ++ [last]) ∧
      ∃ upper lower, begun? frame ntsc.timing.vblankStart = some upper ∧
        begun? frame pal.timing.vblankStart = some lower ∧
        raised (frame ++ [last]) = if upper = pal ∧ lower = ntsc then 0 else 1 := by
  have hcourse := course_atoms h ops
  have hend : first :: (frame ++ last :: later) = first :: (frame ++ [last]) ++ later := by simp
  rw [hsplit, hend] at hcourse
  obtain ⟨b, -, hrest⟩ := hcourse.append
  obtain ⟨b', hframe, -⟩ := hrest.append
  exact hframe.raised_frame hfirst hlast hstay

end Psx.Gpu
