import Psx.Proofs.Gpu.Operations
import Psx.Proofs.Gpu.Position
import Psx.Proofs.Gpu.Waits

/-!
# The distance to the next pulse

The port tells how far it is to its next pulse (`Gpu.untilEvent`), and whoever lets time pass for it
stops there. At that point it always drives something. Before it, it drives something just if its
beam is overdue.

A wait never leaves the beam like that, but a change of standard can, since the blank begins eight
cycles earlier in one standard than in the other. The beam then enters the blank with the first
cycle that passes, long before the pulse that the port has told (`untilEvent_exact_iff`).
-/

namespace Psx.Gpu

namespace Beam

/-- Outside the blank the beam lies before the place where the blank begins in one of the standards.
-/
def Near (b : Beam) : Prop :=
  b.inHblank = false → b.lineCycle < VideoStandard.pal.timing.hblankStart

variable {b : Beam}

theorem hblankStart_le_pal (b : Beam) :
    b.timing.hblankStart ≤ VideoStandard.pal.timing.hblankStart := by
  unfold timing
  cases b.standard <;> decide

theorem near_of_not_overdue (h : ¬b.Overdue) : b.Near := fun hblank =>
  Nat.lt_of_lt_of_le (Nat.lt_of_not_le fun hc => h ⟨hblank, hc⟩) b.hblankStart_le_pal

theorem near_initial (standard : VideoStandard) : ({ standard } : Beam).Near :=
  fun _ => hblankStart_pos { standard := .pal }

theorem Near.advance (h : b.Near) (hf : b.InFrame) (cycles : Nat) : (b.advance cycles).2.Near := by
  rcases Nat.eq_zero_or_pos cycles with rfl | hpos
  · rw [advance_zero]
    exact h
  · exact near_of_not_overdue (not_overdue_advance hf (Nat.ne_of_gt hpos))

theorem Near.setStandard (h : b.Near) (standard : VideoStandard) :
    (b.setStandard standard).Near := by
  unfold Beam.setStandard
  split_ifs
  · exact h
  · exact fun hblank => Nat.lt_of_le_of_lt (Nat.min_le_left ..) (h hblank)

/-- The blank begins earlier in one standard alone. -/
theorem Near.standard_of_overdue (h : b.Near) (ho : b.Overdue) : b.standard = .ntsc := by
  have hlt := h ho.1
  have hle := ho.2
  unfold timing at hle
  cases hs : b.standard with
  | ntsc => rfl
  | pal =>
    rw [hs] at hle
    omega

theorem Near.place_of_overdue (h : b.Near) (ho : b.Overdue) :
    VideoStandard.ntsc.timing.hblankStart ≤ b.lineCycle ∧
      b.lineCycle < VideoStandard.pal.timing.hblankStart := by
  have hle := ho.2
  unfold timing at hle
  rw [h.standard_of_overdue ho] at hle
  exact ⟨hle, h ho.1⟩

/-- From there the end of the line is far. -/
theorem Near.one_lt_cyclesToPulse (h : b.Near) (ho : b.Overdue) : 1 < b.cyclesToPulse := by
  have hlt : b.lineCycle < 1618 := h ho.1
  have hpast := Nat.not_lt.2 ho.2
  unfold cyclesToPulse
  simp only [hpast, decide_false, Bool.and_false, Bool.false_eq_true, if_false]
  simp only [timing, h.standard_of_overdue ho, VideoStandard.timing]
  omega

/-- An overdue beam enters the blank with the first cycle. -/
theorem Overdue.advance (h : b.Overdue) (hf : b.InFrame) {cycles : Nat} (hpos : 0 < cycles) :
    (b.advance cycles).1 ≠ [] := by
  obtain ⟨rest, rfl⟩ := Nat.exists_eq_add_of_le hpos
  have hfirst : (b.hop 1).1 ≠ [] := by
    rcases Nat.lt_or_eq_of_le (cyclesToPulse_pos hf.cycle) with hlt | heq
    · rw [hop_short hlt, if_pos h]
      simp
    · rw [show 1 = b.cyclesToPulse from heq]
      exact hop_cyclesToPulse hf.cycle
  rw [advance_add hf, advance_eq_hop Nat.one_ne_zero (cyclesToPulse_pos hf.cycle)]
  exact fun hnil => hfirst (List.append_eq_nil_iff.1 hnil).1

/-- A beam that is not overdue drives nothing before its next point. -/
theorem advance_eq_nil (h : ¬b.Overdue) {cycles : Nat} (hlt : cycles < b.cyclesToPulse) :
    (b.advance cycles).1 = [] := by
  rcases Nat.eq_zero_or_pos cycles with rfl | hpos
  · rw [advance_zero]
  · rw [advance_eq_hop (Nat.ne_of_gt hpos) (Nat.le_of_lt hlt), hop_short hlt, if_neg h]

end Beam

variable {g : Gpu}

theorem Reachable.inFrame (h : g.Reachable) : g.beam.InFrame := by
  induction h with
  | initial capacity standard => exact Beam.inFrame_initial standard
  | operate h op ih => exact inFrame_operate ih op
  | reset h ih => exact Beam.inFrame_initial _

theorem Reachable.near (h : g.Reachable) : g.beam.Near := by
  induction h with
  | initial capacity standard => exact Beam.near_initial standard
  | @operate g h op ih =>
    by_cases hop : ∃ cycles, op = .advance cycles
    · obtain ⟨cycles, rfl⟩ := hop
      exact ih.advance h.inFrame cycles
    · obtain ⟨⟨standard, hbeam⟩, -⟩ := g.operate_other fun cycles hc => hop ⟨cycles, hc⟩
      rw [hbeam]
      exact ih.setStandard standard
  | reset h ih => exact Beam.near_initial _

/-- A change to the standard whose blank begins earlier is all that makes the beam overdue. -/
theorem overdue_of_operate (h : g.Reachable) {op : Operation} (ho : (g.operate op).2.beam.Overdue) :
    g.beam.Overdue ∨ g.beam.standard = .pal ∧ (g.operate op).2.beam.standard = .ntsc := by
  have hntsc := (h.operate op).near.standard_of_overdue ho
  by_cases hop : ∃ cycles, op = .advance cycles
  · obtain ⟨cycles, rfl⟩ := hop
    rcases Nat.eq_zero_or_pos cycles with rfl | hpos
    · change (g.beam.advance 0).2.Overdue at ho
      rw [Beam.advance_zero] at ho
      exact .inl ho
    · exact absurd ho (Beam.not_overdue_advance h.inFrame (Nat.ne_of_gt hpos))
  · obtain ⟨⟨standard, hbeam⟩, -⟩ := g.operate_other fun cycles hc => hop ⟨cycles, hc⟩
    by_cases hsame : standard = g.beam.standard
    · rw [hbeam, hsame, Beam.setStandard_self] at ho
      exact .inl ho
    · rw [hbeam, Beam.setStandard, if_neg hsame] at hntsc
      have hntsc : standard = .ntsc := hntsc
      have hpal : g.beam.standard = .pal := by
        cases hs : g.beam.standard with
        | pal => rfl
        | ntsc => exact absurd (hntsc.trans hs.symm) hsame
      exact .inr ⟨hpal, (h.operate op).near.standard_of_overdue ho⟩

/-- At the distance told the port drives a pulse. Before it the port drives none, unless its beam is
overdue: then the standard is the one whose blank begins earlier, the beam lies where the blank
would not have begun in the other, and the port drives a pulse with the first cycle. The beam
becomes overdue by a change to that standard alone, and is no longer after any wait. -/
theorem untilEvent_exact_iff (h : g.Reachable) :
    (∃ s ∈ (g.advance g.untilEvent).1, s.isPulse = true) ∧
      ((∀ cycles < g.untilEvent, (g.advance cycles).1 = []) ↔ ¬g.beam.Overdue) ∧
      (g.beam.Overdue →
        g.beam.standard = .ntsc ∧
          VideoStandard.ntsc.timing.hblankStart ≤ g.beam.lineCycle ∧
          g.beam.lineCycle < VideoStandard.pal.timing.hblankStart ∧
          ∀ cycles, 0 < cycles → ∃ s ∈ (g.advance cycles).1, s.isPulse = true) ∧
      (∀ cycles, 0 < cycles → ¬(g.advance cycles).2.beam.Overdue) ∧
      ∀ op, (g.operate op).2.beam.Overdue →
        g.beam.Overdue ∨ g.beam.standard = .pal ∧ (g.operate op).2.beam.standard = .ntsc := by
  have hf := h.inFrame
  have hnear := h.near
  have hpos := Beam.cyclesToPulse_pos hf.cycle
  have huntil : g.untilEvent = g.beam.cyclesToPulse := Nat.max_eq_left hpos
  have hpulse : ∀ {cycles}, (g.beam.advance cycles).1 ≠ [] →
      ∃ s ∈ (g.advance cycles).1, s.isPulse = true := by
    intro cycles hne
    obtain ⟨s, hs⟩ := List.exists_mem_of_ne_nil _ hne
    exact ⟨s, hs, g.beam.advance_pulse cycles s hs⟩
  rw [huntil]
  refine ⟨hpulse ?_, ⟨?_, ?_⟩, ?_, ?_, ?_⟩
  · rw [Beam.advance_eq_hop (Nat.ne_of_gt hpos) (Nat.le_refl _)]
    exact Beam.hop_cyclesToPulse hf.cycle
  · exact fun hquiet ho => ho.advance hf Nat.one_pos (hquiet 1 (hnear.one_lt_cyclesToPulse ho))
  · exact fun ho cycles hlt => Beam.advance_eq_nil ho hlt
  · intro ho
    obtain ⟨hge, hlt⟩ := hnear.place_of_overdue ho
    exact ⟨hnear.standard_of_overdue ho, hge, hlt,
      fun cycles hcycles => hpulse (ho.advance hf hcycles)⟩
  · exact fun cycles hcycles => Beam.not_overdue_advance hf (Nat.ne_of_gt hcycles)
  · exact fun op ho => overdue_of_operate h ho

/-- After a change to the other standard inside the blank the port tells the end of the line. -/
theorem untilEvent_exact_switched :
    let g := ((((initial 16 .ntsc).operate (.advance 1612)).2).operate (.writeGp1 0x08000008)).2
    g.Reachable ∧ g.untilEvent = 545 ∧ ∀ cycles < g.untilEvent, (g.advance cycles).1 = [] := by
  intro g
  have hreach : g.Reachable := ((Reachable.initial 16 .ntsc).operate (.advance 1612)).operate _
  have hbeam : g.beam = { Beam.after .ntsc 1612 with standard := .pal } := by
    unfold g operate
    dsimp only
    rw [advance_initial]
    decide
  have hexact := untilEvent_exact_iff hreach
  refine ⟨hreach, ?_, hexact.2.1.2 ?_⟩
  · rw [untilEvent, hbeam]
    decide
  · rw [hbeam]
    decide

/-- After a change to the standard whose blank begins earlier, just behind that place, the port
tells the end of the line and drives the beginning of the blank with the first cycle. -/
theorem untilEvent_overdue :
    let g := ((((initial 16 .pal).operate (.advance 1612)).2).operate (.writeGp1 0x08000000)).2
    g.Reachable ∧ g.untilEvent = 534 ∧ (g.advance 1).1 = [.hblankBegin] := by
  intro g
  have hreach : g.Reachable := ((Reachable.initial 16 .pal).operate (.advance 1612)).operate _
  have hbeam : g.beam = { Beam.after .pal 1612 with standard := .ntsc } := by
    unfold g operate
    dsimp only
    rw [advance_initial]
    decide
  refine ⟨hreach, ?_, ?_⟩
  · rw [untilEvent, hbeam]
    decide
  · have hone : g.beam.advance 1 = g.beam.hop 1 := by
      rw [hbeam]
      exact Beam.advance_eq_hop Nat.one_ne_zero (by decide)
    rw [advance, hone, hbeam]
    decide

end Psx.Gpu
