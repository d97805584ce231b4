import Psx.Proofs.Gpu.Operations
import Psx.Proofs.Gpu.Waits

/-!
# Moment by moment

A use of the port is a sequence of moments (`Gpu.moments`): in each an operation is done that is not
a wait, or one cycle passes. Waits that are taken cycle by cycle come to the same
(`operateAll_atoms`). What a moment can do to the frame that the beam draws is `Beam.Row.Move`: the
beam goes on along its line, begins the next line, goes from the last line to the first, or another
standard moves the lines under it. Whatever is done with the port is a `Course` of such moves
(`moments_course`).
-/

namespace Psx

/-- The signal has to do with the vertical blank. -/
def Signal.isVertical : Signal → Bool
  | .vblankBegin | .vblankEnd | .raise .vblank => true
  | _ => false

theorem Signal.isVertical_of_not_isPulse {s : Signal} (h : s.isPulse = false) :
    s.isVertical = false := by
  cases s with
  | raise i => cases i <;> first | rfl | cases h
  | dotClock | hblankBegin | hblankEnd => rfl
  | vblankBegin | vblankEnd => cases h

theorem filter_isVertical_eq_nil {signals : List Signal} (h : ∀ s ∈ signals, s.isPulse = false) :
    signals.filter Signal.isVertical = [] :=
  List.filter_eq_nil_iff.2 fun s hs =>
    Bool.eq_false_iff.1 (Signal.isVertical_of_not_isPulse (h s hs))

namespace Gpu

/-! ### Operations in parts -/

namespace Operation

/-- An operation cycle by cycle. -/
def atoms : Operation → List Operation
  | .advance cycles => List.replicate cycles (.advance 1)
  | op => [op]

/-- The operation is a cycle that passes, or not a wait. -/
def IsAtom (op : Operation) : Prop := ∀ cycles, op = .advance cycles → cycles = 1

theorem isAtom_of_mem_atoms {op atom : Operation} (h : atom ∈ op.atoms) : atom.IsAtom := by
  intro cycles hcycles
  cases op with
  | advance n =>
    cases hcycles.symm.trans (List.eq_of_mem_replicate h)
    rfl
  | _ =>
    cases hcycles.symm.trans (List.mem_singleton.1 h)

end Operation

theorem operateAll_ticks {g : Gpu} (h : g.beam.InFrame) (cycles : Nat) :
    g.operateAll (List.replicate cycles (.advance 1)) = g.advance cycles := by
  induction cycles generalizing g with
  | zero =>
    rw [List.replicate_zero, operateAll_nil, advance, Beam.advance_zero]
  | succ cycles ih =>
    have hone : (g.operate (.advance 1)).2.beam.InFrame := inFrame_operate h _
    rw [List.replicate_succ, operateAll_cons, ih hone, Nat.add_comm]
    simp only [operate, advance, Beam.advance_add h]

/-- An operation may be taken cycle by cycle. -/
theorem operateAll_atoms {g : Gpu} (h : g.beam.InFrame) (ops : List Operation) :
    g.operateAll (ops.flatMap Operation.atoms) = g.operateAll ops := by
  induction ops generalizing g with
  | nil => rfl
  | cons op ops ih =>
    have hop : g.operateAll op.atoms = g.operate op := by
      cases op with
      | advance cycles => exact operateAll_ticks h cycles
      | _ => exact operateAll_singleton g _
    rw [List.flatMap_cons, operateAll_append, hop, ih (inFrame_operate h op), operateAll_cons]

/-! ### Moments -/

/-- The beam before and after something is done with the port, and what the port drives. -/
structure Moment where
  before : Beam
  signals : List Signal
  after : Beam

/-- What happens in one operation after the other. -/
def moments (g : Gpu) : List Operation → List Moment
  | [] => []
  | op :: ops => ⟨g.beam, (g.operate op).1, (g.operate op).2.beam⟩ :: moments (g.operate op).2 ops

theorem moments_append (g : Gpu) (ops ops' : List Operation) :
    g.moments (ops ++ ops') = g.moments ops ++ (g.operateAll ops).2.moments ops' := by
  induction ops generalizing g with
  | nil => rfl
  | cons op ops ih => rw [List.cons_append, moments, ih]; rfl

theorem signals_moments (g : Gpu) (ops : List Operation) :
    (g.moments ops).flatMap Moment.signals = (g.operateAll ops).1 := by
  induction ops generalizing g with
  | nil => rfl
  | cons op ops ih => rw [moments, List.flatMap_cons, ih, operateAll_cons]

namespace Beam

/-- What of the beam changes from line to line and with the standard. -/
structure Row where
  standard : VideoStandard
  line : Nat
  frames : Nat
  inVblank : Bool
deriving DecidableEq

def row (b : Beam) : Row := ⟨b.standard, b.line, b.frames, b.inVblank⟩

namespace Row

def timing (r : Row) : VideoTiming := r.standard.timing

/-- What may happen to the row in a moment, and what is driven of the vertical blank. -/
inductive Move (r : Row) : List Signal → Row → Prop
  | stays : Move r [] r
  /-- The beam is moved into the frame of another standard. -/
  | switches (standard : VideoStandard) (h : standard ≠ r.standard) :
    Move r [] { r with standard, line := min r.line (standard.timing.linesPerFrame - 1) }
  | wraps (h : r.timing.linesPerFrame ≤ r.line + 1) :
    Move r (if r.inVblank then [.vblankEnd] else []) { r with line := 0, inVblank := false }
  | blanks (h : r.line + 1 = r.timing.vblankStart) (hout : r.inVblank = false) :
    Move r [.vblankBegin, .raise .vblank]
      { r with line := r.line + 1, inVblank := true, frames := r.frames + 1 }
  | descends (h : r.line + 1 < r.timing.linesPerFrame)
      (hin : r.line + 1 = r.timing.vblankStart → r.inVblank = true) :
    Move r [] { r with line := r.line + 1 }

end Row

theorem nextLine_move (b : Beam) :
    b.row.Move (b.nextLine.1.filter Signal.isVertical) b.nextLine.2.row := by
  unfold nextLine
  dsimp only
  split_ifs with hwrap hvblank hblank
  · have h : b.row.Move (if b.row.inVblank then [.vblankEnd] else [])
        { b.row with line := 0, inVblank := false } := .wraps hwrap
    rw [show b.row.inVblank = true from hvblank] at h
    exact h
  · have h : b.row.Move (if b.row.inVblank then [.vblankEnd] else [])
        { b.row with line := 0, inVblank := false } := .wraps hwrap
    rw [show b.row.inVblank = false from Bool.eq_false_iff.2 hvblank] at h
    exact h
  · simp only [Bool.and_eq_true, beq_iff_eq, Bool.not_eq_eq_eq_not, Bool.not_true] at hblank
    exact .blanks hblank.1 hblank.2
  · simp only [Bool.and_eq_true, beq_iff_eq, Bool.not_eq_eq_eq_not, Bool.not_true, not_and,
      Bool.not_eq_false] at hblank
    exact .descends (Nat.lt_of_not_le hwrap) hblank

theorem fire_move (b : Beam) : b.row.Move (b.fire.1.filter Signal.isVertical) b.fire.2.row := by
  have hquiet : b.enterHblank.1.filter Signal.isVertical = [] := by
    unfold enterHblank
    split_ifs <;> rfl
  obtain ⟨i, e⟩ := b.enterHblank_frame
  simp only [fire, List.filter_append, hquiet, List.nil_append, endLine, e]
  split_ifs
  · exact .stays
  · exact nextLine_move
      { b with inHblank := false, lineCycle := b.lineCycle - b.timing.cyclesPerLine }

theorem setStandard_move (b : Beam) (standard : VideoStandard) :
    b.row.Move [] (b.setStandard standard).row := by
  unfold setStandard
  split_ifs with h
  · exact .stays
  · exact .switches standard h

end Beam

theorem mem_moments_ticks {g : Gpu} (h : g.beam.InFrame) {cycles : Nat} {m : Moment}
    (hm : m ∈ g.moments (List.replicate cycles (.advance 1))) :
    ∃ n < cycles, m.before = (g.beam.advance n).2 ∧ m.after = (g.beam.advance (n + 1)).2 := by
  induction cycles generalizing g with
  | zero => cases hm
  | succ cycles ih =>
    rw [List.replicate_succ, moments, List.mem_cons] at hm
    rcases hm with rfl | hm
    · exact ⟨0, Nat.succ_pos _, (congrArg Prod.snd (Beam.advance_zero _)).symm, rfl⟩
    · obtain ⟨n, hn, hbefore, hafter⟩ := ih (inFrame_operate h _) hm
      have hlater : ∀ n, ((g.operate (.advance 1)).2.beam.advance n).2 =
          (g.beam.advance (n + 1)).2 := by
        intro n
        rw [Nat.add_comm, Beam.advance_add h]
        rfl
      exact ⟨n + 1, Nat.succ_lt_succ hn, hbefore.trans (hlater n), hafter.trans (hlater (n + 1))⟩

/-- A moment moves the row. -/
theorem operate_move {g : Gpu} (h : g.beam.InFrame) {op : Operation} (hatom : op.IsAtom) :
    g.beam.row.Move ((g.operate op).1.filter Signal.isVertical) (g.operate op).2.beam.row := by
  by_cases hop : ∃ cycles, op = .advance cycles
  · obtain ⟨cycles, rfl⟩ := hop
    cases hatom cycles rfl
    have hhop : g.beam.advance 1 = g.beam.hop 1 :=
      Beam.advance_eq_hop Nat.one_ne_zero (Beam.cyclesToPulse_pos h.cycle)
    simp only [operate, advance, hhop]
    exact Beam.fire_move { g.beam with lineCycle := g.beam.lineCycle + 1 }
  · obtain ⟨⟨standard, hbeam⟩, hquiet⟩ := g.operate_other fun cycles hc => hop ⟨cycles, hc⟩
    rw [filter_isVertical_eq_nil hquiet, hbeam]
    exact g.beam.setStandard_move standard

/-- The moments lead from one beam to the other. -/
inductive Course : Beam → List Moment → Beam → Prop
  | nil (b : Beam) : Course b [] b
  | cons {b later last : Beam} {signals : List Signal} {ms : List Moment}
      (h : b.row.Move (signals.filter Signal.isVertical) later.row) (rest : Course later ms last) :
    Course b (⟨b, signals, later⟩ :: ms) last

theorem moments_course {g : Gpu} (h : g.beam.InFrame) {ops : List Operation}
    (hatoms : ∀ op ∈ ops, op.IsAtom) : Course g.beam (g.moments ops) (g.operateAll ops).2.beam := by
  induction ops generalizing g with
  | nil => exact .nil g.beam
  | cons op ops ih =>
    have hrest := ih (inFrame_operate h op) fun op' hop' => hatoms op' (List.mem_cons_of_mem _ hop')
    exact .cons (operate_move h (hatoms op List.mem_cons_self)) hrest

theorem Course.append {b last : Beam} {ms ms' : List Moment} (h : Course b (ms ++ ms') last) :
    ∃ between, Course b ms between ∧ Course between ms' last := by
  induction ms generalizing b with
  | nil => exact ⟨b, .nil b, h⟩
  | cons m ms ih =>
    cases h with
    | cons hmove hrest =>
      obtain ⟨between, hms, hms'⟩ := ih hrest
      exact ⟨between, .cons hmove hms, hms'⟩

end Gpu

end Psx
