import Psx.Proofs.Gpu.Port

/-!
# Uses of the port

`Gpu.Operation` is what is done with the port short of a reset: words are written to it and read
from it, the host takes what was captured, and time passes. Of all this the beam sees that time
passes, and changes of its standard; whatever else is done, it stays as it is and drives no pulse
(`Gpu.operate_other`). `Gpu.Reachable` are the ports that construction, operations and resets lead
to.
-/

namespace Psx

namespace Gpu

/-- What is done with the port short of a reset. -/
inductive Operation where
  | writeGp0 (word : UInt32)
  | writeGp1 (value : UInt32)
  | readLatch
  | drain
  | advance (cycles : Nat)
  /-- The status register is read, or something else than the port is meant. -/
  | pass
deriving DecidableEq, Repr

variable (g : Gpu)

/-- What the port drives in an operation, and the port after it. -/
def operate : Operation → List Signal × Gpu
  | .writeGp0 word => g.writeGp0 word
  | .writeGp1 value => g.writeGp1 value
  | .readLatch => ([], g.readLatch.2)
  | .drain => ([], g.drain.2)
  | .advance cycles => g.advance cycles
  | .pass => ([], g)

/-- One operation after the other. -/
def operateAll (g : Gpu) : List Operation → List Signal × Gpu
  | [] => ([], g)
  | op :: ops =>
    let (signals, g) := g.operate op
    let (more, g) := operateAll g ops
    (signals ++ more, g)

theorem operateAll_nil : g.operateAll [] = ([], g) := rfl

theorem operateAll_cons (op : Operation) (ops : List Operation) : g.operateAll (op :: ops) =
    ((g.operate op).1 ++ ((g.operate op).2.operateAll ops).1,
      ((g.operate op).2.operateAll ops).2) := rfl

theorem operateAll_append (ops ops' : List Operation) : g.operateAll (ops ++ ops') =
    ((g.operateAll ops).1 ++ ((g.operateAll ops).2.operateAll ops').1,
      ((g.operateAll ops).2.operateAll ops').2) := by
  induction ops generalizing g with
  | nil => rfl
  | cons op ops ih =>
    rw [List.cons_append, operateAll_cons, ih, operateAll_cons, List.append_assoc]

theorem operateAll_singleton (op : Operation) : g.operateAll [op] = g.operate op := by
  rw [operateAll_cons, operateAll_nil, List.append_nil]

/-- The ports that construction, operations and resets lead to. -/
inductive Reachable : Gpu → Prop
  | initial (capacity : Nat) (standard : VideoStandard) : Reachable (initial capacity standard)
  | operate {g : Gpu} (h : Reachable g) (op : Operation) : Reachable (g.operate op).2
  | reset {g : Gpu} (h : Reachable g) : Reachable g.reset.2

/-! ### What the beam sees -/

theorem Beam.setStandard_self (b : Beam) : b.setStandard b.standard = b := if_pos rfl

theorem execute_noPulse (opcode : UInt8) (word : UInt32) :
    ∀ s ∈ (g.execute opcode word).1, s.isPulse = false := by
  unfold execute
  split
  · split <;> simp [Signal.isPulse]
  all_goals simp

theorem writeGp0_noPulse (word : UInt32) : ∀ s ∈ (g.writeGp0 word).1, s.isPulse = false := by
  unfold writeGp0 frame
  dsimp only
  split
  · simp
  · exact execute_noPulse _ _ _
  · simp

/-- A command may change the standard of the beam, and drives the dot clock at most. -/
theorem writeGp1_cases (value : UInt32) :
    (∃ standard, (g.writeGp1 value).2.beam = g.beam.setStandard standard) ∧
      ∀ s ∈ (g.writeGp1 value).1, s.isPulse = false := by
  have hkeeps : g.beam = g.beam.setStandard g.beam.standard := g.beam.setStandard_self.symm
  unfold writeGp1
  split
  case h_1 => exact ⟨⟨_, rfl⟩, by simp [resetPort, dotClock, Signal.isPulse]⟩
  case h_9 => exact ⟨⟨_, rfl⟩, by simp [setDisplayMode, dotClock, Signal.isPulse]⟩
  case h_10 => split <;> exact ⟨⟨_, hkeeps⟩, by simp⟩
  all_goals exact ⟨⟨_, hkeeps⟩, by simp⟩

/-- Unless time passes, an operation changes the standard of the beam at most, and drives no pulse.
-/
theorem operate_other {op : Operation} (h : ∀ cycles, op ≠ .advance cycles) :
    (∃ standard, (g.operate op).2.beam = g.beam.setStandard standard) ∧
      ∀ s ∈ (g.operate op).1, s.isPulse = false := by
  have hkeeps : g.beam = g.beam.setStandard g.beam.standard := g.beam.setStandard_self.symm
  cases op with
  | writeGp0 word => exact ⟨⟨_, (g.writeGp0_beam word).trans hkeeps⟩, g.writeGp0_noPulse word⟩
  | writeGp1 value => exact g.writeGp1_cases value
  | readLatch => exact ⟨⟨_, g.readLatch_beam.trans hkeeps⟩, by simp [operate]⟩
  | drain => exact ⟨⟨_, hkeeps⟩, by simp [operate]⟩
  | advance cycles => exact absurd rfl (h cycles)
  | pass => exact ⟨⟨_, hkeeps⟩, by simp [operate]⟩

theorem inFrame_operate {g : Gpu} (h : g.beam.InFrame) (op : Operation) :
    (g.operate op).2.beam.InFrame := by
  by_cases hop : ∃ cycles, op = .advance cycles
  · obtain ⟨cycles, rfl⟩ := hop
    exact h.advance cycles
  · obtain ⟨⟨standard, hbeam⟩, -⟩ := g.operate_other fun cycles hc => hop ⟨cycles, hc⟩
    rw [hbeam]
    exact h.setStandard standard

theorem inFrame_operateAll {g : Gpu} (h : g.beam.InFrame) (ops : List Operation) :
    (g.operateAll ops).2.beam.InFrame := by
  induction ops generalizing g with
  | nil => exact h
  | cons op ops ih => exact ih (inFrame_operate h op)

end Gpu

end Psx
