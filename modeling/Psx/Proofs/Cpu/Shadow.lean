import Psx.Proofs.Cpu.Precise

/-!
# Exceptions in the shadow of a branch

An exception in the shadow of a branch has the delay slot bit set and returns to what lies before the
instruction in the shadow. That is the branch if the shadow follows it in memory, and only then
(`Cpu.Run.resumes`). It always does unless the branch stands itself in the shadow of a branch that was
taken: its own shadow is then at the target of the first one, and what lies before that target has
nothing to do with it (`Cpu.Run.loses_branch`).

`Cpu.Run` keeps the branch that the last step executed. The invariant behind the results is that the
next two addresses are consecutive unless that branch was taken.
-/

namespace Psx

namespace Execution

variable {δ : Type} (x : Execution δ) {i : Instruction}

theorem fault?_of_isBranch (h : i.isBranch = true) : x.fault? i = none := by
  cases i <;> first | rfl | cases h

theorem target?_of_not_isBranch (h : i.isBranch = false) : x.target? i = none := by
  cases i <;> first | rfl | cases h

end Execution

namespace Cpu

/-- A branch that has been executed: its address, whether it was taken, and whether it stood in the
shadow of a branch that was taken. -/
structure Branch where
  address : UInt32
  taken : Bool
  shadowed : Bool
deriving DecidableEq, Repr

section

variable {δ : Type} [Device δ]

/-- The branch that a step executes, behind the step that executed `last`. -/
def branch? (c : Cpu) (bus : Bus δ) (last : Option Branch) : Option Branch :=
  if c.executes bus && (c.instruction bus).isBranch then
    some {
      address := c.pc
      taken := ((c.execution bus).target? (c.instruction bus)).isSome
      shadowed := last.any (·.taken) }
  else none

end

/-- The runs of the processor from power on, or from an address that it was set to, with the branch
that the last step executed. What the bus answers may change from step to step. -/
inductive Run (δ : Type) [Device δ] : Cpu → Option Branch → Prop
  | initial : Run δ .initial none
  | setPc (c : Cpu) (pc : UInt32) : Run δ (c.setPc pc) none
  | step {c last} (bus : Bus δ) : Run δ c last → Run δ (c.step bus).2.1 (c.branch? bus last)

/-- The processor knows of the last branch. -/
structure Follows (c : Cpu) (last : Option Branch) : Prop where
  branched : c.branched = last.isSome
  nextPc : last.any (·.taken) = false → c.nextPc = c.pc + 4
  pc : ∀ b, last = some b → b.shadowed = false → c.pc = b.address + 4

variable {δ : Type} [Device δ] {c : Cpu} {bus : Bus δ} {last : Option Branch}

/-! ### Steps -/

theorem sound_of_exception?_none (h : c.exception? bus = none) :
    c.executes bus = true ∧ c.fault? bus = none := by
  have hx : c.executes bus = true := by
    unfold exception? at h
    split_ifs at h with hi hm
    exact executes_iff.2 ⟨Bool.eq_false_iff.2 hi, Bool.eq_false_iff.2 hm⟩
  rw [exception?_of_executes hx] at h
  exact ⟨hx, Option.map_eq_none_iff.1 h⟩

theorem branch?_of_exception {e : Exception} (h : c.exception? bus = some e)
    (last : Option Branch) : c.branch? bus last = none := by
  unfold branch?
  split_ifs with hb
  · rw [Bool.and_eq_true] at hb
    rw [exception?_of_executes hb.1] at h
    unfold fault? at h
    rw [if_pos hb.1, Execution.fault?_of_isBranch _ hb.2] at h
    cases h
  · rfl

theorem branch?_of_sound (h : c.executes bus = true) (last : Option Branch) :
    c.branch? bus last = if (c.instruction bus).isBranch then
      some {
        address := c.pc
        taken := ((c.execution bus).target? (c.instruction bus)).isSome
        shadowed := last.any (·.taken) }
    else none := by
  unfold branch?
  rw [h]
  rfl

theorem Follows.step (h : c.Follows last) (bus : Bus δ) :
    (c.step bus).2.1.Follows (c.branch? bus last) := by
  cases he : c.exception? bus with
  | some e =>
    obtain ⟨-, hnext, hbranched, -⟩ := step_of_exception he
    rw [branch?_of_exception he]
    exact ⟨hbranched, fun _ => hnext, fun b hb => by cases hb⟩
  | none =>
    obtain ⟨hx, hf⟩ := sound_of_exception?_none he
    obtain ⟨hpc, hnext, hbranched, -⟩ := step_of_sound hx hf
    rw [branch?_of_sound hx]
    cases hb : (c.instruction bus).isBranch with
    | false =>
      rw [Execution.target?_of_not_isBranch _ hb] at hnext
      refine ⟨hbranched.trans hb, fun _ => ?_, fun b hb => by cases hb⟩
      rw [hpc]
      exact hnext
    | true =>
      refine ⟨hbranched.trans hb, fun ht => ?_, fun b he hs => ?_⟩
      · have hnone : (c.execution bus).target? (c.instruction bus) = none :=
          Option.isNone_iff_eq_none.1 (by simpa using ht)
        rw [hnone] at hnext
        rw [hpc]
        exact hnext
      · cases he
        rw [hpc]
        exact h.nextPc hs

/-- The return address of an exception is the branch before it exactly when that lies before the
instruction that it met. -/
theorem Follows.epc (h : c.Follows last) {e : Exception} (he : c.exception? bus = some e) :
    ((c.step bus).2.1.cop0.cause &&& Cop0.delaySlotBit != 0) = last.isSome ∧
      (last = none → (c.step bus).2.1.cop0.epc = c.pc) ∧
      ∀ b, last = some b → ((c.step bus).2.1.cop0.epc = b.address ↔ c.pc = b.address + 4) := by
  obtain ⟨-, -, -, hslot, hepc, -⟩ := step_of_exception he
  rw [h.branched] at hslot hepc
  refine ⟨hslot, fun hlast => ?_, fun b hlast => ?_⟩
  · rw [hepc, hlast]
    rfl
  · have hback : (c.step bus).2.1.cop0.epc = c.pc - 4 := by
      rw [hepc, hlast]
      rfl
    rw [hback]
    constructor
    · intro hb
      rw [← hb, UInt32.sub_add_cancel]
    · intro hb
      rw [hb, UInt32.add_sub_cancel]

/-- A branch takes effect when one more instruction has been executed. -/
theorem step_target {target : UInt32} (he : c.exception? bus = none)
    (ht : (c.execution bus).target? (c.instruction bus) = some target) {bus' : Bus δ}
    (he' : (c.step bus).2.1.exception? bus' = none) :
    ((c.step bus).2.1.step bus').2.1.pc = target := by
  obtain ⟨hx, hf⟩ := sound_of_exception?_none he
  obtain ⟨hx', hf'⟩ := sound_of_exception?_none he'
  obtain ⟨-, hnext, -⟩ := step_of_sound hx hf
  rw [(step_of_sound hx' hf').1, hnext, ht]
  rfl

namespace Run

theorem follows (h : Run δ c last) : c.Follows last := by
  induction h with
  | initial => exact ⟨rfl, fun _ => rfl, fun b hb => by cases hb⟩
  | setPc c pc => exact ⟨rfl, fun _ => rfl, fun b hb => by cases hb⟩
  | step bus _ ih => exact ih.step bus

/-- Where the program goes on behind a step of a run. An exception notes whether the step before it
executed a branch, and returns to its own instruction if not. If so, it returns to the branch exactly
when the branch lies before its own instruction, as it does if it was not itself in the shadow of a
branch that was taken. With no exception a branch takes effect when one more instruction has been
executed, also a branch in the shadow of another one. -/
theorem resumes (h : Run δ c last) (bus : Bus δ) :
    (∀ e, c.exception? bus = some e →
      ((c.step bus).2.1.cop0.cause &&& Cop0.delaySlotBit != 0) = last.isSome ∧
      (last = none → (c.step bus).2.1.cop0.epc = c.pc) ∧
      ∀ b, last = some b →
        ((c.step bus).2.1.cop0.epc = b.address ↔ c.pc = b.address + 4) ∧
        (b.shadowed = false → (c.step bus).2.1.cop0.epc = b.address)) ∧
    (c.exception? bus = none →
      (c.step bus).2.1.pc = c.nextPc ∧
      ∀ target, (c.execution bus).target? (c.instruction bus) = some target →
        ∀ bus' : Bus δ, (c.step bus).2.1.exception? bus' = none →
          ((c.step bus).2.1.step bus').2.1.pc = target) := by
  refine ⟨fun e he => ?_, fun he => ?_⟩
  · obtain ⟨hslot, hnone, hback⟩ := h.follows.epc he
    exact ⟨hslot, hnone, fun b hb =>
      ⟨hback b hb, fun hs => (hback b hb).2 (h.follows.pc b hb hs)⟩⟩
  · obtain ⟨hx, hf⟩ := sound_of_exception?_none he
    exact ⟨(step_of_sound hx hf).1, fun target ht bus' he' => step_target he ht he'⟩

/-- A system call in the shadow of a jump. -/
theorem resumes_syscall :
    let bus := holding [0x0BE00004, 0x0000000C]
    let c := ((Cpu.initial.setPc Address.scratchpadFirst).step bus).2.1
    Run Empty c (some { address := 0x1F800000, taken := true, shadowed := false }) ∧
      c.exception? bus = some .syscall ∧ (c.step bus).2.1.cop0.epc = 0x1F800000 := by
  intro bus c
  have hrun : Run Empty c (some { address := 0x1F800000, taken := true, shadowed := false }) := by
    have hb : (Cpu.initial.setPc Address.scratchpadFirst).branch? bus none =
        some { address := 0x1F800000, taken := true, shadowed := false } := by decide +kernel
    rw [← hb]
    exact .step bus (.setPc ..)
  have he : c.exception? bus = some .syscall := by decide +kernel
  exact ⟨hrun, he, (((hrun.resumes bus).1 _ he).2.2 _ rfl).2 rfl⟩

/-- A jump in the shadow of a jump, and a system call at the target of the first: it returns to what
lies before it, and the second jump is lost. -/
theorem loses_branch :
    let bus := holding [0x0BE00004, 0x0BE00008, 0, 0, 0x0000000C]
    let c₁ := ((Cpu.initial.setPc Address.scratchpadFirst).step bus).2.1
    let c₂ := (c₁.step bus).2.1
    Run Empty c₂ (some { address := 0x1F800004, taken := true, shadowed := true }) ∧
      c₂.exception? bus = some .syscall ∧ (c₂.step bus).2.1.cop0.epc = 0x1F80000C := by
  intro bus c₁ c₂
  refine ⟨?_, by decide +kernel, by decide +kernel⟩
  have hb₁ : (Cpu.initial.setPc Address.scratchpadFirst).branch? bus none =
      some { address := 0x1F800000, taken := true, shadowed := false } := by decide +kernel
  have hb₂ : c₁.branch? bus (some { address := 0x1F800000, taken := true, shadowed := false }) =
      some { address := 0x1F800004, taken := true, shadowed := true } := by decide +kernel
  rw [← hb₂, ← hb₁]
  exact .step bus (.step bus (.setPc ..))

end Run

end Cpu

end Psx
