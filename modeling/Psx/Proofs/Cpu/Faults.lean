import Mathlib.Tactic.SplitIfs
import Psx.Proofs.Cpu.Exceptions

/-!
# Faults

An instruction that finds something wrong finds it before it does anything. `Execution.fault?` says
what each instruction finds wrong; if it finds something, running it comes to entering the exception
(`Execution.run_of_fault`).
-/

namespace Psx

/-- What an instruction can find wrong. -/
inductive Fault where
  | badLoad (address : UInt32)
  | badStore (address : UInt32)
  | overflow
  | syscall
  | breakpoint
  | reserved
  | unusable (n : CopNumber)
deriving DecidableEq, Repr

def Fault.exception : Fault → Exception
  | badLoad _ => .addressErrorLoad
  | badStore _ => .addressErrorStore
  | overflow => .overflow
  | syscall => .syscall
  | breakpoint => .breakpoint
  | reserved => .reservedInstruction
  | unusable _ => .coprocessorUnusable

def Cpu.fail (c : Cpu) : Fault → Cpu
  | .badLoad address => c.addressError .addressErrorLoad address
  | .badStore address => c.addressError .addressErrorStore address
  | .overflow => c.raise .overflow
  | .syscall => c.raise .syscall
  | .breakpoint => c.raise .breakpoint
  | .reserved => c.raise .reservedInstruction
  | .unusable n => c.coprocessorUnusable n

theorem Cpu.entered_fail (c : Cpu) (f : Fault) : c.Entered (c.fail f) f.exception := by
  cases f with
  | badLoad | badStore => exact c.entered_addressError ..
  | unusable n => exact c.entered_unusable n
  | _ => exact c.entered_raise _

namespace Execution

variable {δ : Type}

def fail (x : Execution δ) (f : Fault) : Execution δ := { x with cpu := x.cpu.fail f }

/-- The fault of an access to memory, which is `bad` at some addresses. -/
def accessFault? (x : Execution δ) (bad : UInt32 → Fault) (address : UInt32) (w : Width) :
    Option Fault :=
  if x.isValid address w then none else some (bad address)

/-- The fault of an access to a part of the word around an address. -/
def sideFault? (x : Execution δ) (bad : UInt32 → Fault) (address : UInt32) : Option Fault :=
  if x.cpu.addressAllowed (wordOf address) then none else some (bad address)

/-- The fault of an instruction for a coprocessor, which is asked for first. -/
def copFault? (x : Execution δ) (n : CopNumber) (fault? : Option Fault) : Option Fault :=
  if (n = 0 ∨ n = 2) ∧ x.cpu.cop0.isUsable n then fault? else some (.unusable n)

/-- The fault of an access to memory for a coprocessor. -/
def cop2Fault? (x : Execution δ) (n : CopNumber) (fault? : Option Fault) : Option Fault :=
  if n = 2 ∧ x.cpu.cop0.isUsable 2 then fault? else some (.unusable n)

def moveFault? (x : Execution δ) (n : CopNumber) (op : CopMove) (rd : Reg) : Option Fault :=
  if n ≠ 0 then none
  else match op with
    | .mfc => if (x.cpu.cop0.read? rd).isSome then none else some .reserved
    | .mtc => none
    | .cfc | .ctc => some .reserved

def fault? (x : Execution δ) : Instruction → Option Fault
  | .alu op _ rs rt => if (op.eval (x.reg rs) (x.reg rt)).isSome then none else some .overflow
  | .immediate op _ rs imm => if (op.eval (x.reg rs) imm).isSome then none else some .overflow
  | .load op _ base offset => x.accessFault? .badLoad (x.dataAddress base offset) op.width
  | .store op _ base offset => x.accessFault? .badStore (x.dataAddress base offset) op.width
  | .loadSide _ _ base offset => x.sideFault? .badLoad (x.dataAddress base offset)
  | .storeSide _ _ base offset => x.sideFault? .badStore (x.dataAddress base offset)
  | .copLoad n _ base offset =>
    x.cop2Fault? n (x.accessFault? .badLoad (x.dataAddress base offset) .word)
  | .copStore n _ base offset =>
    x.cop2Fault? n (x.accessFault? .badStore (x.dataAddress base offset) .word)
  | .copMove n op _ rd => x.copFault? n (x.moveFault? n op rd)
  | .rfe => x.copFault? 0 none
  | .cop2Command _ => x.copFault? 2 none
  | .copReserved n _ => x.copFault? n (some .reserved)
  | .syscall => some .syscall
  | .break => some .breakpoint
  | .reserved _ => some .reserved
  | _ => none

variable {x : Execution δ} {f : Fault}

/-! ### Something wrong -/

theorem accessFault?_eq_some {bad : UInt32 → Fault} {address : UInt32} {w : Width}
    (h : x.accessFault? bad address w = some f) :
    x.isValid address w = false ∧ f = bad address := by
  unfold accessFault? at h
  split_ifs at h with hv
  exact ⟨Bool.eq_false_iff.2 hv, (Option.some.inj h).symm⟩

theorem sideFault?_eq_some {bad : UInt32 → Fault} {address : UInt32}
    (h : x.sideFault? bad address = some f) :
    x.cpu.addressAllowed (wordOf address) = false ∧ f = bad address := by
  unfold sideFault? at h
  split_ifs at h with ha
  exact ⟨Bool.eq_false_iff.2 ha, (Option.some.inj h).symm⟩

theorem withUsable_of_fault {n : CopNumber} {inner : Option Fault} {g : Execution δ → Execution δ}
    (h : x.copFault? n inner = some f) (hg : inner = some f → g x = x.fail f) :
    x.withUsable n g = x.fail f := by
  unfold copFault? at h
  unfold withUsable
  split_ifs at h ⊢ with hn
  · exact hg h
  · cases h
    rfl

theorem withCop2_of_fault {n : CopNumber} {inner : Option Fault} {g : Execution δ → Execution δ}
    (h : x.cop2Fault? n inner = some f) (hg : inner = some f → g x = x.fail f) :
    x.withCop2 n g = x.fail f := by
  unfold cop2Fault? at h
  unfold withCop2
  split_ifs at h ⊢ with hn
  · exact hg h
  · cases h
    rfl

theorem setChecked_of_fault {r : Reg} {value : Option UInt32}
    (h : (if value.isSome then none else some Fault.overflow) = some f) :
    x.setChecked r value = x.fail f := by
  cases value with
  | none =>
    cases h
    rfl
  | some value => cases h

theorem moveCop0_of_fault {op : CopMove} {rt rd : Reg} (h : x.moveFault? 0 op rd = some f) :
    x.moveCop0 op rt rd = x.fail f := by
  cases op with
  | mfc =>
    unfold moveFault? at h
    unfold moveCop0
    dsimp only at h ⊢
    cases hr : x.cpu.cop0.read? rd with
    | none =>
      rw [hr] at h
      cases h
      rfl
    | some value =>
      rw [hr] at h
      cases h
  | mtc => cases h
  | cfc | ctc =>
    cases h
    rfl

variable [Device δ]

theorem load_of_fault {address : UInt32} {w : Width}
    (h : x.accessFault? .badLoad address w = some f) : x.load address w = (none, x.fail f) := by
  obtain ⟨hv, rfl⟩ := accessFault?_eq_some h
  unfold load
  rw [if_pos (by simpa using hv)]
  rfl

theorem store_of_fault {address : UInt32} {w : Width}
    (h : x.accessFault? .badStore address w = some f) (value : UInt32) :
    x.store address w value = x.fail f := by
  obtain ⟨hv, rfl⟩ := accessFault?_eq_some h
  unfold store
  rw [if_pos (by simpa using hv)]
  rfl

theorem run_of_fault {i : Instruction} (h : x.fault? i = some f) : x.run i = x.fail f := by
  cases i with
  | alu | immediate => exact setChecked_of_fault h
  | load op rt base offset =>
    have hl : x.load (x.dataAddress base offset) op.width = (none, x.fail f) := load_of_fault h
    unfold run
    dsimp only
    rw [hl]
  | store op rt base offset => exact store_of_fault h _
  | loadSide side rt base offset =>
    obtain ⟨ha, rfl⟩ := sideFault?_eq_some h
    simp only [run, loadSide]
    rw [if_pos (by simpa using ha)]
    rfl
  | storeSide side rt base offset =>
    obtain ⟨ha, rfl⟩ := sideFault?_eq_some h
    simp only [run, storeSide]
    rw [if_pos (by simpa using ha)]
    rfl
  | copLoad n rt base offset =>
    simp only [run]
    exact withCop2_of_fault h fun hf => congrArg (·.2) (load_of_fault hf)
  | copStore n rt base offset =>
    simp only [run]
    exact withCop2_of_fault h fun hf => store_of_fault hf _
  | copMove n op rt rd =>
    simp only [run]
    refine withUsable_of_fault h fun hf => ?_
    by_cases hn : n = 0
    · subst hn
      rw [if_pos rfl]
      exact moveCop0_of_fault hf
    · unfold moveFault? at hf
      rw [if_pos hn] at hf
      cases hf
  | rfe | cop2Command =>
    simp only [run]
    exact withUsable_of_fault h fun hf => by cases hf
  | copReserved n word =>
    simp only [run]
    refine withUsable_of_fault h fun hf => ?_
    cases hf
    rfl
  | syscall | «break» | reserved =>
    cases h
    rfl
  -- the others find nothing wrong
  | _ => cases h

end Execution

end Psx
