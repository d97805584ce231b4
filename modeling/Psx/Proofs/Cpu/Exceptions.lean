import Psx.Cpu.Step

/-!
# Entering an exception

`Cpu.Entered c c' e`: the processor `c` has become `c'` by entering the exception `e`. The program
counter is at the handler, the return address and the delay slot bit say where to go on, and the
registers, the cache and the load in flight are what they were. All ways into an exception are of this
kind, whatever else they note in the system control coprocessor.
-/

namespace Psx

theorem or_and (a b mask : UInt32) : (a ||| b) &&& mask = (a &&& mask) ||| (b &&& mask) := by
  apply UInt32.eq_of_toBitVec_eq
  ext i hi
  simp [Bool.and_or_distrib_right]

namespace Cop0

theorem read_set (c : Cop0) (r r' : Reg) (value : UInt32) :
    (c.set r value).regs.read r' = if r = r' then value else c.regs.read r' := by
  unfold set RegisterFile.write RegisterFile.read
  rw [Fin.getElem_fin, Fin.getElem_fin, Vector.getElem_set]
  simp only [Fin.ext_iff]

variable (c : Cop0)

/-- What is set besides the status does not move the handlers. -/
theorem vector_set {r : Reg} (hr : r ≠ statusReg) (value : UInt32) :
    (c.set r value).vector = c.vector := by
  unfold vector status
  rw [read_set, if_neg hr]

theorem epc_set {r : Reg} (hr : r ≠ epcReg) (value : UInt32) : (c.set r value).epc = c.epc := by
  unfold epc
  rw [read_set, if_neg hr]

theorem vector_setHardwareInterrupt (asserted : Bool) :
    (c.setHardwareInterrupt asserted).vector = c.vector :=
  c.vector_set (by decide) _

section

variable (e : Exception) (epc : UInt32) (inDelaySlot : Bool)

theorem enter_epc : (c.enter e epc inDelaySlot).epc = epc := by
  unfold enter Cop0.epc
  rw [read_set, if_pos rfl]

theorem enter_cause : (c.enter e epc inDelaySlot).cause =
    (c.cause &&& ~~~(delaySlotBit ||| coprocessorErrorMask ||| exceptionCodeMask)) |||
      (e.code <<< 2) ||| if inDelaySlot then delaySlotBit else 0 := by
  unfold enter
  dsimp only
  generalize c.set statusReg _ = c'
  unfold cause
  rw [read_set, if_neg (by decide), read_set, if_pos rfl]

/-- Bits that are cleared before the cause is noted show what is noted. -/
theorem enter_cause_and {mask : UInt32}
    (hm : ~~~(delaySlotBit ||| coprocessorErrorMask ||| exceptionCodeMask) &&& mask = 0) :
    (c.enter e epc inDelaySlot).cause &&& mask =
      (e.code <<< 2 &&& mask) ||| ((if inDelaySlot then delaySlotBit else 0) &&& mask) := by
  rw [enter_cause, or_and, or_and, UInt32.and_assoc, hm, UInt32.and_zero, UInt32.zero_or]

theorem enter_code : (c.enter e epc inDelaySlot).cause &&& exceptionCodeMask = e.code <<< 2 := by
  rw [enter_cause_and _ _ _ _ (by decide)]
  cases e <;> cases inDelaySlot <;> rfl

theorem enter_delaySlot :
    ((c.enter e epc inDelaySlot).cause &&& delaySlotBit != 0) = inDelaySlot := by
  rw [enter_cause_and _ _ _ _ (by decide)]
  cases e <;> cases inDelaySlot <;> rfl

end

theorem setCoprocessorError_epc (n : CopNumber) : (c.setCoprocessorError n).epc = c.epc :=
  c.epc_set (by decide) _

/-- The number of the coprocessor is noted in bits of its own. -/
theorem setCoprocessorError_cause_and (n : CopNumber) {mask : UInt32}
    (hkept : ~~~coprocessorErrorMask &&& mask = mask)
    (hnoted : ∀ n : CopNumber, UInt32.ofNat n <<< 28 &&& mask = 0) :
    (c.setCoprocessorError n).cause &&& mask = c.cause &&& mask := by
  have hcause : (c.setCoprocessorError n).cause =
      (c.cause &&& ~~~coprocessorErrorMask) ||| (UInt32.ofNat n <<< 28) := by
    unfold setCoprocessorError cause
    rw [read_set, if_pos rfl]
  rw [hcause, or_and, UInt32.and_assoc, hkept, hnoted, UInt32.or_zero]

end Cop0

namespace Cpu

/-- The processor has entered an exception. -/
structure Entered (c c' : Cpu) (e : Exception) : Prop where
  regs : c'.regs = c.regs
  hi : c'.hi = c.hi
  lo : c'.lo = c.lo
  cache : c'.cache = c.cache
  delayed : c'.delayed = c.delayed
  pc : c'.pc = c.cop0.vector
  nextPc : c'.nextPc = c'.pc + 4
  branched : c'.branched = false
  epc : c'.cop0.epc = if c.inDelaySlot then c.currentPc - 4 else c.currentPc
  code : c'.cop0.cause &&& Cop0.exceptionCodeMask = e.code <<< 2
  delaySlot : (c'.cop0.cause &&& Cop0.delaySlotBit != 0) = c.inDelaySlot

theorem entered_raise (c : Cpu) (e : Exception) : c.Entered (c.raise e) e where
  regs := rfl
  hi := rfl
  lo := rfl
  cache := rfl
  delayed := rfl
  pc := rfl
  nextPc := rfl
  branched := rfl
  epc := Cop0.enter_epc ..
  code := Cop0.enter_code ..
  delaySlot := Cop0.enter_delaySlot ..

theorem entered_addressError (c : Cpu) (e : Exception) (address : UInt32) :
    c.Entered (c.addressError e address) e := by
  have h := entered_raise { c with cop0 := c.cop0.set Cop0.badAddress address } e
  exact { h with pc := h.pc.trans (c.cop0.vector_set (by decide) address) }

theorem entered_unusable (c : Cpu) (n : CopNumber) :
    c.Entered (c.coprocessorUnusable n) .coprocessorUnusable := by
  have h := entered_raise c .coprocessorUnusable
  have hcause : ∀ {mask : UInt32}, ~~~Cop0.coprocessorErrorMask &&& mask = mask →
      (∀ n : CopNumber, UInt32.ofNat n <<< 28 &&& mask = 0) →
      (c.coprocessorUnusable n).cop0.cause &&& mask =
        (c.raise .coprocessorUnusable).cop0.cause &&& mask :=
    fun hkept hnoted => Cop0.setCoprocessorError_cause_and _ n hkept hnoted
  exact { h with
    epc := (Cop0.setCoprocessorError_epc _ n).trans h.epc
    code := (hcause (by decide) (by decide)).trans h.code
    delaySlot := by rw [hcause (by decide) (by decide)]; exact h.delaySlot }

end Cpu

end Psx
