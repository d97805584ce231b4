import Mathlib.Tactic.IntervalCases
import Psx.Proofs.Bus.Ram
import Psx.Proofs.Cpu.Shadow

/-!
# Interrupts that leave no trace

The shortest handler of an interrupt moves the return address to a register, waits for it with a
`nop`, jumps there and pops the mode stack in the shadow of that jump. An interrupt outside the shadow
of a branch returns to the instruction that it displaced, so behind this handler the program goes on
as if nothing had happened (`Cpu.Run.resumes_interrupted`): only the load in flight has taken effect
early, and the register of the handler has been used.

The three instructions before the last one do nothing but wait (`Execution.Still`), in kernel mode and
with interrupts disabled (`Cop0.Masked`), which is why nothing interrupts them again.
-/

namespace Psx

/-- A register that is left to handlers of exceptions. -/
def Reg.k0 : Reg := 26

namespace Cop0

variable {c : Cop0}

/-- Kernel mode, with interrupts disabled. -/
def Masked (c : Cop0) : Prop := c.status &&& 3 = 0

theorem status_set (c : Cop0) {r : Reg} (hr : r ≠ statusReg) (value : UInt32) :
    (c.set r value).status = c.status := by
  unfold status
  rw [read_set, if_neg hr]

theorem status_setHardwareInterrupt (c : Cop0) (asserted : Bool) :
    (c.setHardwareInterrupt asserted).status = c.status := c.status_set (by decide) _

theorem epc_setHardwareInterrupt (c : Cop0) (asserted : Bool) :
    (c.setHardwareInterrupt asserted).epc = c.epc := c.epc_set (by decide) _

theorem enter_status (c : Cop0) (e : Exception) (epc : UInt32) (inDelaySlot : Bool) :
    (c.enter e epc inDelaySlot).status =
      (c.status &&& ~~~modeMask) ||| (((c.status &&& modeMask) <<< (2 : UInt32)) &&& modeMask) := by
  unfold enter
  dsimp only
  rw [status_set _ (by decide), status_set _ (by decide)]
  unfold status
  rw [read_set, if_pos rfl]

theorem leave_status (c : Cop0) :
    c.leave.status = (c.status &&& 0xFFFFFFF0) ||| ((c.status >>> (2 : UInt32)) &&& 0x0F) := by
  unfold leave status
  dsimp only
  rw [read_set, if_pos rfl]

theorem masked_enter (c : Cop0) (e : Exception) (epc : UInt32) (inDelaySlot : Bool) :
    (c.enter e epc inDelaySlot).Masked := by
  unfold Masked
  rw [enter_status]
  generalize c.status = s
  unfold modeMask
  apply UInt32.eq_of_toBitVec_eq
  ext i hi
  simp
  interval_cases i <;> simp

/-- A return takes back what entering the exception pushed, but for the pair of bits that it
dropped. -/
theorem leave_enter {c' : Cop0} {e : Exception} {address : UInt32} {inDelaySlot : Bool}
    (h : c'.status = (c.enter e address inDelaySlot).status) :
    c'.leave.status &&& ~~~(0x30 : UInt32) = c.status &&& ~~~(0x30 : UInt32) := by
  rw [leave_status, h, enter_status]
  generalize c.status = s
  unfold modeMask
  apply UInt32.eq_of_toBitVec_eq
  ext i hi
  simp
  interval_cases i <;> simp

namespace Masked

theorem of_status {c' : Cop0} (h : c.Masked) (hs : c'.status = c.status) : c'.Masked := by
  unfold Masked
  rw [hs]
  exact h

theorem bit (h : c.Masked) {mask : UInt32} (hm : 3 &&& mask = mask) : c.status &&& mask = 0 := by
  rw [← hm, ← UInt32.and_assoc, h, UInt32.zero_and]

theorem userMode (h : c.Masked) : c.userMode = false := by
  have hu : c.status &&& userModeBit = 0 := h.bit (by decide)
  simp [Cop0.userMode, hu]

theorem interruptPending (h : c.Masked) : c.interruptPending = false := by
  have hi : c.status &&& interruptEnableBit = 0 := h.bit (by decide)
  simp [Cop0.interruptPending, hi]

theorem isUsable (h : c.Masked) : c.isUsable 0 = true := by
  simp [Cop0.isUsable, h.userMode]

end Masked

theorem vector_aligned (c : Cop0) {n : UInt32} (hn : n ∈ [0, 4, 8, 12]) :
    (c.vector + n) &&& 3 = 0 := by
  simp only [List.mem_cons, List.not_mem_nil, or_false] at hn
  unfold vector
  rcases hn with rfl | rfl | rfl | rfl <;> split <;> rfl

end Cop0

namespace Execution

variable {δ : Type} {x : Execution δ}

/-- An instruction that changes no register, though it may issue a load. -/
structure Still (x y : Execution δ) : Prop where
  regs : y.cpu.regs = x.cpu.regs
  hi : y.cpu.hi = x.cpu.hi
  lo : y.cpu.lo = x.cpu.lo
  delayed : y.cpu.delayed = x.cpu.delayed
  written : y.written = x.written

end Execution

namespace Cpu

variable {δ : Type} [Device δ] {c c' : Cpu} {bus : Bus δ}

/-! ### One step -/

omit [Device δ] in
theorem executes_of_masked (h : c.cop0.Masked) (hp : c.pc &&& 3 = 0) : c.executes bus = true := by
  have hb : (c.begun bus).cop0.Masked := h.of_status (c.cop0.status_setHardwareInterrupt _)
  refine executes_iff.2 ⟨hb.interruptPending, ?_⟩
  simp [misfetches, addressAllowed, hb.userMode, hp]

/-- What an instruction leaves that changes no register: a load in flight takes effect, also if the
instruction issues another one. -/
theorem step_of_still (hx : c.executes bus = true) {y : Execution δ}
    (hy : (c.execution bus).run (c.instruction bus) = y) (h : (c.execution bus).Still y)
    (hq : y.issued = none ∨ c.delayed = none) :
    (c.step bus).2.1 = { y.cpu with regs := (c.step bus).2.1.regs, delayed := y.issued } ∧
      (c.step bus).2.1.hi = c.hi ∧ (c.step bus).2.1.lo = c.lo ∧
      ∀ r, (c.step bus).2.1.reg r = c.retireLoad.reg r := by
  have hcpu := c.execution_cpu bus
  have hregs : y.cpu.regs = c.regs := by rw [h.regs, hcpu]; rfl
  have hdelayed : y.cpu.delayed = c.delayed := by rw [h.delayed, hcpu]; rfl
  have hstep : (c.step bus).2.1 = y.cpu.settle 0 y.issued := by
    have hwritten : y.written = 0 := h.written
    rw [← hwritten, ← hy]
    exact congrArg (·.2.1) (step_executed hx)
  have hsettled := settle_eq y.cpu 0 y.issued
  refine ⟨by rw [hstep, ← hsettled], ?_, ?_, fun r => ?_⟩
  · rw [hstep, hsettled, h.hi, hcpu]; rfl
  · rw [hstep, hsettled, h.lo, hcpu]; rfl
  · rw [hstep]
    rcases hq with hi | hd
    · rw [hi]
      exact reg_settle hregs hdelayed r
    · have hd' : y.cpu.delayed = none := hdelayed.trans hd
      unfold settle retireLoad
      rw [hd', hd]
      exact reg_congr hregs r

omit [Device δ] in
theorem reg_retireLoad_none (h : c.delayed = none) (r : Reg) : c.retireLoad.reg r = c.reg r := by
  unfold retireLoad
  rw [h]

omit [Device δ] in
theorem reg_retireLoad_k0 {value : UInt32} (h : c.delayed = some { reg := .ofNat Reg.k0, value })
    (r : Reg) :
    c.retireLoad.reg r = if r = .k0 then value else c.reg r := by
  unfold retireLoad
  rw [h]
  show Cpu.reg { c with delayed := none, regs := c.regs.write .k0 value } r = _
  unfold reg RegisterFile.read RegisterFile.write
  dsimp only
  rw [Fin.getElem_fin, Fin.getElem_fin, Vector.getElem_set]
  by_cases hr : r = .k0
  · subst hr
    rfl
  · have hne : (Reg.k0 : Reg).val ≠ r.val := fun e => hr (Fin.ext e.symm)
    rw [if_neg hr, if_neg hne]

theorem fetched_uncached (h : usesCache bus c.pc = false) :
    (c.fetched bus).1 = (bus.read c.pc .word).1 := by
  unfold fetched fetch
  rw [h]
  rfl

/-! ### The handler -/

/-- The program that was interrupted, while a handler is under way that only goes back. -/
structure Handling (c c' : Cpu) : Prop where
  hi : c'.hi = c.hi
  lo : c'.lo = c.lo
  status : c'.cop0.status = (c.cop0.enter .interrupt c.pc false).status
  epc : c'.cop0.epc = c.pc
  regs : ∀ r, r ≠ .k0 → c'.reg r = c.retireLoad.reg r

namespace Handling

omit [Device δ] in
theorem masked (h : c.Handling c') : c'.cop0.Masked := (c.cop0.masked_enter ..).of_status h.status

theorem interrupted (hi : c.isInterrupted bus = true) (hb : c.branched = false) :
    c.Handling (c.step bus).2.1 ∧ (c.step bus).2.1.delayed = none := by
  have he : c.exception? bus = some .interrupt := if_pos hi
  obtain ⟨-, -, -, -, hepc, -⟩ := step_of_exception he
  rw [hb] at hepc
  have hstep : (c.step bus).2.1 = (c.begun bus).retireLoad.raise .interrupt :=
    congrArg (·.2.1) (step_interrupted hi)
  have hretired := retireLoad_eq (c.begun bus)
  have hcop0 : (c.begun bus).retireLoad.cop0 = (c.begun bus).cop0 := by rw [hretired]
  have hregs : (c.begun bus).retireLoad.regs = c.retireLoad.regs := retireLoad_congr rfl rfl
  refine ⟨⟨?_, ?_, ?_, hepc, fun r _ => ?_⟩, ?_⟩ <;> rw [hstep]
  · show (c.begun bus).retireLoad.hi = _
    rw [hretired]; rfl
  · show (c.begun bus).retireLoad.lo = _
    rw [hretired]; rfl
  · show ((c.begun bus).retireLoad.cop0.enter ..).status = _
    rw [hcop0, Cop0.enter_status, Cop0.enter_status]
    rw [show (c.begun bus).cop0.status = c.cop0.status from Cop0.status_setHardwareInterrupt ..]
  · exact reg_congr hregs r
  · show (c.begun bus).retireLoad.delayed = none
    rw [hretired]

/-- An instruction that waits leaves the program as it is; the register that it may load is not one
of the program's. -/
theorem step (h : c.Handling c') (hx : c'.executes bus = true) {y : Execution δ}
    (hy : (c'.execution bus).run (c'.instruction bus) = y) (hs : (c'.execution bus).Still y)
    (hc : y.cpu.cop0 = (c'.execution bus).cpu.cop0) (hq : y.issued = none ∨ c'.delayed = none)
    (hr : ∀ r, r ≠ .k0 → c'.retireLoad.reg r = c'.reg r) : c.Handling (c'.step bus).2.1 := by
  obtain ⟨hstep, hhi, hlo, hregs⟩ := step_of_still hx hy hs hq
  have hcop0 : (c'.step bus).2.1.cop0 = (c'.begun bus).cop0 := by
    rw [hstep, hc, execution_cpu]
  refine ⟨hhi.trans h.hi, hlo.trans h.lo, ?_, ?_, fun r hk => ?_⟩
  · rw [hcop0]
    exact (Cop0.status_setHardwareInterrupt ..).trans h.status
  · rw [hcop0]
    exact (Cop0.epc_setHardwareInterrupt ..).trans h.epc
  · rw [hregs, hr r hk, h.regs r hk]

/-- The return address is on its way. -/
theorem fetchEpc (h : c.Handling c') (hp : c'.pc &&& 3 = 0) (hd : c'.delayed = none)
    (hi : c'.instruction bus = .copMove 0 .mfc .k0 Cop0.epcReg) :
    c.Handling (c'.step bus).2.1 ∧ (c'.step bus).2.1.pc = c'.nextPc ∧
      (c'.step bus).2.1.nextPc = c'.nextPc + 4 ∧
      (c'.step bus).2.1.delayed = some { reg := .ofNat Reg.k0, value := c.pc } := by
  have hx : c'.executes bus = true := executes_of_masked h.masked hp
  have hcpu := c'.execution_cpu bus
  have hcop0 : (c'.execution bus).cpu.cop0 = (c'.begun bus).cop0 := by rw [hcpu]
  have husable : (c'.execution bus).cpu.cop0.isUsable 0 = true := by
    rw [hcop0]
    exact (h.masked.of_status (Cop0.status_setHardwareInterrupt ..)).isUsable
  have hepc : (c'.execution bus).cpu.cop0.read? Cop0.epcReg = some c.pc := by
    rw [hcop0, ← h.epc]
    exact congrArg some (Cop0.epc_setHardwareInterrupt ..)
  have hy : (c'.execution bus).run (c'.instruction bus) = { c'.execution bus with
      issued := some { reg := .ofNat Reg.k0, value := c.pc } } := by
    rw [hi]
    simp only [Execution.run, Execution.withUsable, husable, Execution.moveCop0, hepc]
    rfl
  have hs : (c'.execution bus).Still { c'.execution bus with
      issued := some { reg := .ofNat Reg.k0, value := c.pc } } := ⟨rfl, rfl, rfl, rfl, rfl⟩
  have hstep := (step_of_still hx hy hs (.inr hd)).1
  refine ⟨h.step hx hy hs rfl (.inr hd) fun r _ => reg_retireLoad_none hd r, ?_, ?_, ?_⟩
  · rw [hstep, hcpu]
  · rw [hstep, hcpu]
  · rw [hstep]

/-- The return address has arrived. -/
theorem wait (h : c.Handling c') (hp : c'.pc &&& 3 = 0)
    (hd : c'.delayed = some { reg := .ofNat Reg.k0, value := c.pc })
    (hi : c'.instruction bus = .nop) :
    c.Handling (c'.step bus).2.1 ∧ (c'.step bus).2.1.pc = c'.nextPc ∧
      (c'.step bus).2.1.nextPc = c'.nextPc + 4 ∧ (c'.step bus).2.1.delayed = none ∧
      (c'.step bus).2.1.reg .k0 = c.pc := by
  have hx : c'.executes bus = true := executes_of_masked h.masked hp
  have hcpu := c'.execution_cpu bus
  have hy : (c'.execution bus).run (c'.instruction bus) = c'.execution bus := by rw [hi]; rfl
  have hs : (c'.execution bus).Still (c'.execution bus) := ⟨rfl, rfl, rfl, rfl, rfl⟩
  obtain ⟨hstep, -, -, hregs⟩ := step_of_still hx hy hs (.inl rfl)
  refine ⟨h.step hx hy hs rfl (.inl rfl) fun r hr => ?_, ?_, ?_, ?_, ?_⟩
  · rw [reg_retireLoad_k0 hd, if_neg hr]
  · rw [hstep, hcpu]
  · rw [hstep, hcpu]
  · rw [hstep]; rfl
  · rw [hregs, reg_retireLoad_k0 hd, if_pos rfl]

/-- The jump goes back when one more instruction has been executed. -/
theorem jump (h : c.Handling c') (hp : c'.pc &&& 3 = 0) (hd : c'.delayed = none)
    (hk : c'.reg .k0 = c.pc) (hi : c'.instruction bus = .jr .k0) :
    c.Handling (c'.step bus).2.1 ∧ (c'.step bus).2.1.pc = c'.nextPc ∧
      (c'.step bus).2.1.nextPc = c.pc ∧ (c'.step bus).2.1.delayed = none := by
  have hx : c'.executes bus = true := executes_of_masked h.masked hp
  have hcpu := c'.execution_cpu bus
  have hy : (c'.execution bus).run (c'.instruction bus) = (c'.execution bus).jumpTo c.pc := by
    rw [hi, ← hk]
    show (c'.execution bus).jumpTo ((c'.execution bus).cpu.reg .k0) = _
    rw [reg_congr (c := c') (by rw [hcpu]; rfl)]
  have hs : (c'.execution bus).Still ((c'.execution bus).jumpTo c.pc) := ⟨rfl, rfl, rfl, rfl, rfl⟩
  have hstep := (step_of_still hx hy hs (.inl rfl)).1
  refine ⟨h.step hx hy hs rfl (.inl rfl) fun r _ => reg_retireLoad_none hd r, ?_, ?_, ?_⟩
  · rw [hstep]
    show (c'.execution bus).cpu.pc = _
    rw [hcpu]
  · rw [hstep]; rfl
  · rw [hstep]; rfl

end Handling

/-- The program goes on as if nothing had happened, but for the register of the handler and for the
load in flight, which has taken effect. -/
structure Resumed (c c' : Cpu) : Prop where
  pc : c'.pc = c.pc
  nextPc : c'.nextPc = c.nextPc
  branched : c'.branched = c.branched
  hi : c'.hi = c.hi
  lo : c'.lo = c.lo
  /-- All of the status but the oldest pair of mode bits. -/
  status : c'.cop0.status &&& ~~~(0x30 : UInt32) = c.cop0.status &&& ~~~(0x30 : UInt32)
  regs : ∀ r, r ≠ .k0 → c'.reg r = c.retireLoad.reg r
  delayed : c'.delayed = none

/-- The return, in the shadow of the jump. -/
theorem Handling.leave (h : c.Handling c') (hp : c'.pc &&& 3 = 0) (hd : c'.delayed = none)
    (hback : c'.nextPc = c.pc) (hc : c.nextPc = c.pc + 4) (hb : c.branched = false)
    (hi : c'.instruction bus = .rfe) : c.Resumed (c'.step bus).2.1 := by
  have hx : c'.executes bus = true := executes_of_masked h.masked hp
  have hcpu := c'.execution_cpu bus
  have hcop0 : (c'.execution bus).cpu.cop0 = (c'.begun bus).cop0 := by rw [hcpu]
  have hstatus : (c'.execution bus).cpu.cop0.status = c'.cop0.status := by
    rw [hcop0]
    exact Cop0.status_setHardwareInterrupt ..
  have husable : (c'.execution bus).cpu.cop0.isUsable 0 = true :=
    (h.masked.of_status hstatus).isUsable
  have hy : (c'.execution bus).run (c'.instruction bus) = { c'.execution bus with
      cpu.cop0 := (c'.execution bus).cpu.cop0.leave } := by
    rw [hi]
    simp only [Execution.run, Execution.withUsable, husable]
    rfl
  have hs : (c'.execution bus).Still { c'.execution bus with
      cpu.cop0 := (c'.execution bus).cpu.cop0.leave } := ⟨rfl, rfl, rfl, rfl, rfl⟩
  obtain ⟨hstep, hhi, hlo, hregs⟩ := step_of_still hx hy hs (.inl rfl)
  refine ⟨?_, ?_, ?_, hhi.trans h.hi, hlo.trans h.lo, ?_, fun r hk => ?_, ?_⟩
  · rw [hstep]
    show (c'.execution bus).cpu.pc = _
    rw [hcpu, ← hback]
  · rw [hstep]
    show (c'.execution bus).cpu.nextPc = _
    rw [hcpu, hc, ← hback]
  · rw [hstep]
    show (c'.execution bus).cpu.branched = _
    rw [hcpu, hb]
    rfl
  · rw [hstep]
    exact Cop0.leave_enter (hstatus.trans h.status)
  · rw [hregs, reg_retireLoad_none hd, h.regs r hk]
  · rw [hstep]; rfl

/-- An interrupt outside the shadow of a branch leaves no trace: behind a handler that only goes back
the program goes on as if nothing had happened, and nothing interrupts the handler. What the bus
answers may change from step to step. -/
theorem Run.resumes_interrupted (h : Run δ c none) {b b₁ b₂ b₃ b₄ : Bus δ}
    (hi : c.isInterrupted b = true) :
    let c₁ := (c.step b).2.1
    let c₂ := (c₁.step b₁).2.1
    let c₃ := (c₂.step b₂).2.1
    let c₄ := (c₃.step b₃).2.1
    c.nextPc = c.pc + 4 ∧ c₁.pc = c.cop0.vector ∧
      (c₁.instruction b₁ = .copMove 0 .mfc .k0 Cop0.epcReg → c₂.instruction b₂ = .nop →
        c₃.instruction b₃ = .jr .k0 → c₄.instruction b₄ = .rfe →
        [c₂.pc, c₃.pc, c₄.pc] = [c₁.pc + 4, c₁.pc + 8, c₁.pc + 12] ∧
        [c₁.isInterrupted b₁, c₂.isInterrupted b₂, c₃.isInterrupted b₃, c₄.isInterrupted b₄] =
          [false, false, false, false] ∧
        c.Resumed (c₄.step b₄).2.1) := by
  intro c₁ c₂ c₃ c₄
  have hf := h.follows
  have hb : c.branched = false := hf.branched
  have hnext : c.nextPc = c.pc + 4 := hf.nextPc rfl
  have he : c.exception? b = some .interrupt := if_pos hi
  obtain ⟨hpc₁, hnext₁, -⟩ := step_of_exception he
  obtain ⟨h₁, hd₁⟩ := Handling.interrupted hi hb
  refine ⟨hnext, hpc₁, fun i₁ i₂ i₃ i₄ => ?_⟩
  have halign : ∀ n ∈ [0, 4, 8, 12], (c₁.pc + n) &&& 3 = 0 := fun n hn => by
    rw [show c₁.pc = c.cop0.vector from hpc₁]
    exact c.cop0.vector_aligned hn
  have ha₁ : c₁.pc &&& 3 = 0 := by simpa using halign 0 (by simp)
  obtain ⟨h₂, hpc₂, hnext₂, hd₂⟩ := h₁.fetchEpc ha₁ hd₁ i₁
  have e₂ : c₂.pc = c₁.pc + 4 := hpc₂.trans hnext₁
  have ha₂ : c₂.pc &&& 3 = 0 := by rw [e₂]; exact halign 4 (by simp)
  obtain ⟨h₃, hpc₃, hnext₃, hd₃, hk₃⟩ := h₂.wait ha₂ hd₂ i₂
  have e₃ : c₃.pc = c₁.pc + 8 := by
    rw [hpc₃, hnext₂, hnext₁, UInt32.add_assoc]; rfl
  have ha₃ : c₃.pc &&& 3 = 0 := by rw [e₃]; exact halign 8 (by simp)
  obtain ⟨h₄, hpc₄, hnext₄, hd₄⟩ := h₃.jump ha₃ hd₃ hk₃ i₃
  have e₄ : c₄.pc = c₁.pc + 12 := by
    rw [hpc₄, hnext₃, hnext₂, hnext₁, UInt32.add_assoc, UInt32.add_assoc]; rfl
  have ha₄ : c₄.pc &&& 3 = 0 := by rw [e₄]; exact halign 12 (by simp)
  have hquiet : ∀ {c' : Cpu}, c.Handling c' → ∀ b' : Bus δ, c'.isInterrupted b' = false :=
    fun h' b' => (h'.masked.of_status (Cop0.status_setHardwareInterrupt ..)).interruptPending
  refine ⟨by rw [e₂, e₃, e₄], ?_, h₄.leave ha₄ hd₄ hnext₄ hnext hb i₄⟩
  rw [hquiet h₁, hquiet h₂, hquiet h₃, hquiet h₄]

/-- A bus that asks for an interrupt. -/
def interrupting : Bus Empty :=
  { (Bus.ofConfig {} : Bus Empty) with board.lines.interrupts := { status := 1, mask := 1 } }

/-- A bus that asks for an interrupt and holds such a handler. -/
def handling : Bus Empty :=
  [(0x80000080, 0x401A7000), (0x80000084, 0), (0x80000088, 0x03400008),
    (0x8000008C, 0x42000010)].foldl (fun bus (address, word) => bus.write address .word word)
      interrupting

theorem read_handling : (handling.read 0x80000080 .word).1 = 0x401A7000 ∧
    (handling.read 0x80000084 .word).1 = 0 ∧ (handling.read 0x80000088 .word).1 = 0x03400008 ∧
    (handling.read 0x8000008C .word).1 = 0x42000010 := by
  have h₀ : interrupting.memory.hasSizes = true := Memory.hasSizes_initial
  have hw : ∀ {bus : Bus Empty}, bus.memory.hasSizes = true → ∀ a v,
      (bus.write a .word v).memory.hasSizes = true := fun h a v => (Bus.frame_write ..).sizes h
  unfold handling
  simp only [List.foldl]
  refine ⟨?_, ?_, ?_, ?_⟩
  · iterate 3 rw [Bus.read_write_ram_apart (by decide) (by decide) (by decide)]
    exact Bus.read_write_ram h₀ (by decide) _
  · iterate 2 rw [Bus.read_write_ram_apart (by decide) (by decide) (by decide)]
    exact Bus.read_write_ram (hw h₀ ..) (by decide) _
  · rw [Bus.read_write_ram_apart (by decide) (by decide) (by decide)]
    exact Bus.read_write_ram (hw (hw h₀ ..) ..) (by decide) _
  · exact Bus.read_write_ram (hw (hw (hw h₀ ..) ..) ..) (by decide) _

theorem instruction_handling {c c₁ c₂ c₃ c₄ : Cpu} (hi : c.isInterrupted handling = true)
    (hb : c.branched = false) (hv : c.cop0.vector = 0x80000080) (e₁ : c₁ = (c.step handling).2.1)
    (e₂ : c₂ = (c₁.step handling).2.1) (e₃ : c₃ = (c₂.step handling).2.1)
    (e₄ : c₄ = (c₃.step handling).2.1) :
    c₁.instruction handling = .copMove 0 .mfc .k0 Cop0.epcReg ∧ c₂.instruction handling = .nop ∧
      c₃.instruction handling = .jr .k0 ∧ c₄.instruction handling = .rfe := by
  obtain ⟨hr₁, hr₂, hr₃, hr₄⟩ := read_handling
  have hfetch : ∀ {c' : Cpu} {address word : UInt32}, c'.pc = address →
      usesCache handling address = false → (handling.read address .word).1 = word →
      c'.instruction handling = .decode word := fun hpc hu hr => by
    rw [instruction, fetched_uncached (by rw [hpc]; exact hu), hpc, hr]
  have he : c.exception? handling = some .interrupt := if_pos hi
  obtain ⟨hpc₁, hnext₁, -⟩ := step_of_exception he
  obtain ⟨h₁, hd₁⟩ := Handling.interrupted hi hb
  rw [← e₁] at hpc₁ hnext₁ h₁ hd₁
  rw [hv] at hpc₁
  have i₁ : c₁.instruction handling = .copMove 0 .mfc .k0 Cop0.epcReg :=
    (hfetch hpc₁ (by decide +kernel) hr₁).trans (by decide +kernel)
  obtain ⟨h₂, hpc₂, hnext₂, hd₂⟩ := h₁.fetchEpc (by rw [hpc₁]; decide) hd₁ i₁
  rw [← e₂] at h₂ hpc₂ hnext₂ hd₂
  rw [hnext₁, hpc₁] at hpc₂ hnext₂
  have i₂ : c₂.instruction handling = .nop :=
    (hfetch hpc₂ (by decide +kernel) hr₂).trans (by decide +kernel)
  obtain ⟨h₃, hpc₃, hnext₃, hd₃, hk₃⟩ := h₂.wait (by rw [hpc₂]; decide) hd₂ i₂
  rw [← e₃] at h₃ hpc₃ hnext₃ hd₃ hk₃
  rw [hnext₂] at hpc₃ hnext₃
  have i₃ : c₃.instruction handling = .jr .k0 :=
    (hfetch hpc₃ (by decide +kernel) hr₃).trans (by decide +kernel)
  obtain ⟨-, hpc₄, -⟩ := h₃.jump (by rw [hpc₃]; decide) hd₃ hk₃ i₃
  rw [← e₄, hnext₃] at hpc₄
  exact ⟨i₁, i₂, i₃, (hfetch hpc₄ (by decide +kernel) hr₄).trans (by decide +kernel)⟩

/-- The load in flight is to register 1. -/
theorem Run.resumes_interrupted_load :
    let c : Cpu := { Cpu.initial.setCop0Reg 12 0x401 with
      delayed := some { reg := 1, value := 7 } }.setPc Address.scratchpadFirst
    let c₁ := (c.step handling).2.1
    let c₂ := (c₁.step handling).2.1
    let c₃ := (c₂.step handling).2.1
    let c₄ := (c₃.step handling).2.1
    c.isInterrupted handling = true ∧ c₄.instruction handling = .rfe ∧
      c.Resumed (c₄.step handling).2.1 ∧ (c₄.step handling).2.1.reg 1 = 7 := by
  intro c
  have hi : c.isInterrupted handling = true := by decide +kernel
  have hv : c.cop0.vector = 0x80000080 := by decide +kernel
  have hb : c.branched = false := rfl
  have hr : c.retireLoad.reg 1 = 7 := by decide +kernel
  have hrun : Run Empty c none := .setPc ..
  -- the steps are those of any such processor, and nothing has to be evaluated
  clear_value c
  intro c₁ c₂ c₃ c₄
  obtain ⟨i₁, i₂, i₃, i₄⟩ := instruction_handling hi hb hv (rfl : c₁ = _) (rfl : c₂ = _)
    (rfl : c₃ = _) (rfl : c₄ = _)
  obtain ⟨-, -, h⟩ := (hrun.resumes_interrupted hi).2.2 i₁ i₂ i₃ i₄
  exact ⟨hi, i₄, h, (h.regs 1 (by decide)).trans hr⟩

end Cpu

end Psx
