import Mathlib.Algebra.Ring.Nat
import Psx.Cpu.Trace
import Psx.Proofs.Cpu.Precise

/-!
# What the lines of a trace say

A line shows the address and the word that the processor has noted last (`Cpu.noted`), and a reader
can tell both from it (`Trace.text_eq_iff`). A step notes the address at which it begins and the word
that it fetches there, or 0 if it cannot fetch; but a step that is interrupted, which fetches nothing
either, leaves the word of the step before it (`Cpu.noted_step`). The line behind a step therefore
describes that step, except behind an interrupt, where it pairs the address with the word that some
step before fetched somewhere else (`Cpu.traced_iff`).
-/

namespace Psx

/-- The address and the word that a line of a trace shows. -/
def Cpu.noted (c : Cpu) : UInt32 × UInt32 := (c.currentPc, c.currentInstruction)

/-! ### Instructions note nothing -/

namespace Execution

variable {δ : Type} (x : Execution δ)

theorem noted_setReg (r : Reg) (v : UInt32) : (x.setReg r v).cpu.noted = x.cpu.noted := by
  unfold setReg Cpu.setReg
  split_ifs <;> rfl

theorem noted_issue (r : Reg) (v : UInt32) : (x.issue r v).cpu.noted = x.cpu.noted := by
  unfold issue
  split_ifs <;> rfl

theorem noted_setChecked (r : Reg) (v : Option UInt32) :
    (x.setChecked r v).cpu.noted = x.cpu.noted := by
  cases v with
  | none => rfl
  | some v => exact x.noted_setReg r v

theorem noted_branchIf (taken : Bool) (offset : UInt32) :
    (x.branchIf taken offset).cpu.noted = x.cpu.noted := by cases taken <;> rfl

theorem noted_chargeWrite (address : UInt32) : (x.chargeWrite address).cpu.noted = x.cpu.noted := by
  unfold chargeWrite
  split_ifs <;> rfl

theorem noted_withCop2 (n : CopNumber) {f : Execution δ → Execution δ}
    (hf : (f x).cpu.noted = x.cpu.noted) : (x.withCop2 n f).cpu.noted = x.cpu.noted := by
  unfold withCop2
  split_ifs
  · exact hf
  · rfl

theorem noted_withUsable (n : CopNumber) {f : Execution δ → Execution δ}
    (hf : (f x).cpu.noted = x.cpu.noted) : (x.withUsable n f).cpu.noted = x.cpu.noted := by
  unfold withUsable
  split_ifs
  · exact hf
  · rfl

theorem noted_moveCop0 (op : CopMove) (rt rd : Reg) :
    (x.moveCop0 op rt rd).cpu.noted = x.cpu.noted := by
  cases op with
  | mfc =>
    unfold moveCop0
    dsimp only
    split
    · exact x.noted_issue ..
    · rfl
  | mtc | cfc | ctc => rfl

theorem noted_moveCop2 (op : CopMove) (rt : Reg) : (x.moveCop2 op rt).cpu.noted = x.cpu.noted := by
  cases op with
  | mfc | cfc => exact x.noted_issue ..
  | mtc | ctc => rfl

variable [Device δ]

theorem noted_load (address : UInt32) (w : Width) :
    (x.load address w).2.cpu.noted = x.cpu.noted := by
  unfold load
  split_ifs <;> rfl

/-- What is done with a loaded value. -/
theorem noted_loaded (address : UInt32) (w : Width) {f : Execution δ → UInt32 → Execution δ}
    (hf : ∀ y v, (f y v).cpu.noted = y.cpu.noted) :
    (match x.load address w with
      | (none, y) => y
      | (some v, y) => f y v).cpu.noted = x.cpu.noted := by
  have hl := x.noted_load address w
  revert hl
  obtain ⟨v, y⟩ := x.load address w
  intro hl
  cases v with
  | none => exact hl
  | some v => exact (hf y v).trans hl

theorem noted_storeAt (address : UInt32) (w : Width) (value : UInt32) :
    (x.storeAt address w value).cpu.noted = x.cpu.noted := by
  unfold storeAt
  split_ifs <;> rfl

theorem noted_store (address : UInt32) (w : Width) (value : UInt32) :
    (x.store address w value).cpu.noted = x.cpu.noted := by
  unfold store
  split_ifs
  · rfl
  · rw [noted_storeAt, noted_chargeWrite]

theorem noted_loadSide (side : Side) (rt base : Reg) (offset : UInt32) :
    (x.loadSide side rt base offset).cpu.noted = x.cpu.noted := by
  unfold loadSide
  dsimp only
  split_ifs
  · rfl
  · exact x.noted_loaded _ _
      (f := fun y word => y.issue rt (side.merge (y.regForMerge rt) word _))
      fun y _ => y.noted_issue ..

theorem noted_storeSide (side : Side) (rt base : Reg) (offset : UInt32) :
    (x.storeSide side rt base offset).cpu.noted = x.cpu.noted := by
  unfold storeSide
  dsimp only
  split_ifs
  · rfl
  · rw [← x.noted_chargeWrite (wordOf (x.dataAddress base offset))]
    generalize x.chargeWrite _ = y
    induction side.pieces (x.dataAddress base offset) generalizing y with
    | nil => rfl
    | cons piece pieces ih => exact (ih _).trans (y.noted_storeAt ..)

theorem noted_run (i : Instruction) : (x.run i).cpu.noted = x.cpu.noted := by
  cases i with
  | nop | mulDiv | mthi | mtlo | jump | jr => rfl
  | shift | shiftVar | logic | lui | mfhi | mflo => exact x.noted_setReg ..
  | alu | immediate => exact x.noted_setChecked ..
  | jumpLink | jalr => exact x.noted_setReg ..
  | branchEq | branchZero => exact x.noted_branchIf ..
  | branchSign op link rs offset =>
    unfold run
    dsimp only
    rw [noted_branchIf]
    split_ifs
    · exact x.noted_setReg ..
    · rfl
  | load op rt base offset =>
    exact x.noted_loaded _ _ (f := fun y v => y.issue rt (op.extend v)) fun y _ => y.noted_issue ..
  | store => exact x.noted_store ..
  | loadSide => exact x.noted_loadSide ..
  | storeSide => exact x.noted_storeSide ..
  | copLoad n => exact x.noted_withCop2 n (x.noted_load ..)
  | copStore n => exact x.noted_withCop2 n (x.noted_store ..)
  | copMove n op rt rd =>
    refine x.noted_withUsable n ?_
    split_ifs
    · exact x.noted_moveCop0 ..
    · exact x.noted_moveCop2 ..
  | rfe => exact x.noted_withUsable 0 rfl
  | cop2Command => exact x.noted_withUsable 2 rfl
  | copReserved n => exact x.noted_withUsable n rfl
  | syscall | «break» | reserved => rfl

end Execution

/-! ### What a step notes -/

namespace Cpu

theorem noted_settle (c : Cpu) (written : Reg) (issued : Option DelayedLoad) :
    (c.settle written issued).noted = c.noted := by
  rw [settle_eq]
  rfl

theorem noted_retireLoad (c : Cpu) : c.retireLoad.noted = c.noted := by
  rw [retireLoad_eq]
  rfl

variable {δ : Type} [Device δ]

/-- The word that a step fetches, if it fetches one. -/
def fetchedWord? (c : Cpu) (bus : Bus δ) : Option UInt32 :=
  if c.executes bus then some (c.fetched bus).1 else none

theorem noted_step (c : Cpu) (bus : Bus δ) :
    (c.step bus).2.1.noted =
      (c.pc, if c.isInterrupted bus then c.currentInstruction
        else (c.fetchedWord? bus).getD 0) := by
  cases hi : c.isInterrupted bus with
  | true =>
    rw [step_interrupted hi]
    exact (c.begun bus).noted_retireLoad
  | false =>
    cases hm : c.misfetches bus with
    | true =>
      have hx : c.executes bus = false := by simp [executes, hm]
      rw [step_misfetched hi hm, fetchedWord?, hx]
      exact noted_retireLoad _
    | false =>
      have hx : c.executes bus = true := executes_iff.2 ⟨hi, hm⟩
      rw [congrArg (·.2.1) (step_executed hx), fetchedWord?, hx]
      dsimp only
      rw [noted_settle, Execution.noted_run, execution_cpu]
      rfl

/-! ### Runs -/

/-- The processor behind a run of steps, each with the bus as it finds it. -/
def after (c : Cpu) : List (Bus δ) → Cpu
  | [] => c
  | bus :: buses => (c.step bus).2.1.after buses

/-- The word of the last step of a run that was not interrupted, or `word` if there is none. -/
def lastWord (c : Cpu) (word : UInt32) : List (Bus δ) → UInt32
  | [] => word
  | bus :: buses =>
    (c.step bus).2.1.lastWord
      (if c.isInterrupted bus then word else (c.fetchedWord? bus).getD 0) buses

theorem currentInstruction_after (c : Cpu) (buses : List (Bus δ)) :
    (c.after buses).currentInstruction = c.lastWord c.currentInstruction buses := by
  induction buses generalizing c with
  | nil => rfl
  | cons bus buses ih =>
    have hword := congrArg Prod.snd (c.noted_step bus)
    unfold noted at hword
    dsimp only at hword
    unfold after lastWord
    rw [ih, hword]

end Cpu

/-! ### What a line tells -/

theorem hexDigit_inj {m n : Nat} (hm : m < 16) (hn : n < 16) (h : hexDigit m = hexDigit n) :
    m = n := by
  have hall : ∀ a b : Fin 16, hexDigit a = hexDigit b → a = b := by decide
  exact congrArg Fin.val (hall ⟨m, hm⟩ ⟨n, hn⟩ h)

theorem length_hexDigits (digits n : Nat) : (hexDigits digits n).length = digits := by
  induction digits generalizing n with
  | zero => rfl
  | succ digits ih => rw [hexDigits, List.length_append, ih, List.length_singleton]

theorem hexDigits_inj {digits m n : Nat} (hm : m < 16 ^ digits) (hn : n < 16 ^ digits)
    (h : hexDigits digits m = hexDigits digits n) : m = n := by
  induction digits generalizing m n with
  | zero => omega
  | succ digits ih =>
    rw [hexDigits, hexDigits] at h
    obtain ⟨hhigh, hlow⟩ := List.append_inj' h rfl
    have hdiv := ih (by omega) (by omega) hhigh
    have hmod := hexDigit_inj (by omega) (by omega) (List.singleton_inj.1 hlow)
    omega

theorem hexDigits_word_inj {m n : UInt32} (h : hexDigits 8 m.toNat = hexDigits 8 n.toNat) :
    m = n := UInt32.toNat_inj.1 (hexDigits_inj m.toNat_lt n.toNat_lt h)

namespace Trace

/-- A line, as it reads when all of it has been written. -/
def text (cpu : Cpu) (regs : List UInt8) : String := String.join (line cpu regs)

theorem toList_wordPieces (n : UInt32) :
    (String.join (wordPieces n)).toList = hexDigits 8 n.toNat := by
  unfold wordPieces
  dsimp only
  generalize hexDigits 8 n.toNat = digits
  generalize hz : (digits.take 7).takeWhile (· = '0') = zeros
  have hprefix : zeros <+: digits :=
    hz ▸ (List.takeWhile_prefix _).trans (List.take_prefix ..)
  obtain ⟨rest, rfl⟩ := hprefix
  simp [String.toList_join, List.flatMap_map]

/-- A line begins with the address and the word, in eight digits each. -/
theorem toList_text (cpu : Cpu) (regs : List UInt8) :
    (text cpu regs).toList = "PC=0x".toList ++ (hexDigits 8 cpu.currentPc.toNat ++
      (" [0x".toList ++ (hexDigits 8 cpu.currentInstruction.toNat ++ (String.join
        (["] ", Instruction.disassemble cpu.currentInstruction cpu.currentPc]
          ++ (shown regs).flatMap (fun r => [" r", toString r.val, "="] ++ wordPieces (cpu.reg r))
          ++ ["\n"])).toList))) := by
  unfold text line
  simp only [List.append_assoc, String.join_append, String.toList_append, toList_wordPieces]
  simp [String.toList_join]

/-- Lines that differ in the word differ. -/
theorem text_eq_iff (cpu : Cpu) (word : UInt32) (regs : List UInt8) :
    text cpu regs = text { cpu with currentInstruction := word } regs ↔
      cpu.currentInstruction = word := by
  constructor
  · intro h
    have htext := congrArg String.toList h
    rw [toList_text, toList_text, List.append_cancel_left_eq, List.append_cancel_left_eq,
      List.append_cancel_left_eq] at htext
    refine hexDigits_word_inj (List.append_inj_left htext ?_)
    rw [length_hexDigits, length_hexDigits]
  · rintro rfl
    rfl

theorem writeAll_text (written : String) (pieces : List String) :
    (Sink.text written).writeAll pieces = (true, .text (written ++ String.join pieces)) := by
  induction pieces generalizing written with
  | nil => simp [Sink.writeAll]
  | cons piece pieces ih =>
    rw [String.join_cons, ← String.append_assoc]
    exact ih _

end Trace

/-- What a tracer writes that may still write. -/
theorem Tracer.output_trace {t : Tracer} {written : String} (he : t.enabled = true)
    (hf : t.isFull = false) (hs : t.sink = .text written) (cpu : Cpu) (regs : List UInt8) :
    (t.trace cpu regs).2.sink.output = written ++ Trace.text cpu regs := by
  unfold trace
  rw [he, hf, hs, Trace.writeAll_text]
  rfl

namespace Cpu

variable {δ : Type} [Device δ]

/-- Behind any run the line of the next step shows the address at which that step began, and the
word that it fetched there, or 0 if it could not fetch. It is only if the step was interrupted that
the line shows the word of the last step that was not, and then it is wrong unless that word is 0. -/
theorem traced_iff (c : Cpu) (buses : List (Bus δ)) (bus : Bus δ) (regs : List UInt8) :
    let before := c.after buses
    let after := (before.step bus).2.1
    after.currentPc = before.pc ∧
      after.currentInstruction = (if before.isInterrupted bus then
        c.lastWord c.currentInstruction buses else (before.fetchedWord? bus).getD 0) ∧
      (Trace.text after regs =
          Trace.text { after with
            currentPc := before.pc
            currentInstruction := (before.fetchedWord? bus).getD 0 } regs ↔
        (before.isInterrupted bus = true → c.lastWord c.currentInstruction buses = 0)) := by
  intro before after
  have hlast : before.currentInstruction = c.lastWord c.currentInstruction buses :=
    c.currentInstruction_after buses
  obtain ⟨hpc, hword⟩ := Prod.mk.inj (before.noted_step bus)
  rw [hlast] at hword
  refine ⟨hpc, hword, ?_⟩
  have htext := Trace.text_eq_iff after ((before.fetchedWord? bus).getD 0) regs
  rw [← hpc]
  refine htext.trans ?_
  show after.currentInstruction = _ ↔ _
  rw [hword]
  cases hi : before.isInterrupted bus with
  | true =>
    have hx : before.fetchedWord? bus = none := by simp [fetchedWord?, executes, hi]
    rw [hx]
    simp
  | false => simp

/-- An interrupt behind an addition: the line shows the address of the instruction that is still to
be executed with the word of the addition. -/
theorem traced_interrupt :
    let bus := holding [0x24010001]
    let interrupting := { bus with board.lines.interrupts := { status := 1, mask := 1 } }
    let c := ((Cpu.initial.setPc Address.scratchpadFirst).setCop0Reg 12 0x401).after [bus]
    c.fetchedWord? interrupting = none ∧ (c.step interrupting).2.1.currentInstruction ≠ 0 ∧
      Trace.text (c.step interrupting).2.1 [] =
        "PC=0x1F800004 [0x24010001] addiu r1, r0, 1\n" := by
  decide +kernel

end Cpu

end Psx
