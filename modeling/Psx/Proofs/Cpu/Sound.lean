import Mathlib.Tactic.SplitIfs
import Psx.Cpu.Step

/-!
# Caches and loads in flight

`Cpu.Sound`: the cache has all its lines, and a load in flight names a register that can be written.
No instruction breaks it: the cache only ever changes line by line, and a load to register 0 is
dropped when it is issued. While an instruction runs the same is asked of the load that it issues
(`Execution.Sound`), which is in flight afterwards.
-/

namespace Psx

/-- A load to one of the registers 1 to 31. -/
def DelayedLoad.Sound (l : DelayedLoad) : Prop := 1 ≤ l.reg.toNat ∧ l.reg.toNat ≤ 31

instance (l : DelayedLoad) : Decidable l.Sound := inferInstanceAs (Decidable (_ ∧ _))

/-- The cache has all its lines and a load in flight will find its register. -/
structure Cpu.Sound (c : Cpu) : Prop where
  lines : c.cache.lines.size = InstructionCache.lineCount
  load : ∀ l, c.delayed = some l → l.Sound

namespace Cpu

variable {c c' : Cpu}

theorem Sound.of_eq (h : c.Sound) (hc : c'.cache.lines.size = c.cache.lines.size)
    (hd : c'.delayed = c.delayed) : c'.Sound := ⟨hc ▸ h.lines, hd ▸ h.load⟩

theorem sound_initial : initial.Sound :=
  ⟨by simp [initial, InstructionCache.initial], fun _ h => by simp [initial] at h⟩

theorem finishLoad_cache (c : Cpu) (l : DelayedLoad) : (c.finishLoad l).cache = c.cache := by
  unfold finishLoad; split <;> rfl

theorem finishLoad_delayed (c : Cpu) (l : DelayedLoad) : (c.finishLoad l).delayed = c.delayed := by
  unfold finishLoad; split <;> rfl

theorem Sound.retireLoad (h : c.Sound) : c.retireLoad.Sound := by
  unfold Cpu.retireLoad
  split
  · exact h
  · exact ⟨by rw [finishLoad_cache]; exact h.lines,
      fun _ hl => by rw [finishLoad_delayed] at hl; cases hl⟩

theorem Sound.raise (h : c.Sound) (e : Exception) : (c.raise e).Sound := h.of_eq rfl rfl

theorem Sound.addressError (h : c.Sound) (e : Exception) (address : UInt32) :
    (c.addressError e address).Sound := h.of_eq rfl rfl

theorem Sound.settle (h : c.Sound) (written : Reg) {issued : Option DelayedLoad}
    (hi : ∀ l, issued = some l → l.Sound) : (c.settle written issued).Sound := by
  unfold Cpu.settle
  split
  · exact ⟨h.lines, hi⟩
  · split
    · exact ⟨h.lines, hi⟩
    · exact ⟨by rw [finishLoad_cache]; exact h.lines, by rw [finishLoad_delayed]; exact hi⟩

end Cpu

theorem InstructionCache.fill_size (c : InstructionCache) (address word : UInt32) :
    (c.fill address word).lines.size = c.lines.size := by simp [fill]

theorem InstructionCache.writeIsolated_size (c : InstructionCache) (address : UInt32) (w : Width)
    (value : UInt32) (tagTest : Bool) :
    (c.writeIsolated address w value tagTest).lines.size = c.lines.size := by
  simp [writeIsolated]

namespace Execution

variable {δ : Type}

/-- Also the load that the instruction issues will find its register. -/
structure Sound (x : Execution δ) : Prop where
  cpu : x.cpu.Sound
  issued : ∀ l, x.issued = some l → l.Sound

variable {x y : Execution δ}

theorem Sound.of_eq (h : x.Sound) (hc : y.cpu.cache = x.cpu.cache)
    (hd : y.cpu.delayed = x.cpu.delayed) (hi : y.issued = x.issued) : y.Sound :=
  ⟨h.cpu.of_eq (by rw [hc]) hd, hi ▸ h.issued⟩

namespace Sound

theorem setReg (h : x.Sound) (r : Reg) (v : UInt32) : (x.setReg r v).Sound := by
  unfold Execution.setReg Cpu.setReg
  split
  · exact h
  · exact h.of_eq rfl rfl rfl

theorem issue (h : x.Sound) (r : Reg) (v : UInt32) : (x.issue r v).Sound := by
  unfold Execution.issue
  split
  · exact h
  · rename_i hr
    refine ⟨h.cpu, fun l hl => ?_⟩
    cases hl
    -- a register has a number below 32, which a byte holds
    have h0 : r.val ≠ 0 := fun h => hr (Fin.ext h)
    have e : (UInt8.ofNat r.val).toNat = r.val := by
      rw [UInt8.toNat_ofNat', Nat.mod_eq_of_lt (by omega)]
    unfold DelayedLoad.Sound
    rw [e]
    omega

theorem raise (h : x.Sound) (e : Exception) : (x.raise e).Sound := h.of_eq rfl rfl rfl

theorem addressError (h : x.Sound) (e : Exception) (address : UInt32) :
    (x.addressError e address).Sound := h.of_eq rfl rfl rfl

theorem unusable (h : x.Sound) (n : CopNumber) : (x.unusable n).Sound := h.of_eq rfl rfl rfl

theorem setChecked (h : x.Sound) (r : Reg) (v : Option UInt32) : (x.setChecked r v).Sound := by
  cases v with
  | none => exact h.raise _
  | some v => exact h.setReg r v

theorem jumpTo (h : x.Sound) (address : UInt32) : (x.jumpTo address).Sound := h.of_eq rfl rfl rfl

theorem branchIf (h : x.Sound) (taken : Bool) (offset : UInt32) :
    (x.branchIf taken offset).Sound := by cases taken <;> exact h.of_eq rfl rfl rfl

theorem chargeWrite (h : x.Sound) (address : UInt32) : (x.chargeWrite address).Sound := by
  unfold Execution.chargeWrite
  split
  · exact h
  · exact h.of_eq rfl rfl rfl

theorem withCop2 (h : x.Sound) (n : CopNumber) {f : Execution δ → Execution δ}
    (hf : (f x).Sound) : (x.withCop2 n f).Sound := by
  unfold Execution.withCop2
  split
  · exact hf
  · exact h.unusable n

theorem withUsable (h : x.Sound) (n : CopNumber) {f : Execution δ → Execution δ}
    (hf : (f x).Sound) : (x.withUsable n f).Sound := by
  unfold Execution.withUsable
  split
  · exact hf
  · exact h.unusable n

theorem moveCop0 (h : x.Sound) (op : CopMove) (rt rd : Reg) : (x.moveCop0 op rt rd).Sound := by
  cases op with
  | mfc =>
    simp only [Execution.moveCop0]
    split
    · exact h.issue ..
    · exact h.raise _
  | mtc | cfc | ctc => exact h.of_eq rfl rfl rfl

theorem moveCop2 (h : x.Sound) (op : CopMove) (rt : Reg) : (x.moveCop2 op rt).Sound := by
  cases op with
  | mfc | cfc => exact h.issue ..
  | mtc | ctc => exact h

variable [Device δ]

theorem load (h : x.Sound) (address : UInt32) (w : Width) : (x.load address w).2.Sound := by
  unfold Execution.load
  split
  · exact h.addressError ..
  · split
    · exact h
    · exact h.of_eq rfl rfl rfl

/-- What is done with a loaded value. -/
theorem loaded (h : x.Sound) (address : UInt32) (w : Width) {f : Execution δ → UInt32 → Execution δ}
    (hf : ∀ {x} v, x.Sound → (f x v).Sound) :
    (match x.load address w with
      | (none, x) => x
      | (some v, x) => f x v).Sound := by
  have hl := h.load address w
  revert hl
  obtain ⟨v, x'⟩ := x.load address w
  intro hl
  cases v with
  | none => exact hl
  | some v => exact hf v hl

theorem storeAt (h : x.Sound) (address : UInt32) (w : Width) (value : UInt32) :
    (x.storeAt address w value).Sound := by
  unfold Execution.storeAt
  split
  · exact ⟨h.cpu.of_eq (InstructionCache.writeIsolated_size ..) rfl, h.issued⟩
  · exact h.of_eq rfl rfl rfl

theorem store (h : x.Sound) (address : UInt32) (w : Width) (value : UInt32) :
    (x.store address w value).Sound := by
  unfold Execution.store
  split
  · exact h.addressError ..
  · exact (h.chargeWrite address).storeAt ..

theorem loadSide (h : x.Sound) (side : Side) (rt base : Reg) (offset : UInt32) :
    (x.loadSide side rt base offset).Sound := by
  unfold Execution.loadSide
  dsimp only
  split
  · exact h.addressError ..
  · exact h.loaded _ _ (f := fun x word => x.issue rt (side.merge (x.regForMerge rt) word _))
      fun _ h => h.issue ..

theorem storeSide (h : x.Sound) (side : Side) (rt base : Reg) (offset : UInt32) :
    (x.storeSide side rt base offset).Sound := by
  unfold Execution.storeSide
  dsimp only
  split
  · exact h.addressError ..
  · generalize side.pieces _ = pieces
    have h' := h.chargeWrite (wordOf (x.dataAddress base offset))
    revert h'
    generalize x.chargeWrite _ = x'
    intro h'
    induction pieces generalizing x' with
    | nil => exact h'
    | cons piece pieces ih => exact ih _ (h'.storeAt ..)

theorem run (h : x.Sound) (i : Instruction) : (x.run i).Sound := by
  cases i with
  | nop => exact h
  | shift | shiftVar | logic | lui | mfhi | mflo => exact h.setReg ..
  | alu | immediate => exact h.setChecked ..
  | mulDiv | mthi | mtlo | jump | jr => exact h.of_eq rfl rfl rfl
  | jumpLink | jalr => exact (h.setReg ..).jumpTo _
  | branchEq | branchZero => exact h.branchIf ..
  | branchSign op link rs offset =>
    simp only [Execution.run]
    split
    · exact (h.setReg ..).branchIf ..
    · exact h.branchIf ..
  | load op rt base offset =>
    simp only [Execution.run]
    exact h.loaded _ _ (f := fun x v => x.issue rt (op.extend v)) fun _ h => h.issue ..
  | store => exact h.store ..
  | loadSide => exact h.loadSide ..
  | storeSide => exact h.storeSide ..
  | copLoad n _ base offset =>
    simp only [Execution.run]
    exact h.withCop2 n (h.load ..)
  | copStore n _ base offset =>
    simp only [Execution.run]
    exact h.withCop2 n (h.store ..)
  | copMove n op rt rd =>
    simp only [Execution.run]
    refine h.withUsable n ?_
    split
    · exact h.moveCop0 ..
    · exact h.moveCop2 ..
  | rfe =>
    simp only [Execution.run]
    exact h.withUsable 0 (h.of_eq rfl rfl rfl)
  | cop2Command => exact h.withUsable 2 h
  | copReserved n =>
    simp only [Execution.run]
    exact h.withUsable n (h.raise _)
  | syscall | «break» | reserved => exact h.raise _

end Sound

end Execution

namespace Cpu.Sound

variable {δ : Type} [Device δ] {c : Cpu}

theorem fetch (h : c.Sound) (bus : Bus δ) (pc : UInt32) : (c.fetch bus pc).2.2.1.Sound := by
  unfold Cpu.fetch
  split
  · split
    · exact h
    · exact h.of_eq (InstructionCache.fill_size ..) rfl
  · exact h

theorem execute (h : c.Sound) (bus : Bus δ) (word : UInt32) : (c.execute bus word).2.1.Sound := by
  have hx : ({
      cpu := { c with currentInstruction := word, pc := c.nextPc, nextPc := c.nextPc + 4 }
      bus : Execution δ }.run (.decode word)).Sound :=
    Execution.Sound.run ⟨h.of_eq rfl rfl, fun _ h => by cases h⟩ _
  exact hx.cpu.settle _ hx.issued

theorem step (h : c.Sound) (bus : Bus δ) : (c.step bus).2.1.Sound := by
  unfold Cpu.step
  dsimp only
  split
  · refine Sound.raise (retireLoad ?_) _
    exact h.of_eq rfl rfl
  · split
    · refine Sound.addressError (retireLoad ?_) ..
      exact h.of_eq rfl rfl
    · refine execute (fetch ?_ ..) ..
      exact h.of_eq rfl rfl

end Cpu.Sound

end Psx
