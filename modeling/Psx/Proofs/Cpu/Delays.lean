import Psx.Proofs.Cpu.Touches

/-!
# Delayed loads

A load takes effect behind the instruction that follows it. That instruction does not see it: it does
what it would do with no load in flight (`Execution.run_withLoad`), but for the unaligned loads, which
merge with a load to their own register (`Execution.loadSide_withLoad`). Then the load takes effect,
unless the instruction wrote the same register or issued another load to it
(`Cpu.reg_settle_eq`). All of that is `Cpu.Delayed`, which holds of every step (`Cpu.step_delayed`).
-/

namespace Psx

namespace Execution

variable {δ : Type} [Device δ] {x y : Execution δ}

/-! ### What does not see the load in flight -/

/-- The same with another load in flight. -/
def withLoad (x : Execution δ) (load : Option DelayedLoad) : Execution δ :=
  { x with cpu.delayed := load }

section

omit [Device δ]

variable (x : Execution δ) (l : Option DelayedLoad)

@[simp] theorem withLoad_reg (r : Reg) : (x.withLoad l).reg r = x.reg r := rfl

@[simp] theorem withLoad_cop0 : (x.withLoad l).cpu.cop0 = x.cpu.cop0 := rfl

@[simp] theorem withLoad_hi : (x.withLoad l).cpu.hi = x.cpu.hi := rfl

@[simp] theorem withLoad_lo : (x.withLoad l).cpu.lo = x.cpu.lo := rfl

@[simp] theorem withLoad_linkAddress : (x.withLoad l).linkAddress = x.linkAddress := rfl

@[simp] theorem withLoad_dataAddress (base : Reg) (offset : UInt32) :
    (x.withLoad l).dataAddress base offset = x.dataAddress base offset := rfl

@[simp] theorem withLoad_addressAllowed (address : UInt32) :
    (x.withLoad l).cpu.addressAllowed address = x.cpu.addressAllowed address := rfl

@[simp] theorem withLoad_isValid (address : UInt32) (w : Width) :
    (x.withLoad l).isValid address w = x.isValid address w := rfl

@[simp] theorem withLoad_isIsolated (address : UInt32) :
    (x.withLoad l).isIsolated address = x.isIsolated address := rfl

@[simp] theorem withLoad_raise (e : Exception) :
    (x.withLoad l).raise e = (x.raise e).withLoad l := rfl

@[simp] theorem withLoad_addressError (e : Exception) (address : UInt32) :
    (x.withLoad l).addressError e address = (x.addressError e address).withLoad l := rfl

@[simp] theorem withLoad_setReg (r : Reg) (v : UInt32) :
    (x.withLoad l).setReg r v = (x.setReg r v).withLoad l := by
  unfold setReg Cpu.setReg
  split <;> rfl

@[simp] theorem withLoad_issue (r : Reg) (v : UInt32) :
    (x.withLoad l).issue r v = (x.issue r v).withLoad l := by
  unfold issue
  split <;> rfl

@[simp] theorem withLoad_setChecked (r : Reg) (v : Option UInt32) :
    (x.withLoad l).setChecked r v = (x.setChecked r v).withLoad l := by
  cases v with
  | none => rfl
  | some v => exact withLoad_setReg x l r v

@[simp] theorem withLoad_jumpTo (address : UInt32) :
    (x.withLoad l).jumpTo address = (x.jumpTo address).withLoad l := rfl

@[simp] theorem withLoad_branchIf (taken : Bool) (offset : UInt32) :
    (x.withLoad l).branchIf taken offset = (x.branchIf taken offset).withLoad l := by
  cases taken <;> rfl

@[simp] theorem withLoad_moveCop0 (op : CopMove) (rt rd : Reg) :
    (x.withLoad l).moveCop0 op rt rd = (x.moveCop0 op rt rd).withLoad l := by
  cases op with
  | mfc =>
    simp only [moveCop0, withLoad_cop0]
    cases x.cpu.cop0.read? rd <;> simp
  | mtc | cfc | ctc => rfl

@[simp] theorem withLoad_moveCop2 (op : CopMove) (rt : Reg) :
    (x.withLoad l).moveCop2 op rt = (x.moveCop2 op rt).withLoad l := by
  cases op with
  | mfc | cfc => exact withLoad_issue x l rt 0
  | mtc | ctc => rfl

@[simp] theorem withLoad_chargeWrite (address : UInt32) :
    (x.withLoad l).chargeWrite address = (x.chargeWrite address).withLoad l := by
  unfold chargeWrite
  rw [withLoad_isIsolated]
  split <;> rfl

theorem withLoad_withUsable (n : CopNumber) {f : Execution δ → Execution δ}
    (hf : f (x.withLoad l) = (f x).withLoad l) :
    (x.withLoad l).withUsable n f = (x.withUsable n f).withLoad l := by
  unfold withUsable
  rw [withLoad_cop0, hf]
  split <;> rfl

theorem withLoad_withCop2 (n : CopNumber) {f : Execution δ → Execution δ}
    (hf : f (x.withLoad l) = (f x).withLoad l) :
    (x.withLoad l).withCop2 n f = (x.withCop2 n f).withLoad l := by
  unfold withCop2
  rw [withLoad_cop0, hf]
  split <;> rfl

end

variable (x) (l : Option DelayedLoad)

@[simp] theorem withLoad_load (address : UInt32) (w : Width) :
    (x.withLoad l).load address w =
      ((x.load address w).1, (x.load address w).2.withLoad l) := by
  unfold load
  rw [withLoad_isValid, withLoad_isIsolated]
  split_ifs <;> rfl

@[simp] theorem withLoad_storeAt (address : UInt32) (w : Width) (value : UInt32) :
    (x.withLoad l).storeAt address w value = (x.storeAt address w value).withLoad l := by
  unfold storeAt
  rw [withLoad_isIsolated]
  split_ifs <;> rfl

@[simp] theorem withLoad_store (address : UInt32) (w : Width) (value : UInt32) :
    (x.withLoad l).store address w value = (x.store address w value).withLoad l := by
  unfold store
  rw [withLoad_isValid]
  split_ifs <;> simp

@[simp] theorem withLoad_storeSide (side : Side) (rt base : Reg) (offset : UInt32) :
    (x.withLoad l).storeSide side rt base offset =
      (x.storeSide side rt base offset).withLoad l := by
  unfold storeSide
  dsimp only
  rw [withLoad_dataAddress, withLoad_addressAllowed, withLoad_reg, withLoad_chargeWrite]
  split_ifs
  · rfl
  · generalize x.chargeWrite _ = y
    generalize side.pieces _ = pieces
    -- the pieces are stored one by one
    induction pieces generalizing y with
    | nil => rfl
    | cons piece pieces ih =>
      rw [List.foldl_cons, List.foldl_cons, withLoad_storeAt, ih]

variable {x}

/-- An instruction does what it would do with another load in flight. -/
theorem run_withLoad {i : Instruction}
    (hi : ∀ side rt base offset, i ≠ .loadSide side rt base offset) :
    (x.withLoad l).run i = (x.run i).withLoad l := by
  cases i with
  | load op rt base offset =>
    simp only [run, withLoad_dataAddress, withLoad_load]
    cases x.load (x.dataAddress base offset) op.width with
    | mk value y => cases value <;> simp
  | store => exact withLoad_store x l ..
  | loadSide side rt base offset => exact absurd rfl (hi side rt base offset)
  | storeSide => exact withLoad_storeSide x l ..
  | copLoad n rt base offset =>
    simp only [run]
    exact withLoad_withCop2 x l n (by simp)
  | copStore n rt base offset =>
    simp only [run]
    exact withLoad_withCop2 x l n (by simp)
  | branchSign op link rs offset => cases link <;> simp [run]
  | copMove n op rt rd =>
    simp only [run]
    refine withLoad_withUsable x l n ?_
    split <;> simp
  | rfe | cop2Command _ | copReserved n _ =>
    simp only [run]
    exact withLoad_withUsable x l _ rfl
  -- the others work on registers alone
  | _ => first | rfl | simp [run]

/-- An unaligned load merges with the load in flight, and does nothing else with it. -/
theorem loadSide_withLoad (side : Side) (rt base : Reg) (offset : UInt32) :
    (∀ l, (x.withLoad l).loadSide side rt base offset =
      (x.addressError .addressErrorLoad (x.dataAddress base offset)).withLoad l) ∨
    ∃ word y, (x.load (wordOf (x.dataAddress base offset)) .word).1 = some word ∧ x.Quiet y ∧
      ∀ l, (x.withLoad l).loadSide side rt base offset = (y.issue rt
        (side.merge ((x.withLoad l).regForMerge rt) word (x.dataAddress base offset))).withLoad l := by
  by_cases ha : x.cpu.addressAllowed (wordOf (x.dataAddress base offset)) = true
  · obtain ⟨word, y, hload, hy⟩ := quiet_load (isValid_wordOf ha)
    refine .inr ⟨word, y, by rw [hload], hy, fun l => ?_⟩
    have hmerge : (y.withLoad l).regForMerge rt = (x.withLoad l).regForMerge rt := by
      unfold regForMerge
      rw [withLoad_reg, withLoad_reg, show y.reg rt = x.reg rt from Cpu.reg_congr hy.regs rt]
      rfl
    unfold loadSide
    dsimp only
    rw [withLoad_dataAddress, withLoad_addressAllowed, if_neg (by simpa using ha), withLoad_load,
      hload]
    dsimp only
    rw [hmerge, withLoad_issue]
  · refine .inl fun l => ?_
    unfold loadSide
    dsimp only
    rw [withLoad_dataAddress, withLoad_addressAllowed, if_pos (by simpa using ha),
      withLoad_addressError]

end Execution

namespace Cpu

variable {δ : Type}

/-- The same with another load in flight. -/
def withLoad (c : Cpu) (load : Option DelayedLoad) : Cpu := { c with delayed := load }

end Cpu

namespace Execution

variable {δ : Type} [Device δ] {x y : Execution δ}

omit [Device δ] in
theorem regForMerge_eq (x : Execution δ) (r : Reg) :
    x.regForMerge r = (x.cpu.loadTo? r).getD (x.reg r) := by
  unfold regForMerge
  cases hd : x.cpu.delayed with
  | none => rw [Cpu.loadTo?_of_none hd, Option.getD_none]
  | some load =>
    dsimp only
    rw [Cpu.loadTo?_of_some hd]
    split_ifs <;> rfl

/-- What an instruction issues, and what it would issue with no load in flight, differ only if it is an
unaligned load. Then one merges with the load in flight what the other merges with the register. -/
def Merges (x : Execution δ) : Instruction → Option DelayedLoad → Option DelayedLoad → Prop
  | .loadSide side rt base offset, issued, plain =>
    issued = none ∧ plain = none ∨
    ∃ word, (x.load (wordOf (x.dataAddress base offset)) .word).1 = some word ∧
      issued = some {
        reg := .ofNat rt
        value := side.merge ((x.cpu.loadTo? rt).getD (x.reg rt)) word (x.dataAddress base offset) } ∧
      plain = some {
        reg := .ofNat rt
        value := side.merge (x.reg rt) word (x.dataAddress base offset) }
  | _, issued, plain => issued = plain

theorem merges_none (x : Execution δ) (i : Instruction) : x.Merges i none none := by
  cases i with
  | loadSide => exact .inl ⟨rfl, rfl⟩
  | _ => exact rfl

/-- An instruction sees of the load in flight only what it merges with. -/
theorem run_merges (hx : x.Fresh) (i : Instruction) :
    (x.withLoad none).run i =
        ({ x.run i with issued := ((x.withLoad none).run i).issued } : Execution δ).withLoad none ∧
      x.Merges i (x.run i).issued ((x.withLoad none).run i).issued := by
  cases i with
  | loadSide side rt base offset =>
    have hself : x.withLoad x.cpu.delayed = x := rfl
    show (x.withLoad none).loadSide side rt base offset = ({ x.loadSide side rt base offset with
      issued := ((x.withLoad none).loadSide side rt base offset).issued } :
        Execution δ).withLoad none ∧ x.Merges _ (x.loadSide side rt base offset).issued
          ((x.withLoad none).loadSide side rt base offset).issued
    rcases loadSide_withLoad (x := x) side rt base offset with hl | ⟨word, y, hword, hy, hl⟩
    · have hx' : x.loadSide side rt base offset = _ := hl x.cpu.delayed
      rw [hx', hl none]
      exact ⟨rfl, .inl ⟨hx.issued, hx.issued⟩⟩
    · have hx' : x.loadSide side rt base offset = _ := hl x.cpu.delayed
      rw [hx', hl none]
      unfold issue
      split_ifs
      · exact ⟨rfl, .inl ⟨hy.issued.trans hx.issued, hy.issued.trans hx.issued⟩⟩
      · refine ⟨rfl, .inr ⟨word, hword, ?_, rfl⟩⟩
        show some _ = some _
        rw [hself, regForMerge_eq]
  | _ =>
    rw [run_withLoad none fun _ _ _ _ h => by cases h]
    exact ⟨rfl, rfl⟩

end Execution

namespace Cpu

variable {δ : Type} [Device δ] {c : Cpu} {bus : Bus δ}

/-! ### Steps -/

/-- The register that a step writes directly. A step that enters an exception writes none. -/
def writes? (c : Cpu) (bus : Bus δ) : Option Reg :=
  if (c.exception? bus).isSome then none else (c.instruction bus).destination?

/-- The register to which a step issues a load. -/
def loads? (c : Cpu) (bus : Bus δ) : Option Reg :=
  if (c.exception? bus).isSome then none else (c.instruction bus).loads?

/-- The load in flight when a step begins takes effect behind it, unless the step supersedes it. -/
structure Delayed (c : Cpu) (bus : Bus δ) : Prop where
  /-- The instruction runs on the registers as they were, with the load beside them. -/
  reads : ∀ q, (c.execution bus).reg q = c.reg q ∧ (c.execution bus).cpu.loadTo? q = c.loadTo? q
  /-- But for registers and loads, the step is that of a processor with no load in flight. -/
  cycles : (c.step bus).1 = ((c.withLoad none).step bus).1
  outside : (c.step bus).2.2 = ((c.withLoad none).step bus).2.2
  others : (c.step bus).2.1 = { ((c.withLoad none).step bus).2.1 with
    regs := (c.step bus).2.1.regs, delayed := (c.step bus).2.1.delayed }
  written : ∀ q, c.writes? bus = some q →
    (c.step bus).2.1.reg q = ((c.withLoad none).step bus).2.1.reg q
  superseded : ∀ q, c.loads? bus = some q → (c.step bus).2.1.reg q = c.reg q
  retired : ∀ q ≠ 0, c.writes? bus ≠ some q → c.loads? bus ≠ some q →
    (c.step bus).2.1.reg q = (c.loadTo? q).getD (c.reg q)
  /-- The new load in flight is the one issued, and one to register 0 is none. -/
  pending : (c.step bus).2.1.delayed.map (·.reg) =
    ((c.loads? bus).filter (· ≠ 0)).map fun q : Reg => .ofNat q
  merged : (c.execution bus).Merges (c.instruction bus) (c.step bus).2.1.delayed
    ((c.withLoad none).step bus).2.1.delayed

theorem reads_execution (c : Cpu) (bus : Bus δ) (q : Reg) :
    (c.execution bus).reg q = c.reg q ∧ (c.execution bus).cpu.loadTo? q = c.loadTo? q := by
  have hcpu := c.execution_cpu bus
  unfold Execution.reg
  rw [hcpu]
  exact ⟨rfl, rfl⟩

theorem reg_zero (c : Cpu) : c.reg 0 = 0 := if_pos rfl

theorem writes?_of_exception {e : Exception} (h : c.exception? bus = some e) :
    c.writes? bus = none := by
  unfold writes?
  rw [h]
  rfl

theorem loads?_of_exception {e : Exception} (h : c.exception? bus = some e) :
    c.loads? bus = none := by
  unfold loads?
  rw [h]
  rfl

theorem writes?_of_loads? {q : Reg} (h : c.loads? bus = some q) : c.writes? bus = none := by
  unfold loads? at h
  unfold writes?
  split_ifs at h ⊢
  exact Instruction.destination?_of_loads? h

/-- A step that executes nothing lets the load take effect. -/
theorem delayed_of_retired {e : Exception} {n : Nat} {c₁ c₂ : Cpu}
    (he : c.exception? bus = some e) (hs : c.step bus = (n, c₁, bus))
    (hp : (c.withLoad none).step bus = (n, c₂, bus)) (hregs : c₁.regs = c.retireLoad.regs)
    (hd : c₁.delayed = none) (hd' : c₂.delayed = none)
    (hc : c₁ = { c₂ with regs := c₁.regs, delayed := c₁.delayed }) : c.Delayed bus where
  reads := reads_execution c bus
  cycles := by rw [hs, hp]
  outside := by rw [hs, hp]
  others := by rw [hs, hp]; exact hc
  written q hq := by rw [writes?_of_exception he] at hq; cases hq
  superseded q hq := by rw [loads?_of_exception he] at hq; cases hq
  retired q hq _ _ := by
    rw [hs]
    exact (reg_congr hregs q).trans (reg_retireLoad c hq)
  pending := by
    rw [hs, loads?_of_exception he]
    show c₁.delayed.map _ = none
    rw [hd]
    rfl
  merged := by
    rw [hs, hp]
    show (c.execution bus).Merges _ c₁.delayed c₂.delayed
    rw [hd, hd']
    exact (c.execution bus).merges_none _

theorem fetch_withLoad (c : Cpu) (bus : Bus δ) (pc : UInt32) (l : Option DelayedLoad) :
    (c.withLoad l).fetch bus pc = ((c.fetch bus pc).1, (c.fetch bus pc).2.1,
      (c.fetch bus pc).2.2.1.withLoad l, (c.fetch bus pc).2.2.2) := by
  have hcache : (c.withLoad l).cache = c.cache := rfl
  unfold fetch
  rw [hcache]
  split
  · cases c.cache.fetch? pc <;> rfl
  · rfl

theorem fetched_withLoad (c : Cpu) (bus : Bus δ) (l : Option DelayedLoad) :
    (c.withLoad l).fetched bus = ((c.fetched bus).1, (c.fetched bus).2.1,
      (c.fetched bus).2.2.1.withLoad l, (c.fetched bus).2.2.2) :=
  fetch_withLoad (c.begun bus) bus c.pc l

theorem execution_withLoad (c : Cpu) (bus : Bus δ) (l : Option DelayedLoad) :
    (c.withLoad l).execution bus = (c.execution bus).withLoad l := by
  unfold execution
  rw [fetched_withLoad]
  rfl

theorem instruction_withLoad (c : Cpu) (bus : Bus δ) (l : Option DelayedLoad) :
    (c.withLoad l).instruction bus = c.instruction bus := by
  unfold instruction
  rw [fetched_withLoad]

theorem fresh_execution (c : Cpu) (bus : Bus δ) : (c.execution bus).Fresh := ⟨rfl, rfl⟩

/-- What a step that executes an instruction writes and issues. -/
theorem touches_execution (hx : c.executes bus = true) : (c.execution bus).Touches (c.writes? bus)
    (c.loads? bus) ((c.execution bus).run (c.instruction bus)) := by
  unfold writes? loads?
  rw [exception?_of_executes hx]
  unfold fault?
  rw [if_pos hx]
  cases hf : (c.execution bus).fault? (c.instruction bus) with
  | none => exact Execution.run_touches (c.fresh_execution bus) hf
  | some f =>
    rw [Execution.run_of_fault hf]
    exact (Execution.quiet_fail ..).touches (c.fresh_execution bus)

theorem delayed_of_executed (hx : c.executes bus = true) : c.Delayed bus := by
  have ht := touches_execution hx
  obtain ⟨hplain, hmerge⟩ := Execution.run_merges (c.fresh_execution bus) (c.instruction bus)
  have hread := reads_execution c bus
  have hs := step_executed hx
  have hp := @step_executed _ _ (c.withLoad none) bus hx
  rw [execution_withLoad, instruction_withLoad, fetched_withLoad] at hp
  dsimp only at hs hp
  -- `y` is what the instruction leaves, `p` what it leaves where no load is delayed
  generalize (c.execution bus).run (c.instruction bus) = y at *
  generalize ((c.execution bus).withLoad none).run (c.instruction bus) = p at *
  generalize p.issued = plain at *
  subst hplain
  have hload : ∀ q, y.cpu.loadTo? q = c.loadTo? q := fun q => by
    rw [← (hread q).2]
    unfold loadTo?
    rw [ht.delayed]
  have hold : ∀ q, c.writes? bus ≠ some q → y.cpu.reg q = c.reg q := fun q hq =>
    (ht.regs q hq).trans (hread q).1
  refine ⟨hread, ?_, ?_, ?_, fun q hq => ?_, fun q hq => ?_, fun q h0 hw hl => ?_, ?_, ?_⟩
  all_goals rw [hs]
  · rw [hp]
    rfl
  · rw [hp]
    rfl
  · rw [hp]
    dsimp only
    rw [settle_eq y.cpu, settle_eq (Execution.withLoad _ none).cpu]
    rfl
  · by_cases h0 : q = 0
    · rw [h0, reg_zero, reg_zero]
    · have hw : q = y.written := (ht.eq_written h0).2 hq
      rw [hp, reg_settle_eq _ _ _ h0, if_pos (.inl hw), reg_settle_eq _ _ _ h0, if_pos (.inl hw)]
      rfl
  · by_cases h0 : q = 0
    · rw [h0, reg_zero, reg_zero]
    · have hw : c.writes? bus ≠ some q := by
        rw [writes?_of_loads? hq]
        exact (Option.some_ne_none q).symm
      rw [reg_settle_eq _ _ _ h0, if_pos (.inr ((ht.any_issued h0).2 hq)), hold q hw]
  · have hnot := not_or.2 ⟨mt (ht.eq_written h0).1 hw, mt (ht.any_issued h0).1 hl⟩
    rw [reg_settle_eq _ _ _ h0, if_neg hnot, hload, hold q hw]
  · rw [settle_eq]
    exact ht.issued
  · rw [hp]
    dsimp only
    rw [settle_eq y.cpu, settle_eq (Execution.withLoad _ none).cpu]
    exact hmerge

/-- Every step, whatever it executes and whether or not it enters an exception. -/
theorem step_delayed (c : Cpu) (bus : Bus δ) : c.Delayed bus := by
  by_cases hi : c.isInterrupted bus = true
  · have he : c.exception? bus = some .interrupt := if_pos hi
    have hregs : (c.begun bus).retireLoad.regs = c.retireLoad.regs := retireLoad_congr rfl rfl
    refine delayed_of_retired he (step_interrupted hi)
      (step_interrupted (c := c.withLoad none) hi) hregs ?_ rfl ?_
    · rw [retireLoad_eq]
      rfl
    · rw [retireLoad_eq (c.begun bus)]
      rfl
  by_cases hm : c.misfetches bus = true
  · have hi : c.isInterrupted bus = false := Bool.eq_false_iff.2 hi
    have he : c.exception? bus = some .addressErrorLoad := by
      unfold exception?
      rw [hi, hm]
      rfl
    have hregs : ({ c.begun bus with currentInstruction := 0 } : Cpu).retireLoad.regs =
      c.retireLoad.regs := retireLoad_congr rfl rfl
    refine delayed_of_retired he (step_misfetched hi hm)
      (step_misfetched (c := c.withLoad none) hi hm) hregs ?_ rfl ?_
    · rw [retireLoad_eq]
      rfl
    · rw [retireLoad_eq { c.begun bus with currentInstruction := 0 }]
      rfl
  · exact delayed_of_executed (executes_iff.2 ⟨Bool.eq_false_iff.2 hi, Bool.eq_false_iff.2 hm⟩)

end Cpu

end Psx
