import Psx.Proofs.Bus.Frame
import Psx.Proofs.Cpu.Precise

/-!
# What an instruction costs

An instruction makes one access at most that is charged (`Execution.run_charged`): an unaligned
store pays once for all its pieces, and an access that the isolated cache answers is free. So a step
costs no more than the base of an instruction and two accesses to the dearest region, of which the
first is the fetch (`Cpu.step_le`).
-/

namespace Psx

def AccessCost.most (c : AccessCost) : Nat := max c.read c.write

namespace BusTiming

/-- What an access costs at most. -/
def mostAccess (t : BusTiming) : Nat :=
  max t.ram.most (max t.scratchpad.most (max t.bios.most (max t.io.most t.expansion.most)))

/-- What an instruction costs at most. -/
def mostInstruction (t : BusTiming) : Nat := t.instructionCycles + 2 * t.mostAccess

end BusTiming

theorem Region.cost_le (r : Region) (t : BusTiming) : (r.cost t).most ≤ t.mostAccess := by
  unfold BusTiming.mostAccess
  cases r <;> dsimp only [cost] <;> omega

theorem Bus.access_le {δ : Type} (b : Bus δ) (address : UInt32) :
    b.readCycles address ≤ b.timing.mostAccess ∧ b.writeCycles address ≤ b.timing.mostAccess := by
  have hmost := (Address.region address).cost_le b.timing
  unfold AccessCost.most at hmost
  unfold readCycles writeCycles cost
  omega

namespace Execution

variable {δ : Type} {x y z : Execution δ}

/-! ### Nothing is accessed -/

structure Idle (x y : Execution δ) : Prop where
  bus : y.bus = x.bus
  cycles : y.cycles = x.cycles

theorem idle_setReg (x : Execution δ) (r : Reg) (value : UInt32) : x.Idle (x.setReg r value) := by
  unfold setReg
  split <;> exact ⟨rfl, rfl⟩

theorem idle_issue (x : Execution δ) (r : Reg) (value : UInt32) : x.Idle (x.issue r value) := by
  unfold issue
  split <;> exact ⟨rfl, rfl⟩

theorem idle_setChecked (x : Execution δ) (r : Reg) (value : Option UInt32) :
    x.Idle (x.setChecked r value) := by
  cases value with
  | none => exact ⟨rfl, rfl⟩
  | some value => exact x.idle_setReg r value

theorem idle_branchIf (x : Execution δ) (taken : Bool) (offset : UInt32) :
    x.Idle (x.branchIf taken offset) := by
  cases taken <;> exact ⟨rfl, rfl⟩

theorem idle_moveCop0 (x : Execution δ) (op : CopMove) (rt rd : Reg) :
    x.Idle (x.moveCop0 op rt rd) := by
  cases op with
  | mfc =>
    unfold moveCop0
    cases x.cpu.cop0.read? rd with
    | none => exact ⟨rfl, rfl⟩
    | some value => exact x.idle_issue rt value
  | mtc | cfc | ctc => exact ⟨rfl, rfl⟩

theorem idle_moveCop2 (x : Execution δ) (op : CopMove) (rt : Reg) :
    x.Idle (x.moveCop2 op rt) := by
  cases op with
  | mfc | cfc => exact x.idle_issue rt 0
  | mtc | ctc => exact ⟨rfl, rfl⟩

theorem idle_withUsable {f : Execution δ → Execution δ} (h : x.Idle (f x)) (n : CopNumber) :
    x.Idle (x.withUsable n f) := by
  unfold withUsable
  split
  · exact h
  · exact ⟨rfl, rfl⟩

/-! ### One access at most is charged -/

def Charged (x y : Execution δ) : Prop := y.cycles ≤ x.cycles + x.bus.timing.mostAccess

theorem Idle.charged (h : x.Idle y) : x.Charged y := by
  unfold Charged
  rw [h.cycles]
  exact Nat.le_add_right ..

theorem Charged.trans (h : x.Charged y) (h' : y.Idle z) : x.Charged z := by
  unfold Charged
  rw [h'.cycles]
  exact h

theorem charged_withCop2 {f : Execution δ → Execution δ} (h : x.Charged (f x)) (n : CopNumber) :
    x.Charged (x.withCop2 n f) := by
  unfold withCop2
  split
  · exact h
  · exact Idle.charged ⟨rfl, rfl⟩

theorem charged_chargeWrite (x : Execution δ) (address : UInt32) :
    x.Charged (x.chargeWrite address) := by
  unfold chargeWrite
  split
  · exact Idle.charged ⟨rfl, rfl⟩
  · exact Nat.add_le_add_left (x.bus.access_le address).2 _

variable [Device δ]

theorem charged_load (x : Execution δ) (address : UInt32) (w : Width) :
    x.Charged (x.load address w).2 := by
  unfold load
  split_ifs
  · exact Idle.charged ⟨rfl, rfl⟩
  · exact Idle.charged ⟨rfl, rfl⟩
  · exact Nat.add_le_add_left (x.bus.access_le address).1 _

/-- What is done with a loaded value touches nothing outside. -/
theorem charged_loaded (x : Execution δ) (address : UInt32) (w : Width)
    {f : Execution δ → UInt32 → Execution δ} (hf : ∀ (x : Execution δ) value, x.Idle (f x value)) :
    x.Charged (match x.load address w with
      | (none, x) => x
      | (some value, x) => f x value) := by
  have h := x.charged_load address w
  revert h
  rcases x.load address w with ⟨_ | value, y⟩
  · exact id
  · exact fun h => h.trans (hf y value)

theorem cycles_storeAt (x : Execution δ) (address : UInt32) (w : Width) (value : UInt32) :
    (x.storeAt address w value).cycles = x.cycles := by
  unfold storeAt
  split <;> rfl

theorem cycles_storePieces (x : Execution δ) (aligned lanes : UInt32)
    (pieces : List (UInt32 × Width)) :
    (pieces.foldl (fun x (p : UInt32 × Width) =>
      x.storeAt (aligned + p.1) p.2 (lanes >>> (p.1 * 8))) x).cycles = x.cycles := by
  induction pieces generalizing x with
  | nil => rfl
  | cons p pieces ih => exact (ih _).trans (x.cycles_storeAt ..)

theorem charged_store (x : Execution δ) (address : UInt32) (w : Width) (value : UInt32) :
    x.Charged (x.store address w value) := by
  unfold store
  split
  · exact Idle.charged ⟨rfl, rfl⟩
  · exact (cycles_storeAt ..).trans_le (x.charged_chargeWrite address)

theorem charged_storeSide (x : Execution δ) (side : Side) (rt base : Reg) (offset : UInt32) :
    x.Charged (x.storeSide side rt base offset) := by
  unfold storeSide
  dsimp only
  split
  · exact Idle.charged ⟨rfl, rfl⟩
  · exact (cycles_storePieces ..).trans_le (x.charged_chargeWrite _)

theorem run_charged (x : Execution δ) (i : Instruction) : x.Charged (x.run i) := by
  cases i with
  | nop | mulDiv | mthi | mtlo | jump | jr | syscall | «break» | reserved =>
    exact Idle.charged ⟨rfl, rfl⟩
  | shift | shiftVar | logic | lui | mfhi | mflo => exact (idle_setReg ..).charged
  | alu | immediate => exact (idle_setChecked ..).charged
  | jumpLink | jalr => exact (idle_setReg x _ _).charged.trans ⟨rfl, rfl⟩
  | branchEq | branchZero => exact (idle_branchIf ..).charged
  | branchSign op link rs offset =>
    simp only [run]
    split
    · exact (idle_setReg x _ _).charged.trans (idle_branchIf ..)
    · exact (idle_branchIf ..).charged
  | load op rt base offset =>
    exact x.charged_loaded _ _ (f := fun x value => x.issue rt (op.extend value))
      fun x value => x.idle_issue ..
  | store => exact x.charged_store ..
  | loadSide side rt base offset =>
    simp only [run]
    unfold loadSide
    dsimp only
    split
    · exact Idle.charged ⟨rfl, rfl⟩
    · exact x.charged_loaded _ _
        (f := fun x word => x.issue rt (side.merge (x.regForMerge rt) word _))
        fun x value => x.idle_issue ..
  | storeSide => exact x.charged_storeSide ..
  | copLoad n _ base offset =>
    simp only [run]
    exact charged_withCop2 (x.charged_load ..) n
  | copStore n _ base offset =>
    simp only [run]
    exact charged_withCop2 (x.charged_store ..) n
  | copMove n op rt rd =>
    simp only [run]
    refine (idle_withUsable ?_ n).charged
    split
    · exact idle_moveCop0 ..
    · exact idle_moveCop2 ..
  | rfe | cop2Command | copReserved =>
    simp only [run]
    exact (idle_withUsable ⟨rfl, rfl⟩ _).charged

end Execution

namespace Cpu

variable {δ : Type} [Device δ]

/-- A fetch reads one word, or none. -/
theorem fetch_le (c : Cpu) (bus : Bus δ) (pc : UInt32) :
    (c.fetch bus pc).2.1 ≤ bus.timing.mostAccess ∧
      (c.fetch bus pc).2.2.2.timing = bus.timing := by
  have hcost : bus.fetchCycles pc ≤ bus.timing.mostAccess := (bus.access_le pc).1
  have htiming := (bus.frame_read pc .word).timing
  unfold fetch
  split_ifs
  · split
    · exact ⟨Nat.zero_le _, rfl⟩
    · exact ⟨hcost, htiming⟩
  · exact ⟨hcost, htiming⟩

/-- A step that does not come to an instruction costs the base of one. -/
theorem cost_of_not_executes {c : Cpu} {bus : Bus δ} (h : c.executes bus ≠ true) :
    (c.step bus).1 = bus.timing.instructionCycles := by
  by_cases hi : c.isInterrupted bus = true
  · rw [step_interrupted hi]
  · have hm : c.misfetches bus = true := by
      by_contra hm
      exact h (executes_iff.2 ⟨Bool.eq_false_iff.2 hi, Bool.eq_false_iff.2 hm⟩)
    rw [step_misfetched (Bool.eq_false_iff.2 hi) hm]

theorem instructionCycles_le_step (c : Cpu) (bus : Bus δ) :
    bus.timing.instructionCycles ≤ (c.step bus).1 := by
  by_cases hx : c.executes bus = true
  · rw [step_executed hx]
    exact (Nat.le_add_right ..).trans (Nat.le_add_right ..)
  · exact (cost_of_not_executes hx).ge

theorem step_le (c : Cpu) (bus : Bus δ) : (c.step bus).1 ≤ bus.timing.mostInstruction := by
  unfold BusTiming.mostInstruction
  by_cases hx : c.executes bus = true
  · obtain ⟨hfetch, htiming⟩ := (c.begun bus).fetch_le bus c.pc
    have hcharged := (c.execution bus).run_charged (c.instruction bus)
    unfold Execution.Charged at hcharged
    rw [show (c.execution bus).bus.timing = bus.timing from htiming,
      show (c.execution bus).cycles = 0 from rfl] at hcharged
    rw [step_executed hx]
    change (c.fetched bus).2.1 ≤ _ at hfetch
    dsimp only
    omega
  · rw [cost_of_not_executes hx]
    exact Nat.le_add_right ..

end Cpu

end Psx
