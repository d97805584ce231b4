import Mathlib.Tactic.SplitIfs
import Psx.Cpu.Step

/-!
# What the processor sees of the bus

The processor reads, writes, asks what accesses cost, and looks at the cache control register and
the pending interrupts. A relation between buses that these five respect is a `Bus.Simulation`, and
a step of the processor keeps it (`Simulation.step`): two processors in the same state then do the
same, at the same cost.

With `fun a b => a = b ∧ P a` for the relation this says that a step keeps what reads and writes
keep (`Simulation.of_kept`), so that one induction over the instructions serves both for comparing
two sessions and for the invariants of one.
-/

namespace Psx

variable {δ : Type}

section

variable [Device δ]

/-- Related buses answer alike and stay related. -/
structure Bus.Simulation (R : Bus δ → Bus δ → Prop) : Prop where
  timing : ∀ {a b}, R a b → a.timing = b.timing
  cacheControl : ∀ {a b}, R a b → a.memory.cacheControl = b.memory.cacheControl
  pending : ∀ {a b}, R a b →
    a.board.lines.interrupts.pending = b.board.lines.interrupts.pending
  read : ∀ {a b}, R a b → ∀ address w,
    (a.read address w).1 = (b.read address w).1 ∧ R (a.read address w).2 (b.read address w).2
  write : ∀ {a b}, R a b → ∀ address w value,
    R (a.write address w value) (b.write address w value)

/-- What reads and writes keep makes a simulation of a bus by itself. -/
theorem Bus.Simulation.of_kept {P : Bus δ → Prop}
    (read : ∀ b, P b → ∀ address w, P (b.read address w).2)
    (write : ∀ b, P b → ∀ address w value, P (b.write address w value)) :
    Simulation fun a b => a = b ∧ P a where
  timing h := by rw [h.1]
  cacheControl h := by rw [h.1]
  pending h := by rw [h.1]
  read h address w := ⟨by rw [h.1], by rw [h.1], read _ h.2 ..⟩
  write h address w value := ⟨by rw [h.1], write _ h.2 ..⟩

end

namespace Execution

/-- Instructions that run alike on related buses. -/
structure Like (R : Bus δ → Bus δ → Prop) (x y : Execution δ) : Prop where
  cpu : x.cpu = y.cpu
  written : x.written = y.written
  issued : x.issued = y.issued
  cycles : x.cycles = y.cycles
  bus : R x.bus y.bus

def withBus (x : Execution δ) (b : Bus δ) : Execution δ := { x with bus := b }

variable {R : Bus δ → Bus δ → Prop} {x y : Execution δ}

theorem Like.eq_withBus (h : Like R x y) : y = x.withBus y.bus := by
  obtain ⟨cpu, bus, written, issued, cycles⟩ := y
  obtain ⟨rfl, rfl, rfl, rfl, -⟩ := h
  rfl

theorem like_withBus {b : Bus δ} (h : R x.bus b) : Like R x (x.withBus b) :=
  ⟨rfl, rfl, rfl, rfl, h⟩

/-- What does not look at the bus runs alike. -/
theorem Like.map (h : Like R x y) {f : Execution δ → Execution δ}
    (hf : ∀ x b, f (x.withBus b) = (f x).withBus b) : Like R (f x) (f y) := by
  have hbus : (f x).bus = x.bus := congrArg (·.bus) (hf x x.bus)
  rw [h.eq_withBus, hf]
  exact like_withBus (by rw [hbus]; exact h.bus)

/-! ### What does not look at the bus -/

section withBus

variable (x : Execution δ) (b : Bus δ)

@[simp] theorem withBus_cpu : (x.withBus b).cpu = x.cpu := rfl

@[simp] theorem withBus_reg (r : Reg) : (x.withBus b).reg r = x.reg r := rfl

@[simp] theorem withBus_linkAddress : (x.withBus b).linkAddress = x.linkAddress := rfl

@[simp] theorem withBus_raise (e : Exception) :
    (x.withBus b).raise e = (x.raise e).withBus b := rfl

@[simp] theorem withBus_jumpTo (address : UInt32) :
    (x.withBus b).jumpTo address = (x.jumpTo address).withBus b := rfl

@[simp] theorem withBus_setReg (r : Reg) (v : UInt32) :
    (x.withBus b).setReg r v = (x.setReg r v).withBus b := by
  unfold setReg; split <;> rfl

@[simp] theorem withBus_issue (r : Reg) (v : UInt32) :
    (x.withBus b).issue r v = (x.issue r v).withBus b := by
  unfold issue; split <;> rfl

@[simp] theorem withBus_setChecked (r : Reg) (v : Option UInt32) :
    (x.withBus b).setChecked r v = (x.setChecked r v).withBus b := by
  cases v with
  | none => rfl
  | some v => exact withBus_setReg x b r v

@[simp] theorem withBus_branchIf (taken : Bool) (offset : UInt32) :
    (x.withBus b).branchIf taken offset = (x.branchIf taken offset).withBus b := by
  cases taken <;> rfl

@[simp] theorem withBus_moveCop0 (op : CopMove) (rt rd : Reg) :
    (x.withBus b).moveCop0 op rt rd = (x.moveCop0 op rt rd).withBus b := by
  cases op with
  | mfc =>
    simp only [moveCop0, withBus_cpu]
    cases x.cpu.cop0.read? rd <;> simp
  | mtc | cfc | ctc => rfl

@[simp] theorem withBus_moveCop2 (op : CopMove) (rt : Reg) :
    (x.withBus b).moveCop2 op rt = (x.moveCop2 op rt).withBus b := by
  cases op with
  | mfc | cfc => exact withBus_issue x b rt 0
  | mtc | ctc => rfl

theorem withBus_withUsable (n : CopNumber) {f : Execution δ → Execution δ}
    (hf : f (x.withBus b) = (f x).withBus b) :
    (x.withBus b).withUsable n f = (x.withUsable n f).withBus b := by
  unfold withUsable
  rw [withBus_cpu, hf]; split <;> rfl

end withBus

theorem Like.withCop2 (h : Like R x y) (n : CopNumber) {f : Execution δ → Execution δ}
    (hf : ∀ {x y}, Like R x y → Like R (f x) (f y)) : Like R (x.withCop2 n f) (y.withCop2 n f) := by
  unfold Execution.withCop2
  rw [← h.cpu]
  split
  · exact hf h
  · exact h.map (f := (·.unusable n)) fun _ _ => rfl

/-! ### Accesses -/

variable [Device δ] (s : Bus.Simulation R)

include s

theorem Like.chargeWrite (h : Like R x y) (address : UInt32) :
    Like R (x.chargeWrite address) (y.chargeWrite address) := by
  have hcost : x.bus.writeCycles address = y.bus.writeCycles address := by
    simp only [Bus.writeCycles, Bus.cost, s.timing h.bus]
  have hi : x.isIsolated address = y.isIsolated address := by rw [h.eq_withBus]; rfl
  unfold Execution.chargeWrite
  rw [← hi, ← hcost]
  split
  · exact h
  · exact ⟨h.cpu, h.written, h.issued, by rw [h.cycles], h.bus⟩

theorem Like.load (h : Like R x y) (address : UInt32) (w : Width) :
    (x.load address w).1 = (y.load address w).1 ∧
      Like R (x.load address w).2 (y.load address w).2 := by
  have hv : x.isValid address w = y.isValid address w := by rw [h.eq_withBus]; rfl
  have hi : x.isIsolated address = y.isIsolated address := by rw [h.eq_withBus]; rfl
  have hcost : x.bus.readCycles address = y.bus.readCycles address := by
    simp only [Bus.readCycles, Bus.cost, s.timing h.bus]
  unfold Execution.load
  rw [← hv, ← hi, ← hcost]
  split
  · exact ⟨rfl, h.map (f := (·.addressError .addressErrorLoad address)) fun _ _ => rfl⟩
  · split
    · exact ⟨by rw [h.cpu], h⟩
    · obtain ⟨he, hb⟩ := s.read h.bus address w
      exact ⟨congrArg some he, h.cpu, h.written, h.issued, by simp only [h.cycles], hb⟩

theorem Like.storeAt (h : Like R x y) (address : UInt32) (w : Width) (value : UInt32) :
    Like R (x.storeAt address w value) (y.storeAt address w value) := by
  have hi : x.isIsolated address = y.isIsolated address := by rw [h.eq_withBus]; rfl
  unfold Execution.storeAt
  rw [← hi]
  split
  · exact ⟨by simp only [h.cpu, s.cacheControl h.bus], h.written, h.issued, h.cycles, h.bus⟩
  · exact ⟨h.cpu, h.written, h.issued, h.cycles, s.write h.bus ..⟩

theorem Like.store (h : Like R x y) (address : UInt32) (w : Width) (value : UInt32) :
    Like R (x.store address w value) (y.store address w value) := by
  have hv : x.isValid address w = y.isValid address w := by rw [h.eq_withBus]; rfl
  unfold Execution.store
  rw [← hv]
  split
  · exact h.map (f := (·.addressError .addressErrorStore address)) fun _ _ => rfl
  · exact (h.chargeWrite s address).storeAt s ..

/-- What is done with a loaded value. -/
theorem Like.loaded (h : Like R x y) (address : UInt32) (w : Width)
    {f : Execution δ → UInt32 → Execution δ}
    (hf : ∀ x b v, f (x.withBus b) v = (f x v).withBus b) :
    Like R
      (match x.load address w with
        | (none, x) => x
        | (some v, x) => f x v)
      (match y.load address w with
        | (none, y) => y
        | (some v, y) => f y v) := by
  obtain ⟨he, hl⟩ := h.load s address w
  revert he hl
  obtain ⟨v, x'⟩ := x.load address w
  obtain ⟨v', y'⟩ := y.load address w
  rintro rfl hl
  cases v with
  | none => exact hl
  | some v => exact hl.map (f := (f · v)) fun x b => hf x b v

theorem Like.loadSide (h : Like R x y) (side : Side) (rt base : Reg) (offset : UInt32) :
    Like R (x.loadSide side rt base offset) (y.loadSide side rt base offset) := by
  have ha : x.dataAddress base offset = y.dataAddress base offset := by rw [h.eq_withBus]; rfl
  unfold Execution.loadSide
  dsimp only
  rw [← ha, ← h.cpu]
  split
  · exact h.map (f := (·.addressError .addressErrorLoad _)) fun _ _ => rfl
  · exact h.loaded s _ _ (f := fun x word => x.issue rt (side.merge (x.regForMerge rt) word _))
      fun x b v => withBus_issue x b ..

theorem Like.storeSide (h : Like R x y) (side : Side) (rt base : Reg) (offset : UInt32) :
    Like R (x.storeSide side rt base offset) (y.storeSide side rt base offset) := by
  have ha : x.dataAddress base offset = y.dataAddress base offset := by rw [h.eq_withBus]; rfl
  have hr : x.reg rt = y.reg rt := by rw [h.eq_withBus]; rfl
  unfold Execution.storeSide
  dsimp only
  rw [← ha, ← hr, ← h.cpu]
  split
  · exact h.map (f := (·.addressError .addressErrorStore _)) fun _ _ => rfl
  · -- the pieces are stored one by one
    generalize side.pieces _ = pieces
    have h' := h.chargeWrite s (wordOf (x.dataAddress base offset))
    revert h'
    generalize x.chargeWrite _ = x'
    generalize y.chargeWrite _ = y'
    intro h'
    induction pieces generalizing x' y' with
    | nil => exact h'
    | cons piece pieces ih => exact ih _ _ (h'.storeAt s ..)

/-! ### Instructions -/

theorem Like.run (h : Like R x y) (i : Instruction) : Like R (x.run i) (y.run i) := by
  have ha : ∀ {x y : Execution δ}, Like R x y → ∀ base offset,
      x.dataAddress base offset = y.dataAddress base offset := fun h _ _ => by
    rw [h.eq_withBus]; rfl
  cases i with
  | load op rt base offset =>
    simp only [Execution.run, ← ha h base offset]
    exact h.loaded s _ _ (f := fun x v => x.issue rt (op.extend v))
      fun x b v => withBus_issue x b ..
  | store op rt base offset =>
    simp only [Execution.run, ← ha h base offset, Execution.reg, ← h.cpu]
    exact h.store s ..
  | loadSide side rt base offset => exact h.loadSide s ..
  | storeSide side rt base offset => exact h.storeSide s ..
  | copLoad n _ base offset =>
    refine Like.withCop2 h n (f := fun x => (x.load (x.dataAddress base offset) .word).2) ?_
    intro x y h
    rw [ha h base offset]
    exact (h.load s ..).2
  | copStore n _ base offset =>
    refine Like.withCop2 h n (f := fun x => x.store (x.dataAddress base offset) .word 0) ?_
    intro x y h
    rw [ha h base offset]
    exact h.store s ..
  | branchSign op link rs offset =>
    refine h.map (f := (Execution.run · _)) fun x b => ?_
    cases link <;> simp [Execution.run]
  | copMove n op rt rd =>
    refine h.map (f := (Execution.run · _)) fun x b => ?_
    simp only [Execution.run]
    refine withBus_withUsable x b n ?_
    split <;> simp
  | rfe | cop2Command _ | copReserved n _ =>
    refine h.map (f := (Execution.run · _)) fun x b => ?_
    simp only [Execution.run]
    exact withBus_withUsable x b _ rfl
  -- the others work on registers alone
  | _ => exact h.map (f := (Execution.run · _)) fun x b => by first | rfl | simp [Execution.run]

end Execution

/-! ### Steps -/

namespace Bus.Simulation

variable [Device δ] {R : Bus δ → Bus δ → Prop} (s : Bus.Simulation R) {a b : Bus δ}

include s

theorem fetch (h : R a b) (c : Cpu) (pc : UInt32) :
    ∃ word cycles c' a' b', c.fetch a pc = (word, cycles, c', a') ∧
      c.fetch b pc = (word, cycles, c', b') ∧ R a' b' := by
  have huse : Cpu.usesCache a pc = Cpu.usesCache b pc := by
    simp only [Cpu.usesCache, s.cacheControl h]
  have hcost : a.fetchCycles pc = b.fetchCycles pc := by
    simp only [Bus.fetchCycles, Bus.cost, s.timing h]
  obtain ⟨he, hr⟩ := s.read h pc .word
  unfold Cpu.fetch
  rw [← huse, ← hcost]
  revert he hr
  obtain ⟨word, a'⟩ := a.read pc .word
  obtain ⟨word', b'⟩ := b.read pc .word
  rintro rfl hr
  split
  · split
    · exact ⟨_, _, _, _, _, rfl, rfl, h⟩
    · exact ⟨_, _, _, _, _, rfl, rfl, hr⟩
  · exact ⟨_, _, _, _, _, rfl, rfl, hr⟩

theorem execute (h : R a b) (c : Cpu) (word : UInt32) :
    ∃ cycles c' a' b', c.execute a word = (cycles, c', a') ∧
      c.execute b word = (cycles, c', b') ∧ R a' b' := by
  let c₀ := { c with currentInstruction := word, pc := c.nextPc, nextPc := c.nextPc + 4 }
  have hl : Execution.Like R { cpu := c₀, bus := a } { cpu := c₀, bus := b } :=
    ⟨rfl, rfl, rfl, rfl, h⟩
  have hx := hl.run s (.decode word)
  exact ⟨_, _, _, _, rfl, by simp only [Cpu.execute, c₀, hx.cpu, hx.written, hx.issued, hx.cycles],
    hx.bus⟩

theorem fetchExecute (h : R a b) (base : Nat) (c : Cpu) (pc : UInt32) :
    let run (bus : Bus δ) :=
      let (word, fetchCycles, c, bus) := c.fetch bus pc
      let (cycles, c, bus) := c.execute bus word
      (base + fetchCycles + cycles, c, bus)
    ∃ cycles c' a' b', run a = (cycles, c', a') ∧ run b = (cycles, c', b') ∧ R a' b' := by
  obtain ⟨word, fetched, c₂, a₂, b₂, ea, eb, h₂⟩ := s.fetch h c pc
  obtain ⟨cycles, c₃, a₃, b₃, ea', eb', h₃⟩ := s.execute h₂ c₂ word
  exact ⟨base + fetched + cycles, c₃, a₃, b₃, by simp only [ea, ea'], by simp only [eb, eb'], h₃⟩

theorem step (h : R a b) (c : Cpu) :
    ∃ cycles c' a' b', c.step a = (cycles, c', a') ∧ c.step b = (cycles, c', b') ∧ R a' b' := by
  unfold Cpu.step
  rw [← s.timing h, ← s.pending h]
  dsimp only
  split
  · exact ⟨_, _, _, _, rfl, rfl, h⟩
  · split
    · exact ⟨_, _, _, _, rfl, rfl, h⟩
    · exact s.fetchExecute h ..

end Bus.Simulation

end Psx
