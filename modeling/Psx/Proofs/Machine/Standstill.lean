import Psx.Proofs.Cpu.Coherent
import Psx.Proofs.Machine.PowerCycle

/-!
# A session in which no time passes

What an instruction costs is what the configuration says, and a fetch that the cache answers costs
nothing beside it. Where an instruction itself is free, a program can therefore run on without the
clock moving. The trap is such a program: the boot image goes to address 0, and there is a jump to
itself with nothing in its shadow. It can be brought about in every configuration
(`Machine.exists_trapped`), and when the loop has been passed once it is in the cache
(`Machine.Trapped.circling`), so from then on a step costs what an instruction costs
(`Machine.Circling.step`).
-/

namespace Psx

open Address

/-! ### Lines -/

namespace InstructionCache

variable {c : InstructionCache} {a a' : UInt32}

theorem fetch?_fill_self (h : index a < c.lines.size) (word : UInt32) :
    (c.fill a word).fetch? a = some word := by
  unfold fetch? lineAt fill
  dsimp only
  rw [Array.getElem?_setIfInBounds_self_of_lt h]
  simp

theorem fetch?_fill_of_ne (h : index a ≠ index a') (word : UInt32) :
    (c.fill a word).fetch? a' = c.fetch? a' := by
  unfold fetch? lineAt fill
  dsimp only
  rw [Array.getElem?_setIfInBounds_ne h]

theorem fetch?_initial (a : UInt32) : initial.fetch? a = none := by
  have hline : initial.lineAt a = {} := by
    unfold lineAt initial
    dsimp only
    rw [Array.getElem?_replicate]
    split <;> rfl
  unfold fetch?
  rw [hline]
  rfl

end InstructionCache

theorem Cpu.settle_of_idle {c : Cpu} (h : c.delayed = none) (written : Reg) :
    c.settle written none = c := by
  unfold settle
  rw [h]
  cases c
  cases h
  rfl

theorem Dma.initial_idle (gap : Nat) : (initial gap).hasPendingWork = false := by
  have hnone : ∀ i, (initial 0).isRunnable i = false := by decide
  rw [← Bool.not_eq_true, hasPendingWork_iff]
  rintro ⟨i, hi⟩
  cases (hnone i).symm.trans hi

/-! ### The program -/

namespace Trap

def word (pc : UInt32) : UInt32 :=
  if pc = 0 then 0x08000000 else if pc = Cpu.resetVector then 0x00000008 else 0

/-- Where the program may stand. -/
def places : List UInt32 := [Cpu.resetVector, Cpu.resetVector + 4, 0, 4]

def loop : List UInt32 := [0, 4]

theorem forall_places {p : UInt32 → Prop} :
    (∀ a ∈ places, p a) ↔ p Cpu.resetVector ∧ p (Cpu.resetVector + 4) ∧ p 0 ∧ p 4 := by
  simp [places]

theorem forall_loop {p : UInt32 → Prop} : (∀ a ∈ loop, p a) ↔ p 0 ∧ p 4 := by simp [loop]

/-- Where it goes on behind an instruction and the next one. -/
def behind (pc nextPc : UInt32) : UInt32 :=
  if pc = 0 ∨ pc = Cpu.resetVector then 0 else nextPc + 4

/-- The memories hold the program, and the cache is enabled. -/
structure Filled (memory : Memory) : Prop where
  boot : Bytes.load memory.bios 0 .word = word Cpu.resetVector
  bootShadow : Bytes.load memory.bios 4 .word = 0
  loop : Bytes.load memory.ram 0 .word = word 0
  loopShadow : Bytes.load memory.ram 4 .word = 0
  enabled : CacheControl.cacheEnabled memory.cacheControl = true

theorem load_store_zeros {n : Nat} (h : 4 ≤ n) (value : UInt32) :
    Bytes.load (Bytes.store (Bytes.zeros n) 0 .word value) 0 .word = value ∧
      Bytes.load (Bytes.store (Bytes.zeros n) 0 .word value) 4 .word = 0 := by
  have hsize : (Bytes.zeros n).size = n := Array.size_replicate
  constructor
  · rw [Bytes.load_store value (by rw [hsize]; exact h)]
    exact UInt32.and_neg_one
  · rw [Bytes.load_store_disjoint value (.inr (by decide)), Bytes.load_zeros]

variable {δ : Type} [Device δ] {bus : Bus δ} {c : Cpu} {pc nextPc : UInt32}

theorem read_eq (h : Filled bus.memory) (hpc : pc ∈ places) :
    bus.read pc .word = (word pc, bus) := by
  have hbios : ∀ {a : UInt32} {i : Nat} {value : UInt32}, region (Width.word.align a) = .bios →
      (Address.translate (Width.word.align a) - biosFirst).toNat = i →
      Bytes.load bus.memory.bios i .word = value → bus.read a .word = (value, bus) := by
    intro a i value ha hi hvalue
    unfold Bus.read
    dsimp only
    rw [ha, ← hvalue, ← hi]
  have hram : ∀ {a : UInt32} {i : Nat} {value : UInt32}, region (Width.word.align a) = .ram →
      ramIndex a .word = i → Bytes.load bus.memory.ram i .word = value →
      bus.read a .word = (value, bus) := by
    intro a i value ha hi hvalue
    rw [Bus.read_ram ha, hi, hvalue]
  simp only [places, List.mem_cons, List.not_mem_nil, or_false] at hpc
  rcases hpc with rfl | rfl | rfl | rfl
  · exact hbios (by decide) (by decide) h.boot
  · exact hbios (by decide) (by decide) h.bootShadow
  · exact hram (by decide) (by decide) h.loop
  · exact hram (by decide) (by decide) h.loopShadow

/-! ### The loop in the cache -/

/-- What the cache holds of the loop is the loop. -/
structure Clean (cache : InstructionCache) : Prop where
  lines : cache.lines.size = 1024
  cached : ∀ a ∈ loop, ∀ value, cache.fetch? a = some value → value = word a

/-- The cache answers at least where it answered before. -/
def Answers (cache cache' : InstructionCache) : Prop :=
  ∀ a ∈ loop, (cache.fetch? a).isSome → (cache'.fetch? a).isSome

theorem Clean.fill {cache : InstructionCache} (h : Clean cache) (hpc : pc ∈ loop) :
    Clean (cache.fill pc (word pc)) ∧ Answers cache (cache.fill pc (word pc)) ∧
      ((cache.fill pc (word pc)).fetch? pc).isSome := by
  have hapart : ∀ a ∈ loop, ∀ a' ∈ loop, a ≠ a' →
      InstructionCache.index a ≠ InstructionCache.index a' :=
    forall_loop.2 ⟨forall_loop.2 (by decide), forall_loop.2 (by decide)⟩
  have hindex : InstructionCache.index pc < cache.lines.size := by
    have hlt : ∀ a ∈ loop, InstructionCache.index a < 1024 := forall_loop.2 (by decide)
    rw [h.lines]
    exact hlt pc hpc
  have hself := InstructionCache.fetch?_fill_self hindex (word pc)
  have hother : ∀ a ∈ loop, a ≠ pc → (cache.fill pc (word pc)).fetch? a = cache.fetch? a :=
    fun a ha hne => InstructionCache.fetch?_fill_of_ne (hapart pc hpc a ha (Ne.symm hne)) _
  have hsome : ((cache.fill pc (word pc)).fetch? pc).isSome := by rw [hself]; rfl
  refine ⟨⟨(InstructionCache.fill_size ..).trans h.lines, fun a ha value hv => ?_⟩,
    fun a ha hs => ?_, hsome⟩
  · by_cases he : a = pc
    · rw [he, hself] at hv
      rw [he, Option.some.inj hv]
    · exact h.cached a ha value ((hother a ha he).symm.trans hv)
  · by_cases he : a = pc
    · rw [he]
      exact hsome
    · rw [hother a ha he]
      exact hs

/-! ### The processor -/

/-- The processor is about to execute the program at an address. -/
structure Holds (c : Cpu) (pc nextPc : UInt32) : Prop where
  pc : c.pc = pc
  nextPc : c.nextPc = nextPc
  status : c.cop0.status = Cop0.bootVectorsBit
  delayed : c.delayed = none
  clean : Clean c.cache

omit [Device δ] in
theorem Holds.executes (h : Holds c pc nextPc) (hpc : pc ∈ places) : c.executes bus = true := by
  have hstatus : (c.begun bus).cop0.status = Cop0.bootVectorsBit :=
    (Cop0.status_setHardwareInterrupt ..).trans h.status
  have haligned : ∀ a ∈ places, a &&& 3 = 0 := forall_places.2 (by decide)
  refine Cpu.executes_iff.2 ⟨?_, ?_⟩
  · unfold Cpu.isInterrupted Cop0.interruptPending
    rw [hstatus]
    rfl
  · unfold Cpu.misfetches Cpu.addressAllowed Cop0.userMode
    rw [hstatus, h.pc, haligned pc hpc]
    rfl

theorem Holds.fetched (h : Holds c pc nextPc) (hm : Filled bus.memory) (hpc : pc ∈ places) :
    (c.fetched bus).1 = word pc ∧ (c.fetched bus).2.2.2 = bus ∧
      Clean (c.fetched bus).2.2.1.cache ∧ Answers c.cache (c.fetched bus).2.2.1.cache ∧
      (pc ∈ loop → ((c.fetched bus).2.2.1.cache.fetch? pc).isSome ∧
        ((c.cache.fetch? pc).isSome → (c.fetched bus).2.1 = 0)) := by
  have huses : Cpu.usesCache bus pc = true ↔ pc ∈ loop := by
    have hall : ∀ a ∈ places, (Segment.of a).isCached = true ↔ a ∈ loop :=
      forall_places.2 (by decide)
    unfold Cpu.usesCache
    rw [hm.enabled, Bool.and_true]
    exact hall pc hpc
  have hread := read_eq hm hpc
  unfold Cpu.fetched Cpu.fetch
  rw [h.pc]
  by_cases hu : Cpu.usesCache bus pc = true
  · rw [if_pos hu]
    have hloop := huses.1 hu
    cases hf : (c.begun bus).cache.fetch? pc with
    | some value =>
      have hsome : c.cache.fetch? pc = some value := hf
      exact ⟨h.clean.cached pc hloop value hsome, rfl, h.clean, fun _ _ hs => hs,
        fun _ => ⟨Option.isSome_of_eq_some hsome, fun _ => rfl⟩⟩
    | none =>
      have hnone : c.cache.fetch? pc = none := hf
      obtain ⟨hclean, hanswers, hself⟩ := h.clean.fill hloop
      dsimp only
      rw [hread]
      refine ⟨rfl, rfl, hclean, hanswers, fun _ => ⟨hself, fun hs => ?_⟩⟩
      rw [hnone] at hs
      cases hs
  · rw [if_neg hu, hread]
    exact ⟨rfl, rfl, h.clean, fun _ _ hs => hs, fun hl => absurd (huses.2 hl) hu⟩

theorem Holds.run (h : Holds c pc nextPc) (hm : Filled bus.memory) (hpc : pc ∈ places) :
    ∃ branched, (c.execution bus).run (c.instruction bus) = { c.execution bus with
      cpu := { (c.execution bus).cpu with nextPc := behind pc nextPc, branched } } := by
  have hcpu := c.execution_cpu bus
  have hnext : (c.execution bus).cpu.nextPc = nextPc + 4 := by rw [hcpu, ← h.nextPc]
  have hcurrent : (c.execution bus).cpu.currentPc = pc := by rw [hcpu, ← h.pc]; rfl
  have hshadow : ∀ a, a ≠ 0 ∧ a ≠ Cpu.resetVector → behind a nextPc = nextPc + 4 :=
    fun a ha => if_neg (not_or.2 ha)
  unfold Cpu.instruction
  rw [(h.fetched hm hpc).1]
  simp only [places, List.mem_cons, List.not_mem_nil, or_false] at hpc
  rcases hpc with rfl | rfl | rfl | rfl
  · exact ⟨true, rfl⟩
  · refine ⟨(c.execution bus).cpu.branched, ?_⟩
    rw [hshadow _ (by decide), ← hnext]
    rfl
  · refine ⟨true, ?_⟩
    show (c.execution bus).jumpTo (jumpTarget (c.execution bus).cpu.currentPc 0) = _
    rw [hcurrent]
    rfl
  · refine ⟨(c.execution bus).cpu.branched, ?_⟩
    rw [hshadow _ (by decide), ← hnext]
    rfl

theorem Holds.step (h : Holds c pc nextPc) (hm : Filled bus.memory) (hpc : pc ∈ places) :
    Holds (c.step bus).2.1 nextPc (behind pc nextPc) ∧ (c.step bus).2.2 = bus ∧
      Answers c.cache (c.step bus).2.1.cache ∧
      (pc ∈ loop → ((c.step bus).2.1.cache.fetch? pc).isSome ∧
        ((c.cache.fetch? pc).isSome → (c.step bus).1 = bus.timing.instructionCycles)) := by
  obtain ⟨-, hbus, hclean, hanswers, hloop⟩ := h.fetched hm hpc
  obtain ⟨branched, hrun⟩ := h.run hm hpc
  have hcpu := c.execution_cpu bus
  have hstep : c.step bus = (bus.timing.instructionCycles + (c.fetched bus).2.1,
      { (c.execution bus).cpu with nextPc := behind pc nextPc, branched }, bus) := by
    have hdelayed : (c.execution bus).cpu.delayed = none := by rw [hcpu]; exact h.delayed
    rw [Cpu.step_executed (h.executes hpc), hrun]
    exact Prod.ext rfl (Prod.ext (Cpu.settle_of_idle (by exact hdelayed) _) hbus)
  rw [hstep, hcpu]
  refine ⟨⟨h.nextPc, rfl, ?_, h.delayed, hclean⟩, rfl, hanswers, fun hl => ⟨(hloop hl).1, ?_⟩⟩
  · exact (Cop0.status_setHardwareInterrupt ..).trans h.status
  · intro hs
    rw [(hloop hl).2 hs, Nat.add_zero]

end Trap

namespace Machine

variable {δ : Type} [Device δ] {s : Surroundings δ} {m : Machine δ} {pc nextPc : UInt32}

/-! ### Waits with nothing to move -/

/-- The chips of the core alone, and nothing for a slice to move. -/
structure Idle (m : Machine δ) : Prop where
  parts : m.bus.parts = Part.core
  idle : m.bus.board.dma.hasPendingWork = false

/-- A wait has touched neither the processor nor the memories. -/
structure Waited (m m' : Machine δ) : Prop where
  cpu : m'.cpu = m.cpu
  memory : m'.bus.memory = m.bus.memory
  idle : m'.Idle

omit [Device δ] in
theorem Waited.trans {m₁ m₂ : Machine δ} (h : m.Waited m₁) (h' : m₁.Waited m₂) : m.Waited m₂ :=
  ⟨h'.cpu.trans h.cpu, h'.memory.trans h.memory, h'.idle⟩

theorem elapse_cpu (m : Machine δ) (target : Nat) : (m.elapse target).2.cpu = m.cpu := by
  show m.refreshDeviceEvent.cpu = m.cpu
  unfold refreshDeviceEvent
  cases m.bus.untilEvent <;> rfl

theorem Idle.elapse (h : m.Idle) (target : Nat) : m.Waited (m.elapse target).2 := by
  have hbus := m.elapse_bus target
  by_cases hz : m.boundary target - m.now = 0
  · rw [hz, Bus.advance_zero] at hbus
    exact ⟨m.elapse_cpu target, by rw [hbus],
      ⟨by rw [hbus]; exact h.parts, by rw [hbus]; exact h.idle⟩⟩
  · rw [Bus.advance_core h.parts hz] at hbus
    exact ⟨m.elapse_cpu target, by rw [hbus],
      ⟨by rw [hbus]; exact h.parts, by rw [hbus]; exact h.idle⟩⟩

theorem Idle.runDmaSlice (h : m.Idle) : m.runDmaSlice = (0, m) := by
  rw [runDmaSlice_none (Bus.runSlice_idle h.idle)]

theorem Idle.catchUp (h : m.Idle) (slices target stolen : Nat) :
    (m.catchUp slices target stolen).1 = stolen ∧
      m.Waited (m.catchUp slices target stolen).2 := by
  induction m, slices, target, stolen using catchUp_induct with
  | out m target stolen hdue =>
    rw [catchUp_due_zero stolen hdue]
    exact ⟨rfl, h.elapse target⟩
  | last m slices target stolen hdue hlast =>
    rw [catchUp_due_succ stolen hdue, if_pos hlast, (h.elapse target).idle.runDmaSlice]
    exact ⟨rfl, h.elapse target⟩
  | slice m slices target stolen hdue hmore ih =>
    rw [catchUp_due_succ stolen hdue, if_neg hmore]
    rw [(h.elapse target).idle.runDmaSlice] at ih ⊢
    obtain ⟨he, hw⟩ := ih (h.elapse target).idle
    exact ⟨he, (h.elapse target).trans hw⟩
  | more m slices target stolen hidle hmore ih =>
    rw [catchUp_idle stolen hidle, if_pos hmore]
    obtain ⟨he, hw⟩ := ih (h.elapse target).idle
    exact ⟨he, (h.elapse target).trans hw⟩
  | done m slices target stolen hidle hdone =>
    rw [catchUp_idle stolen hidle, if_neg hdone]
    exact ⟨rfl, h.elapse target⟩

theorem executed_cpu (m : Machine δ) : m.executed.2.cpu = (m.cpu.step m.bus).2.1 := by
  have hwake : ∀ (m : Machine δ) cost, (m.wakeDma cost).cpu = m.cpu := fun m cost => by
    unfold wakeDma; split <;> rfl
  have htrace : ∀ m : Machine δ, m.trace.cpu = m.cpu := fun m => by
    unfold trace; split <;> rfl
  exact (hwake _ _).trans (htrace _)

/-- A step of a session that is idle is the step of its processor, if that leaves the bus alone. -/
theorem Idle.step (h : m.Idle) (hb : (m.cpu.step m.bus).2.2 = m.bus) :
    m.step.1 = (m.cpu.step m.bus).1 ∧ m.step.2.cpu = (m.cpu.step m.bus).2.1 ∧
      m.step.2.bus.memory = m.bus.memory ∧ m.step.2.Idle := by
  have hbus : m.executed.2.bus = m.bus := m.executed_frame.1.trans hb
  have he : m.executed.2.Idle := ⟨by rw [hbus]; exact h.parts, by rw [hbus]; exact h.idle⟩
  obtain ⟨hstolen, hw⟩ := he.catchUp (sliceAllowance m.executed.1)
    (m.executed.2.now + m.executed.1) 0
  rw [step_eq]
  refine ⟨?_, hw.cpu.trans m.executed_cpu, hw.memory.trans (by rw [hbus]), hw.idle⟩
  exact congrArg (m.executed.1 + ·) hstolen

/-! ### The trap -/

/-- The session is about to execute the program at an address, and nothing else goes on. -/
structure Trapped (m : Machine δ) (pc nextPc : UInt32) : Prop where
  idle : m.Idle
  memory : Trap.Filled m.bus.memory
  cpu : Trap.Holds m.cpu pc nextPc

theorem Trapped.step (h : m.Trapped pc nextPc) (hpc : pc ∈ Trap.places) :
    m.step.2.Trapped nextPc (Trap.behind pc nextPc) ∧
      Trap.Answers m.cpu.cache m.step.2.cpu.cache ∧
      (pc ∈ Trap.loop → (m.step.2.cpu.cache.fetch? pc).isSome ∧
        ((m.cpu.cache.fetch? pc).isSome → m.step.1 = m.bus.timing.instructionCycles)) := by
  obtain ⟨hcpu, hbus, hanswers, hloop⟩ := h.cpu.step h.memory hpc
  obtain ⟨hcost, hsame, hmemory, hidle⟩ := h.idle.step hbus
  rw [hcost, hsame]
  exact ⟨⟨hidle, hmemory ▸ h.memory, hsame ▸ hcpu⟩, hanswers, hloop⟩

/-- The session runs through the loop, and the cache answers all of it. -/
structure Circling (m : Machine δ) : Prop where
  place : m.Trapped 0 4 ∨ m.Trapped 4 0
  cached : ∀ a ∈ Trap.loop, (m.cpu.cache.fetch? a).isSome

theorem Circling.step (h : m.Circling) :
    m.step.2.Circling ∧ m.step.1 = m.bus.timing.instructionCycles := by
  rcases h.place with ht | ht
  · obtain ⟨ht', hanswers, hloop⟩ := ht.step (by decide)
    rw [show Trap.behind 0 4 = 0 by decide] at ht'
    exact ⟨⟨.inr ht', fun a ha => hanswers a ha (h.cached a ha)⟩,
      (hloop (by decide)).2 (h.cached 0 (by decide))⟩
  · obtain ⟨ht', hanswers, hloop⟩ := ht.step (by decide)
    rw [show Trap.behind 4 0 = 4 by decide] at ht'
    exact ⟨⟨.inl ht', fun a ha => hanswers a ha (h.cached a ha)⟩,
      (hloop (by decide)).2 (h.cached 4 (by decide))⟩

/-- When the program has come through the loop once, the loop is in the cache. -/
theorem Trapped.circling (h : m.Trapped Cpu.resetVector (Cpu.resetVector + 4)) :
    m.step.2.step.2.step.2.step.2.Circling := by
  have h₁ : m.step.2.Trapped (Cpu.resetVector + 4) 0 := (h.step (by decide)).1
  have h₂ := (h₁.step (by decide)).1
  rw [show Trap.behind (Cpu.resetVector + 4) 0 = 4 by decide] at h₂
  obtain ⟨h₃, -, hfirst⟩ := h₂.step (by decide)
  rw [show Trap.behind 0 4 = 0 by decide] at h₃
  obtain ⟨h₄, hanswers, hsecond⟩ := h₃.step (by decide)
  rw [show Trap.behind 4 0 = 4 by decide] at h₄
  refine ⟨.inl h₄, fun a ha => ?_⟩
  simp only [Trap.loop, List.mem_cons, List.not_mem_nil, or_false] at ha
  rcases ha with rfl | rfl
  · exact hanswers 0 (by decide) (hfirst (by decide)).1
  · exact (hsecond (by decide)).1

/-! ### Reaching it -/

theorem Fits.with_memory (h : m.Fits) {memory : Memory} (hs : memory.hasSizes = true) :
    ({ m with bus := { m.bus with memory } } : Machine δ).Fits := by
  have hm : Memory.law.fits memory := by
    rw [Memory.hasSizes_iff] at hs
    refine ⟨?_, ?_, ?_, trivial⟩
    · show memory.ram.size < _; rw [hs.1.1]; decide
    · show memory.scratchpad.size < _; rw [hs.1.2]; decide
    · show memory.bios.size < _; rw [hs.2]; decide
  exact ⟨⟨h.session.1, h.session.2.1, hm, h.session.2.2.2⟩, h.chips⟩

theorem perform_write (m : Machine δ) {address value : UInt32} {w : Width} {memory : Memory}
    (h : m.bus.write address w value = { m.bus with memory }) :
    m.perform (.write address w value) = { m with bus := { m.bus with memory } } := by
  unfold perform
  dsimp only
  rw [h]

/-- A write to the memories can be done to a session from outside. -/
theorem Reachable.write (h : m.Reachable s) {address value : UInt32} {w : Width} {memory : Memory}
    (hw : m.bus.write address w value = { m.bus with memory }) :
    ∃ m' : Machine δ, m'.Reachable s ∧ m'.cpu = m.cpu ∧ m'.bus = { m.bus with memory } := by
  have hp := m.perform_write hw
  have hs := (m.bus.frame_write address w value).sizes h.laid.sizes
  rw [hw] at hs
  refine ⟨_, .perform (.write address w value) h ?_, ?_, ?_⟩
  · rw [hp]
    exact h.fits.with_memory hs
  · rw [hp]
  · rw [hp]

theorem write_loop (b : Bus δ) : b.write 0 .word (Trap.word 0) = { b with
    memory := { b.memory with ram := Bytes.store b.memory.ram 0 .word (Trap.word 0) } } := by
  rw [Bus.write_ram (by decide), show ramIndex 0 .word = 0 by decide,
    show Trap.word 0 &&& Width.word.mask = Trap.word 0 from UInt32.and_neg_one]

theorem write_enable {b : Bus δ} (h : b.memory.cacheControl = 0) :
    b.write cacheControl .word CacheControl.cacheEnableBit = { b with
      memory := { b.memory with cacheControl := CacheControl.cacheEnableBit } } := by
  unfold Bus.write
  dsimp only
  rw [show region (Width.word.align cacheControl) = .cacheControl by decide, h]
  rfl

/-- The session is powered on with the program as its boot image; then the loop is written into its
RAM and the cache enabled. -/
theorem exists_trapped (hf : s.config.Fits) :
    ∃ m : Machine δ, m.Reachable s ∧ m.Trapped Cpu.resetVector (Cpu.resetVector + 4) := by
  have hzeros : (Bytes.zeros biosSize).size = biosSize := Array.size_replicate
  obtain ⟨image, hsize, hboot, hshadow⟩ : ∃ image : ByteArray, image.size = biosSize ∧
      Bytes.load image 0 .word = Trap.word Cpu.resetVector ∧ Bytes.load image 4 .word = 0 :=
    ⟨_, (Bytes.store_size ..).trans hzeros, Trap.load_store_zeros (by decide) _⟩
  have hbuilt := ofConfig_image (δ := δ) s.config hsize
  have hreach : (built s.config image : Machine δ).Reachable s :=
    .powerOn hbuilt (fits_powerOn hf hbuilt)
  have hcpu : (built (δ := δ) s.config image).cpu = .initial := rfl
  have hidle : (built (δ := δ) s.config image).Idle := ⟨rfl, Dma.initial_idle _⟩
  have hbios : (built (δ := δ) s.config image).bus.memory.bios = image := rfl
  have hzero : (built (δ := δ) s.config image).bus.memory.cacheControl = 0 := rfl
  have hram : (built (δ := δ) s.config image).bus.memory.ram = Bytes.zeros ramSize := by
    unfold built Memory.initial
    dsimp only
  -- nothing more is needed of the session, and its images must not be unfolded
  revert hreach hcpu hidle hbios hzero hram
  generalize built (δ := δ) s.config image = m
  intro hreach hcpu hidle hbios hzero hram
  have hloop := Trap.load_store_zeros (n := ramSize) (by decide) (Trap.word 0)
  rw [← hram] at hloop
  obtain ⟨m₁, hreach₁, hcpu₁, hbus₁⟩ := hreach.write (write_loop _)
  revert hloop hbus₁
  generalize Bytes.store m.bus.memory.ram 0 .word (Trap.word 0) = ram
  intro hloop hbus₁
  have hzero₁ : m₁.bus.memory.cacheControl = 0 := by rw [hbus₁]; exact hzero
  obtain ⟨m₂, hreach₂, hcpu₂, hbus₂⟩ := hreach₁.write (write_enable hzero₁)
  have hkept : ∀ (b : Bus δ) memory, ({ b with memory } : Bus δ).parts = b.parts ∧
      ({ b with memory } : Bus δ).board = b.board := fun _ _ => ⟨rfl, rfl⟩
  have hparts : m₂.bus.parts = m.bus.parts := by
    rw [hbus₂, (hkept _ _).1, hbus₁, (hkept _ _).1]
  have hboard : m₂.bus.board = m.bus.board := by
    rw [hbus₂, (hkept _ _).2, hbus₁, (hkept _ _).2]
  have henabled : CacheControl.cacheEnabled CacheControl.cacheEnableBit = true := by decide
  refine ⟨m₂, hreach₂, ⟨hparts.trans hidle.parts, by rw [hboard]; exact hidle.idle⟩, ?_, ?_⟩
  · rw [hbus₂, hbus₁]
    dsimp only
    rw [← hbios] at hboot hshadow
    exact ⟨hboot, hshadow, hloop.1, hloop.2, henabled⟩
  · rw [hcpu₂, hcpu₁, hcpu]
    refine ⟨rfl, rfl, by decide, rfl, Cpu.sound_initial.lines, fun a _ value hv => ?_⟩
    cases (InstructionCache.fetch?_initial a).symm.trans hv

end Machine

end Psx
