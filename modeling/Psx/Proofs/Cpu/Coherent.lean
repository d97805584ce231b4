import Mathlib.Logic.Function.Iterate
import Psx.Proofs.Bus.Cells
import Psx.Proofs.Cpu.Accesses
import Psx.Proofs.Cpu.Return

/-!
# The cache is transparent

A processor that fetches straight from the bus (`Cpu.stepDirect`) does not need the cache. One that
has it does the same as long as the cache holds what the memory holds (`Coherent`): a line is filled
with what the bus answers, and lines that are there stay right unless the word that they hold
changes behind their back (`Cpu.Undisturbed`). An instruction does not see the cache unless it is
isolated (`Execution.run_withCache`).

Main statement: `Cpu.cache_transparent`, for a run of any length that begins with no valid line.
-/

namespace Psx

namespace InstructionCache

variable {c : InstructionCache}

/-- The address of the word that a line holds. -/
def lineAddress (i : Nat) (tag : UInt32) : UInt32 := 0x1000 * tag + 4 * .ofNat i

/-- The addresses and the words of the valid lines. -/
def held (c : InstructionCache) : List (UInt32 × UInt32) :=
  (c.lines.toList.zipIdx.filter (·.1.valid)).map fun (line, i) =>
    (lineAddress i line.tag, line.data)

theorem mem_held {p : UInt32 × UInt32} : p ∈ c.held ↔ ∃ i line, c.lines[i]? = some line ∧
    line.valid = true ∧ (lineAddress i line.tag, line.data) = p := by
  unfold held
  simp only [List.mem_map, List.mem_filter, List.mem_zipIdx_iff_getElem?, Array.getElem?_toList]
  constructor
  · rintro ⟨⟨line, i⟩, ⟨hline, hvalid⟩, rfl⟩
    exact ⟨i, line, hline, hvalid, rfl⟩
  · rintro ⟨i, line, hline, hvalid, rfl⟩
    exact ⟨(line, i), ⟨hline, hvalid⟩, rfl⟩

theorem index_eq (a : UInt32) : index a = a.toNat / 4 % 1024 := by
  unfold index
  rw [UInt32.toNat_and, UInt32.toNat_shiftRight,
    show (0x3FF : UInt32).toNat = 2 ^ 10 - 1 from rfl, Nat.and_two_pow_sub_one_eq_mod,
    Nat.shiftRight_eq_div_pow]
  rfl

theorem lineAddress_eq (a : UInt32) : lineAddress (index a) (tag a) = Width.word.align a := by
  have h := a.toNat_lt
  have htag : (tag a).toNat = a.toNat / 4096 := by
    unfold tag
    rw [UInt32.toNat_shiftRight, Nat.shiftRight_eq_div_pow]
    rfl
  apply UInt32.toNat_inj.1
  unfold lineAddress
  rw [UInt32.toNat_add, UInt32.toNat_mul, UInt32.toNat_mul, htag, index_eq, UInt32.toNat_ofNat',
    Width.align_toNat]
  change (0x1000 * (a.toNat / 4096) % 2 ^ 32 + 4 * (a.toNat / 4 % 1024 % 2 ^ 32) % 2 ^ 32) %
    2 ^ 32 = a.toNat / 4 * 4
  omega

/-- A hit is a valid line that holds the word around the address. -/
theorem held_of_fetch? {a word : UInt32} (h : c.fetch? a = some word) :
    (Width.word.align a, word) ∈ c.held := by
  unfold fetch? at h
  dsimp only at h
  split_ifs at h with hhit
  rw [Bool.and_eq_true, beq_iff_eq] at hhit
  obtain ⟨hvalid, htag⟩ := hhit
  obtain rfl := Option.some_inj.1 h
  unfold lineAt at hvalid htag ⊢
  cases hl : c.lines[index a]? with
  | none => rw [hl] at hvalid; cases hvalid
  | some line =>
    rw [hl] at hvalid htag
    refine mem_held.2 ⟨index a, line, hl, hvalid, ?_⟩
    rw [← lineAddress_eq, ← htag]
    rfl

/-- A line that is filled takes the place of one, and leaves the others alone. -/
theorem held_fill {a word : UInt32} {p : UInt32 × UInt32} (h : p ∈ (c.fill a word).held) :
    p = (Width.word.align a, word) ∨ p ∈ c.held := by
  obtain ⟨i, line, hline, hvalid, rfl⟩ := mem_held.1 h
  unfold fill at hline
  dsimp only at hline
  rw [Array.getElem?_setIfInBounds] at hline
  split_ifs at hline with hi hb
  · obtain rfl := Option.some_inj.1 hline
    exact .inl (by rw [← hi, lineAddress_eq])
  · exact .inr (mem_held.2 ⟨i, line, hline, hvalid, rfl⟩)

end InstructionCache

/-! ### Without devices -/

namespace Bus

variable {δ : Type} [Device δ] {b : Bus δ}

theorem read_unchanged (h : b.table.entries = #[]) (a : UInt32) (w : Width) :
    (b.read a w).2 = b := by
  rw [read_eq h]
  split
  · rfl
  · split_ifs <;> rfl

omit [Device δ] in
theorem align_align (w : Width) (a : UInt32) : w.align (w.align a) = w.align a := by
  unfold Width.align
  rw [UInt32.and_assoc, UInt32.and_self]

theorem read_align (b : Bus δ) (a : UInt32) (w : Width) : b.read (w.align a) w = b.read a w := by
  unfold read
  rw [align_align]

end Bus

/-! ### Accesses that go to the bus -/

def Access.onBus : Access → Bool
  | read .. | write .. => true
  | _ => false

namespace Outside

variable {δ : Type} [Device δ]

/-- The bus does not see the cache, and the cache does not see accesses to the bus. -/
theorem performAll_onBus {as : List Access} (h : ∀ a ∈ as, a.onBus = true) (o o' : Outside δ)
    (hb : o'.bus = o.bus) : o'.answers as = o.answers as ∧
      o'.performAll as = { cache := o'.cache, bus := (o.performAll as).bus } := by
  induction as generalizing o o' with
  | nil =>
    refine ⟨rfl, ?_⟩
    change o' = { cache := o'.cache, bus := o.bus }
    rw [← hb]
  | cons a as ih =>
    rw [List.forall_mem_cons] at h
    have hone : o'.answer a = o.answer a ∧ (o'.perform a).bus = (o.perform a).bus ∧
        (o'.perform a).cache = o'.cache := by
      cases a with
      | read | write =>
        unfold answer perform
        dsimp only
        rw [hb]
        exact ⟨rfl, rfl, rfl⟩
      | fetch | fetchCached | readIsolated | writeIsolated => cases h.1
    obtain ⟨hanswer, hbus, hcache⟩ := hone
    obtain ⟨hanswers, hall⟩ := ih h.2 (o.perform a) (o'.perform a) hbus
    refine ⟨congrArg₂ List.cons hanswer hanswers, ?_⟩
    change (o'.perform a).performAll as = _
    rw [hall, hcache]
    rfl

theorem frame_performAll (o : Outside δ) (as : List Access) :
    o.bus.Frame (o.performAll as).bus := by
  induction as generalizing o with
  | nil => exact .refl o.bus
  | cons a as ih => exact (o.frame_perform a).trans (ih (o.perform a))

end Outside

namespace Execution

variable {δ : Type} {x : Execution δ} {i : Instruction}

theorem isIsolated_of_not (h : x.cpu.cop0.cacheIsolated = false) (address : UInt32) :
    x.isIsolated address = false := by
  unfold isIsolated
  rw [h, Bool.false_and]

theorem onBus_loadAccesses (h : x.cpu.cop0.cacheIsolated = false) {address : UInt32} {w : Width}
    {a : Access} (ha : a ∈ x.loadAccesses address w) : a.onBus = true := by
  unfold loadAccesses at ha
  rw [isIsolated_of_not h, if_neg Bool.false_ne_true] at ha
  split_ifs at ha
  · rw [List.mem_singleton.1 ha]
    rfl
  · cases ha

theorem onBus_storeAccess (h : x.cpu.cop0.cacheIsolated = false) (address : UInt32) (w : Width)
    (value : UInt32) : (x.storeAccess address w value).onBus = true := by
  unfold storeAccess
  rw [isIsolated_of_not h]
  rfl

theorem onBus_storeAccesses (h : x.cpu.cop0.cacheIsolated = false) {address value : UInt32}
    {w : Width} {a : Access} (ha : a ∈ x.storeAccesses address w value) : a.onBus = true := by
  unfold storeAccesses at ha
  split_ifs at ha
  · rw [List.mem_singleton.1 ha]
    exact onBus_storeAccess h ..
  · cases ha

/-- While the cache is not isolated all that an instruction accesses is on the bus. -/
theorem onBus_of_accesses (h : x.cpu.cop0.cacheIsolated = false) {a : Access}
    (ha : a ∈ x.accesses i) : a.onBus = true := by
  cases i with
  | load | loadSide => exact onBus_loadAccesses h ha
  | store => exact onBus_storeAccesses h ha
  | storeSide =>
    simp only [accesses, storeSideAccesses] at ha
    split_ifs at ha
    · obtain ⟨piece, -, rfl⟩ := List.mem_map.1 ha
      exact onBus_storeAccess h ..
    · cases ha
  | copLoad =>
    simp only [accesses] at ha
    split_ifs at ha
    · exact onBus_loadAccesses h ha
    · cases ha
  | copStore =>
    simp only [accesses] at ha
    split_ifs at ha
    · exact onBus_storeAccesses h ha
    · cases ha
  | _ => cases ha

def withCache (x : Execution δ) (cache : InstructionCache) : Execution δ :=
  { x with cpu.cache := cache }

variable [Device δ]

/-- An instruction neither sees nor changes a cache that is not isolated. -/
theorem run_withCache (h : x.cpu.cop0.cacheIsolated = false) (cache : InstructionCache) :
    (x.withCache cache).run i = (x.run i).withCache cache := by
  have hall : ∀ a ∈ x.accesses i, a.onBus = true := fun a ha => onBus_of_accesses h ha
  obtain ⟨hanswers, hperform⟩ := Outside.performAll_onBus hall x.outside
    { cache, bus := x.bus } rfl
  have hrun := run_within rfl hanswers
  have hown := run_within (o := x.outside) (i := i) rfl rfl
  have hbus : (x.run i).bus = (x.outside.performAll (x.accesses i)).bus :=
    congrArg Execution.bus (hown : x.run i = _)
  rw [hperform, ← hbus] at hrun
  exact hrun

end Execution

variable {δ : Type} [Device δ] {c : Cpu} {bus : Bus δ}

/-- Each valid line holds the word that the bus has at its address. -/
def Coherent (cache : InstructionCache) (bus : Bus δ) : Prop :=
  ∀ p ∈ cache.held, p.2 = (bus.read p.1 .word).1

namespace Cpu

/-! ### Without the cache -/

/-- Fetches a word from the bus, whether or not the cache is enabled. -/
def fetchDirect (c : Cpu) (bus : Bus δ) (pc : UInt32) : UInt32 × Nat × Cpu × Bus δ :=
  let cycles := bus.fetchCycles pc
  let (word, bus) := bus.read pc .word
  (word, cycles, c, bus)

/-- A step that fetches in a given way. -/
def stepWith (fetch : Cpu → Bus δ → UInt32 → UInt32 × Nat × Cpu × Bus δ) (c : Cpu) (bus : Bus δ) :
    Nat × Cpu × Bus δ :=
  let base := bus.timing.instructionCycles
  let c := c.begun bus
  if c.cop0.interruptPending then (base, c.retireLoad.raise .interrupt, bus)
  else if c.pc &&& 3 != 0 || !c.addressAllowed c.pc then
    (base,
      { c with currentInstruction := 0 }.retireLoad.addressError .addressErrorLoad c.pc, bus)
  else
    let (word, fetchCycles, c, bus) := fetch c bus c.pc
    let (cycles, c, bus) := c.execute bus word
    (base + fetchCycles + cycles, c, bus)

theorem stepWith_fetch (c : Cpu) (bus : Bus δ) : stepWith fetch c bus = c.step bus := rfl

def stepDirect (c : Cpu) (bus : Bus δ) : Nat × Cpu × Bus δ := stepWith fetchDirect c bus

/-- Where the cache is not in use the processor fetches from the bus. -/
theorem fetch_of_not_usesCache {pc : UInt32} (h : usesCache bus pc = false) :
    c.fetch bus pc = c.fetchDirect bus pc := by
  unfold fetch
  rw [h]
  rfl

theorem fetchDirect_eq (hd : bus.table.entries = #[]) (pc : UInt32) :
    c.fetchDirect bus pc = ((bus.read pc .word).1, bus.fetchCycles pc, c, bus) := by
  unfold fetchDirect
  dsimp only
  rw [Bus.read_unchanged hd]

/-- A fetch yields what the bus has at the address, and leaves the cache coherent. -/
theorem fetch_coherent (hd : bus.table.entries = #[]) (hc : Coherent c.cache bus) (pc : UInt32) :
    ∃ n cache, c.fetch bus pc = ((bus.read pc .word).1, n, c.withCache cache, bus) ∧
      Coherent cache bus := by
  cases hu : usesCache bus pc with
  | false =>
    rw [fetch_of_not_usesCache hu, fetchDirect_eq hd]
    exact ⟨_, c.cache, rfl, hc⟩
  | true =>
    unfold fetch
    rw [if_pos hu]
    cases hf : c.cache.fetch? pc with
    | some word =>
      have hword : word = (bus.read (Width.word.align pc) .word).1 :=
        hc _ (InstructionCache.held_of_fetch? hf)
      rw [Bus.read_align] at hword
      exact ⟨0, c.cache, by rw [hword]; rfl, hc⟩
    | none =>
      refine ⟨bus.fetchCycles pc, c.cache.fill pc (bus.read pc .word).1, ?_, fun p hp => ?_⟩
      · dsimp only
        rw [Bus.read_unchanged hd]
        rfl
      · rcases InstructionCache.held_fill hp with rfl | hp
        · rw [Bus.read_align]
        · exact hc p hp

theorem execute_withCache (h : c.cop0.cacheIsolated = false) (bus : Bus δ) (word : UInt32)
    (cache : InstructionCache) : (c.withCache cache).execute bus word =
      ((c.execute bus word).1, (c.execute bus word).2.1.withCache cache,
        (c.execute bus word).2.2) := by
  let x : Execution δ := {
    cpu := { c with currentInstruction := word, pc := c.nextPc, nextPc := c.nextPc + 4 }
    bus }
  have hx : x.cpu.cop0.cacheIsolated = false := h
  have hrun := Execution.run_withCache (i := .decode word) hx cache
  have hexecute : (c.withCache cache).execute bus word =
      (let y := (x.withCache cache).run (.decode word)
      (y.cycles, y.cpu.settle y.written y.issued, y.bus)) := rfl
  have hplain : c.execute bus word = (let y := x.run (.decode word)
      (y.cycles, y.cpu.settle y.written y.issued, y.bus)) := rfl
  rw [hexecute, hrun, hplain]
  generalize x.run (.decode word) = y
  have hsettle : (y.withCache cache).cpu.settle y.written y.issued =
      (y.cpu.settle y.written y.issued).withCache cache := settle_withCache ..
  exact congrArg (fun c => (y.cycles, c, y.bus)) hsettle

section

variable {f : Cpu → Bus δ → UInt32 → UInt32 × Nat × Cpu × Bus δ}

theorem stepWith_of_executes (hx : c.executes bus = true) {word : UInt32} {n : Nat} {c' : Cpu}
    {bus' : Bus δ} (hf : f (c.begun bus) bus c.pc = (word, n, c', bus')) : stepWith f c bus =
      (bus.timing.instructionCycles + n + (c'.execute bus' word).1, (c'.execute bus' word).2) := by
  obtain ⟨hi, hm⟩ := executes_iff.1 hx
  refine ((if_neg (Bool.eq_false_iff.1 hi)).trans (if_neg (Bool.eq_false_iff.1 hm))).trans ?_
  change (let r := f (c.begun bus) bus c.pc
    (bus.timing.instructionCycles + r.2.1 + (r.2.2.1.execute r.2.2.2 r.1).1,
      (r.2.2.1.execute r.2.2.2 r.1).2)) = _
  rw [hf]

/-- A step that executes nothing fetches nothing either. -/
theorem stepWith_of_not_executes (hx : c.executes bus = false) : stepWith f c bus = c.step bus := by
  cases hi : c.isInterrupted bus with
  | true => exact (if_pos hi).trans (step_interrupted hi).symm
  | false =>
    have hm : c.misfetches bus = true := by simpa [executes, hi] using hx
    rw [step_misfetched hi hm]
    exact (if_neg (Bool.eq_false_iff.1 hi)).trans (if_pos hm)

end

theorem step_withCache_of_not_executes (hx : c.executes bus = false) (cache : InstructionCache) :
    (c.withCache cache).step bus =
      ((c.step bus).1, (c.step bus).2.1.withCache cache, (c.step bus).2.2) := by
  have hnone : c.accesses bus = [] := if_neg (Bool.eq_false_iff.1 hx)
  have hperforms := c.performs_accesses bus
  have hout := hperforms.outside_step
  have hstep := hperforms { cache, bus } rfl rfl (by rw [hnone]; rfl)
  rw [hnone] at hout hstep
  rw [show (c.step bus).2.2 = bus from congrArg Outside.bus hout]
  exact hstep

omit [Device δ] in
theorem cacheIsolated_begun (h : c.cop0.cacheIsolated = false) (bus : Bus δ) :
    (c.begun bus).cop0.cacheIsolated = false := by
  rw [← h]
  unfold Cop0.cacheIsolated
  rw [show (c.begun bus).cop0.status = c.cop0.status from Cop0.status_setHardwareInterrupt ..]

/-- A step that fetches from the bus does not see the cache. -/
theorem stepDirect_withCache (hd : bus.table.entries = #[]) (h : c.cop0.cacheIsolated = false)
    (cache : InstructionCache) : (c.withCache cache).stepDirect bus =
      ((c.stepDirect bus).1, (c.stepDirect bus).2.1.withCache cache, (c.stepDirect bus).2.2) := by
  have hsame : (c.withCache cache).executes bus = c.executes bus := rfl
  unfold stepDirect
  cases hx : c.executes bus with
  | true =>
    have hexecute := execute_withCache (cacheIsolated_begun h bus) bus (bus.read c.pc .word).1 cache
    rw [stepWith_of_executes hx (fetchDirect_eq hd c.pc),
      stepWith_of_executes (hsame.trans hx) (fetchDirect_eq hd c.pc)]
    change (_ + (((c.begun bus).withCache cache).execute bus _).1,
      (((c.begun bus).withCache cache).execute bus _).2) = _
    rw [hexecute]
  | false =>
    rw [stepWith_of_not_executes hx, stepWith_of_not_executes (hsame.trans hx)]
    exact step_withCache_of_not_executes hx cache

/-- A step of a processor with a coherent cache is one that fetches from the bus, but for its cost
and the cache. -/
theorem step_coherent (hd : bus.table.entries = #[]) (h : c.cop0.cacheIsolated = false)
    (hc : Coherent c.cache bus) : ∃ cache, (c.step bus).2 =
      ((c.stepDirect bus).2.1.withCache cache, (c.stepDirect bus).2.2) ∧ Coherent cache bus := by
  unfold stepDirect
  cases hx : c.executes bus with
  | true =>
    have hfetch : Coherent (c.begun bus).cache bus := hc
    obtain ⟨n, cache, hfetch, hcache⟩ := fetch_coherent hd hfetch c.pc
    refine ⟨cache, ?_, hcache⟩
    rw [← stepWith_fetch, stepWith_of_executes hx hfetch,
      stepWith_of_executes hx (fetchDirect_eq hd c.pc),
      execute_withCache (cacheIsolated_begun h bus)]
  | false =>
    refine ⟨c.cache, ?_, hc⟩
    rw [stepWith_of_not_executes hx]
    exact congrArg (·.2) (step_withCache_of_not_executes hx c.cache)

/-! ### Runs -/

theorem frame_step (c : Cpu) (bus : Bus δ) : bus.Frame (c.step bus).2.2 := by
  have hout := (c.performs_accesses bus).outside_step
  have hbus : (c.step bus).2.2 = ((c.outside bus).performAll (c.accesses bus)).bus :=
    congrArg Outside.bus hout
  rw [hbus]
  exact (c.outside bus).frame_performAll _

/-- The words that the cache holds behind a step are in memory what they were before it. -/
def Undisturbed (c : Cpu) (bus : Bus δ) : Prop :=
  ∀ p ∈ (c.step bus).2.1.cache.held,
    ((c.step bus).2.2.read p.1 .word).1 = (bus.read p.1 .word).1

instance (c : Cpu) (bus : Bus δ) : Decidable (c.Undisturbed bus) :=
  List.decidableBAll _ _

/-- The processor and the bus behind one more step. -/
def next (s : Cpu × Bus δ) : Cpu × Bus δ := (s.1.step s.2).2

/-- The same with a fetch from the bus. -/
def nextDirect (s : Cpu × Bus δ) : Cpu × Bus δ := (s.1.stepDirect s.2).2

theorem coherent_next {s : Cpu × Bus δ} (hd : s.2.table.entries = #[])
    (h : s.1.cop0.cacheIsolated = false) (hs : s.1.Undisturbed s.2)
    (hc : Coherent s.1.cache s.2) (cache : InstructionCache) :
    Coherent (next s).1.cache (next s).2 ∧
      nextDirect (s.1.withCache cache, s.2) = ((next s).1.withCache cache, (next s).2) := by
  obtain ⟨k, hstep, hk⟩ := step_coherent hd h hc
  unfold nextDirect next Undisturbed at *
  dsimp only
  rw [stepDirect_withCache hd h]
  refine ⟨fun p hp => ?_, ?_⟩
  · rw [hs p hp]
    rw [hstep] at hp
    exact hk p hp
  · rw [hstep]
    rfl

/-- The cache is transparent. A run that begins with no valid line, in which the cache is never
isolated and no step changes a word that the cache holds, keeps the cache coherent, so each fetch
yields what the bus has at the address. The run without the cache has the same memory and the same
processor, but for the cache itself. -/
theorem cache_transparent (hd : bus.table.entries = #[]) (hcold : c.cache.held = []) (n : Nat)
    (hrun : ∀ k < n, let s := next^[k] (c, bus)
      s.1.cop0.cacheIsolated = false ∧ s.1.Undisturbed s.2) :
    let s := next^[n] (c, bus)
    Coherent s.1.cache s.2 ∧ (∀ pc, (s.1.fetch s.2 pc).1 = (s.2.read pc .word).1) ∧
      nextDirect^[n] (c, bus) = (s.1.withCache c.cache, s.2) := by
  have hkeeps : (next^[n] (c, bus)).2.table.entries = #[] ∧
      Coherent (next^[n] (c, bus)).1.cache (next^[n] (c, bus)).2 ∧
      nextDirect^[n] (c, bus) =
        ((next^[n] (c, bus)).1.withCache c.cache, (next^[n] (c, bus)).2) := by
    induction n with
    | zero =>
      refine ⟨hd, fun p hp => ?_, rfl⟩
      rw [show (next^[0] (c, bus)).1.cache.held = [] from hcold] at hp
      cases hp
    | succ n ih =>
      obtain ⟨hnodevice, hcoherent, hdirect⟩ := ih fun k hk => hrun k (Nat.lt_succ_of_lt hk)
      obtain ⟨hisolated, hundisturbed⟩ := hrun n (Nat.lt_succ_self n)
      obtain ⟨hc, hnext⟩ := coherent_next hnodevice hisolated hundisturbed hcoherent c.cache
      rw [Function.iterate_succ_apply', Function.iterate_succ_apply', hdirect]
      refine ⟨?_, hc, hnext⟩
      rw [show (next (next^[n] (c, bus))).2.table = _ from (frame_step _ _).table]
      exact hnodevice
  obtain ⟨hnodevice, hcoherent, hdirect⟩ := hkeeps
  refine ⟨hcoherent, fun pc => ?_, hdirect⟩
  obtain ⟨_, _, hfetch, -⟩ := fetch_coherent hnodevice hcoherent pc
  rw [hfetch]

/-- A loop that counts and stores the count beside itself, twice through. The second time it comes
from the cache. -/
theorem cache_transparent_loop :
    let bus := (holding [0x3C021F80, 0x24210001, 0x0BE00001, 0xAC410040]).write
      Address.cacheControl .word CacheControl.cacheEnableBit
    let c := Cpu.initial.setPc Address.scratchpadFirst
    let s := next^[7] (c, bus)
    let u := nextDirect^[7] (c, bus)
    bus.table.entries = #[] ∧ c.cache.held = [] ∧
      (∀ k < 7, let s := next^[k] (c, bus)
        s.1.cop0.cacheIsolated = false ∧ s.1.Undisturbed s.2) ∧
      s.1.cache.held = [(0x1F800000, 0x3C021F80), (0x1F800004, 0x24210001),
        (0x1F800008, 0x0BE00001), (0x1F80000C, 0xAC410040)] ∧
      (s.1.fetch s.2 s.1.pc).2.1 = 0 ∧
      u = (s.1.withCache c.cache, s.2) ∧ u.1.reg 1 = 2 ∧
      (u.2.read 0x1F800040 .word).1 = 2 := by
  intro bus c s u
  have hd : bus.table.entries = #[] := by decide +kernel
  have hcold : c.cache.held = [] := by decide +kernel
  have hrun : ∀ k < 7, let s := next^[k] (c, bus)
      s.1.cop0.cacheIsolated = false ∧ s.1.Undisturbed s.2 := by decide +kernel
  obtain ⟨-, -, hdirect⟩ := cache_transparent hd hcold 7 hrun
  exact ⟨hd, hcold, hrun, by decide +kernel, by decide +kernel, hdirect, by decide +kernel,
    by decide +kernel⟩

end Cpu

end Psx
