import Psx.Proofs.Cpu.CacheBytes
import Psx.Proofs.Cpu.Delays
import Psx.Proofs.Cpu.Uncached

/-!
# Isolation

While the cache is isolated and a program fetches past it, what the program loads and stores through
the segments that have a cache does not reach the bus (`Cpu.Isolated`). Such a step costs its fetch
and no access (`Cpu.Isolated.step_bus`), and what it does to the cache is to store bytes there
(`Cpu.Isolated.stored`). What it loads comes from there, too (`Cpu.Isolated.loadsFrom`). The segments
without a cache know nothing of it: a load or a store there is the same with the cache isolated or not
(`Cpu.step_unisolated`).

Main statement: `Cpu.isolated_run`, for a run of any length.
-/

namespace Psx

open InstructionCache

namespace Execution

variable {δ : Type} {x y : Execution δ} {i : Instruction}

/-! ### Accesses that stay aside -/

theorem within_word {address : UInt32} {w : Width} (h : x.isValid address w = true) :
    address.toNat % 4 + w.bytes.toNat ≤ 4 := by
  unfold isValid at h
  rw [Bool.and_eq_true, beq_iff_eq] at h
  have hand : (address &&& (w.bytes - 1)).toNat = 0 := by rw [h.1]; rfl
  rw [UInt32.toNat_and] at hand
  cases w with
  | byte =>
    show address.toNat % 4 + 1 ≤ 4
    omega
  | half =>
    rw [show (Width.half.bytes - 1).toNat = 2 ^ 1 - 1 from rfl, Nat.and_two_pow_sub_one_eq_mod]
      at hand
    show address.toNat % 4 + 2 ≤ 4
    omega
  | word =>
    rw [show (Width.word.bytes - 1).toNat = 2 ^ 2 - 1 from rfl, Nat.and_two_pow_sub_one_eq_mod]
      at hand
    show address.toNat % 4 + 4 ≤ 4
    omega

/-- An instruction that accesses the segments with a cache alone. -/
def Cached (x : Execution δ) (i : Instruction) : Prop :=
  ∀ a ∈ x.accesses i, (Segment.of a.address).isCached = true

instance (x : Execution δ) (i : Instruction) : Decidable (x.Cached i) := List.decidableBAll _ _

section

variable (h : x.cpu.cop0.cacheIsolated = true)

include h

theorem isIsolated_of_cached {address : UInt32} (hc : (Segment.of address).isCached = true) :
    x.isIsolated address = true := by
  unfold isIsolated
  rw [h, hc]
  rfl

theorem isIsolated_of_load {address : UInt32} {w : Width} (hv : x.isValid address w = true)
    (hc : ∀ a ∈ x.loadAccesses address w, (Segment.of a.address).isCached = true) :
    x.isIsolated address = true :=
  isIsolated_of_cached h (isCached_of_loadAccesses hv hc)

theorem isIsolated_of_store {address value : UInt32} {w : Width} (hv : x.isValid address w = true)
    (hc : ∀ a ∈ x.storeAccesses address w value, (Segment.of a.address).isCached = true) :
    x.isIsolated address = true :=
  isIsolated_of_cached h (isCached_of_storeAccesses hv hc)

theorem isIsolated_of_storeSide {side : Side} {address value : UInt32}
    (hv : x.cpu.addressAllowed (wordOf address) = true)
    (hc : ∀ a ∈ x.storeSideAccesses side address value, (Segment.of a.address).isCached = true) :
    x.isIsolated (wordOf address) = true :=
  isIsolated_of_cached h (isCached_of_storeSideAccesses hv hc)

theorem aside_loadAccesses {address : UInt32} {w : Width}
    (hc : ∀ a ∈ x.loadAccesses address w, (Segment.of a.address).isCached = true) :
    ∀ a ∈ x.loadAccesses address w, a.Aside := by
  intro a ha
  by_cases hv : x.isValid address w = true
  · have hi := isIsolated_of_load h hv hc
    unfold loadAccesses at ha
    rw [if_pos hv, if_pos hi, List.mem_singleton] at ha
    rw [ha]
    exact within_word hv
  · unfold loadAccesses at ha
    rw [if_neg hv] at ha
    cases ha

theorem aside_storeAccesses {address value : UInt32} {w : Width}
    (hc : ∀ a ∈ x.storeAccesses address w value, (Segment.of a.address).isCached = true) :
    ∀ a ∈ x.storeAccesses address w value, a.Aside := by
  intro a ha
  by_cases hv : x.isValid address w = true
  · have hi := isIsolated_of_store h hv hc
    unfold storeAccesses storeAccess at ha
    rw [if_pos hv, if_pos hi, List.mem_singleton] at ha
    rw [ha]
    exact within_word hv
  · unfold storeAccesses at ha
    rw [if_neg hv] at ha
    cases ha

theorem aside_storeSideAccesses {side : Side} {address value : UInt32}
    (hc : ∀ a ∈ x.storeSideAccesses side address value, (Segment.of a.address).isCached = true) :
    ∀ a ∈ x.storeSideAccesses side address value, a.Aside := by
  intro a ha
  by_cases hv : x.cpu.addressAllowed (wordOf address) = true
  · have hi := isIsolated_of_storeSide h hv hc
    unfold storeSideAccesses at ha
    rw [if_pos hv] at ha
    obtain ⟨⟨lane, w⟩, hp, rfl⟩ := List.mem_map.1 ha
    have haligned := wordOf_mod address
    have hwithin : lane.toNat + w.bytes.toNat ≤ 4 := (side.pieces_within address).2 _ hp
    have hpiece : x.isIsolated (wordOf address + lane) = true := by
      rw [isIsolated_piece haligned hwithin, hi]
    dsimp only [storeAccess]
    rw [if_pos hpiece]
    show (wordOf address + lane).toNat % 4 + w.bytes.toNat ≤ 4
    rw [toNat_piece haligned hwithin]
    omega
  · unfold storeSideAccesses at ha
    rw [if_neg hv] at ha
    cases ha

/-- While the cache is isolated, accesses to the segments that have a cache go to it. -/
theorem aside_accesses (hc : x.Cached i) : ∀ a ∈ x.accesses i, a.Aside := by
  cases i with
  | load | loadSide => exact aside_loadAccesses h hc
  | store => exact aside_storeAccesses h hc
  | storeSide => exact aside_storeSideAccesses h hc
  | copLoad n rt base offset =>
    unfold Cached at hc
    simp only [accesses] at hc ⊢
    split_ifs at hc ⊢
    · exact aside_loadAccesses h hc
    · exact fun a ha => by cases ha
  | copStore n rt base offset =>
    unfold Cached at hc
    simp only [accesses] at hc ⊢
    split_ifs at hc ⊢
    · exact aside_storeAccesses h hc
    · exact fun a ha => by cases ha
  | _ => exact fun a ha => by cases ha

end

/-! ### Nothing is accessed on the bus -/

theorem Idle.refl (x : Execution δ) : x.Idle x := ⟨rfl, rfl⟩

theorem Idle.trans {z : Execution δ} (h : x.Idle y) (h' : y.Idle z) : x.Idle z :=
  ⟨h'.bus.trans h.bus, h'.cycles.trans h.cycles⟩

variable [Device δ]

theorem load_isolated {address : UInt32} {w : Width} (hv : x.isValid address w = true)
    (hi : x.isIsolated address = true) :
    x.load address w = (some (x.cpu.cache.readIsolated address w), x) := by
  unfold load
  rw [if_neg (by simpa using hv), if_pos hi]

theorem idle_load {address : UInt32} {w : Width}
    (h : x.isValid address w = true → x.isIsolated address = true) :
    x.Idle (x.load address w).2 := by
  by_cases hv : x.isValid address w = true
  · rw [load_isolated hv (h hv)]
    exact .refl x
  · unfold load
    rw [if_pos (by simpa using hv)]
    exact ⟨rfl, rfl⟩

theorem idle_storeAt {address : UInt32} (h : x.isIsolated address = true) (w : Width)
    (value : UInt32) : x.Idle (x.storeAt address w value) := by
  unfold storeAt
  rw [if_pos h]
  exact ⟨rfl, rfl⟩

omit [Device δ] in
theorem chargeWrite_isolated {address : UInt32} (h : x.isIsolated address = true) :
    x.chargeWrite address = x := if_pos h

theorem idle_store {address : UInt32} {w : Width}
    (h : x.isValid address w = true → x.isIsolated address = true) (value : UInt32) :
    x.Idle (x.store address w value) := by
  unfold store
  by_cases hv : x.isValid address w = true
  · rw [if_neg (by simpa using hv), chargeWrite_isolated (h hv)]
    exact idle_storeAt (h hv) w value
  · rw [if_pos (by simpa using hv)]
    exact ⟨rfl, rfl⟩

theorem idle_storeSide {side : Side} {rt base : Reg} {offset : UInt32}
    (h : x.cpu.addressAllowed (wordOf (x.dataAddress base offset)) = true →
      x.isIsolated (wordOf (x.dataAddress base offset)) = true) :
    x.Idle (x.storeSide side rt base offset) := by
  unfold storeSide
  dsimp only
  generalize x.dataAddress base offset = address at h ⊢
  by_cases hv : x.cpu.addressAllowed (wordOf address) = true
  · rw [if_neg (by simpa using hv), chargeWrite_isolated (h hv)]
    have hall : ∀ p ∈ side.pieces address, x.isIsolated (wordOf address + p.1) = true := by
      intro p hp
      rw [isIsolated_piece (wordOf_mod address) ((side.pieces_within address).2 p hp), h hv]
    clear h hv
    generalize side.lanes (x.reg rt) address = lanes
    generalize side.pieces address = pieces at hall ⊢
    -- the pieces are stored one by one, and the cache stays isolated
    induction pieces generalizing x with
    | nil => exact .refl x
    | cons p pieces ih =>
      rw [List.forall_mem_cons] at hall
      obtain ⟨hp, hall⟩ := hall
      refine (idle_storeAt hp p.2 _).trans (ih fun q hq => ?_)
      unfold isIsolated
      rw [storeAt_cop0]
      exact hall q hq
  · rw [if_pos (by simpa using hv)]
    exact ⟨rfl, rfl⟩

theorem idle_loaded {address : UInt32} {w : Width} {f : Execution δ → UInt32 → Execution δ}
    (h : x.Idle (x.load address w).2) (hf : ∀ (y : Execution δ) value, y.Idle (f y value)) :
    x.Idle (match x.load address w with
      | (none, y) => y
      | (some value, y) => f y value) := by
  revert h
  rcases x.load address w with ⟨_ | value, y⟩
  · exact id
  · exact fun h => h.trans (hf y value)

omit [Device δ] in
theorem idle_withCop2 {n : CopNumber} {f : Execution δ → Execution δ}
    (h : n = 2 ∧ x.cpu.cop0.isUsable 2 → x.Idle (f x)) : x.Idle (x.withCop2 n f) := by
  unfold withCop2
  split_ifs with hn
  · exact h hn
  · exact ⟨rfl, rfl⟩

/-- While the cache is isolated, an instruction that accesses the segments with a cache alone leaves
the bus as it is and costs nothing. -/
theorem idle_run (h : x.cpu.cop0.cacheIsolated = true) (hc : x.Cached i) : x.Idle (x.run i) := by
  cases i with
  | nop | mulDiv | mthi | mtlo | jump | jr | syscall | «break» | reserved => exact ⟨rfl, rfl⟩
  | shift | shiftVar | logic | lui | mfhi | mflo => exact idle_setReg ..
  | alu | immediate => exact idle_setChecked ..
  | jumpLink | jalr => exact (idle_setReg x _ _).trans ⟨rfl, rfl⟩
  | branchEq | branchZero => exact idle_branchIf ..
  | branchSign op link rs offset =>
    simp only [run]
    split
    · exact (idle_setReg x _ _).trans (idle_branchIf ..)
    · exact idle_branchIf ..
  | load op rt base offset =>
    exact idle_loaded (idle_load fun hv => isIsolated_of_load h hv hc)
      (f := fun y value => y.issue rt (op.extend value)) fun y value => y.idle_issue ..
  | store => exact idle_store (fun hv => isIsolated_of_store h hv hc) _
  | loadSide side rt base offset =>
    simp only [run, loadSide]
    split
    · exact ⟨rfl, rfl⟩
    · exact idle_loaded (idle_load fun hv => isIsolated_of_load h hv hc)
        (f := fun y word => y.issue rt (side.merge (y.regForMerge rt) word _))
        fun y value => y.idle_issue ..
  | storeSide => exact idle_storeSide fun hv => isIsolated_of_storeSide h hv hc
  | copLoad n _ base offset =>
    simp only [run]
    unfold Cached at hc
    simp only [accesses] at hc
    refine idle_withCop2 fun hn => idle_load fun hv => ?_
    rw [if_pos hn] at hc
    exact isIsolated_of_load h hv hc
  | copStore n _ base offset =>
    simp only [run]
    unfold Cached at hc
    simp only [accesses] at hc
    refine idle_withCop2 fun hn => idle_store (fun hv => ?_) 0
    rw [if_pos hn] at hc
    exact isIsolated_of_store h hv hc
  | copMove n op rt rd =>
    simp only [run]
    refine idle_withUsable ?_ n
    split
    · exact idle_moveCop0 ..
    · exact idle_moveCop2 ..
  | rfe | cop2Command | copReserved =>
    simp only [run]
    exact idle_withUsable ⟨rfl, rfl⟩ _

end Execution

namespace Cpu

variable {δ : Type} [Device δ] {c : Cpu} {bus : Bus δ}

/-! ### Steps -/

/-- The cache is isolated, the next instruction is fetched past it, and what the instruction accesses
lies in the segments that have a cache. -/
structure Isolated (c : Cpu) (bus : Bus δ) : Prop where
  isolated : c.cop0.cacheIsolated = true
  direct : usesCache bus c.pc = false
  cached : c.executes bus = true → (c.execution bus).Cached (c.instruction bus)

instance (c : Cpu) (bus : Bus δ) : Decidable (c.Isolated bus) :=
  decidable_of_iff (c.cop0.cacheIsolated = true ∧ usesCache bus c.pc = false ∧
    (c.executes bus = true → (c.execution bus).Cached (c.instruction bus)))
    ⟨fun ⟨h, h', h''⟩ => ⟨h, h', h''⟩, fun h => ⟨h.isolated, h.direct, h.cached⟩⟩

/-- The load of a value to a register that is in flight behind an instruction. -/
def inFlight (r : Reg) (value : UInt32) : Option DelayedLoad :=
  if r = 0 then none else some { reg := .ofNat r, value }

/-- The instruction of a step loads from bytes that a cache holds. -/
structure LoadsFrom (c : Cpu) (bus : Bus δ) (held : Nat → UInt8) : Prop where
  load : ∀ op rt base offset, c.instruction bus = .load op rt base offset →
    (c.step bus).2.1.delayed =
      inFlight rt (op.extend (compose held (c.reg base + offset) op.width))
  loadSide : ∀ side rt base offset, c.instruction bus = .loadSide side rt base offset →
    (c.step bus).2.1.delayed = inFlight rt (side.merge ((c.execution bus).regForMerge rt)
      (compose held (wordOf (c.reg base + offset)) .word) (c.reg base + offset))

theorem cacheIsolated_execution (c : Cpu) (bus : Bus δ) :
    (c.execution bus).cpu.cop0.cacheIsolated = c.cop0.cacheIsolated := by
  rw [execution_cpu]
  unfold Cop0.cacheIsolated
  exact congrArg (fun s : UInt32 => s &&& Cop0.isolateCacheBit != 0)
    (Cop0.status_setHardwareInterrupt ..)

theorem fetched_direct (h : usesCache bus c.pc = false) : c.fetched bus =
    ((bus.read c.pc .word).1, bus.fetchCycles c.pc, c.begun bus, (bus.read c.pc .word).2) := by
  unfold fetched fetch
  rw [h]
  rfl

theorem accesses_direct (h : usesCache bus c.pc = false) (hx : c.executes bus = true) :
    c.accesses bus = .fetch c.pc :: (c.execution bus).accesses (c.instruction bus) := by
  have hmiss : (c.outside bus).lookup? c.pc = none := if_neg (Bool.eq_false_iff.1 h)
  unfold accesses fetchAccess
  rw [if_pos hx, hmiss]
  rfl

namespace Isolated

variable (h : c.Isolated bus)

include h

/-- A step that is isolated leaves the bus as its fetch leaves it, and costs its fetch alone. -/
theorem step_bus :
    (c.step bus).1 = bus.timing.instructionCycles +
        (if c.executes bus then bus.fetchCycles c.pc else 0) ∧
      (c.step bus).2.2 = if c.executes bus then (bus.read c.pc .word).2 else bus := by
  cases hx : c.executes bus with
  | true =>
    have hisolated := (c.cacheIsolated_execution bus).trans h.isolated
    have hidle := Execution.idle_run hisolated (h.cached hx)
    have hcycles : (c.execution bus).cycles = 0 := rfl
    have hbus : (c.execution bus).bus = (bus.read c.pc .word).2 := by
      unfold execution
      rw [fetched_direct h.direct]
    rw [step_executed hx]
    dsimp only
    rw [hidle.cycles, hidle.bus, hcycles, hbus, fetched_direct h.direct]
    exact ⟨rfl, rfl⟩
  | false =>
    cases hi : c.isInterrupted bus with
    | true =>
      rw [step_interrupted hi]
      exact ⟨rfl, rfl⟩
    | false =>
      have hm : c.misfetches bus = true := by simpa [executes, hi] using hx
      rw [step_misfetched hi hm]
      exact ⟨rfl, rfl⟩

/-- What it does to the cache is to store the bytes that its accesses store. -/
theorem stored (hsize : c.cache.lines.size = lineCount) :
    Stored (CacheControl.tagTest bus.memory.cacheControl)
      ((c.accesses bus).flatMap Access.stores) c.cache (c.step bus).2.1.cache := by
  have hcache : (c.step bus).2.1.cache = ((c.outside bus).performAll (c.accesses bus)).cache :=
    congrArg Outside.cache (c.performs_accesses bus).outside_step
  rw [hcache]
  cases hx : c.executes bus with
  | true =>
    have hfetch : (c.outside bus).perform (.fetch c.pc) =
        { cache := c.cache, bus := (bus.read c.pc .word).2 } :=
      congrArg (fun cache => Outside.mk cache (bus.read c.pc .word).2)
        (if_neg (Bool.eq_false_iff.1 h.direct))
    have haside := Execution.aside_accesses
      ((c.cacheIsolated_execution bus).trans h.isolated) (h.cached hx)
    have hstored := Outside.stored_performAll
      (o := { cache := c.cache, bus := (bus.read c.pc .word).2 }) haside hsize
    rw [Outside.read_memory] at hstored
    rw [accesses_direct h.direct hx]
    show Stored _ _ _ (((c.outside bus).perform (.fetch c.pc)).performAll _).cache
    rw [hfetch]
    exact hstored.2
  | false =>
    have hnone : c.accesses bus = [] := if_neg (Bool.eq_false_iff.1 hx)
    rw [hnone]
    exact .refl _ _

theorem loadsFrom (hx : c.executes bus = true) (hf : c.fault? bus = none) :
    c.LoadsFrom bus c.cache.byte := by
  have hisolated := (c.cacheIsolated_execution bus).trans h.isolated
  have hcached := h.cached hx
  have hcache : (c.execution bus).cpu.cache = c.cache := by
    unfold execution
    rw [fetched_direct h.direct]
    rfl
  have hdelayed : (c.step bus).2.1.delayed =
      ((c.execution bus).run (c.instruction bus)).issued := by
    rw [step_executed hx]
    dsimp only
    rw [settle_eq]
  have hissued : ∀ (r : Reg) (value : UInt32),
      ((c.execution bus).issue r value).issued = inFlight r value := by
    intro r value
    unfold Execution.issue inFlight
    split <;> rfl
  unfold fault? at hf
  rw [if_pos hx] at hf
  refine ⟨fun op rt base offset hi => ?_, fun side rt base offset hi => ?_⟩
  · rw [hi] at hcached hdelayed hf
    have haddress : (c.execution bus).dataAddress base offset = c.reg base + offset :=
      congrArg (· + offset) (c.reads_execution bus base).1
    have hv := Execution.isValid_of_accessFault hf
    have hload := Execution.load_isolated hv (Execution.isIsolated_of_load hisolated hv hcached)
    rw [hdelayed, Execution.run, hload, haddress, hcache, readIsolated_eq]
    · exact hissued ..
    · rw [← haddress]
      exact Execution.within_word hv
  · rw [hi] at hcached hdelayed hf
    have haddress : (c.execution bus).dataAddress base offset = c.reg base + offset :=
      congrArg (· + offset) (c.reads_execution bus base).1
    have ha := Execution.addressAllowed_of_sideFault hf
    have hv := Execution.isValid_wordOf ha
    have hload := Execution.load_isolated hv (Execution.isIsolated_of_load hisolated hv hcached)
    rw [hdelayed, Execution.run, Execution.loadSide]
    rw [if_neg (by simpa using ha), hload, haddress, hcache, readIsolated_eq]
    · exact hissued ..
    · rw [← haddress]
      exact Execution.within_word hv

end Isolated

/-! ### Runs -/

/-- The bytes that the first steps of a run store in the isolated cache, and where. -/
def storedBy (s : Cpu × Bus δ) (n : Nat) : List (Nat × UInt8) :=
  (List.range n).flatMap fun k =>
    ((next^[k] s).1.accesses (next^[k] s).2).flatMap Access.stores

/-- The bus behind the fetches of the first steps of a run, if nothing else were done. -/
def fetchedBus (s : Cpu × Bus δ) : Nat → Bus δ
  | 0 => s.2
  | n + 1 =>
    if (next^[n] s).1.executes (next^[n] s).2 then
      ((fetchedBus s n).read (next^[n] s).1.pc .word).2
    else fetchedBus s n

theorem storedBy_succ (s : Cpu × Bus δ) (n : Nat) : storedBy s (n + 1) =
    storedBy s n ++ ((next^[n] s).1.accesses (next^[n] s).2).flatMap Access.stores := by
  unfold storedBy
  rw [List.range_succ, List.flatMap_append, List.flatMap_singleton]

theorem memory_fetchedBus (s : Cpu × Bus δ) (n : Nat) : (fetchedBus s n).memory = s.2.memory := by
  induction n with
  | zero => rfl
  | succ n ih =>
    unfold fetchedBus
    split
    · rw [Outside.read_memory, ih]
    · exact ih

/-- Fetches from a memory leave the bus as it is. -/
theorem fetchedBus_of_cells (s : Cpu × Bus δ) (n : Nat)
    (hcells : ∀ k < n, (Cell.at? (Width.word.align (next^[k] s).1.pc).toNat).isSome = true) :
    fetchedBus s n = s.2 := by
  induction n with
  | zero => rfl
  | succ n ih =>
    have ih := ih fun k hk => hcells k (Nat.lt_succ_of_lt hk)
    have hcell := hcells n (Nat.lt_succ_self n)
    unfold fetchedBus
    rw [ih]
    split
    · rw [Cell.at?_region] at hcell
      unfold Bus.read
      dsimp only
      split <;> first | rfl | simp_all
    · rfl

/-- What an isolated run leaves: the bus as its fetches leave it, and in the cache the bytes that it
stored. -/
theorem isolated_next (hsize : c.cache.lines.size = lineCount) (n : Nat)
    (hrun : ∀ k < n, (next^[k] (c, bus)).1.Isolated (next^[k] (c, bus)).2) :
    (next^[n] (c, bus)).2 = fetchedBus (c, bus) n ∧
      (next^[n] (c, bus)).2.timing = bus.timing ∧
      Stored (CacheControl.tagTest bus.memory.cacheControl) (storedBy (c, bus) n) c.cache
        (next^[n] (c, bus)).1.cache := by
  induction n with
  | zero => exact ⟨rfl, rfl, .refl _ _⟩
  | succ n ih =>
    obtain ⟨hbus, htiming, hstored⟩ := ih fun k hk => hrun k (Nat.lt_succ_of_lt hk)
    have hlast := hrun n (Nat.lt_succ_self n)
    have hmemory : (next^[n] (c, bus)).2.memory = bus.memory := by
      rw [hbus]
      exact memory_fetchedBus (c, bus) n
    have hstep := hlast.stored (hstored.size.trans hsize)
    rw [hmemory] at hstep
    rw [Function.iterate_succ_apply', storedBy_succ]
    refine ⟨?_, (frame_step _ _).timing.trans htiming, hstored.trans hstep⟩
    unfold fetchedBus
    rw [← hbus]
    exact hlast.step_bus.2

/-- An isolated cache is a memory of its own. In a run in which the cache is isolated, all instructions
are fetched past it, and all accesses are to the segments that have a cache,

* the bus is as the fetches leave it, which is unchanged if they are from a memory;
* no step is charged for more than its fetch;
* the data of the cache are the bytes that were last stored there, unless the control register asks
  for tag tests: then the lines that were stored to are invalid, and the data as they were. Tags and
  otherwise validity do not change;
* a load yields the bytes that are there.

Loads and stores in the segments without a cache do what they do when the cache is not isolated. -/
theorem isolated_run (hsize : c.cache.lines.size = lineCount) (n : Nat)
    (hrun : ∀ k < n, (next^[k] (c, bus)).1.Isolated (next^[k] (c, bus)).2) :
    let tagTest := CacheControl.tagTest bus.memory.cacheControl
    (next^[n] (c, bus)).2 = fetchedBus (c, bus) n ∧
    ((∀ k < n, (Cell.at? (Width.word.align (next^[k] (c, bus)).1.pc).toNat).isSome = true) →
      (next^[n] (c, bus)).2 = bus) ∧
    Stored tagTest (storedBy (c, bus) n) c.cache (next^[n] (c, bus)).1.cache ∧
    (∀ k < n, let s := next^[k] (c, bus)
      (s.1.step s.2).1 = bus.timing.instructionCycles +
        (if s.1.executes s.2 then bus.fetchCycles s.1.pc else 0) ∧
      (s.1.executes s.2 = true → s.1.fault? s.2 = none →
        s.1.LoadsFrom s.2 (c.cache.bytesAfter tagTest (storedBy (c, bus) k)))) ∧
    ∀ (c : Cpu) (bus : Bus δ), (c.executes bus = true → (c.instruction bus).isAccess = true ∧
        (c.execution bus).Uncached (c.instruction bus)) →
      c.unisolated.step bus = ((c.step bus).1, (c.step bus).2.1.unisolated, (c.step bus).2.2) := by
  intro tagTest
  obtain ⟨hbus, -, hstored⟩ := isolated_next hsize n hrun
  refine ⟨hbus, fun hcells => ?_, hstored, fun k hk => ?_, fun c bus => step_unisolated⟩
  · rw [hbus]
    exact fetchedBus_of_cells (c, bus) n hcells
  · have hlast := hrun k hk
    obtain ⟨-, htiming, hstored⟩ := isolated_next hsize k fun j hj => hrun j (Nat.lt_trans hj hk)
    have hcost := hlast.step_bus.1
    refine ⟨?_, fun hx hf => ?_⟩
    · rw [← htiming]
      unfold Bus.fetchCycles Bus.cost at hcost ⊢
      rwa [htiming] at hcost ⊢
    · rw [← hstored.byte]
      exact hlast.loadsFrom hx hf

/-- A word is stored, then a byte over the last of it through another address of the same line, and
half a word is loaded that has one byte of each. -/
theorem isolated_run_overlaid :
    let bus := holding [0xAC010010, 0xA0011013, 0x94020012]
    let c : Cpu := { Cpu.initial.setPc Address.scratchpadFirst with
      regs := RegisterFile.write (.replicate 32 0) 1 0x11223344
      cop0 := Cop0.initial.set Cop0.statusReg Cop0.isolateCacheBit }
    c.cache.lines.size = lineCount ∧
      (∀ k < 3, (next^[k] (c, bus)).1.Isolated (next^[k] (c, bus)).2) ∧
      (next^[3] (c, bus)).2 = bus ∧
      (next^[3] (c, bus)).1.delayed = some { reg := 2, value := 0x4422 } := by
  intro bus c
  have hsize : c.cache.lines.size = lineCount := sound_initial.lines
  have hrun : ∀ k < 3, (next^[k] (c, bus)).1.Isolated (next^[k] (c, bus)).2 := by decide +kernel
  obtain ⟨-, hbus, -, hsteps, -⟩ := isolated_run hsize 3 hrun
  refine ⟨hsize, hrun, hbus (by decide +kernel), ?_⟩
  have hload := ((hsteps 2 (by decide)).2 (by decide +kernel) (by decide +kernel)).load .lhu 2 0 0x12
    (by decide +kernel)
  refine Eq.trans ?_ (hload.trans (by decide +kernel))
  rw [Function.iterate_succ_apply']
  rfl

end Cpu

end Psx
