import Psx.Proofs.Bus.Frame
import Psx.Proofs.Cpu.Precise

/-!
# The accesses of a step

What a step does outside of the registers is a list of accesses to the cache and the bus
(`Cpu.accesses`): the fetch, and what the instruction loads and stores. The list is all there is
(`Cpu.performs_accesses`). The step leaves the cache and the bus as the accesses leave them one after
another, and with another cache and another bus that give the same answers to them the step is the
same.
-/

namespace Psx

/-- One access; the last two are to the cache while it is isolated. -/
inductive Access where
  | fetch (address : UInt32)
  | fetchCached (address : UInt32)
  | read (address : UInt32) (w : Width)
  | write (address : UInt32) (w : Width) (value : UInt32)
  | readIsolated (address : UInt32) (w : Width)
  | writeIsolated (address : UInt32) (w : Width) (value : UInt32)
deriving DecidableEq, Repr

def Access.address : Access → UInt32
  | fetch address | fetchCached address => address
  | read address _ | readIsolated address _ => address
  | write address _ _ | writeIsolated address _ _ => address

/-- What a step finds outside of the registers. -/
structure Outside (δ : Type) where
  cache : InstructionCache
  bus : Bus δ

namespace Outside

variable {δ : Type} [Device δ]

/-- The word that the cache has for a fetch, if the fetch goes through the cache. -/
def lookup? (o : Outside δ) (address : UInt32) : Option UInt32 :=
  if Cpu.usesCache o.bus address then o.cache.fetch? address else none

/-- What an access tells. One that is made because the cache has no word tells that, too. -/
def answer (o : Outside δ) : Access → Option UInt32
  | .fetch address =>
    if (o.lookup? address).isSome then none else some (o.bus.read address .word).1
  | .fetchCached address => o.lookup? address
  | .read address w => some (o.bus.read address w).1
  | .readIsolated address w => some (o.cache.readIsolated address w)
  | .write .. | .writeIsolated .. => none

def perform (o : Outside δ) : Access → Outside δ
  | .fetch address =>
    let (word, bus) := o.bus.read address .word
    { cache := if Cpu.usesCache o.bus address then o.cache.fill address word else o.cache, bus }
  | .read address w => { o with bus := (o.bus.read address w).2 }
  | .write address w value => { o with bus := o.bus.write address w value }
  | .writeIsolated address w value =>
    { o with
      cache := o.cache.writeIsolated address w value
        (CacheControl.tagTest o.bus.memory.cacheControl) }
  | .fetchCached _ | .readIsolated .. => o

def performAll (o : Outside δ) (as : List Access) : Outside δ := as.foldl perform o

/-- The answers to accesses that are made one after another. -/
def answers (o : Outside δ) : List Access → List (Option UInt32)
  | [] => []
  | a :: as => o.answer a :: (o.perform a).answers as

theorem frame_perform (o : Outside δ) (a : Access) : o.bus.Frame (o.perform a).bus := by
  cases a with
  | fetch address => exact o.bus.frame_read address .word
  | read address w => exact o.bus.frame_read address w
  | write address w value => exact o.bus.frame_write address w value
  | fetchCached | readIsolated | writeIsolated => exact .refl o.bus

end Outside

namespace Execution

variable {δ : Type} (x : Execution δ)

def outside : Outside δ := { cache := x.cpu.cache, bus := x.bus }

def within (o : Outside δ) : Execution δ := { x with cpu.cache := o.cache, bus := o.bus }

/-! ### What an instruction accesses -/

def loadAccesses (address : UInt32) (w : Width) : List Access :=
  if x.isValid address w then
    [if x.isIsolated address then .readIsolated address w else .read address w]
  else []

def storeAccess (address : UInt32) (w : Width) (value : UInt32) : Access :=
  if x.isIsolated address then .writeIsolated address w value else .write address w value

def storeAccesses (address : UInt32) (w : Width) (value : UInt32) : List Access :=
  if x.isValid address w then [x.storeAccess address w value] else []

def storeSideAccesses (side : Side) (address value : UInt32) : List Access :=
  if x.cpu.addressAllowed (wordOf address) then
    (side.pieces address).map fun (lane, w) =>
      x.storeAccess (wordOf address + lane) w (side.lanes value address >>> (lane * 8))
  else []

def accesses : Instruction → List Access
  | .load op _ base offset => x.loadAccesses (x.dataAddress base offset) op.width
  | .store op rt base offset => x.storeAccesses (x.dataAddress base offset) op.width (x.reg rt)
  | .loadSide _ _ base offset => x.loadAccesses (wordOf (x.dataAddress base offset)) .word
  | .storeSide side rt base offset =>
    x.storeSideAccesses side (x.dataAddress base offset) (x.reg rt)
  | .copLoad n _ base offset =>
    if n = 2 ∧ x.cpu.cop0.isUsable 2 then x.loadAccesses (x.dataAddress base offset) .word else []
  | .copStore n _ base offset =>
    if n = 2 ∧ x.cpu.cop0.isUsable 2 then x.storeAccesses (x.dataAddress base offset) .word 0
    else []
  | _ => []

/-! ### What does not look outside -/

section within

variable (o : Outside δ)

@[simp] theorem within_within (o' : Outside δ) : (x.within o).within o' = x.within o' := rfl

@[simp] theorem within_cop0 : (x.within o).cpu.cop0 = x.cpu.cop0 := rfl

@[simp] theorem within_hi : (x.within o).cpu.hi = x.cpu.hi := rfl

@[simp] theorem within_lo : (x.within o).cpu.lo = x.cpu.lo := rfl

@[simp] theorem within_linkAddress : (x.within o).linkAddress = x.linkAddress := rfl

@[simp] theorem within_reg (r : Reg) : (x.within o).reg r = x.reg r := rfl

@[simp] theorem within_regForMerge (r : Reg) : (x.within o).regForMerge r = x.regForMerge r := rfl

@[simp] theorem within_dataAddress (base : Reg) (offset : UInt32) :
    (x.within o).dataAddress base offset = x.dataAddress base offset := rfl

@[simp] theorem within_addressAllowed (address : UInt32) :
    (x.within o).cpu.addressAllowed address = x.cpu.addressAllowed address := rfl

@[simp] theorem within_isValid (address : UInt32) (w : Width) :
    (x.within o).isValid address w = x.isValid address w := rfl

@[simp] theorem within_isIsolated (address : UInt32) :
    (x.within o).isIsolated address = x.isIsolated address := rfl

@[simp] theorem within_raise (e : Exception) : (x.within o).raise e = (x.raise e).within o := rfl

@[simp] theorem within_addressError (e : Exception) (address : UInt32) :
    (x.within o).addressError e address = (x.addressError e address).within o := rfl

@[simp] theorem within_unusable (n : CopNumber) :
    (x.within o).unusable n = (x.unusable n).within o := rfl

@[simp] theorem within_jumpTo (address : UInt32) :
    (x.within o).jumpTo address = (x.jumpTo address).within o := rfl

@[simp] theorem within_setReg (r : Reg) (v : UInt32) :
    (x.within o).setReg r v = (x.setReg r v).within o := by
  unfold setReg Cpu.setReg
  split <;> rfl

@[simp] theorem within_issue (r : Reg) (v : UInt32) :
    (x.within o).issue r v = (x.issue r v).within o := by
  unfold issue
  split <;> rfl

@[simp] theorem within_setChecked (r : Reg) (v : Option UInt32) :
    (x.within o).setChecked r v = (x.setChecked r v).within o := by
  cases v with
  | none => rfl
  | some v => exact within_setReg x o r v

@[simp] theorem within_branchIf (taken : Bool) (offset : UInt32) :
    (x.within o).branchIf taken offset = (x.branchIf taken offset).within o := by
  cases taken <;> rfl

@[simp] theorem within_moveCop0 (op : CopMove) (rt rd : Reg) :
    (x.within o).moveCop0 op rt rd = (x.moveCop0 op rt rd).within o := by
  cases op with
  | mfc =>
    simp only [moveCop0, within_cop0]
    cases x.cpu.cop0.read? rd <;> simp
  | mtc | cfc | ctc => rfl

@[simp] theorem within_moveCop2 (op : CopMove) (rt : Reg) :
    (x.within o).moveCop2 op rt = (x.moveCop2 op rt).within o := by
  cases op with
  | mfc | cfc => exact within_issue x o rt 0
  | mtc | ctc => rfl

theorem within_withUsable (n : CopNumber) {f : Execution δ → Execution δ}
    (hf : f (x.within o) = (f x).within o) :
    (x.within o).withUsable n f = (x.withUsable n f).within o := by
  unfold withUsable
  rw [within_cop0, hf]
  split <;> rfl

end within

variable {x} {o : Outside δ}

theorem within_chargeWrite (ht : o.bus.timing = x.bus.timing) (address : UInt32) :
    (x.within o).chargeWrite address = (x.chargeWrite address).within o := by
  have hcost : o.bus.writeCycles address = x.bus.writeCycles address := by
    unfold Bus.writeCycles Bus.cost
    rw [ht]
  unfold chargeWrite
  rw [within_isIsolated]
  split
  · rfl
  · show { x.within o with cycles := x.cycles + o.bus.writeCycles address } = _
    rw [hcost]
    rfl

variable [Device δ]

/-! ### What an instruction does outside -/

theorem load_within (ht : o.bus.timing = x.bus.timing) {address : UInt32} {w : Width}
    (ha : o.answers (x.loadAccesses address w) = x.outside.answers (x.loadAccesses address w)) :
    (x.within o).load address w = ((x.load address w).1,
      (x.load address w).2.within (o.performAll (x.loadAccesses address w))) := by
  have hcost : o.bus.readCycles address = x.bus.readCycles address := by
    unfold Bus.readCycles Bus.cost
    rw [ht]
  revert ha
  unfold load loadAccesses
  rw [within_isValid]
  cases x.isValid address w with
  | false => exact fun _ => rfl
  | true =>
    rw [within_isIsolated]
    cases x.isIsolated address with
    | true =>
      intro ha
      have hv : o.cache.readIsolated address w = x.cpu.cache.readIsolated address w := by
        simpa [Outside.answers, Outside.answer, outside] using ha
      show (some (o.cache.readIsolated address w), x.within o) = _
      rw [hv]
      rfl
    | false =>
      intro ha
      have hv : (o.bus.read address w).1 = (x.bus.read address w).1 := by
        simpa [Outside.answers, Outside.answer, outside] using ha
      show (some (o.bus.read address w).1, { x.within o with
        bus := (o.bus.read address w).2, cycles := x.cycles + o.bus.readCycles address }) = _
      rw [hv, hcost]
      rfl

theorem storeAt_within (o : Outside δ) (address : UInt32) (w : Width) (value : UInt32) :
    (x.within o).storeAt address w value =
      (x.storeAt address w value).within (o.perform (x.storeAccess address w value)) := by
  unfold storeAt storeAccess
  rw [within_isIsolated]
  cases x.isIsolated address <;> rfl

theorem store_within (ht : o.bus.timing = x.bus.timing) (address : UInt32) (w : Width)
    (value : UInt32) : (x.within o).store address w value =
      (x.store address w value).within (o.performAll (x.storeAccesses address w value)) := by
  have hisolated : (x.chargeWrite address).storeAccess address w value =
      x.storeAccess address w value := by
    unfold chargeWrite
    split <;> rfl
  unfold store storeAccesses
  rw [within_isValid]
  cases x.isValid address w with
  | false => rfl
  | true =>
    show ((x.within o).chargeWrite address).storeAt address w value = _
    rw [within_chargeWrite ht, storeAt_within, hisolated]
    rfl

theorem loadSide_within (ht : o.bus.timing = x.bus.timing) {side : Side} {rt base : Reg}
    {offset : UInt32}
    (ha : o.answers (x.accesses (.loadSide side rt base offset)) =
      x.outside.answers (x.accesses (.loadSide side rt base offset))) :
    (x.within o).loadSide side rt base offset = (x.loadSide side rt base offset).within
      (o.performAll (x.accesses (.loadSide side rt base offset))) := by
  have hl := load_within ht ha
  unfold loadSide accesses
  dsimp only
  rw [within_dataAddress, hl, within_addressAllowed]
  by_cases hv : x.cpu.addressAllowed (wordOf (x.dataAddress base offset)) = true
  · rw [if_neg (by simpa using hv), if_neg (by simpa using hv)]
    cases x.load (wordOf (x.dataAddress base offset)) .word with
    | mk value y => cases value <;> simp
  · have hnone : x.loadAccesses (wordOf (x.dataAddress base offset)) .word = [] := by
      simp [loadAccesses, isValid, hv]
    rw [if_pos (by simpa using hv), if_pos (by simpa using hv), hnone]
    rfl

theorem storeAts_within {y : Execution δ} (hy : y.cpu.cop0 = x.cpu.cop0) (o : Outside δ)
    (pieces : List (UInt32 × Width)) (address : UInt32) (value : UInt32 → UInt32) :
    pieces.foldl (fun x p => x.storeAt (address + p.1) p.2 (value p.1)) (y.within o) =
      (pieces.foldl (fun x p => x.storeAt (address + p.1) p.2 (value p.1)) y).within
        (o.performAll (pieces.map fun p => x.storeAccess (address + p.1) p.2 (value p.1))) := by
  induction pieces generalizing y o with
  | nil => rfl
  | cons p pieces ih =>
    have hstore : (y.storeAt (address + p.1) p.2 (value p.1)).cpu.cop0 = x.cpu.cop0 := by
      rw [← hy]
      unfold storeAt
      split <;> rfl
    have hsame : y.storeAccess (address + p.1) p.2 (value p.1) =
        x.storeAccess (address + p.1) p.2 (value p.1) := by
      unfold storeAccess isIsolated
      rw [hy]
    rw [List.foldl_cons, List.foldl_cons, storeAt_within, hsame, ih hstore]
    rfl

theorem storeSide_within (ht : o.bus.timing = x.bus.timing) (side : Side) (rt base : Reg)
    (offset : UInt32) : (x.within o).storeSide side rt base offset =
      (x.storeSide side rt base offset).within
        (o.performAll (x.accesses (.storeSide side rt base offset))) := by
  unfold storeSide accesses storeSideAccesses
  dsimp only
  rw [within_dataAddress, within_addressAllowed, within_reg]
  generalize x.dataAddress base offset = address
  by_cases hv : x.cpu.addressAllowed (wordOf address) = true
  · have hcharge : (x.chargeWrite (wordOf address)).cpu.cop0 = x.cpu.cop0 := by
      unfold chargeWrite
      split <;> rfl
    rw [if_neg (by simpa using hv), if_neg (by simpa using hv), if_pos hv, within_chargeWrite ht]
    exact storeAts_within hcharge o _ _ fun lane => side.lanes (x.reg rt) address >>> (lane * 8)
  · rw [if_pos (by simpa using hv), if_pos (by simpa using hv), if_neg hv]
    rfl

/-- An access that a coprocessor makes if it may be used. -/
theorem withCop2_within {n : CopNumber} {as : List Access} {f : Execution δ → Execution δ}
    (hf : n = 2 ∧ x.cpu.cop0.isUsable 2 → f (x.within o) = (f x).within (o.performAll as)) :
    (x.within o).withCop2 n f = (x.withCop2 n f).within
      (o.performAll (if n = 2 ∧ x.cpu.cop0.isUsable 2 then as else [])) := by
  unfold withCop2
  rw [within_cop0]
  by_cases hn : n = 2 ∧ x.cpu.cop0.isUsable 2
  · rw [if_pos hn, if_pos hn, if_pos hn, hf hn]
  · rw [if_neg hn, if_neg hn, if_neg hn]
    rfl

/-- What an instruction does outside of the registers is to perform its accesses, and what it does to
the registers depends on the answers to them. -/
theorem run_within (ht : o.bus.timing = x.bus.timing) {i : Instruction}
    (ha : o.answers (x.accesses i) = x.outside.answers (x.accesses i)) :
    (x.within o).run i = (x.run i).within (o.performAll (x.accesses i)) := by
  cases i with
  | load op rt base offset =>
    have hl := load_within ht ha
    simp only [run, within_dataAddress]
    rw [hl]
    cases hx : x.load (x.dataAddress base offset) op.width with
    | mk value y => cases value <;> simp [accesses]
  | store op rt base offset => exact store_within ht ..
  | loadSide side rt base offset => exact loadSide_within ht ha
  | storeSide side rt base offset => exact storeSide_within ht ..
  | copLoad n rt base offset =>
    unfold run
    refine withCop2_within fun hn => ?_
    simp only [accesses, if_pos hn] at ha
    rw [within_dataAddress, load_within ht ha]
  | copStore n rt base offset =>
    unfold run
    exact withCop2_within fun _ => store_within ht ..
  | branchSign op link rs offset =>
    show _ = (x.run _).within o
    cases link <;> simp [run]
  | copMove n op rt rd =>
    show _ = (x.run _).within o
    simp only [run]
    refine within_withUsable x o n ?_
    split <;> simp
  | rfe | cop2Command _ | copReserved n _ =>
    simp only [run]
    exact within_withUsable x o _ rfl
  -- the others work on registers alone
  | _ =>
    show _ = (x.run _).within o
    first | rfl | simp [run]

end Execution

namespace Cpu

variable {δ : Type} [Device δ] {c : Cpu} {bus : Bus δ} {o : Outside δ}

/-! ### What a step accesses -/

def withCache (c : Cpu) (cache : InstructionCache) : Cpu := { c with cache }

def outside (c : Cpu) (bus : Bus δ) : Outside δ := { cache := c.cache, bus }

/-- The access that fetches an instruction. -/
def fetchAccess (c : Cpu) (bus : Bus δ) : Access :=
  if ((c.outside bus).lookup? c.pc).isSome then .fetchCached c.pc else .fetch c.pc

def accesses (c : Cpu) (bus : Bus δ) : List Access :=
  if c.executes bus then c.fetchAccess bus :: (c.execution bus).accesses (c.instruction bus)
  else []

/-! ### Loads in flight -/

section

omit [Device δ]

theorem finishLoad_withCache (c : Cpu) (cache : InstructionCache) (load : DelayedLoad) :
    (c.withCache cache).finishLoad load = (c.finishLoad load).withCache cache := by
  unfold finishLoad
  split_ifs <;> rfl

theorem retireLoad_withCache (c : Cpu) (cache : InstructionCache) :
    (c.withCache cache).retireLoad = c.retireLoad.withCache cache := by
  unfold retireLoad
  rw [show (c.withCache cache).delayed = c.delayed from rfl]
  cases c.delayed with
  | none => rfl
  | some load => exact finishLoad_withCache { c with delayed := none } cache load

theorem settle_withCache (c : Cpu) (cache : InstructionCache) (written : Reg)
    (issued : Option DelayedLoad) :
    (c.withCache cache).settle written issued = (c.settle written issued).withCache cache := by
  unfold settle
  rw [show (c.withCache cache).delayed = c.delayed from rfl]
  cases c.delayed with
  | none => rfl
  | some load =>
    dsimp only
    by_cases hs : isSuperseded load written issued = true
    · rw [if_pos hs, if_pos hs]
      rfl
    · rw [if_neg hs, if_neg hs]
      exact finishLoad_withCache { c with delayed := issued } cache load

end

/-! ### The fetch -/

theorem fetch_eq (c : Cpu) (bus : Bus δ) (pc : UInt32) :
    c.fetch bus pc = match (c.outside bus).lookup? pc with
      | some word => (word, 0, c, bus)
      | none =>
        let o := (c.outside bus).perform (.fetch pc)
        ((bus.read pc .word).1, bus.fetchCycles pc, { c with cache := o.cache }, o.bus) := by
  unfold fetch Outside.lookup? Outside.perform outside
  dsimp only
  cases usesCache bus pc with
  | false => rfl
  | true =>
    rw [if_pos rfl, if_pos rfl]
    cases c.cache.fetch? pc <;> rfl

variable (hp : o.bus.board.lines.interrupts.pending = bus.board.lines.interrupts.pending)

include hp

omit [Device δ] in
theorem begun_within : (c.withCache o.cache).begun o.bus = (c.begun bus).withCache o.cache := by
  unfold begun withCache
  rw [hp]

theorem fetched_within (ht : o.bus.timing = bus.timing)
    (ha : o.answer (c.fetchAccess bus) = (c.outside bus).answer (c.fetchAccess bus)) :
    (c.withCache o.cache).fetchAccess o.bus = c.fetchAccess bus ∧
      (c.withCache o.cache).fetched o.bus =
        ((c.fetched bus).1, (c.fetched bus).2.1,
          (c.fetched bus).2.2.1.withCache (o.perform (c.fetchAccess bus)).cache,
          (o.perform (c.fetchAccess bus)).bus) := by
  have hcost : o.bus.fetchCycles c.pc = bus.fetchCycles c.pc := by
    unfold Bus.fetchCycles Bus.cost
    rw [ht]
  have hc : (c.begun bus).outside bus = c.outside bus := rfl
  have ho : (c.withCache o.cache).outside o.bus = o := rfl
  have ho' : ((c.begun bus).withCache o.cache).outside o.bus = o := rfl
  unfold fetched
  rw [begun_within hp, fetch_eq, fetch_eq, hc, ho', show (c.withCache o.cache).pc = c.pc from rfl]
  unfold fetchAccess at ha ⊢
  rw [ho, show (c.withCache o.cache).pc = c.pc from rfl]
  revert ha
  cases hl : (c.outside bus).lookup? c.pc with
  | some word =>
    intro ha
    have hw : o.lookup? c.pc = some word := by simpa [hl, Outside.answer] using ha
    rw [hw]
    exact ⟨rfl, rfl⟩
  | none =>
    intro ha
    cases hn : o.lookup? c.pc with
    | some word => simp [hl, hn, Outside.answer] at ha
    | none =>
      simp only [Outside.answer, hl, hn, Option.isSome_none, Bool.false_eq_true, if_false,
        Option.some.injEq] at ha
      have hread : (o.bus.read c.pc .word).1 = (bus.read c.pc .word).1 := ha
      refine ⟨rfl, ?_⟩
      dsimp only
      rw [hread, hcost]
      rfl

theorem execution_within (ht : o.bus.timing = bus.timing)
    (ha : o.answer (c.fetchAccess bus) = (c.outside bus).answer (c.fetchAccess bus)) :
    (c.withCache o.cache).instruction o.bus = c.instruction bus ∧
      (c.withCache o.cache).execution o.bus =
        (c.execution bus).within (o.perform (c.fetchAccess bus)) := by
  unfold instruction execution
  rw [(fetched_within hp ht ha).2]
  exact ⟨rfl, rfl⟩

omit hp in
theorem outside_execution (c : Cpu) (bus : Bus δ) :
    (c.execution bus).outside = (c.outside bus).perform (c.fetchAccess bus) := by
  have h : c.execution bus =
      (c.execution bus).within ((c.outside bus).perform (c.fetchAccess bus)) :=
    (execution_within (o := c.outside bus) rfl rfl rfl).2
  exact congrArg Execution.outside h

omit [Device δ] in
theorem executes_within : (c.withCache o.cache).executes o.bus = c.executes bus := by
  unfold executes isInterrupted misfetches
  rw [begun_within hp]
  rfl

theorem step_within (ht : o.bus.timing = bus.timing)
    (ha : o.answers (c.accesses bus) = (c.outside bus).answers (c.accesses bus)) :
    (c.withCache o.cache).accesses o.bus = c.accesses bus ∧
      (c.withCache o.cache).step o.bus = ((c.step bus).1,
        (c.step bus).2.1.withCache (o.performAll (c.accesses bus)).cache,
        (o.performAll (c.accesses bus)).bus) := by
  have hx' := executes_within (c := c) hp
  have hi' : (c.withCache o.cache).isInterrupted o.bus = c.isInterrupted bus := by
    unfold isInterrupted
    rw [begun_within hp]
    rfl
  unfold accesses at ha ⊢
  rw [hx']
  by_cases hx : c.executes bus = true
  · rw [if_pos hx] at ha
    rw [if_pos hx, if_pos hx]
    -- the fetch is answered first, and the other answers are those to the instruction
    obtain ⟨hfetch, hrest⟩ := List.cons.inj ha
    obtain ⟨hinstruction, hexec⟩ := execution_within hp ht hfetch
    obtain ⟨hsame, hfetched⟩ := fetched_within hp ht hfetch
    have hown := outside_execution c bus
    have htiming : (o.perform (c.fetchAccess bus)).bus.timing = (c.execution bus).bus.timing := by
      rw [(o.frame_perform _).timing, ht]
      show _ = (c.execution bus).outside.bus.timing
      rw [hown, ((c.outside bus).frame_perform _).timing]
      rfl
    rw [← hown] at hrest
    have hrun := Execution.run_within htiming hrest
    rw [hsame, hinstruction, hexec]
    refine ⟨rfl, ?_⟩
    rw [step_executed (hx'.trans hx), step_executed hx, hinstruction, hexec, hfetched, hrun, ht]
    have hcpu : ∀ (x : Execution δ) o, (x.within o).cpu = x.cpu.withCache o.cache := fun _ _ => rfl
    dsimp only
    rw [hcpu, settle_withCache]
    rfl
  · rw [if_neg hx, if_neg hx]
    refine ⟨rfl, ?_⟩
    cases hi : c.isInterrupted bus with
    | true =>
      rw [step_interrupted hi, step_interrupted (hi'.trans hi), begun_within hp,
        retireLoad_withCache, ht]
      rfl
    | false =>
      have hm : c.misfetches bus = true := by simpa [executes, hi] using hx
      have hm' : (c.withCache o.cache).misfetches o.bus = true := by
        rw [← hm]
        unfold misfetches
        rw [begun_within hp]
        rfl
      have hretired := retireLoad_withCache { c.begun bus with currentInstruction := 0 } o.cache
      rw [step_misfetched hi hm, step_misfetched (hi'.trans hi) hm', begun_within hp, ht]
      show (_, (({ c.begun bus with currentInstruction := 0 } : Cpu).withCache
        o.cache).retireLoad.addressError .addressErrorLoad c.pc, _) = _
      rw [hretired]
      rfl

omit hp

/-- These accesses are all that a step does outside of the registers, and all that it depends on there
but for the costs of accesses and whether the bus asks for an interrupt: with another cache and
another bus that answer them alike, the step is the same, and leaves there what they leave. -/
def Performs (c : Cpu) (bus : Bus δ) (as : List Access) : Prop :=
  ∀ o : Outside δ, o.bus.timing = bus.timing →
    o.bus.board.lines.interrupts.pending = bus.board.lines.interrupts.pending →
    o.answers as = (c.outside bus).answers as →
    (c.withCache o.cache).step o.bus =
      ((c.step bus).1, (c.step bus).2.1.withCache (o.performAll as).cache, (o.performAll as).bus)

theorem performs_accesses (c : Cpu) (bus : Bus δ) : c.Performs bus (c.accesses bus) :=
  fun _ ht hp ha => (step_within hp ht ha).2

theorem Performs.outside_step {as : List Access} (h : c.Performs bus as) :
    (c.step bus).2.1.outside (c.step bus).2.2 = (c.outside bus).performAll as := by
  have hstep : c.step bus = ((c.step bus).1,
      (c.step bus).2.1.withCache ((c.outside bus).performAll as).cache,
      ((c.outside bus).performAll as).bus) := h (c.outside bus) rfl rfl rfl
  rw [hstep]
  rfl

end Cpu

end Psx
