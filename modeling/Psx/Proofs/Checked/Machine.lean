import Psx.Proofs.Bus.Turns
import Psx.Proofs.Checked.Cpu
import Psx.Proofs.Machine.Slices

/-!
# A step, checked

The cycles that a step costs are a word, and the clock is a double word. `Machine.Steady` is what a
step relies on besides: a paced session of the core with a steady board. It is kept by whatever a
session does.

The clock bounds the rest (`Machine.Tallied`). The frames that were counted are not more than the
cycles that passed. A word that the processor or a slice drops takes a cycle or more, so that all the
dropped words are not more than the cycles that passed either, and those that were written from
outside, where a write takes no time at all.

In a wait the target runs ahead of the clock, and the dropped words are held against the target: a
slice moves both alike. A round that serves no slice takes a cycle, so that a wait of few cycles with
few slices is over after few rounds (`Machine.Rounds.length_le`).
-/

namespace Psx

open Checked

/-! ### The scheduler -/

namespace Scheduler

/-- Puts the taken events to rest one by one, each at its number. -/
def takeDue! (s : Scheduler) : Option (List Nat × Scheduler) := do
  let taken := (s.dueList.mergeSort fun a b => a.1 ≤ b.1).map (·.2)
  let s ← taken.foldlM (fun (s : Scheduler) i => do
    let _ ← index s.events.size i
    pure (s.deactivate i)) s
  pure (taken, s)

theorem getElem?_deactivate (s : Scheduler) (i j : Nat) : (s.deactivate i).events[j]? =
    s.events[j]?.map fun e => if j = i then { e with due := none } else e := by
  unfold deactivate setDue
  rw [Array.getElem?_modify]
  by_cases h : i = j
  · subst h
    simp
  · simp [h, Ne.symm h]

theorem getElem?_foldl_deactivate (s : Scheduler) (taken : List Nat) (j : Nat) :
    (taken.foldl deactivate s).events[j]? =
      s.events[j]?.map fun e => if j ∈ taken then { e with due := none } else e := by
  induction taken generalizing s with
  | nil => simp
  | cons i taken ih =>
    rw [List.foldl_cons, ih, getElem?_deactivate, Option.map_map]
    congr 1
    funext e
    by_cases hi : j = i <;> by_cases ht : j ∈ taken <;> simp [hi, ht]

theorem foldl_deactivate_now (s : Scheduler) (taken : List Nat) :
    (taken.foldl deactivate s).now = s.now := by
  induction taken generalizing s with
  | nil => rfl
  | cons i taken ih => exact ih _

/-- An event is due if and only if it is among those that are taken. -/
theorem isDue_iff {s : Scheduler} {j : Nat} {e : Event} (he : s.events[j]? = some e) :
    e.isDue s.now = true ↔ j ∈ s.takeDue.1 := by
  rw [mem_takeDue, dueAt?, he, Option.bind_some, Event.isDue]
  cases e.due <;> simp

theorem takeDue!_eq (s : Scheduler) : s.takeDue! = some s.takeDue := by
  have hrest : s.takeDue.1.foldl deactivate s = s.takeDue.2 := by
    have hevents : (s.takeDue.1.foldl deactivate s).events = s.takeDue.2.events := by
      apply Array.ext_getElem?
      intro j
      rw [getElem?_foldl_deactivate]
      show _ = (s.events.map _)[j]?
      rw [Array.getElem?_map]
      cases he : s.events[j]? with
      | none => rfl
      | some e => simp only [Option.map_some, isDue_iff he]
    have hnow := s.foldl_deactivate_now s.takeDue.1
    generalize s.takeDue.1.foldl deactivate s = s' at hevents hnow
    cases s'
    cases hevents
    cases hnow
    rfl
  have hfold := foldlM_eq (P := fun s' : Scheduler => s'.events.size = s.events.size)
    (f := fun s' i => do let _ ← index s'.events.size i; pure (s'.deactivate i))
    (g := deactivate) (l := s.takeDue.1) (fun s' hs i hi => by
      obtain ⟨c, hc, -⟩ := s.mem_takeDue.1 hi
      obtain ⟨e, he, -⟩ := Option.bind_eq_some_iff.1 hc
      have hlt : i < s'.events.size := hs ▸ (Array.getElem?_eq_some_iff.1 he).1
      refine ⟨?_, (s'.deactivate_size i).trans hs⟩
      rw [index_eq hlt]
      rfl) rfl
  rw [hrest] at hfold
  unfold takeDue!
  dsimp only
  rw [show (s.dueList.mergeSort fun a b => a.1 ≤ b.1).map (·.2) = s.takeDue.1 from rfl, hfold]
  rfl

end Scheduler

variable {δ : Type} [Device δ]

namespace Machine

/-! ### A step -/

def refreshDeviceEvent! (m : Machine δ) : Option (Machine δ) := do
  match ← m.bus.untilEvent! with
  | some cycles => pure { m with scheduler := m.scheduler.schedule deviceEvent (max cycles 1) }
  | none => pure { m with scheduler := m.scheduler.deactivate deviceEvent }

/-- The cycles to the boundary are cut to a word. -/
def elapse! (m : Machine δ) (target : Nat) : Option (Nat × Bool × Machine δ) := do
  let m ← m.refreshDeviceEvent!
  let boundary := m.scheduler.nextBoundary target
  let passed ← sub boundary m.now
  let bus ← m.bus.advance! (passed % 2 ^ 32)
  let (due, scheduler) ← (m.scheduler.advanceTo boundary).takeDue!
  pure (boundary, due.contains dmaEvent, { m with bus, scheduler })

def runDmaSlice! (m : Machine δ) : Option (Nat × Machine δ) := do
  let (slice, bus) ← m.bus.runSlice!
  match slice with
  | none => pure (0, { m with bus })
  | some slice =>
    if ← bus.board.dma.hasPendingWork! then
      let cycles ← held 32 (slice.words + slice.gap)
      pure (slice.words, { m with bus, scheduler := m.scheduler.schedule dmaEvent cycles })
    else pure (slice.words, { m with bus })

def round! (m : Machine δ) (target : Nat) : Option (Nat × Nat × Machine δ) := do
  let (boundary, due, m) ← m.elapse! target
  let (words, m) ← if due then m.runDmaSlice! else pure (0, m)
  pure (boundary, words, m)

/-- The wait goes on until it is at its target. One that so many rounds do not end has no result. -/
def catchUp! (m : Machine δ) (target stolen : Nat) : Nat → Option (Nat × Machine δ)
  | 0 => none
  | rounds + 1 => do
    let (boundary, words, m) ← m.round! target
    let target ← held 64 (target + words)
    let stolen ← held 32 (stolen + words)
    if target ≤ boundary then pure (stolen, m) else m.catchUp! target stolen rounds

/-- More rounds than the wait of any step takes. -/
def roundAllowance : Nat := 2 ^ 32

def wakeDma! (m : Machine δ) (cost : Nat) : Option (Machine δ) := do
  if !m.scheduler.isActive dmaEvent && (← m.bus.board.dma.hasPendingWork!) then
    pure { m with scheduler := m.scheduler.schedule dmaEvent cost }
  else pure m

def step! (m : Machine δ) : Option (Nat × Machine δ) := do
  let (cost, cpu, bus) ← m.cpu.step! m.bus
  let m ← ({ m with cpu, bus }.trace).wakeDma! cost
  let target ← held 64 (m.now + cost)
  let (stolen, m) ← m.catchUp! target 0 roundAllowance
  let cycles ← held 32 (cost + stolen)
  pure (cycles, m)

variable {m m' : Machine δ} {target n : Nat} {rounds : List Round}

/-! ### What a step relies on -/

/-- A paced session of the core with a board that can go on. -/
structure Steady (m : Machine δ) : Prop where
  paced : m.Paced
  table : m.bus.table = coreTable
  sizes : m.bus.memory.hasSizes = true
  board : m.bus.board.Steady
  dma : m.bus.board.dma.Regular

namespace Steady

omit [Device δ] in
theorem of_frame (h : m.Steady) (hp : m'.Paced) (hf : m.bus.Frame m'.bus)
    (hb : m'.bus.board.Steady) (hd : m'.bus.board.dma.Regular) : m'.Steady :=
  ⟨hp, hf.table.trans h.table, hf.sizes h.sizes, hb, hd⟩

omit [Device δ] in
theorem within (h : m.Steady) : m.bus.Within (fun _ => True) Board.Steady :=
  ⟨fun _ _ => trivial, h.board⟩

omit [Device δ] in
theorem withinDma (h : m.Steady) : m.bus.Within (fun _ => True) fun b => b.dma.Regular :=
  ⟨fun _ _ => trivial, h.dma⟩

theorem perform (h : m.Steady) (move : Move) : (m.perform move).Steady :=
  h.of_frame (h.paced.perform move) (frame_perform m move)
    (perform_board Board.steady_invariant (fun _ h => h.runSlice_steady)
      (reset_board (fun h p => h.reset p) h.within) h.within move)
    (perform_board Board.regular_invariant (fun _ h => h.runSlice_regular)
      (reset_board (P := fun b => b.dma.Regular) Board.regular_reset h.withinDma) h.withinDma move)

theorem elapse (h : m.Steady) (target : Nat) : (m.elapse target).2.Steady := by
  have he := elapse_bus m target
  refine h.of_frame (h.paced.elapse target) ?_ ?_ ?_ <;> rw [he]
  · exact m.bus.frame_advance _
  · exact (h.within.advance Board.steady_invariant _).board
  · exact (h.withinDma.advance Board.regular_invariant _).board

theorem runDmaSlice (h : m.Steady) : m.runDmaSlice.2.Steady := by
  have he := runDmaSlice_bus m
  refine h.of_frame h.paced.runDmaSlice ?_ ?_ ?_ <;> rw [he]
  · exact m.bus.frame_runSlice
  · exact h.within.runSlice_steady.board
  · exact h.withinDma.runSlice_regular.board

theorem round (h : m.Steady) (target : Nat) : (m.round target).2.Steady := by
  by_cases hdue : (m.elapse target).1 = true
  · rw [round_of_due hdue]
    exact (h.elapse target).runDmaSlice
  · rw [round_of_idle hdue]
    exact h.elapse target

theorem executed (h : m.Steady) : m.executed.2.Steady := by
  have hkept := Bus.Simulation.of_kept
    (P := fun b : Bus δ => b.Within (fun _ => True) Board.Steady ∧
      b.Within (fun _ => True) fun b => b.dma.Regular)
    (fun _ h _ _ => ⟨h.1.read Board.steady_invariant .., h.2.read Board.regular_invariant ..⟩)
    fun _ h _ _ _ => ⟨h.1.write Board.steady_invariant .., h.2.write Board.regular_invariant ..⟩
  obtain ⟨cost, cpu, b, -, hb, -, -, hs, hr⟩ := hkept.step ⟨rfl, h.within, h.withinDma⟩ m.cpu
  have he : m.executed.2.bus = b := by rw [m.executed_frame.1, hb]
  exact h.of_frame h.paced.executed m.frame_executed (he ▸ hs.board) (he ▸ hr.board)

end Steady

/-! ### Tallies -/

/-- A slice drops no more words than it moves. -/
theorem dropped_runDmaSlice_le (h : m.bus.board.dma.Regular) :
    m.runDmaSlice.2.bus.board.dropped ≤ m.bus.board.dropped + m.runDmaSlice.1 := by
  rcases hr : m.bus.runSlice with ⟨_ | slice, b⟩
  · rw [runDmaSlice_none hr, (Bus.runSlice_none hr).1]
    exact Nat.le_refl _
  · rw [runDmaSlice_some hr]
    exact (Bus.runSlice_counts h.channels hr).2.2

/-- The clock is not past the target of the wait, and the two counts that grow for ever are bounded by
the clock, by the target, and by the words that were written from outside. -/
structure Tallied (writes target : Nat) (m : Machine δ) : Prop where
  now : m.now ≤ target
  frames : m.bus.board.frames ≤ m.now
  dropped : m.bus.board.dropped ≤ target + writes

namespace Tallied

omit [Device δ] in
theorem of_eq {m' : Machine δ} (ht : m.Tallied n target) (hnow : m'.now = m.now)
    (hgpu : m'.bus.board.gpu = m.bus.board.gpu) : m'.Tallied n target where
  now := hnow ▸ ht.now
  frames := by
    unfold Board.frames
    rw [hgpu, hnow]
    exact ht.frames
  dropped := by
    unfold Board.dropped
    rw [hgpu]
    exact ht.dropped

theorem elapse (ht : m.Tallied n target) (h : m.Steady) :
    (m.elapse target).2.Tallied n target := by
  have hnow := h.paced.elapse_now ht.now
  have hle := h.paced.le_boundary ht.now
  have hframes := ht.frames
  have hadvanced := Bus.frames_advance_le h.table h.board.beam (m.boundary target - m.now)
  refine ⟨?_, ?_, ?_⟩
  · rw [hnow]
    exact m.boundary_le target
  · rw [hnow, elapse_bus]
    omega
  · rw [elapse_bus, Bus.dropped_advance]
    exact ht.dropped

theorem runDmaSlice (ht : m.Tallied n target) (h : m.Steady) :
    m.runDmaSlice.2.Tallied n (target + m.runDmaSlice.1) := by
  have hnow := runDmaSlice_now m
  have hbefore := ht.now
  have hdropped := ht.dropped
  have hcount := dropped_runDmaSlice_le h.dma
  refine ⟨by omega, ?_, by omega⟩
  rw [hnow, runDmaSlice_bus, Bus.frames_runSlice]
  exact ht.frames

theorem round (ht : m.Tallied n target) (h : m.Steady) :
    (m.round target).2.Tallied n (target + (m.round target).1) := by
  by_cases hdue : (m.elapse target).1 = true
  · rw [round_of_due hdue]
    exact (ht.elapse h).runDmaSlice (h.elapse target)
  · rw [round_of_idle hdue]
    exact ht.elapse h

end Tallied

/-! ### Waits -/

theorem refreshDeviceEvent!_eq (m : Machine δ) :
    m.refreshDeviceEvent! = some m.refreshDeviceEvent := by
  unfold refreshDeviceEvent! refreshDeviceEvent
  rw [Bus.untilEvent!_eq]
  cases m.bus.untilEvent <;> rfl

theorem elapse!_eq (h : m.Steady) (ht : m.Tallied n target) (hwait : target - m.now < 2 ^ 32)
    (hroom : target < 2 ^ 64) : m.elapse! target = some (m.boundary target, m.elapse target) := by
  have hle := h.paced.le_boundary ht.now
  have htarget := m.boundary_le target
  have hframes : m.bus.board.gpu.beam.frames ≤ m.now := ht.frames
  have hruns : m.bus.board.Runs (m.boundary target - m.now) :=
    ⟨h.board.timers, h.board.beam, by omega, by omega⟩
  have hadvance := Bus.advance!_eq h.table hruns
  unfold elapse!
  simp only [refreshDeviceEvent!_eq, Option.bind_eq_bind, Option.bind_some,
    refreshDeviceEvent_now, refreshDeviceEvent_bus]
  rw [show m.refreshDeviceEvent.scheduler.nextBoundary target = m.boundary target from rfl,
    sub_eq hle, Option.bind_some, Nat.mod_eq_of_lt hruns.narrow, hadvance, Option.bind_some,
    Scheduler.takeDue!_eq, Option.bind_some]
  refine congrArg some (Prod.ext rfl (Prod.ext rfl ?_))
  show _ = (m.elapse target).2
  rw [← elapse_bus]
  rfl

theorem runDmaSlice!_eq (h : m.Steady) (hroom : m.bus.board.dropped + 0x10000 < 2 ^ 64) :
    m.runDmaSlice! = some m.runDmaSlice := by
  have hready : m.bus.Ready (0 + 0x10000) := ⟨h.table, h.sizes, hroom⟩
  have hgap := h.within.runSlice_steady.board.gap
  unfold runDmaSlice!
  rw [(Bus.runSlice!_eq hready h.dma.channels).1]
  simp only [Option.bind_eq_bind, Option.bind_some]
  rcases hr : m.bus.runSlice with ⟨_ | slice, b⟩
  · rw [runDmaSlice_none hr]
    rfl
  · obtain ⟨hwords, hle, -⟩ := Bus.runSlice_counts h.dma.channels hr
    rw [hr] at hgap
    rw [runDmaSlice_some hr, Dma.hasPendingWork!_eq]
    dsimp only at hgap ⊢
    rw [held_eq (by omega)]
    simp only [Option.bind_some, Option.pure_def]
    split <;> rfl

theorem round!_eq (h : m.Steady) (ht : m.Tallied n target) (hwait : target - m.now < 2 ^ 32)
    (hroom : target + n + 0x10000 < 2 ^ 64) :
    m.round! target = some (m.boundary target, m.round target) := by
  have hdropped := (ht.elapse h).dropped
  unfold round! round
  rw [elapse!_eq h ht hwait (by omega)]
  simp only [Option.bind_eq_bind, Option.bind_some]
  split
  · rw [runDmaSlice!_eq (h.elapse target) (by omega)]
    rfl
  · rfl

namespace Rounds

theorem steady (hr : m.Rounds target rounds m') (h : m.Steady) : m'.Steady := by
  induction hr with
  | last _ => exact h.round _
  | next _ _ ih => exact ih (h.round _)

theorem tallied (hr : m.Rounds target rounds m') (h : m.Steady) (ht : m.Tallied n target) :
    m'.Tallied n (target + (rounds.map (·.words)).sum) := by
  induction hr with
  | @last m target _ =>
    rw [List.map_singleton, List.sum_singleton]
    exact ht.round h
  | @next m target rounds m' _ _ ih =>
    rw [List.map_cons, List.sum_cons, ← Nat.add_assoc]
    exact ih (h.round target) (ht.round h)

/-- A round that is not the last serves a slice or takes a cycle. -/
theorem length_le (hr : m.Rounds target rounds m') (hp : m.Paced) (hle : m.now ≤ target)
    (hlast : target + (rounds.map (·.words)).sum < Scheduler.lastCycle) :
    rounds.length ≤
      target + (rounds.map (·.words)).sum - m.now + rounds.countP (·.served) + 1 := by
  induction hr with
  | last _ => exact Nat.le_add_left ..
  | @next m target rounds m' hmore _ ih =>
    obtain ⟨hp', hnow⟩ := hp.round hle
    have hboundary := hp.le_boundary hle
    have htarget := m.boundary_le target
    rw [List.map_cons, List.sum_cons, show (m.note target).words = (m.round target).1 from rfl]
      at hlast ⊢
    have hrest := ih hp' (by omega) (by omega)
    rw [List.length_cons, List.countP_cons]
    by_cases hdue : (m.elapse target).1 = true
    · rw [if_pos (show (m.note target).served = true from hdue)]
      omega
    · have hwords := (hp.budget_of_idle hle hdue).1
      have hpassed := hp.lt_boundary hle (by omega) hdue (by omega)
      omega

/-- A wait that fits in the numbers of its types fails nowhere, and its rounds end it. -/
theorem catchUp!_eq (hr : m.Rounds target rounds m') (h : m.Steady) (ht : m.Tallied n target)
    (hwait : target - m.now + (rounds.map (·.words)).sum < 2 ^ 32)
    (hroom : target + (rounds.map (·.words)).sum + n + 0x10000 < 2 ^ 64) (stolen : Nat)
    (hstolen : stolen + (rounds.map (·.words)).sum < 2 ^ 32) {allowance : Nat}
    (hlength : rounds.length ≤ allowance) :
    m.catchUp! target stolen allowance = some (stolen + (rounds.map (·.words)).sum, m') := by
  induction hr generalizing stolen allowance with
  | @last m target hend =>
    obtain ⟨k, rfl⟩ := Nat.exists_eq_add_of_le' hlength
    have hsum : ([m.note target].map (·.words)).sum = (m.round target).1 := List.sum_singleton
    rw [hsum] at hwait hroom hstolen ⊢
    rw [List.length_singleton, catchUp!, round!_eq h ht (by omega) (by omega)]
    simp only [Option.bind_eq_bind, Option.bind_some]
    rw [held_eq (by omega), held_eq hstolen]
    exact if_pos hend
  | @next m target rounds m' hmore hr ih =>
    obtain ⟨k, rfl⟩ := Nat.exists_eq_add_of_le' hlength
    have hsum : ((m.note target :: rounds).map (·.words)).sum =
        (m.round target).1 + (rounds.map (·.words)).sum := List.sum_cons
    have hnow := (h.paced.round ht.now).2
    have hle := h.paced.le_boundary ht.now
    rw [hsum] at hwait hroom hstolen ⊢
    rw [List.length_cons, ← Nat.add_assoc, catchUp!, round!_eq h ht (by omega) (by omega)]
    simp only [Option.bind_eq_bind, Option.bind_some]
    rw [held_eq (by omega), held_eq (by omega)]
    simp only [Option.bind_some]
    rw [if_neg (Nat.not_le.2 hmore), ih (h.round target) (ht.round h) (by omega) (by omega) _
      (by omega) (Nat.le_add_left ..), Nat.add_assoc]

end Rounds

/-! ### Steps -/

omit [Device δ] in
theorem wakeDma!_eq (m : Machine δ) (cost : Nat) : m.wakeDma! cost = some (m.wakeDma cost) := by
  unfold wakeDma! wakeDma
  rw [Dma.hasPendingWork!_eq]
  simp only [Option.bind_eq_bind, Option.bind_some, Option.pure_def]
  split <;> rfl

theorem frames_executed (m : Machine δ) : m.executed.2.bus.board.frames = m.bus.board.frames := by
  have hkept := Bus.Simulation.of_kept (P := fun b : Bus δ => b.board.frames = m.bus.board.frames)
    (fun b h address w => (b.frames_read address w).trans h)
    fun b h address w value => (b.frames_write address w value).trans h
  obtain ⟨cost, cpu, b, -, hb, -, -, hf⟩ := hkept.step ⟨rfl, rfl⟩ m.cpu
  rw [m.executed_frame.1, hb]
  exact hf

/-- What holds of a session between its steps, if so many words were written from outside. -/
structure Safe (writes : Nat) (m : Machine δ) : Prop where
  steady : m.Steady
  tallied : m.Tallied writes m.now
  sound : m.Sound
  timing : m.bus.timing = {}

namespace Safe

variable (h : m.Safe n) (hroom : m.now + n + 2 ^ 50 < 2 ^ 64)

include h hroom

/-- An instruction costs little, and drops a word for a cycle at most. -/
theorem cpu_step!_eq : m.cpu.step! m.bus = some (m.cpu.step m.bus) ∧ m.executed.1 ≤ 45 ∧
    m.executed.2.bus.board.dropped ≤ m.bus.board.dropped + m.executed.1 := by
  have hdropped := h.tallied.dropped
  have hready : m.bus.Ready 2 := ⟨h.steady.table, h.steady.sizes, by omega⟩
  obtain ⟨hcpu, -, hle, hcount⟩ := Cpu.step!_eq h.sound.cpu hready h.timing
  refine ⟨hcpu, hle, ?_⟩
  rw [m.executed_frame.1]
  exact hcount

theorem tallied_executed : m.executed.2.Tallied n (m.now + m.executed.1) := by
  have hnow := m.executed_now
  have hdropped := h.tallied.dropped
  have hcount := (h.cpu_step!_eq hroom).2.2
  refine ⟨by omega, ?_, by omega⟩
  rw [hnow, m.frames_executed]
  exact h.tallied.frames

/-- The clock does not run over, whatever the slices of the step find. -/
theorem lt_lastCycle : m.now + m.step.1 < Scheduler.lastCycle := by
  have hcost := (h.cpu_step!_eq hroom).2.1
  have hslices : sliceAllowance m.executed.1 ≤ 2 ^ 33 := by
    unfold sliceAllowance
    omega
  refine step_lt_lastCycle h.steady.executed.dma ?_
  unfold Scheduler.lastCycle
  omega

/-- The slices of a step are as many as its cycles and one, so they move little, in few rounds. -/
theorem exists_rounds : ∃ rounds,
    m.executed.2.Rounds (m.now + m.executed.1) rounds m.step.2 ∧
      m.step.1 = m.executed.1 + (rounds.map (·.words)).sum ∧
      (rounds.map (·.words)).sum ≤ 0x10000 * 46 ∧ rounds.length ≤ roundAllowance := by
  have hlast := h.lt_lastCycle hroom
  have hcost := (h.cpu_step!_eq hroom).2.1
  have hwait := h.tallied_executed hroom
  obtain ⟨rounds, hr, hwords⟩ := h.steady.paced.step_rounds hlast
  have hserved := h.steady.paced.step_served_le hlast hr hwords
  have hsum := hr.words_le h.steady.executed.dma
  have hlength := hr.length_le h.steady.executed.paced hwait.now (by omega)
  have hnow := m.executed_now
  exact ⟨rounds, hr, hwords, by omega, by unfold roundAllowance; omega⟩

/-- A step fails nowhere as long as the clock and the words from outside leave some room. -/
theorem step!_eq : m.step! = some m.step ∧ m.step.2.Tallied n m.step.2.now := by
  obtain ⟨rounds, hr, hwords, hsum, hlength⟩ := h.exists_rounds hroom
  obtain ⟨hcpu, hcost, -⟩ := h.cpu_step!_eq hroom
  have hwait := h.tallied_executed hroom
  have hend := h.steady.paced.step_now (h.lt_lastCycle hroom)
  have hnow := m.executed_now
  have hcatch := hr.catchUp!_eq h.steady.executed hwait (by omega) (by omega) 0
    (by omega) hlength
  constructor
  · unfold step!
    rw [hcpu]
    simp only [Option.bind_eq_bind, Option.bind_some, wakeDma!_eq]
    show (held 64 (m.executed.2.now + m.executed.1)).bind (fun target =>
      (m.executed.2.catchUp! target 0 roundAllowance).bind fun r =>
        (held 32 (m.executed.1 + r.1)).bind fun cycles => some (cycles, r.2)) = _
    rw [hnow, held_eq (by omega), Option.bind_some, hcatch, Option.bind_some]
    dsimp only
    rw [Nat.zero_add, ← hwords, held_eq (by omega)]
    rfl
  · rw [hend, hwords, ← Nat.add_assoc]
    exact hr.tallied h.steady.executed hwait

end Safe

end Machine

end Psx
