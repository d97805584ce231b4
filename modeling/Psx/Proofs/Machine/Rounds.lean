import Psx.Proofs.Bus.Metering
import Psx.Proofs.Machine.Paced

/-!
# A wait in rounds

A step lets the devices catch up in rounds: time passes to the next boundary, and the slice that is
due there is moved. `Machine.Rounds` is that loop with no bound on its rounds: it goes on until the
boundary is the target, which the words of each slice move away. What `Machine.catchUp` does within
its allowance is such a run, and the allowance never ends it (`Machine.Paced.exists_rounds`).

The measure is not the distance to the target, which a slice leaves as it was, but how far the slice
event is before the target. The words of a slice move both alike, and the gap behind it, a cycle or
more, brings the event closer to the target. So a slice event that is `n` cycles before the target is
taken at most `n + 1` times (`Machine.Rounds.served_le`).
-/

namespace Psx

/-- What is noted of a round: the cycles that the devices were given and the calls that gave them,
the clock at its end, whether the slice event was taken there and when it had been due, and the words
that were moved. -/
structure Round where
  cycles : Nat
  calls : List (Part × Nat)
  clock : Nat
  due : Option Nat
  served : Bool
  words : Nat

variable {δ : Type} [Device δ]

namespace Machine

def boundary (m : Machine δ) (target : Nat) : Nat :=
  m.refreshDeviceEvent.scheduler.nextBoundary target

/-- Time passes to the next boundary, and the slice that is due there is moved; the answer is its
words. -/
def round (m : Machine δ) (target : Nat) : Nat × Machine δ :=
  let r := m.elapse target
  if r.1 then r.2.runDmaSlice else (0, r.2)

def note (m : Machine δ) (target : Nat) : Round where
  cycles := m.boundary target - m.now
  calls := m.bus.advanceCalls (m.boundary target - m.now)
  clock := (m.elapse target).2.now
  due := m.scheduler.dueAt? dmaEvent
  served := (m.elapse target).1
  words := (m.round target).1

/-- The rounds of a wait, each toward a target that has moved away by the words moved so far. -/
inductive Rounds : Machine δ → Nat → List Round → Machine δ → Prop
  | last {m target} : target + (m.round target).1 ≤ m.boundary target →
    Rounds m target [m.note target] (m.round target).2
  | next {m target rounds m'} : m.boundary target < target + (m.round target).1 →
    Rounds (m.round target).2 (target + (m.round target).1) rounds m' →
    Rounds m target (m.note target :: rounds) m'

variable {m m' : Machine δ} {target : Nat} {rounds : List Round}

theorem Rounds.unique (h : m.Rounds target rounds m') {rounds' : List Round} {m'' : Machine δ}
    (h' : m.Rounds target rounds' m'') : rounds = rounds' ∧ m' = m'' := by
  induction h generalizing rounds' m'' with
  | last hend =>
    cases h' with
    | last _ => exact ⟨rfl, rfl⟩
    | next hmore _ => omega
  | next hmore _ ih =>
    cases h' with
    | last hend => omega
    | next _ h' =>
      obtain ⟨rfl, rfl⟩ := ih h'
      exact ⟨rfl, rfl⟩

/-! ### One round -/

theorem round_of_due (h : (m.elapse target).1 = true) :
    m.round target = (m.elapse target).2.runDmaSlice := if_pos h

theorem round_of_idle (h : (m.elapse target).1 ≠ true) :
    m.round target = (0, (m.elapse target).2) := if_neg h

@[simp] theorem refreshDeviceEvent_now (m : Machine δ) : m.refreshDeviceEvent.now = m.now := by
  unfold refreshDeviceEvent
  cases m.bus.untilEvent <;> rfl

@[simp] theorem refreshDeviceEvent_bus (m : Machine δ) : m.refreshDeviceEvent.bus = m.bus := by
  unfold refreshDeviceEvent
  cases m.bus.untilEvent <;> rfl

theorem dueAt?_refreshDeviceEvent (m : Machine δ) :
    m.refreshDeviceEvent.scheduler.dueAt? dmaEvent = m.scheduler.dueAt? dmaEvent := by
  unfold refreshDeviceEvent
  cases m.bus.untilEvent with
  | none => exact (m.scheduler.dueAt?_deactivate ..).trans (if_neg fun h => by cases h.1)
  | some cycles => exact (m.scheduler.dueAt?_schedule ..).trans (if_neg fun h => by cases h.1)

/-- A device is called a cycle from now at the earliest. -/
theorem lt_of_refreshDeviceEvent {c : Nat} (he : m.scheduler.events.size = 2)
    (hlast : m.now < Scheduler.lastCycle)
    (hc : m.refreshDeviceEvent.scheduler.dueAt? deviceEvent = some c) : m.now < c := by
  have hsize : deviceEvent = deviceEvent ∧ deviceEvent < m.scheduler.events.size :=
    ⟨rfl, by rw [he]; decide⟩
  unfold refreshDeviceEvent at hc
  cases hu : m.bus.untilEvent with
  | none =>
    rw [hu] at hc
    rw [Scheduler.dueAt?_deactivate, if_pos hsize] at hc
    cases hc
  | some cycles =>
    rw [hu] at hc
    rw [Scheduler.dueAt?_schedule, if_pos hsize] at hc
    have hc' : max (min (m.now + max cycles 1) Scheduler.lastCycle) m.now = c := Option.some.inj hc
    omega

theorem elapse_scheduler (m : Machine δ) (target : Nat) :
    (m.elapse target).2.scheduler =
      (m.refreshDeviceEvent.scheduler.advanceTo (m.boundary target)).takeDue.2 := rfl

theorem mem_elapse (m : Machine δ) (target : Nat) :
    (m.elapse target).1 = true ↔
      dmaEvent ∈ (m.refreshDeviceEvent.scheduler.advanceTo (m.boundary target)).takeDue.1 :=
  List.contains_iff_mem

theorem elapse_bus (m : Machine δ) (target : Nat) :
    (m.elapse target).2.bus = m.bus.advance (m.boundary target - m.now) := by
  show m.refreshDeviceEvent.bus.advance (m.boundary target - m.refreshDeviceEvent.now) = _
  rw [refreshDeviceEvent_bus, refreshDeviceEvent_now]

theorem boundary_le (m : Machine δ) (target : Nat) : m.boundary target ≤ target :=
  m.refreshDeviceEvent.scheduler.nextBoundary_le target

theorem boundary_le_due {c : Nat} (h : m.scheduler.dueAt? dmaEvent = some c) :
    m.boundary target ≤ c :=
  Scheduler.nextBoundary_le_due _ ((dueAt?_refreshDeviceEvent m).trans h)

theorem runDmaSlice_none {b : Bus δ} (h : m.bus.runSlice = (none, b)) :
    m.runDmaSlice = (0, { m with bus := b }) := by
  unfold runDmaSlice
  rw [h]

theorem runDmaSlice_some {slice : Dma.Slice} {b : Bus δ} (h : m.bus.runSlice = (some slice, b)) :
    m.runDmaSlice = (slice.words, { m with
      bus := b
      scheduler := if b.board.dma.hasPendingWork then
        m.scheduler.schedule dmaEvent (slice.words + slice.gap) else m.scheduler }) := by
  unfold runDmaSlice
  rw [h]

theorem runDmaSlice_now (m : Machine δ) : m.runDmaSlice.2.now = m.now := by
  rcases hr : m.bus.runSlice with ⟨_ | slice, b⟩
  · rw [runDmaSlice_none hr]
    rfl
  · rw [runDmaSlice_some hr]
    unfold now
    dsimp only
    split <;> rfl

theorem runDmaSlice_bus (m : Machine δ) : m.runDmaSlice.2.bus = m.bus.runSlice.2 := by
  rcases hr : m.bus.runSlice with ⟨_ | slice, b⟩
  · rw [runDmaSlice_none hr]
  · rw [runDmaSlice_some hr]

namespace Paced

theorem refreshDeviceEvent (h : m.Paced) : m.refreshDeviceEvent.Paced := by
  unfold Machine.refreshDeviceEvent
  cases m.bus.untilEvent with
  | none =>
    exact ⟨(m.scheduler.deactivate_size _).trans h.events, h.onTime.deactivate _, h.gap⟩
  | some cycles =>
    exact ⟨(m.scheduler.schedule_size _ _).trans h.events, h.onTime.schedule _ _, h.gap⟩

theorem le_boundary (h : m.Paced) (hle : m.now ≤ target) : m.now ≤ m.boundary target := by
  have hle' : m.refreshDeviceEvent.now ≤ target := (refreshDeviceEvent_now m).trans_le hle
  have := h.refreshDeviceEvent.onTime.le_nextBoundary hle'
  exact (refreshDeviceEvent_now m).symm.trans_le this

theorem elapse_now (h : m.Paced) (hle : m.now ≤ target) :
    (m.elapse target).2.now = m.boundary target := by
  show max m.refreshDeviceEvent.now (m.boundary target) = _
  rw [refreshDeviceEvent_now]
  exact Nat.max_eq_right (h.le_boundary hle)

theorem elapse (h : m.Paced) (target : Nat) : (m.elapse target).2.Paced where
  events := (Scheduler.takeDue_size _).trans h.refreshDeviceEvent.events
  onTime := Scheduler.takeDue_onTime _
  gap := by
    rw [elapse_bus]
    exact (h.within.advance Board.paced_invariant _).board

/-- The slice event is taken when the clock is where it was due: not before, and not past it. -/
theorem elapse_due_iff (h : m.Paced) (hle : m.now ≤ target) :
    (m.elapse target).1 = true ↔ m.scheduler.dueAt? dmaEvent = some (m.boundary target) := by
  have hnow : (m.refreshDeviceEvent.scheduler.advanceTo (m.boundary target)).now =
      m.boundary target := h.elapse_now hle
  rw [mem_elapse, Scheduler.mem_takeDue]
  constructor
  · rintro ⟨c, hc, hcle⟩
    have hdue : m.scheduler.dueAt? dmaEvent = some c := (dueAt?_refreshDeviceEvent m).symm.trans hc
    have hb : m.boundary target ≤ c := boundary_le_due hdue
    have hc' : c ≤ m.boundary target := hcle.trans_eq hnow
    rw [hdue, Nat.le_antisymm hb hc']
  · intro hdue
    exact ⟨_, (dueAt?_refreshDeviceEvent m).trans hdue, hnow.ge⟩

theorem dueAt?_elapse (h : m.Paced) (hle : m.now ≤ target) :
    (m.elapse target).2.scheduler.dueAt? dmaEvent =
      if (m.elapse target).1 = true then none else m.scheduler.dueAt? dmaEvent := by
  have hnow : (m.refreshDeviceEvent.scheduler.advanceTo (m.boundary target)).now =
      m.boundary target := h.elapse_now hle
  have hleft : (m.elapse target).2.scheduler.dueAt? dmaEvent =
      (m.scheduler.dueAt? dmaEvent).filter fun c => decide (m.boundary target < c) := by
    rw [elapse_scheduler, Scheduler.dueAt?_takeDue, hnow, Scheduler.dueAt?_advanceTo,
      dueAt?_refreshDeviceEvent]
  rw [hleft]
  by_cases hdue : (m.elapse target).1 = true
  · rw [if_pos hdue, (h.elapse_due_iff hle).1 hdue, Option.filter_some]
    simp
  · rw [if_neg hdue]
    cases hd : m.scheduler.dueAt? dmaEvent with
    | none => rfl
    | some c =>
      have hb : m.boundary target ≤ c := boundary_le_due hd
      have hne : m.boundary target ≠ c := fun e =>
        hdue ((h.elapse_due_iff hle).2 (hd.trans (congrArg some e.symm)))
      rw [Option.filter_some, if_pos (by simpa using Nat.lt_of_le_of_ne hb hne)]

/-- A round that ends before the target with no slice has let time pass. -/
theorem lt_boundary (h : m.Paced) (hle : m.now ≤ target) (hlast : m.now < Scheduler.lastCycle)
    (hidle : (m.elapse target).1 ≠ true) (hlt : m.boundary target < target) :
    m.now < m.boundary target := by
  rcases m.refreshDeviceEvent.scheduler.nextBoundary_eq_or target with he | ⟨i, hi⟩
  · exact absurd he (Nat.ne_of_lt hlt)
  · have hsize : i < 2 := by
      obtain ⟨e, he, -⟩ := Option.bind_eq_some_iff.1 hi
      have := (Array.getElem?_eq_some_iff.1 he).1
      rwa [h.refreshDeviceEvent.events] at this
    -- the event at the boundary is the slice, which would be taken, or a device
    match i, hsize with
    | 0, _ =>
      have hdue : m.scheduler.dueAt? dmaEvent = some (m.boundary target) :=
        (dueAt?_refreshDeviceEvent m).symm.trans hi
      exact absurd ((h.elapse_due_iff hle).2 hdue) hidle
    | 1, _ => exact lt_of_refreshDeviceEvent h.events hlast hi

theorem runDmaSlice (h : m.Paced) : m.runDmaSlice.2.Paced := by
  have hw := h.within.runSlice_paced.1
  rcases hr : m.bus.runSlice with ⟨_ | slice, b⟩
  · rw [runDmaSlice_none hr]
    rw [hr] at hw
    exact ⟨h.events, h.onTime, hw.board⟩
  · rw [runDmaSlice_some hr]
    rw [hr] at hw
    by_cases hpending : b.board.dma.hasPendingWork = true
    · rw [if_pos hpending]
      exact ⟨(m.scheduler.schedule_size _ _).trans h.events, h.onTime.schedule _ _, hw.board⟩
    · rw [if_neg hpending]
      exact ⟨h.events, h.onTime, hw.board⟩

/-- The next slice is due when the cycles that this one stole are over and a gap has passed. -/
theorem lt_due_runDmaSlice (h : m.Paced) (hnone : m.scheduler.dueAt? dmaEvent = none)
    (hroom : m.now + m.runDmaSlice.1 < Scheduler.lastCycle) {c : Nat}
    (hc : m.runDmaSlice.2.scheduler.dueAt? dmaEvent = some c) : m.now + m.runDmaSlice.1 < c := by
  rcases hr : m.bus.runSlice with ⟨_ | slice, b⟩
  · rw [runDmaSlice_none hr] at hc
    cases hnone.symm.trans hc
  · have hpos : 0 < slice.gap := h.within.runSlice_paced.2 slice (by rw [hr])
    rw [runDmaSlice_some hr] at hc hroom ⊢
    dsimp only at hc hroom ⊢
    by_cases hpending : b.board.dma.hasPendingWork = true
    · rw [if_pos hpending, Scheduler.dueAt?_schedule,
        if_pos ⟨rfl, h.events ▸ Nat.zero_lt_two⟩] at hc
      have hc' : max (min (m.now + (slice.words + slice.gap)) Scheduler.lastCycle) m.now = c :=
        Option.some.inj hc
      omega
    · rw [if_neg hpending] at hc
      cases hnone.symm.trans hc

theorem round (h : m.Paced) (hle : m.now ≤ target) :
    (m.round target).2.Paced ∧ (m.round target).2.now = m.boundary target := by
  by_cases hdue : (m.elapse target).1 = true
  · rw [round_of_due hdue]
    exact ⟨(h.elapse target).runDmaSlice, (runDmaSlice_now _).trans (h.elapse_now hle)⟩
  · rw [round_of_idle hdue]
    exact ⟨h.elapse target, h.elapse_now hle⟩

/-- A slice uses up one of the cycles by which its event was before the target. -/
theorem budget_of_due (h : m.Paced) (hle : m.now ≤ target) (hdue : (m.elapse target).1 = true)
    {n : Nat} (hn : ∀ c, m.scheduler.dueAt? dmaEvent = some c → target < c + n)
    (hroom : target + (m.round target).1 < Scheduler.lastCycle) :
    ∃ k, n = k + 1 ∧ ∀ c, (m.round target).2.scheduler.dueAt? dmaEvent = some c →
      target + (m.round target).1 < c + k := by
  have hb := m.boundary_le target
  have hnow := h.elapse_now hle
  have hlt := hn _ ((h.elapse_due_iff hle).1 hdue)
  rw [round_of_due hdue] at hroom ⊢
  obtain ⟨k, rfl⟩ : ∃ k, n = k + 1 := ⟨n - 1, by omega⟩
  refine ⟨k, rfl, fun c hc => ?_⟩
  have hnone : (m.elapse target).2.scheduler.dueAt? dmaEvent = none :=
    (h.dueAt?_elapse hle).trans (if_pos hdue)
  have := (h.elapse target).lt_due_runDmaSlice hnone (by omega) hc
  omega

theorem budget_of_idle (h : m.Paced) (hle : m.now ≤ target) (hidle : (m.elapse target).1 ≠ true) :
    (m.round target).1 = 0 ∧ (m.round target).2.scheduler.dueAt? dmaEvent =
      m.scheduler.dueAt? dmaEvent := by
  rw [round_of_idle hidle]
  exact ⟨rfl, (h.dueAt?_elapse hle).trans (if_neg hidle)⟩

end Paced

/-! ### Round after round -/

theorem stolen_le_catchUp (m : Machine δ) (slices target stolen : Nat) :
    stolen ≤ (m.catchUp slices target stolen).1 := by
  induction m, slices, target, stolen using catchUp_induct with
  | out m target stolen hdue => rw [catchUp_due_zero stolen hdue]
  | last m slices target stolen hdue hend =>
    rw [catchUp_due_succ stolen hdue, if_pos hend]
    exact Nat.le_add_right ..
  | slice m slices target stolen hdue hmore ih =>
    rw [catchUp_due_succ stolen hdue, if_neg hmore]
    exact (Nat.le_add_right ..).trans ih
  | more m slices target stolen hidle hmore ih =>
    rw [catchUp_idle stolen hidle, if_pos hmore]
    exact ih
  | done m slices target stolen hidle hdone => rw [catchUp_idle stolen hidle, if_neg hdone]

theorem Paced.catchUp_quiet {slices stolen : Nat} (h : m.Paced) (hle : m.now ≤ target)
    (hquiet : ∀ c, m.scheduler.dueAt? dmaEvent = some c → target < c) :
    (m.catchUp slices target stolen).1 = stolen := by
  have hidle : ∀ {m : Machine δ} {target}, m.Paced → m.now ≤ target →
      (∀ c, m.scheduler.dueAt? dmaEvent = some c → target < c) → (m.elapse target).1 ≠ true := by
    intro m target h hle hquiet hdue
    have := hquiet _ ((h.elapse_due_iff hle).1 hdue)
    have := m.boundary_le target
    omega
  induction m, slices, target, stolen using catchUp_induct with
  | out m target stolen hdue => exact absurd hdue (hidle h hle hquiet)
  | last m slices target stolen hdue => exact absurd hdue (hidle h hle hquiet)
  | slice m slices target stolen hdue => exact absurd hdue (hidle h hle hquiet)
  | more m slices target stolen hi hmore ih =>
    rw [catchUp_idle stolen hi, if_pos hmore]
    refine ih (h.elapse target) hmore.2.le ?_
    rw [h.dueAt?_elapse hle, if_neg hi]
    exact hquiet
  | done m slices target stolen hi hdone => rw [catchUp_idle stolen hi, if_neg hdone]

/-- The allowance of slices does not end a wait: what is done within it is a run that goes on to the
target. -/
theorem Paced.exists_rounds {slices stolen : Nat} (h : m.Paced) (hle : m.now ≤ target)
    (hs : ∀ c, m.scheduler.dueAt? dmaEvent = some c → target < c + slices)
    (hroom : target + (m.catchUp slices target stolen).1 < Scheduler.lastCycle + stolen) :
    ∃ rounds, m.Rounds target rounds (m.catchUp slices target stolen).2 ∧
      (m.catchUp slices target stolen).1 = stolen + (rounds.map (·.words)).sum := by
  have hstolen := stolen_le_catchUp m slices target stolen
  -- along the pieces of the wait; `hs` keeps a slice in hand wherever one falls due
  induction m, slices, target, stolen using catchUp_induct with
  | out m target stolen hdue =>
    have := hs _ ((h.elapse_due_iff hle).1 hdue)
    have := m.boundary_le target
    omega
  | last m slices target stolen hdue hend =>
    rw [catchUp_due_succ stolen hdue, if_pos hend, ← round_of_due hdue]
    refine ⟨[m.note target], .last ?_, ?_⟩
    · rw [round_of_due hdue, ← h.elapse_now hle]
      exact hend
    · rw [List.map_singleton, List.sum_singleton]
      rfl
  | slice m slices target stolen hdue hmore ih =>
    rw [catchUp_due_succ stolen hdue, if_neg hmore, ← round_of_due hdue] at hroom hstolen ⊢
    rw [← round_of_due hdue, h.elapse_now hle] at hmore
    rw [← round_of_due hdue] at ih
    have hle' := stolen_le_catchUp (m.round target).2 slices (target + (m.round target).1)
      (stolen + (m.round target).1)
    obtain ⟨hp, hnow⟩ := h.round hle
    obtain ⟨k, hk, hbudget⟩ := h.budget_of_due hle hdue hs (by omega)
    cases hk
    obtain ⟨rounds, hr, hsum⟩ := ih hp (by omega) hbudget (by omega) hle'
    refine ⟨m.note target :: rounds, .next (Nat.lt_of_not_le hmore) hr, ?_⟩
    rw [hsum, List.map_cons, List.sum_cons, ← Nat.add_assoc]
    rfl
  | more m slices target stolen hidle hmore ih =>
    rw [catchUp_idle stolen hidle, if_pos hmore] at hroom hstolen ⊢
    obtain ⟨hwords, hdue⟩ := h.budget_of_idle hle hidle
    obtain ⟨hp, hnow⟩ := h.round hle
    rw [h.elapse_now hle] at hmore
    have hround : (m.round target).2 = (m.elapse target).2 := by rw [round_of_idle hidle]
    rw [← hround] at ih hroom hstolen ⊢
    obtain ⟨rounds, hr, hsum⟩ := ih hp (by omega) (by rw [hdue]; exact hs) hroom hstolen
    refine ⟨m.note target :: rounds, .next ?_ ?_, ?_⟩
    · rw [hwords]
      exact hmore.2
    · rw [hwords]
      exact hr
    · have hzero : (m.note target).words = 0 := hwords
      rw [hsum, List.map_cons, List.sum_cons, hzero, Nat.zero_add]
  | done m slices target stolen hidle hdone =>
    rw [catchUp_idle stolen hidle, if_neg hdone] at hroom ⊢
    obtain ⟨hwords, -⟩ := h.budget_of_idle hle hidle
    rw [h.elapse_now hle] at hdone
    have hend : target ≤ m.boundary target := by
      by_contra hlt
      have := h.lt_boundary hle (by omega) hidle (by omega)
      omega
    have hround : (m.round target).2 = (m.elapse target).2 := by rw [round_of_idle hidle]
    rw [← hround]
    refine ⟨[m.note target], .last ?_, ?_⟩
    · rw [hwords]
      exact hend
    · have hzero : (m.note target).words = 0 := hwords
      rw [List.map_singleton, List.sum_singleton, hzero, Nat.add_zero]

namespace Rounds

theorem paced (h : m.Rounds target rounds m') (hp : m.Paced) (hle : m.now ≤ target) :
    m'.Paced := by
  induction h with
  | last _ => exact (hp.round hle).1
  | next hmore _ ih =>
    obtain ⟨hp', hnow⟩ := hp.round hle
    exact ih hp' (by omega)

/-- A run ends at its target, which has moved away by all the words. -/
theorem now (h : m.Rounds target rounds m') (hp : m.Paced) (hle : m.now ≤ target) :
    m'.now = target + (rounds.map (·.words)).sum := by
  induction h with
  | @last m target hend =>
    obtain ⟨-, hnow⟩ := hp.round hle
    have hb := m.boundary_le target
    have hsum : ([m.note target].map (·.words)).sum = (m.round target).1 := List.sum_singleton
    omega
  | @next m target rounds m' hmore _ ih =>
    obtain ⟨hp', hnow⟩ := hp.round hle
    have hsum : ((m.note target :: rounds).map (·.words)).sum =
        (m.round target).1 + (rounds.map (·.words)).sum := List.sum_cons
    have := ih hp' (by omega)
    omega

/-- The clock goes on by the cycles that are handed to the devices. -/
theorem elapsed (h : m.Rounds target rounds m') (hp : m.Paced) (hle : m.now ≤ target) :
    m.now + (rounds.map (·.cycles)).sum = m'.now := by
  induction h with
  | @last m target _ =>
    obtain ⟨-, hnow⟩ := hp.round hle
    have hb := hp.le_boundary hle
    have hsum : ([m.note target].map (·.cycles)).sum = m.boundary target - m.now :=
      List.sum_singleton
    omega
  | @next m target rounds m' hmore _ ih =>
    obtain ⟨hp', hnow⟩ := hp.round hle
    have hb := hp.le_boundary hle
    have hsum : ((m.note target :: rounds).map (·.cycles)).sum =
        m.boundary target - m.now + (rounds.map (·.cycles)).sum := List.sum_cons
    have := ih hp' (by omega)
    omega

theorem forward (h : m.Rounds target rounds m') (hp : m.Paced) (hle : m.now ≤ target) :
    (m.now :: rounds.map (·.clock)).IsChain (· ≤ ·) := by
  induction h with
  | @last m target _ =>
    have hb := hp.le_boundary hle
    rw [← hp.elapse_now hle] at hb
    exact .cons_cons hb (.singleton _)
  | @next m target rounds m' hmore _ ih =>
    obtain ⟨hp', hnow⟩ := hp.round hle
    have hb := hp.le_boundary hle
    have hclock : (m.note target).clock = (m.round target).2.now :=
      (hp.elapse_now hle).trans hnow.symm
    rw [List.map_cons, hclock]
    exact .cons_cons (by omega) (ih hp' (by omega))

/-- The slice event is taken when it is due, and whenever it is due. -/
theorem punctual (h : m.Rounds target rounds m') (hp : m.Paced) (hle : m.now ≤ target) :
    ∀ r ∈ rounds, r.served = true ↔ r.due = some r.clock := by
  have hnote : ∀ {m : Machine δ} {target}, m.Paced → m.now ≤ target →
      ((m.note target).served = true ↔ (m.note target).due = some (m.note target).clock) := by
    intro m target hp hle
    show (m.elapse target).1 = true ↔ m.scheduler.dueAt? dmaEvent = some (m.elapse target).2.now
    rw [hp.elapse_now hle]
    exact hp.elapse_due_iff hle
  induction h with
  | last _ =>
    intro r hr
    rw [List.mem_singleton.1 hr]
    exact hnote hp hle
  | next hmore _ ih =>
    obtain ⟨hp', hnow⟩ := hp.round hle
    intro r hr
    rcases List.mem_cons.1 hr with rfl | hr
    · exact hnote hp hle
    · exact ih hp' (by omega) r hr

/-- A slice event that is fewer than `n` cycles before the target is taken at most `n` times. -/
theorem served_le (h : m.Rounds target rounds m') (hp : m.Paced) (hle : m.now ≤ target)
    (hroom : target + (rounds.map (·.words)).sum < Scheduler.lastCycle) {n : Nat}
    (hn : ∀ c, m.scheduler.dueAt? dmaEvent = some c → target < c + n) :
    rounds.countP (·.served) ≤ n := by
  -- by how much the event is before the target bounds the slices to come, so `n` shrinks with each
  induction h generalizing n with
  | @last m target hend =>
    rw [List.countP_singleton]
    split
    · rename_i hserved
      have hb := m.boundary_le target
      have := hn _ ((hp.elapse_due_iff hle).1 hserved)
      omega
    · exact Nat.zero_le n
  | @next m target rounds m' hmore _ ih =>
    obtain ⟨hp', hnow⟩ := hp.round hle
    have hsum : ((m.note target :: rounds).map (·.words)).sum =
        (m.round target).1 + (rounds.map (·.words)).sum := List.sum_cons
    rw [hsum] at hroom
    rw [List.countP_cons]
    by_cases hdue : (m.elapse target).1 = true
    · obtain ⟨k, rfl, hk⟩ := hp.budget_of_due hle hdue hn (by omega)
      have := ih hp' (by omega) (by omega) hk
      have hserved : (m.note target).served = true := hdue
      rw [if_pos hserved]
      omega
    · obtain ⟨hwords, hd⟩ := hp.budget_of_idle hle hdue
      rw [hwords, Nat.add_zero] at ih
      have hserved : ¬(m.note target).served = true := hdue
      rw [if_neg hserved]
      exact ih hp' (by omega) (by omega) (by rw [hd]; exact hn)

end Rounds

end Machine

end Psx
