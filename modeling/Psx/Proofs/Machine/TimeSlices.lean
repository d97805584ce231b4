import Mathlib.Logic.Function.Iterate
import Psx.Proofs.Bus.Turns
import Psx.Proofs.Snapshot.Admission

/-!
# Time in slices

An instruction lets the devices catch up with its cost in pieces that end at a pulse of the beam, at
a due slice, or at the end of the cost. None of the chips of the core can tell: where no DMA channel
is runnable, the pieces come to the same as single cycles (`Machine.advance_eq_ticks`), and so do the
costs of any number of instructions, however the time is cut into them.

The argument is that of a wait with one boundary after the other. `Machine.Calm` is what it keeps. A
piece never reaches past the next pulse, before which the cut between two cycles cannot be seen
(`Bus.advance_ticks`), and it ends later than it begins, unless a slice is due that then moves
nothing. That happens once, as nothing makes a slice due again.
-/

namespace Psx

variable {δ : Type} [Device δ]

namespace Bus

/-- Lets one cycle pass for every device, in the order of registration. -/
def tick (b : Bus δ) : Bus δ := b.eachPart fun board part => board.advance 1 part

variable {b : Bus δ}

theorem advance_one : b.advance 1 = b.tick := if_neg Nat.one_ne_zero

/-- Up to the next pulse a wait is as many ticks. -/
theorem advance_ticks (h : b.parts = Part.core) (hs : b.board.gpu.beam.Settled) {j : Nat}
    (hj : j ≤ b.board.gpu.beam.cyclesToPulse) : b.advance j = tick^[j] b := by
  induction j with
  | zero => exact advance_zero
  | succ j ih =>
    rw [Function.iterate_succ_apply', ← ih (by omega), ← advance_one]
    exact advance_add_of_quiet h hs 1 (by omega)

end Bus

namespace Machine

/-- A round of single cycles: one for every device and one for the clock. -/
def tick (m : Machine δ) : Machine δ :=
  { m with bus := m.bus.tick, scheduler := { m.scheduler with now := m.scheduler.now + 1 } }

variable {m m' m'' : Machine δ} {target : Nat}

theorem ticks_bus (m : Machine δ) (n : Nat) : (tick^[n] m).bus = Bus.tick^[n] m.bus := by
  induction n generalizing m with
  | zero => rfl
  | succ n ih => exact ih m.tick

theorem ticks_now (m : Machine δ) (n : Nat) : (tick^[n] m).now = m.now + n := by
  induction n generalizing m with
  | zero => rfl
  | succ n ih =>
    rw [Function.iterate_succ_apply, ih]
    show m.now + 1 + n = _
    omega

/-- The chips of the core alone, with a beam that knows where it is, nothing for a slice to move, and
no event over. -/
structure Calm (m : Machine δ) : Prop where
  parts : m.bus.parts = Part.core
  beam : m.bus.board.gpu.beam.Settled
  idle : m.bus.board.dma.hasPendingWork = false
  events : m.scheduler.events.size = 2
  onTime : m.scheduler.OnTime

/-- The one session has become the other by single cycles up to the target. -/
structure Ticked (m m' : Machine δ) (target : Nat) : Prop where
  le : m.now ≤ target
  bus : m'.bus = Bus.tick^[target - m.now] m.bus
  now : m'.now = target
  calm : m'.Calm

theorem Ticked.trans {target' : Nat} (h : Ticked m m' target) (h' : Ticked m' m'' target') :
    Ticked m m'' target' where
  le := h.le.trans (h.now ▸ h'.le)
  bus := by
    have hle := h.le
    have hle' := h'.le
    rw [h.now] at hle'
    rw [h'.bus, h.bus, h.now, ← Function.iterate_add_apply,
      show target' - target + (target - m.now) = target' - m.now by omega]
  now := h'.now
  calm := h'.calm

/-! ### One piece -/

/-- The scheduler with the next pulse of the beam. -/
def refreshed (m : Machine δ) : Scheduler :=
  m.scheduler.schedule deviceEvent m.bus.board.gpu.beam.cyclesToPulse

namespace Calm

theorem refreshDeviceEvent_eq (h : m.Calm) :
    m.refreshDeviceEvent = { m with scheduler := refreshed m } := by
  have hpos := h.beam.cyclesToPulse_pos
  have hu : max m.bus.board.gpu.untilEvent 1 = m.bus.board.gpu.beam.cyclesToPulse := by
    unfold Gpu.untilEvent; omega
  unfold Machine.refreshDeviceEvent
  rw [Bus.untilEvent_core h.parts]
  dsimp only
  rw [hu]
  rfl

theorem elapse_eq (h : m.Calm) (target : Nat) :
    m.elapse target =
      ((((refreshed m).advanceTo ((refreshed m).nextBoundary target)).takeDue.1).contains dmaEvent,
        { m with
          bus := m.bus.advance ((refreshed m).nextBoundary target - m.now)
          scheduler :=
            ((refreshed m).advanceTo ((refreshed m).nextBoundary target)).takeDue.2 }) := by
  unfold Machine.elapse
  rw [h.refreshDeviceEvent_eq]
  rfl

omit [Device δ] in
/-- The pulse is due when it comes, and the slice when it was. -/
theorem dueAt?_refreshed (h : m.Calm) (i : Nat) : (refreshed m).dueAt? i =
    if i = deviceEvent then
      some (max (min (m.now + m.bus.board.gpu.beam.cyclesToPulse) Scheduler.lastCycle) m.now)
    else m.scheduler.dueAt? i := by
  unfold refreshed
  rw [Scheduler.dueAt?_schedule, h.events]
  by_cases hi : i = deviceEvent
  · subst hi; rfl
  · rw [if_neg (fun hc => hi hc.1.symm), if_neg hi]

theorem elapse (h : m.Calm) (hle : m.now ≤ target) :
    Ticked m (m.elapse target).2 (m.elapse target).2.now ∧
      (m.elapse target).2.now ≤ target := by
  have hdue := h.dueAt?_refreshed deviceEvent
  rw [if_pos rfl] at hdue
  have hfirst : (refreshed m).nextBoundary target ≤
      m.now + m.bus.board.gpu.beam.cyclesToPulse := by
    have : (refreshed m).nextBoundary target ≤ _ := (refreshed m).nextBoundary_le_due hdue
    omega
  have hlo : m.now ≤ (refreshed m).nextBoundary target :=
    (h.onTime.schedule deviceEvent _).le_nextBoundary hle
  have hhi := (refreshed m).nextBoundary_le target
  rw [h.elapse_eq target]
  generalize (refreshed m).nextBoundary target = boundary at hfirst hlo hhi ⊢
  have hnow : max m.now boundary = boundary := Nat.max_eq_right hlo
  have hbus := Bus.advance_ticks (j := boundary - m.now) h.parts h.beam (by omega)
  refine ⟨⟨?_, ?_, rfl, ?_⟩, ?_⟩
  · exact Nat.le_max_left ..
  · show m.bus.advance (boundary - m.now) = _
    rw [hbus]
    show _ = Bus.tick^[max m.now boundary - m.now] m.bus
    rw [hnow]
  · refine ⟨(Bus.advance_parts _).trans h.parts, ?_, ?_, ?_, Scheduler.takeDue_onTime _⟩
    · show (m.bus.advance _).board.gpu.beam.Settled
      rw [Bus.advance_beam h.parts]
      exact h.beam.advance _
    · show (m.bus.advance _).board.dma.hasPendingWork = false
      by_cases hz : boundary - m.now = 0
      · rw [hz, Bus.advance_zero]; exact h.idle
      · rw [Bus.advance_core h.parts hz]; exact h.idle
    · rw [Scheduler.takeDue_size, Scheduler.advanceTo_size]
      exact (m.scheduler.schedule_size ..).trans h.events
  · exact hnow.trans_le hhi

/-- A slice that is due was due before, and it is not due again. -/
theorem elapse_due (h : m.Calm) (hdue : (m.elapse target).1 = true) :
    m.scheduler.isActive dmaEvent = true ∧
      (m.elapse target).2.scheduler.isActive dmaEvent = false := by
  rw [h.elapse_eq target] at hdue ⊢
  obtain ⟨c, hc, hle⟩ := (Scheduler.mem_takeDue _).1 (List.contains_iff_mem.1 hdue)
  rw [Scheduler.dueAt?_advanceTo, h.dueAt?_refreshed] at hc
  have hc' : m.scheduler.dueAt? dmaEvent = some c := hc
  refine ⟨by unfold Scheduler.isActive; rw [hc']; rfl, ?_⟩
  rw [Scheduler.isActive_eq_false, Scheduler.dueAt?_takeDue, Scheduler.dueAt?_advanceTo,
    h.dueAt?_refreshed]
  show (m.scheduler.dueAt? dmaEvent).filter _ = none
  rw [hc', Option.filter_some, if_neg (by simpa using hle)]

/-- A piece that ends with no slice due is not empty. -/
theorem elapse_idle (h : m.Calm) (hidle : (m.elapse target).1 ≠ true) (hlt : m.now < target)
    (hlast : target ≤ Scheduler.lastCycle) :
    m.now < (m.elapse target).2.now ∧
      ((m.elapse target).2.scheduler.isActive dmaEvent = true →
        m.scheduler.isActive dmaEvent = true) := by
  have hpos := h.beam.cyclesToPulse_pos
  rw [h.elapse_eq target] at hidle ⊢
  refine ⟨?_, ?_⟩
  · show m.now < max m.now ((refreshed m).nextBoundary target)
    rcases (refreshed m).nextBoundary_eq_or target with he | ⟨i, hi⟩
    · omega
    · have hdue := hi
      rw [h.dueAt?_refreshed] at hi
      by_cases hd : i = deviceEvent
      · rw [if_pos hd] at hi
        have := Option.some.inj hi
        omega
      · -- the only other event is the slice, which would be due
        rw [if_neg hd] at hi
        obtain ⟨e, he, -⟩ := Option.bind_eq_some_iff.1 hi
        have hsize := (Array.getElem?_eq_some_iff.1 he).1
        rw [h.events] at hsize
        have hi0 : i = dmaEvent := by
          have : i ≠ 1 := hd
          show i = 0
          omega
        subst hi0
        have htaken := (Scheduler.mem_takeDue
          ((refreshed m).advanceTo ((refreshed m).nextBoundary target))).2
          ⟨_, hdue, Nat.le_max_right ..⟩
        exact absurd (List.contains_iff_mem.2 htaken) hidle
  · intro ha
    unfold Scheduler.isActive at ha ⊢
    rw [Scheduler.dueAt?_takeDue, Scheduler.dueAt?_advanceTo, h.dueAt?_refreshed] at ha
    obtain ⟨c, hc⟩ := Option.isSome_iff_exists.1 ha
    have hc' : m.scheduler.dueAt? dmaEvent = some c := (Option.filter_eq_some_iff.1 hc).1
    rw [hc']; rfl

theorem runDmaSlice_eq (h : m.Calm) : m.runDmaSlice = (0, m) := by
  unfold Machine.runDmaSlice
  rw [Bus.runSlice_idle h.idle]

/-! ### One piece after the other -/

theorem catchUp (h : m.Calm) {slices stolen : Nat} (hle : m.now ≤ target)
    (hlast : target ≤ Scheduler.lastCycle)
    (hs : m.scheduler.isActive dmaEvent = true → 0 < slices) :
    (m.catchUp slices target stolen).1 = stolen ∧
      Ticked m (m.catchUp slices target stolen).2 target := by
  -- `hs` keeps a slice in hand as long as one can fall due
  induction m, slices, target, stolen using catchUp_induct with
  | out m target stolen hdue => exact absurd (hs (h.elapse_due hdue).1) (Nat.lt_irrefl 0)
  | last m slices target stolen hdue hend =>
    obtain ⟨ht, hle'⟩ := h.elapse hle
    rw [catchUp_due_succ stolen hdue, if_pos hend]
    rw [ht.calm.runDmaSlice_eq] at hend ⊢
    have hnow : (m.elapse target).2.now = target := Nat.le_antisymm hle' hend
    rw [hnow] at ht
    exact ⟨rfl, ht⟩
  | slice m slices target stolen hdue hmore ih =>
    obtain ⟨ht, hle'⟩ := h.elapse hle
    rw [catchUp_due_succ stolen hdue, if_neg hmore]
    rw [ht.calm.runDmaSlice_eq] at hmore ih ⊢
    obtain ⟨he, ht'⟩ := ih ht.calm hle' hlast fun ha => by
      rw [(h.elapse_due hdue).2] at ha; cases ha
    exact ⟨he, ht.trans ht'⟩
  | more m slices target stolen hidle hmore ih =>
    obtain ⟨ht, hle'⟩ := h.elapse hle
    rw [catchUp_idle stolen hidle, if_pos hmore]
    obtain ⟨he, ht'⟩ := ih ht.calm hle' hlast fun ha =>
      hs ((h.elapse_idle hidle (hmore.1.trans hmore.2) hlast).2 ha)
    exact ⟨he, ht.trans ht'⟩
  | done m slices target stolen hidle hdone =>
    obtain ⟨ht, hle'⟩ := h.elapse hle
    rw [catchUp_idle stolen hidle, if_neg hdone]
    have hnow : (m.elapse target).2.now = target := by
      rcases Nat.lt_or_eq_of_le hle with hlt | he
      · have := (h.elapse_idle hidle hlt hlast).1
        omega
      · have := ht.le
        omega
    rw [hnow] at ht
    exact ⟨rfl, ht⟩

theorem advance (h : m.Calm) {n : Nat} (hn : m.now + n ≤ Scheduler.lastCycle) :
    (m.advance n).1 = 0 ∧ Ticked m (m.advance n).2 (m.now + n) :=
  h.catchUp (Nat.le_add_right ..) hn fun _ => by unfold sliceAllowance; omega

/-- However the time is cut into costs, what passes is the sum of single cycles. -/
theorem advanceAll (h : m.Calm) {costs : List Nat} (hn : m.now + costs.sum ≤ Scheduler.lastCycle) :
    Ticked m (costs.foldl (fun m cost => (m.advance cost).2) m) (m.now + costs.sum) := by
  induction costs generalizing m with
  | nil => exact ⟨Nat.le_refl _, by rw [List.sum_nil, Nat.add_zero, Nat.sub_self]; rfl, rfl, h⟩
  | cons cost costs ih =>
    rw [List.sum_cons] at hn ⊢
    have ht := (h.advance (n := cost) (by omega)).2
    have hnow : m.now + (cost + costs.sum) = (m.advance cost).2.now + costs.sum := by
      rw [ht.now]; omega
    rw [hnow] at hn ⊢
    exact ht.trans (ih ht.calm hn)

end Calm

variable {s : Surroundings δ}

theorem Reachable.calm (hs : ∀ device, ¬s.attaches device) (h : m.Reachable s) (hm : m.Sound)
    (hd : m.bus.board.dma.hasPendingWork = false) (hb : m.bus.board.gpu.beam.KnowsBlank) :
    m.Calm where
  parts := Bus.parts_of_table (h.laid.bare hs)
  beam := ⟨hm.board.beam.cycle, hb⟩
  idle := hd
  events := h.laid.events
  onTime := hm.events

/-- Time slicing is invisible. As long as the clock does not run over, the devices and the clock are
where rounds of single cycles would have left them, and no cycle is stolen; and they are there also
if the time passes in the costs of several instructions. States from elsewhere may have been restored
before, if they were sound: an event that is over or a beam outside the frame would hold the time
up. -/
theorem advance_eq_ticks (hs : ∀ device, ¬s.attaches device)
    (ho : ∀ {m data}, m.Reachable s → s.offers m data → (m.restore data).2.Sound)
    (h : m.Reachable s) (hd : m.bus.board.dma.hasPendingWork = false)
    (hb : m.bus.board.gpu.beam.KnowsBlank) {n : Nat} (hn : m.now + n ≤ Scheduler.lastCycle) :
    ((m.advance n).1 = 0 ∧ (m.advance n).2.bus = (tick^[n] m).bus ∧
        (m.advance n).2.now = (tick^[n] m).now) ∧
      ∀ costs : List Nat, costs.sum = n →
        (costs.foldl (fun m cost => (m.advance cost).2) m).bus = (tick^[n] m).bus ∧
          (costs.foldl (fun m cost => (m.advance cost).2) m).now = (tick^[n] m).now := by
  have hc := h.calm hs (h.sound hs ho) hd hb
  have hticked : ∀ {m'}, Ticked m m' (m.now + n) →
      m'.bus = (tick^[n] m).bus ∧ m'.now = (tick^[n] m).now := fun ht => by
    rw [ticks_bus, ticks_now, ht.bus, ht.now, Nat.add_sub_cancel_left]
    exact ⟨rfl, rfl⟩
  obtain ⟨hstolen, ht⟩ := hc.advance hn
  refine ⟨⟨hstolen, hticked ht⟩, fun costs hsum => hticked ?_⟩
  subst hsum
  exact hc.advanceAll hn

/-- The session that was built lets ten lines of the picture pass. -/
theorem advance_eq_ticks_fresh :
    ((fresh {} : Machine Empty).bus.board.dma.hasPendingWork = false ∧
      (fresh {} : Machine Empty).bus.board.gpu.beam.KnowsBlank) ∧
    ((fresh {} : Machine Empty).advance 21530).2.bus =
      (tick^[21530] (fresh {} : Machine Empty)).bus := by
  have hf : ({} : SessionConfig).Fits := ⟨by decide, by decide⟩
  have hr : (fresh {} : Machine Empty).Reachable { config := {} } := reachable_fresh hf
  have hd : (fresh {} : Machine Empty).bus.board.dma.hasPendingWork = false := by decide
  have hb : (fresh {} : Machine Empty).bus.board.gpu.beam.KnowsBlank := by decide
  exact ⟨⟨hd, hb⟩, (advance_eq_ticks (fun _ h => h) (fun _ h => False.elim h) hr hd hb
    (show 0 + 21530 ≤ Scheduler.lastCycle by decide)).1.2.1⟩

end Machine

end Psx
