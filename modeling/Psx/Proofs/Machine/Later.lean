import Psx.Proofs.Machine.Accounting
import Psx.Proofs.Snapshot.Resume

/-!
# The same session at a later hour

A session looks at its clock only to tell which events are due. With the clock and all due times so
many cycles further on (`Machine.later`) it takes every step alike, in the same number of cycles, and
is as many cycles ahead after it (`Machine.step_later`, `Machine.Paced.run_later`).

This ends where the range of the clock does. A due time past the last cycle is cut off there, and a
clock that stands on that cycle would find such an event due.
-/

namespace Psx

/-! ### Due events -/

namespace Scheduler

variable (s : Scheduler) (t : Nat)

/-- A due time so many cycles further on, if there is such a cycle. -/
def putOff (c : Nat) : Nat := min (c + t) lastCycle

/-- The clock and all due times are so many cycles further on. -/
def later : Scheduler where
  now := s.now + t
  events := s.events.map fun e => { e with due := e.due.map (putOff t) }

@[simp] theorem later_now : (s.later t).now = s.now + t := rfl

theorem dueAt?_later (i : Nat) : (s.later t).dueAt? i = (s.dueAt? i).map (putOff t) := by
  unfold later dueAt?
  rw [Array.getElem?_map]
  cases s.events[i]? <;> rfl

theorem isActive_later (i : Nat) : (s.later t).isActive i = s.isActive i := by
  unfold isActive
  rw [dueAt?_later, Option.isSome_map]

theorem setDue_later (i : Nat) (d : Option Nat) :
    (s.later t).setDue i (d.map (putOff t)) = (s.setDue i d).later t := by
  refine congrArg (Scheduler.mk (s.now + t)) (Array.ext_getElem? fun j => ?_)
  simp only [later, setDue, Array.getElem?_modify, Array.getElem?_map]
  by_cases h : i = j
  · subst h
    cases s.events[i]? <;> simp
  · simp only [if_neg h]

theorem deactivate_later (i : Nat) : (s.later t).deactivate i = (s.deactivate i).later t :=
  s.setDue_later t i none

variable {s t}

theorem schedule_later (h : s.now + t ≤ lastCycle) (i n : Nat) :
    (s.later t).schedule i n = (s.schedule i n).later t := by
  have hdue : max (min (s.now + t + n) lastCycle) (s.now + t) =
      putOff t (max (min (s.now + n) lastCycle) s.now) := by
    unfold putOff
    omega
  have hset := s.setDue_later t i (some (max (min (s.now + n) lastCycle) s.now))
  rw [Option.map_some, ← hdue] at hset
  exact hset

theorem nextBoundary_later {limit : Nat} (h : limit + t ≤ lastCycle) :
    (s.later t).nextBoundary (limit + t) = s.nextBoundary limit + t := by
  rw [nextBoundary_eq, nextBoundary_eq]
  show ((s.events.map fun e => { e with due := e.due.map (putOff t) }).toList.foldl _ _) = _
  rw [Array.toList_map]
  generalize s.events.toList = events
  induction events generalizing limit with
  | nil => rfl
  | cons e events ih =>
    rw [List.map_cons, List.foldl_cons, List.foldl_cons]
    cases hd : e.due with
    | none => exact ih h
    | some c =>
      have hmin : min (limit + t) (putOff t c) = min limit c + t := by
        unfold putOff
        omega
      show (events.map _).foldl _ (min (limit + t) (putOff t c)) = _
      rw [hmin]
      exact ih (by omega)

theorem advanceTo_later (c : Nat) : (s.later t).advanceTo (c + t) = (s.advanceTo c).later t := by
  unfold advanceTo later
  rw [Nat.add_max_add_right]

theorem putOff_le_iff (h : s.now + t < lastCycle) (c : Nat) :
    putOff t c ≤ s.now + t ↔ c ≤ s.now := by
  unfold putOff
  omega

theorem mem_takeDue_later (h : s.now + t < lastCycle) (i : Nat) :
    i ∈ (s.later t).takeDue.1 ↔ i ∈ s.takeDue.1 := by
  rw [mem_takeDue, mem_takeDue, dueAt?_later]
  constructor
  · rintro ⟨_, hd, hle⟩
    obtain ⟨c, hc, rfl⟩ := Option.map_eq_some_iff.1 hd
    exact ⟨c, hc, (putOff_le_iff h c).1 hle⟩
  · rintro ⟨c, hc, hle⟩
    exact ⟨putOff t c, by rw [hc]; rfl, (putOff_le_iff h c).2 hle⟩

theorem takeDue_later (h : s.now + t < lastCycle) :
    (s.later t).takeDue.2 = s.takeDue.2.later t := by
  refine congrArg (Scheduler.mk (s.now + t)) ?_
  show (s.events.map _).map _ = (s.events.map _).map _
  rw [Array.map_map, Array.map_map]
  refine Array.map_congr_left fun e _ => ?_
  obtain ⟨name, due⟩ := e
  cases due with
  | none => rfl
  | some c =>
    have hdue := putOff_le_iff h c
    by_cases hc : c ≤ s.now <;> simp [Event.isDue, hdue, hc]

end Scheduler

/-! ### Sessions -/

namespace Machine

variable {δ : Type}

/-- The same session with its clock and its events so many cycles further on. -/
def later (m : Machine δ) (t : Nat) : Machine δ := { m with scheduler := m.scheduler.later t }

@[simp] theorem later_now (m : Machine δ) (t : Nat) : (m.later t).now = m.now + t := rfl

variable [Device δ] {m : Machine δ} {t target : Nat}

theorem refreshDeviceEvent_later (h : m.now + t ≤ Scheduler.lastCycle) :
    (m.later t).refreshDeviceEvent = m.refreshDeviceEvent.later t := by
  have hbus : (m.later t).bus = m.bus := rfl
  unfold refreshDeviceEvent
  rw [hbus]
  cases m.bus.untilEvent with
  | none =>
    exact congrArg (fun s => { m with scheduler := s }) (m.scheduler.deactivate_later t _)
  | some cycles =>
    exact congrArg (fun s => { m with scheduler := s }) (Scheduler.schedule_later h _ _)

theorem boundary_later (h : m.now + t ≤ Scheduler.lastCycle)
    (hlast : target + t ≤ Scheduler.lastCycle) :
    (m.later t).boundary (target + t) = m.boundary target + t := by
  unfold boundary
  rw [refreshDeviceEvent_later h]
  exact Scheduler.nextBoundary_later hlast

theorem elapse_now_le (hle : m.now ≤ target) : (m.elapse target).2.now ≤ target := by
  show max m.refreshDeviceEvent.now (m.boundary target) ≤ target
  rw [refreshDeviceEvent_now]
  exact Nat.max_le.2 ⟨hle, m.boundary_le target⟩

theorem elapse_later (hle : m.now ≤ target) (h : target + t < Scheduler.lastCycle) :
    (m.later t).elapse (target + t) = ((m.elapse target).1, (m.elapse target).2.later t) := by
  have hnow : m.now + t ≤ Scheduler.lastCycle := by omega
  have hr := refreshDeviceEvent_later hnow
  have hb := boundary_later hnow h.le
  have hs : (m.later t).refreshDeviceEvent.scheduler.advanceTo
      ((m.later t).boundary (target + t)) =
        (m.refreshDeviceEvent.scheduler.advanceTo (m.boundary target)).later t := by
    rw [hr, hb]
    exact Scheduler.advanceTo_later _
  have hlast : (m.refreshDeviceEvent.scheduler.advanceTo (m.boundary target)).now + t <
      Scheduler.lastCycle := (Nat.add_le_add_right (elapse_now_le hle) t).trans_lt h
  have hdue : ((m.later t).elapse (target + t)).1 = (m.elapse target).1 := by
    rw [Bool.eq_iff_iff, mem_elapse, mem_elapse, hs]
    exact Scheduler.mem_takeDue_later hlast _
  have hbus : ((m.later t).elapse (target + t)).2.bus = (m.elapse target).2.bus := by
    rw [elapse_bus, elapse_bus, hb, later_now, Nat.add_sub_add_right]
    rfl
  have hscheduler : ((m.later t).elapse (target + t)).2.scheduler =
      (m.elapse target).2.scheduler.later t := by
    rw [elapse_scheduler, hs]
    exact Scheduler.takeDue_later hlast
  have hrest : ∀ (m : Machine δ) (target : Nat), (m.elapse target).2 =
      { m.refreshDeviceEvent with
        bus := (m.elapse target).2.bus
        scheduler := (m.elapse target).2.scheduler } := fun _ _ => rfl
  refine Prod.ext hdue ?_
  rw [hrest (m.later t), hbus, hscheduler, hr]
  rfl

theorem runDmaSlice_later (h : m.now + t ≤ Scheduler.lastCycle) :
    (m.later t).runDmaSlice = (m.runDmaSlice.1, m.runDmaSlice.2.later t) := by
  rcases hr : m.bus.runSlice with ⟨_ | slice, b⟩
  · rw [runDmaSlice_none hr, runDmaSlice_none (m := m.later t) hr]
    rfl
  · rw [runDmaSlice_some hr, runDmaSlice_some (m := m.later t) hr]
    have hs := Scheduler.schedule_later h dmaEvent (slice.words + slice.gap)
    by_cases hp : b.board.dma.hasPendingWork = true
    · simp only [if_pos hp]
      exact congrArg (fun s => (slice.words, { m with bus := b, scheduler := s })) hs
    · simp only [if_neg hp]
      rfl

theorem catchUp_later {slices stolen : Nat} (hle : m.now ≤ target)
    (hroom : target + (m.catchUp slices target stolen).1 + t < Scheduler.lastCycle + stolen) :
    (m.later t).catchUp slices (target + t) stolen =
      ((m.catchUp slices target stolen).1, (m.catchUp slices target stolen).2.later t) := by
  have hstolen := stolen_le_catchUp m slices target stolen
  -- along the pieces of the earlier session; the later one is due, and stops, where this one does
  induction m, slices, target, stolen using catchUp_induct with
  | out m target stolen hdue =>
    have he := elapse_later (t := t) hle (by omega)
    rw [catchUp_due_zero stolen hdue, catchUp_due_zero stolen (by rw [he]; exact hdue), he]
  | last m slices target stolen hdue hlast =>
    have he := elapse_later (t := t) hle (by omega)
    have hr := runDmaSlice_later (m := (m.elapse target).2) (t := t)
      (by have := elapse_now_le hle; omega)
    rw [catchUp_due_succ stolen hdue, catchUp_due_succ stolen (by rw [he]; exact hdue), he, hr,
      if_pos hlast, if_pos (by rw [later_now]; omega)]
  | slice m slices target stolen hdue hmore ih =>
    have he := elapse_later (t := t) hle (by omega)
    have hr := runDmaSlice_later (m := (m.elapse target).2) (t := t)
      (by have := elapse_now_le hle; omega)
    rw [catchUp_due_succ stolen hdue, if_neg hmore] at hroom hstolen ⊢
    rw [catchUp_due_succ stolen (by rw [he]; exact hdue), he, hr, if_neg (by rw [later_now]; omega)]
    have hnow : (m.elapse target).2.runDmaSlice.2.now ≤
        target + (m.elapse target).2.runDmaSlice.1 := by
      rw [runDmaSlice_now]
      exact (elapse_now_le hle).trans (Nat.le_add_right ..)
    have := ih hnow (by omega) (stolen_le_catchUp ..)
    rw [← this, Nat.add_right_comm]
  | more m slices target stolen hidle hmore ih =>
    have he := elapse_later (t := t) hle (by omega)
    rw [catchUp_idle stolen hidle, if_pos hmore] at hroom hstolen ⊢
    rw [catchUp_idle stolen (by rw [he]; exact hidle), he,
      if_pos (by rw [later_now, later_now]; omega)]
    exact ih hmore.2.le hroom hstolen
  | done m slices target stolen hidle hdone =>
    have he := elapse_later (t := t) hle (by omega)
    rw [catchUp_idle stolen hidle, if_neg hdone]
    rw [catchUp_idle stolen (by rw [he]; exact hidle), he,
      if_neg (by rw [later_now, later_now]; omega)]

omit [Device δ] in
theorem trace_later (m : Machine δ) (t : Nat) : (m.later t).trace = m.trace.later t := by
  obtain ⟨cpu, bus, scheduler, tracer, config⟩ := m
  cases tracer <;> rfl

omit [Device δ] in
theorem wakeDma_later (h : m.now + t ≤ Scheduler.lastCycle) (cost : Nat) :
    (m.later t).wakeDma cost = (m.wakeDma cost).later t := by
  unfold wakeDma
  show (if !(m.scheduler.later t).isActive dmaEvent && m.bus.board.dma.hasPendingWork then _
    else _) = _
  rw [Scheduler.isActive_later]
  split
  · exact congrArg (fun s => { m with scheduler := s }) (Scheduler.schedule_later h _ _)
  · rfl

theorem executed_later (h : m.now + t ≤ Scheduler.lastCycle) :
    (m.later t).executed = (m.executed.1, m.executed.2.later t) := by
  let m₁ : Machine δ := { m with cpu := (m.cpu.step m.bus).2.1, bus := (m.cpu.step m.bus).2.2 }
  have hnow : m₁.trace.now = m.now := congrArg (·.now) m₁.trace_frame.2
  refine Prod.ext rfl ?_
  show (m₁.later t).trace.wakeDma m.executed.1 = (m₁.trace.wakeDma m.executed.1).later t
  rw [trace_later, wakeDma_later (by rw [hnow]; exact h)]

/-- A step does not depend on the hour. -/
theorem step_later (hroom : m.now + m.step.1 + t < Scheduler.lastCycle) :
    (m.later t).step = (m.step.1, m.step.2.later t) := by
  rw [step_eq] at hroom ⊢
  change m.now + (m.executed.1 + (m.executed.2.catchUp (sliceAllowance m.executed.1)
    (m.executed.2.now + m.executed.1) 0).1) + t < Scheduler.lastCycle at hroom
  have hnow := m.executed_now
  have hc := catchUp_later (m := m.executed.2) (t := t) (Nat.le_add_right _ _)
    (show m.executed.2.now + m.executed.1 + (m.executed.2.catchUp (sliceAllowance m.executed.1)
      (m.executed.2.now + m.executed.1) 0).1 + t < Scheduler.lastCycle + 0 by omega)
  rw [step_eq, executed_later (by omega)]
  dsimp only
  unfold advance
  rw [later_now, Nat.add_right_comm, hc]

theorem run_succ (m : Machine δ) (k : Nat) :
    m.run (k + 1) = (m.step.1 :: (m.step.2.run k).1, (m.step.2.run k).2) := rfl

/-- However many steps follow. -/
theorem Paced.run_later (h : m.Paced) {k : Nat}
    (hroom : m.now + (m.run k).1.sum + t < Scheduler.lastCycle) :
    (m.later t).run k = ((m.run k).1, (m.run k).2.later t) := by
  induction k generalizing m with
  | zero => rfl
  | succ k ih =>
    rw [run_succ, List.sum_cons] at hroom
    have hstep := step_later (m := m) (t := t) (by omega)
    have hnow := h.step_now (by omega)
    rw [run_succ, run_succ, hstep, ih h.step (by rw [hnow]; omega)]

end Machine

end Psx
