import Psx.Machine
import Psx.Proofs.Bus.Transfers

/-!
# Sessions in lockstep

`Bus.Lockstep R`: related buses answer alike whatever a step asks of them. Two sessions with the
same processor and the same scheduler on related buses then take every step alike, with the same
count of cycles (`Like.step`), though they may differ in what the relation does not look at: their
tracers, what their boot programs printed, devices that are not registered.

A relation of a bus with itself makes these facts about a single session (`Bus.Lockstep.of_kept`,
`Like.self`).
-/

namespace Psx

variable {δ : Type} [Device δ]

/-- Related buses stay related in all that happens in a step. -/
structure Bus.Lockstep (R : Bus δ → Bus δ → Prop) : Prop extends Simulation R where
  advance : ∀ {a b}, R a b → ∀ cycles, R (a.advance cycles) (b.advance cycles)
  untilEvent : ∀ {a b}, R a b → a.untilEvent = b.untilEvent
  runSlice : ∀ {a b}, R a b → a.runSlice.1 = b.runSlice.1 ∧ R a.runSlice.2 b.runSlice.2
  pendingWork : ∀ {a b}, R a b → a.board.dma.hasPendingWork = b.board.dma.hasPendingWork

theorem Bus.Lockstep.of_kept {P : Bus δ → Prop}
    (read : ∀ b, P b → ∀ address w, P (b.read address w).2)
    (write : ∀ b, P b → ∀ address w value, P (b.write address w value))
    (advance : ∀ b, P b → ∀ cycles, P (b.advance cycles))
    (runSlice : ∀ b, P b → P b.runSlice.2) : Lockstep fun a b => a = b ∧ P a where
  toSimulation := .of_kept read write
  advance h cycles := ⟨by rw [h.1], advance _ h.2 cycles⟩
  untilEvent h := by rw [h.1]
  runSlice h := ⟨by rw [h.1], by rw [h.1], runSlice _ h.2⟩
  pendingWork h := by rw [h.1]

namespace Machine

/-! ### Catching up -/

section

variable {m : Machine δ} {target : Nat} (stolen : Nat)

theorem catchUp_due_zero (h : (m.elapse target).1 = true) :
    m.catchUp 0 target stolen = (stolen, (m.elapse target).2) := by
  rw [catchUp.eq_def]; dsimp only; rw [if_pos h]

theorem catchUp_due_succ (h : (m.elapse target).1 = true) (slices : Nat) :
    m.catchUp (slices + 1) target stolen =
      if target + (m.elapse target).2.runDmaSlice.1 ≤ (m.elapse target).2.now then
        (stolen + (m.elapse target).2.runDmaSlice.1, (m.elapse target).2.runDmaSlice.2)
      else (m.elapse target).2.runDmaSlice.2.catchUp slices
        (target + (m.elapse target).2.runDmaSlice.1)
        (stolen + (m.elapse target).2.runDmaSlice.1) := by
  rw [catchUp.eq_def]; dsimp only; rw [if_pos h]

theorem catchUp_idle (h : (m.elapse target).1 ≠ true) (slices : Nat) :
    m.catchUp slices target stolen =
      if m.now < (m.elapse target).2.now ∧ (m.elapse target).2.now < target then
        (m.elapse target).2.catchUp slices target stolen
      else (stolen, (m.elapse target).2) := by
  rw [catchUp.eq_def]; dsimp only; rw [if_neg h, dite_eq_ite]

end

/-- Induction along the pieces of a wait. -/
@[elab_as_elim] theorem catchUp_induct {motive : Machine δ → Nat → Nat → Nat → Prop}
    (out : ∀ m target stolen, (m.elapse target).1 = true → motive m 0 target stolen)
    (last : ∀ m slices target stolen, (m.elapse target).1 = true →
      target + (m.elapse target).2.runDmaSlice.1 ≤ (m.elapse target).2.now →
      motive m (slices + 1) target stolen)
    (slice : ∀ m slices target stolen, (m.elapse target).1 = true →
      ¬target + (m.elapse target).2.runDmaSlice.1 ≤ (m.elapse target).2.now →
      motive (m.elapse target).2.runDmaSlice.2 slices
        (target + (m.elapse target).2.runDmaSlice.1)
        (stolen + (m.elapse target).2.runDmaSlice.1) →
      motive m (slices + 1) target stolen)
    (more : ∀ m slices target stolen, (m.elapse target).1 ≠ true →
      (m.now < (m.elapse target).2.now ∧ (m.elapse target).2.now < target) →
      motive (m.elapse target).2 slices target stolen → motive m slices target stolen)
    (done : ∀ m slices target stolen, (m.elapse target).1 ≠ true →
      ¬(m.now < (m.elapse target).2.now ∧ (m.elapse target).2.now < target) →
      motive m slices target stolen)
    (m : Machine δ) (slices target stolen : Nat) : motive m slices target stolen :=
  catchUp.induct motive out (fun m target stolen hd slices => last m slices target stolen hd)
    (fun m target stolen hd slices => slice m slices target stolen hd) more done
    m slices target stolen

/-! ### Alike -/

/-- Sessions that go on alike. -/
structure Like (R : Bus δ → Bus δ → Prop) (m m' : Machine δ) : Prop where
  cpu : m.cpu = m'.cpu
  scheduler : m.scheduler = m'.scheduler
  bus : R m.bus m'.bus

variable {R : Bus δ → Bus δ → Prop} {m m' : Machine δ}

omit [Device δ] in
theorem Like.self {P : Bus δ → Prop} (h : P m.bus) : Like (fun a b => a = b ∧ P a) m m :=
  ⟨rfl, rfl, rfl, h⟩

namespace Like

variable (s : Bus.Lockstep R)

omit [Device δ] in
theorem now (h : Like R m m') : m.now = m'.now := congrArg (·.now) h.scheduler

include s

theorem refreshDeviceEvent (h : Like R m m') :
    Like R m.refreshDeviceEvent m'.refreshDeviceEvent := by
  unfold Machine.refreshDeviceEvent
  rw [← s.untilEvent h.bus, ← h.scheduler]
  cases m.bus.untilEvent with
  | none => exact ⟨h.cpu, rfl, h.bus⟩
  | some cycles => exact ⟨h.cpu, rfl, h.bus⟩

theorem elapse (h : Like R m m') (target : Nat) :
    (m.elapse target).1 = (m'.elapse target).1 ∧
      Like R (m.elapse target).2 (m'.elapse target).2 := by
  have hr := h.refreshDeviceEvent s
  unfold Machine.elapse
  dsimp only
  rw [← hr.now, ← hr.scheduler]
  exact ⟨rfl, hr.cpu, rfl, s.advance hr.bus _⟩

theorem runDmaSlice (h : Like R m m') :
    m.runDmaSlice.1 = m'.runDmaSlice.1 ∧ Like R m.runDmaSlice.2 m'.runDmaSlice.2 := by
  have hs := s.runSlice h.bus
  unfold Machine.runDmaSlice
  revert hs
  obtain ⟨slice, b⟩ := m.bus.runSlice
  obtain ⟨_, b'⟩ := m'.bus.runSlice
  rintro ⟨rfl, hb⟩
  cases slice with
  | none => exact ⟨rfl, h.cpu, h.scheduler, hb⟩
  | some slice =>
    dsimp only
    rw [← s.pendingWork hb, ← h.scheduler]
    exact ⟨rfl, h.cpu, rfl, hb⟩

theorem catchUp (h : Like R m m') (slices target stolen : Nat) :
    (m.catchUp slices target stolen).1 = (m'.catchUp slices target stolen).1 ∧
      Like R (m.catchUp slices target stolen).2 (m'.catchUp slices target stolen).2 := by
  -- along the pieces of the one session; the other is due, and stops, where this one does
  induction m, slices, target, stolen using Machine.catchUp_induct generalizing m' with
  | out m target stolen hdue =>
    obtain ⟨he, hl⟩ := h.elapse s target
    rw [catchUp_due_zero stolen hdue, catchUp_due_zero stolen (he ▸ hdue)]
    exact ⟨rfl, hl⟩
  | last m slices target stolen hdue hlast =>
    obtain ⟨he, hl⟩ := h.elapse s target
    obtain ⟨hw, hl'⟩ := hl.runDmaSlice s
    rw [catchUp_due_succ stolen hdue, catchUp_due_succ stolen (he ▸ hdue), ← hw, ← hl.now,
      if_pos hlast, if_pos hlast]
    exact ⟨rfl, hl'⟩
  | slice m slices target stolen hdue hmore ih =>
    obtain ⟨he, hl⟩ := h.elapse s target
    obtain ⟨hw, hl'⟩ := hl.runDmaSlice s
    rw [catchUp_due_succ stolen hdue, catchUp_due_succ stolen (he ▸ hdue), ← hw, ← hl.now,
      if_neg hmore, if_neg hmore]
    exact ih hl'
  | more m slices target stolen hidle hmore ih =>
    obtain ⟨he, hl⟩ := h.elapse s target
    rw [catchUp_idle stolen hidle, catchUp_idle stolen (he ▸ hidle : (m'.elapse target).1 ≠ true),
      ← hl.now, ← h.now, if_pos hmore, if_pos hmore]
    exact ih hl
  | done m slices target stolen hidle hdone =>
    obtain ⟨he, hl⟩ := h.elapse s target
    rw [catchUp_idle stolen hidle, catchUp_idle stolen (he ▸ hidle : (m'.elapse target).1 ≠ true),
      ← hl.now, ← h.now, if_neg hdone, if_neg hdone]
    exact ⟨rfl, hl⟩

theorem advance (h : Like R m m') (cycles : Nat) :
    (m.advance cycles).1 = (m'.advance cycles).1 ∧
      Like R (m.advance cycles).2 (m'.advance cycles).2 := by
  unfold Machine.advance
  rw [← h.now]
  exact h.catchUp s ..

omit [Device δ] s in
theorem trace (h : Like R m m') : Like R m.trace m'.trace := by
  have e : ∀ m : Machine δ, m.trace.cpu = m.cpu ∧ m.trace.scheduler = m.scheduler ∧
      m.trace.bus = m.bus := fun m => by
    unfold Machine.trace; split <;> exact ⟨rfl, rfl, rfl⟩
  obtain ⟨hc, hs, hb⟩ := e m
  obtain ⟨hc', hs', hb'⟩ := e m'
  exact ⟨by rw [hc, hc', h.cpu], by rw [hs, hs', h.scheduler], by rw [hb, hb']; exact h.bus⟩

theorem wakeDma (h : Like R m m') (cost : Nat) : Like R (m.wakeDma cost) (m'.wakeDma cost) := by
  unfold Machine.wakeDma
  rw [← h.scheduler, ← s.pendingWork h.bus]
  split
  · exact ⟨h.cpu, rfl, h.bus⟩
  · exact h

theorem step (h : Like R m m') : m.step.1 = m'.step.1 ∧ Like R m.step.2 m'.step.2 := by
  obtain ⟨cost, cpu, b, b', e, e', hb⟩ := s.step h.bus m.cpu
  have h₁ : Like R { m with cpu, bus := b } { m' with cpu, bus := b' } := ⟨rfl, h.scheduler, hb⟩
  obtain ⟨hs, hl⟩ := (h₁.trace.wakeDma s cost).advance s cost
  unfold Machine.step
  rw [e, ← h.cpu, e']
  exact ⟨congrArg (cost + ·) hs, hl⟩

end Like

end Machine

end Psx
