import Psx.Machine.Counts
import Psx.Proofs.Machine.Accounting

/-!
# Which sums a step takes

`Machine.sums` lists the sums of a step in the order in which they are taken. A step that counts in
words has a result if all of them fit, and that is then the result of the step that adds without a
bound (`Machine.step?_eq`). What a run answers that counts in words is therefore what the run
without a bound answers (`Machine.runFrom_of_runFrom?`).
-/

namespace Psx

/-- The numbers are words. -/
def Fit (sums : List Nat) : Prop := ∀ n ∈ sums, n < 0x100000000

instance (sums : List Nat) : Decidable (Fit sums) :=
  inferInstanceAs (Decidable (∀ n ∈ sums, n < 0x100000000))

@[simp] theorem fit_nil : Fit [] := List.forall_mem_nil _

@[simp] theorem fit_cons {n : Nat} {sums : List Nat} :
    Fit (n :: sums) ↔ n < 0x100000000 ∧ Fit sums := List.forall_mem_cons

@[simp] theorem fit_append {sums sums' : List Nat} :
    Fit (sums ++ sums') ↔ Fit sums ∧ Fit sums' := List.forall_mem_append

variable {δ : Type} [Device δ]

theorem Cpu.step?_eq (c : Cpu) (bus : Bus δ) :
    c.step? bus = if Fit [(c.step bus).1] then some (c.step bus) else none := by
  unfold step? counted?
  simp only [fit_cons, fit_nil, and_true]
  split <;> rfl

namespace Machine

variable {m : Machine δ} {target stolen : Nat}

/-! ### Sums of a wait -/

/-- After how many cycles the slice that a session runs makes the next one due, if it does. -/
def pause (m : Machine δ) : List Nat :=
  match m.bus.runSlice with
  | (some slice, bus) =>
    if bus.board.dma.hasPendingWork then [slice.words + slice.gap] else []
  | (none, _) => []

/-- The sums of a wait: for each slice after how many cycles it makes the next one due, and what the
slices have stolen then. -/
def waitSums (m : Machine δ) (slices target stolen : Nat) : List Nat :=
  let r := m.elapse target
  if r.1 then
    match slices with
    | 0 => []
    | slices + 1 =>
      let s := r.2.runDmaSlice
      r.2.pause ++ (stolen + s.1) ::
        if target + s.1 ≤ r.2.now then []
        else s.2.waitSums slices (target + s.1) (stolen + s.1)
  else if _h : m.now < r.2.now ∧ r.2.now < target then r.2.waitSums slices target stolen
  else []
termination_by (slices, target - m.now)
decreasing_by
  · exact Prod.Lex.left _ _ (Nat.lt_succ_self _)
  · exact Prod.Lex.right _ (by simp only [r] at _h; omega)

/-- The sums of a step: what the instruction costs, those of the wait, and what the step costs. -/
def sums (m : Machine δ) : List Nat :=
  m.executed.1 :: m.executed.2.waitSums (sliceAllowance m.executed.1) (m.now + m.executed.1) 0 ++
    [m.step.1]

section

variable (stolen)

theorem waitSums_due_zero (h : (m.elapse target).1 = true) : m.waitSums 0 target stolen = [] := by
  rw [waitSums.eq_def]; dsimp only; rw [if_pos h]

theorem waitSums_due_succ (h : (m.elapse target).1 = true) (slices : Nat) :
    m.waitSums (slices + 1) target stolen =
      (m.elapse target).2.pause ++ (stolen + (m.elapse target).2.runDmaSlice.1) ::
        if target + (m.elapse target).2.runDmaSlice.1 ≤ (m.elapse target).2.now then []
        else (m.elapse target).2.runDmaSlice.2.waitSums slices
          (target + (m.elapse target).2.runDmaSlice.1)
          (stolen + (m.elapse target).2.runDmaSlice.1) := by
  rw [waitSums.eq_def]; dsimp only; rw [if_pos h]

theorem waitSums_idle (h : (m.elapse target).1 ≠ true) (slices : Nat) :
    m.waitSums slices target stolen =
      if m.now < (m.elapse target).2.now ∧ (m.elapse target).2.now < target then
        (m.elapse target).2.waitSums slices target stolen
      else [] := by
  rw [waitSums.eq_def]; dsimp only; rw [if_neg h, dite_eq_ite]

theorem catchUp?_due_zero (h : (m.elapse target).1 = true) :
    m.catchUp? 0 target stolen = some (stolen, (m.elapse target).2) := by
  rw [catchUp?.eq_def]; dsimp only; rw [if_pos h]

theorem catchUp?_due_succ (h : (m.elapse target).1 = true) (slices : Nat) :
    m.catchUp? (slices + 1) target stolen = (m.elapse target).2.runDmaSlice?.bind fun s =>
      (counted? (stolen + s.1)).bind fun stolen =>
        if target + s.1 ≤ (m.elapse target).2.now then some (stolen, s.2)
        else s.2.catchUp? slices (target + s.1) stolen := by
  rw [catchUp?.eq_def]; dsimp only; rw [if_pos h]; rfl

theorem catchUp?_idle (h : (m.elapse target).1 ≠ true) (slices : Nat) :
    m.catchUp? slices target stolen =
      if m.now < (m.elapse target).2.now ∧ (m.elapse target).2.now < target then
        (m.elapse target).2.catchUp? slices target stolen
      else some (stolen, (m.elapse target).2) := by
  rw [catchUp?.eq_def]; dsimp only; rw [if_neg h, dite_eq_ite]

end

/-! ### What is counted in words -/

theorem runDmaSlice?_eq (m : Machine δ) :
    m.runDmaSlice? = if Fit m.pause then some m.runDmaSlice else none := by
  unfold runDmaSlice? pause counted?
  rcases hr : m.bus.runSlice with ⟨_ | slice, b⟩
  · rw [runDmaSlice_none hr]
    rfl
  · rw [runDmaSlice_some hr]
    dsimp only
    by_cases hpending : b.board.dma.hasPendingWork = true
    · simp only [if_pos hpending, fit_cons, fit_nil, and_true]
      split <;> rfl
    · simp only [if_neg hpending]
      rfl

/-- A part of a step that counts in words has a result if its sums fit. -/
theorem bind_fit {α β : Type} {l l' : List Nat} {a : α} {f : α → Option β} {b : β}
    (h : f a = if Fit l' then some b else none) :
    (if Fit l then some a else none).bind f = if Fit (l ++ l') then some b else none := by
  by_cases hl : Fit l
  · rw [if_pos hl, Option.bind_some, h]
    simp only [fit_append, hl, true_and]
  · rw [if_neg hl, Option.bind_none, if_neg fun hf => hl (fit_append.1 hf).1]

theorem bind_counted {β : Type} {n : Nat} {l : List Nat} {f : Nat → Option β} {b : β}
    (h : f n = if Fit l then some b else none) :
    (counted? n).bind f = if Fit (n :: l) then some b else none := by
  rw [← List.singleton_append, ← bind_fit h]
  unfold counted?
  simp only [fit_cons, fit_nil, and_true]

theorem catchUp?_eq (m : Machine δ) (slices target stolen : Nat) :
    m.catchUp? slices target stolen =
      if Fit (m.waitSums slices target stolen) then some (m.catchUp slices target stolen)
      else none := by
  induction m, slices, target, stolen using catchUp_induct with
  | out m target stolen hdue =>
    rw [catchUp?_due_zero stolen hdue, waitSums_due_zero stolen hdue, catchUp_due_zero stolen hdue,
      if_pos fit_nil]
  | last m slices target stolen hdue hend =>
    rw [catchUp?_due_succ stolen hdue, waitSums_due_succ stolen hdue, catchUp_due_succ stolen hdue,
      if_pos hend, if_pos hend, runDmaSlice?_eq]
    refine bind_fit (bind_counted ?_)
    rw [if_pos hend, if_pos fit_nil]
  | slice m slices target stolen hdue hmore ih =>
    rw [catchUp?_due_succ stolen hdue, waitSums_due_succ stolen hdue, catchUp_due_succ stolen hdue,
      if_neg hmore, if_neg hmore, runDmaSlice?_eq]
    refine bind_fit (bind_counted ?_)
    rw [if_neg hmore, ih]
  | more m slices target stolen hidle hmore ih =>
    rw [catchUp?_idle stolen hidle, waitSums_idle stolen hidle, catchUp_idle stolen hidle,
      if_pos hmore, if_pos hmore, if_pos hmore, ih]
  | done m slices target stolen hidle hdone =>
    rw [catchUp?_idle stolen hidle, waitSums_idle stolen hidle, catchUp_idle stolen hidle,
      if_neg hdone, if_neg hdone, if_neg hdone, if_pos fit_nil]

theorem step?_eq (m : Machine δ) : m.step? = if Fit m.sums then some m.step else none := by
  have hsums : m.sums = m.executed.1 :: (m.executed.2.waitSums (sliceAllowance m.executed.1)
      (m.executed.2.now + m.executed.1) 0 ++ [m.step.1]) := by
    rw [executed_now]
    rfl
  have hstep : m.step? = (m.cpu.step? m.bus).bind fun r =>
      let m' := ({ m with cpu := r.2.1, bus := r.2.2 } : Machine δ).trace.wakeDma r.1
      (m'.catchUp? (sliceAllowance r.1) (m'.now + r.1) 0).bind fun s =>
        (counted? (r.1 + s.1)).bind fun cycles => some (cycles, s.2) := rfl
  rw [hstep, hsums, Cpu.step?_eq]
  refine bind_fit (l := [_]) ?_
  change (m.executed.2.catchUp? (sliceAllowance m.executed.1)
    (m.executed.2.now + m.executed.1) 0).bind _ = _
  rw [catchUp?_eq]
  exact bind_fit (bind_counted (if_pos fit_nil).symm)

theorem step_of_step? {r : Nat × Machine δ} (h : m.step? = some r) : m.step = r := by
  rw [step?_eq] at h
  split at h
  · exact Option.some.inj h
  · cases h

/-! ### Runs that count in words -/

theorem stepMany_of_stepMany? {n cycles : Nat} {r : Nat × Machine δ}
    (h : m.stepMany? n cycles = some r) : m.stepMany n cycles = r := by
  induction n generalizing m cycles with
  | zero => exact Option.some.inj h
  | succ n ih =>
    obtain ⟨⟨cost, m'⟩, hstep, hrest⟩ := Option.bind_eq_some_iff.1 h
    rw [stepMany, step_of_step? hstep]
    exact ih hrest

theorem runFrom_of_runFrom? {condition : Machine δ → Bool} {budget fuel cycles : Nat}
    {r : Option Outcome × Machine δ} (h : runFrom? condition budget fuel m cycles = some r) :
    runFrom condition budget fuel m cycles = r := by
  induction fuel generalizing m cycles with
  | zero => exact Option.some.inj h
  | succ fuel ih =>
    unfold runFrom? at h
    unfold runFrom
    split at h
    · rename_i hc
      rw [if_pos hc]
      exact Option.some.inj h
    rename_i hc
    rw [if_neg hc]
    split at h
    · rename_i hspent
      rw [if_pos hspent]
      exact Option.some.inj h
    rename_i hspent
    obtain ⟨⟨cost, m'⟩, hstep, hrest⟩ := Option.bind_eq_some_iff.1 h
    rw [if_neg hspent, step_of_step? hstep]
    exact ih hrest

end Machine

end Psx
