import Mathlib.Tactic.SplitIfs
import Psx.Scheduler

/-!
# Due events

What the operations of the scheduler do to `dueAt?`, through which the rest of the library sees the
events. `Scheduler.OnTime`: no event is due before the clock. It holds of a scheduler whose clock
stops at every boundary and whose due events are taken there. `Scheduler.InRange`: none is due past the
last cycle that can be named. The names of the events stay whatever is done
(`Scheduler.names_setDue` and the like), and are all that is left when the events are idle.
-/

namespace Psx.Scheduler

variable (s : Scheduler)

/-- No event is due before the clock. -/
def OnTime : Prop := ∀ i c, s.dueAt? i = some c → s.now ≤ c

/-! ### Setting -/

@[simp] theorem setDue_now (i : Nat) (d : Option Nat) : (s.setDue i d).now = s.now := rfl

@[simp] theorem setDue_size (i : Nat) (d : Option Nat) :
    (s.setDue i d).events.size = s.events.size := by
  simp [setDue]

theorem dueAt?_setDue (i j : Nat) (d : Option Nat) :
    (s.setDue i d).dueAt? j = if i = j ∧ j < s.events.size then d else s.dueAt? j := by
  unfold setDue dueAt?
  rw [Array.getElem?_modify]
  by_cases hj : j < s.events.size
  · by_cases h : i = j <;> simp [h, hj]
  · simp [hj]

@[simp] theorem schedule_now (i n : Nat) : (s.schedule i n).now = s.now := rfl

@[simp] theorem schedule_size (i n : Nat) : (s.schedule i n).events.size = s.events.size := by
  simp [schedule, scheduleAt]

theorem dueAt?_schedule (i j n : Nat) :
    (s.schedule i n).dueAt? j =
      if i = j ∧ j < s.events.size then some (max (min (s.now + n) lastCycle) s.now)
      else s.dueAt? j := dueAt?_setDue ..

@[simp] theorem deactivate_now (i : Nat) : (s.deactivate i).now = s.now := rfl

@[simp] theorem deactivate_size (i : Nat) : (s.deactivate i).events.size = s.events.size := by
  simp [deactivate]

theorem dueAt?_deactivate (i j : Nat) :
    (s.deactivate i).dueAt? j = if i = j ∧ j < s.events.size then none else s.dueAt? j :=
  dueAt?_setDue ..

@[simp] theorem deactivateAll_size : s.deactivateAll.events.size = s.events.size := by
  simp [deactivateAll]

theorem dueAt?_deactivateAll (j : Nat) : s.deactivateAll.dueAt? j = none := by
  unfold deactivateAll dueAt?
  rw [Array.getElem?_map]
  cases s.events[j]? <;> rfl

theorem isActive_eq_false {i : Nat} : s.isActive i = false ↔ s.dueAt? i = none := by
  simp [isActive]

/-! ### The next boundary -/

/-- What a fold of the boundary over some events comes to. -/
theorem foldl_boundary (events : List Event) (limit : Nat) :
    let b := events.foldl (fun b e => e.due.elim b (min b)) limit
    b ≤ limit ∧ (∀ e ∈ events, ∀ c, e.due = some c → b ≤ c) ∧
      (b = limit ∨ ∃ e ∈ events, e.due = some b) := by
  induction events generalizing limit with
  | nil => simp
  | cons e events ih =>
    obtain ⟨hle, hall, hmem⟩ := ih (e.due.elim limit (min limit))
    simp only [List.foldl_cons, List.mem_cons, forall_eq_or_imp, exists_eq_or_imp]
    cases hd : e.due with
    | none =>
      rw [hd] at hle hall hmem
      exact ⟨hle, ⟨by simp, hall⟩, hmem.imp_right .inr⟩
    | some c =>
      rw [hd] at hle hall hmem
      simp only [Option.elim_some] at hle hall hmem ⊢
      refine ⟨by omega, ⟨fun c' hc => by cases hc; omega, hall⟩, ?_⟩
      rcases hmem with hm | hm
      · rcases Nat.le_total limit c with h | h
        · exact .inl (by omega)
        · exact .inr (.inl (by rw [hm, Nat.min_eq_right h]))
      · exact .inr (.inr hm)

theorem nextBoundary_eq (limit : Nat) : s.nextBoundary limit =
    s.events.toList.foldl (fun b e => e.due.elim b (min b)) limit := by
  rw [nextBoundary, ← Array.foldl_toList]

theorem nextBoundary_le (limit : Nat) : s.nextBoundary limit ≤ limit := by
  rw [nextBoundary_eq]; exact (foldl_boundary _ _).1

theorem mem_events_of_dueAt? {s : Scheduler} {i c : Nat} (h : s.dueAt? i = some c) :
    ∃ e ∈ s.events.toList, e.due = some c := by
  obtain ⟨e, he, hd⟩ := Option.bind_eq_some_iff.1 h
  exact ⟨e, Array.mem_toList_iff.2 (Array.mem_of_getElem? he), hd⟩

theorem nextBoundary_le_due {limit i c : Nat} (h : s.dueAt? i = some c) :
    s.nextBoundary limit ≤ c := by
  obtain ⟨e, he, hd⟩ := mem_events_of_dueAt? h
  rw [nextBoundary_eq]; exact (foldl_boundary _ _).2.1 e he c hd

/-- The boundary is the limit or an event is due at it. -/
theorem nextBoundary_eq_or (limit : Nat) :
    s.nextBoundary limit = limit ∨ ∃ i, s.dueAt? i = some (s.nextBoundary limit) := by
  rcases (foldl_boundary s.events.toList limit).2.2 with h | ⟨e, he, hd⟩
  · exact .inl (by rw [nextBoundary_eq]; exact h)
  · obtain ⟨i, hi⟩ := List.getElem?_of_mem he
    refine .inr ⟨i, ?_⟩
    rw [nextBoundary_eq, dueAt?, ← Array.getElem?_toList, hi]
    exact hd

theorem OnTime.le_nextBoundary {s : Scheduler} (h : s.OnTime) {limit : Nat} (hl : s.now ≤ limit) :
    s.now ≤ s.nextBoundary limit := by
  rcases s.nextBoundary_eq_or limit with e | ⟨i, hi⟩
  · rw [e]; exact hl
  · exact h i _ hi

/-! ### Taking -/

theorem mem_dueList {i c : Nat} : (c, i) ∈ s.dueList ↔ s.dueAt? i = some c ∧ c ≤ s.now := by
  unfold dueList dueAt?
  rw [List.mem_filterMap]
  constructor
  · rintro ⟨⟨e, j⟩, hm, h⟩
    rw [List.mk_mem_zipIdx_iff_getElem?, Array.getElem?_toList] at hm
    cases hd : e.due with
    | none => simp [hd] at h
    | some due =>
      simp only [hd] at h
      split_ifs at h with hle
      cases h
      exact ⟨by rw [hm]; exact hd, hle⟩
  · rintro ⟨h, hle⟩
    obtain ⟨e, he, hd⟩ := Option.bind_eq_some_iff.1 h
    refine ⟨(e, i), ?_, by simp [hd, hle]⟩
    rw [List.mk_mem_zipIdx_iff_getElem?, Array.getElem?_toList]; exact he

theorem mem_takeDue {i : Nat} : i ∈ s.takeDue.1 ↔ ∃ c, s.dueAt? i = some c ∧ c ≤ s.now := by
  unfold takeDue
  simp only [List.mem_map, List.mem_mergeSort, Prod.exists, mem_dueList]
  exact ⟨fun ⟨c, j, h, e⟩ => ⟨c, e ▸ h⟩, fun ⟨c, h⟩ => ⟨c, i, h, rfl⟩⟩

@[simp] theorem takeDue_now : s.takeDue.2.now = s.now := rfl

@[simp] theorem takeDue_size : s.takeDue.2.events.size = s.events.size := by
  simp [takeDue]

theorem dueAt?_takeDue (i : Nat) :
    s.takeDue.2.dueAt? i = (s.dueAt? i).filter fun c => decide (s.now < c) := by
  unfold takeDue dueAt?
  rw [Array.getElem?_map]
  cases s.events[i]? with
  | none => rfl
  | some e =>
    cases hd : e.due with
    | none => simp [Event.isDue, hd]
    | some c =>
      by_cases hc : c ≤ s.now
      · simp [Event.isDue, hd, hc, Option.filter_some]
      · simp [Event.isDue, hd, hc, Option.filter_some]

@[simp] theorem advanceTo_size (c : Nat) : (s.advanceTo c).events.size = s.events.size := rfl

@[simp] theorem dueAt?_advanceTo (c i : Nat) : (s.advanceTo c).dueAt? i = s.dueAt? i := rfl

/-- Wherever the clock goes, the events that are left are due later. -/
theorem takeDue_onTime : s.takeDue.2.OnTime := by
  intro i c h
  rw [dueAt?_takeDue, Option.filter_eq_some_iff] at h
  exact Nat.le_of_lt (by simpa using h.2)

namespace OnTime

variable {s : Scheduler}

theorem setDue (h : s.OnTime) {i : Nat} {d : Option Nat} (hd : ∀ c, d = some c → s.now ≤ c) :
    (s.setDue i d).OnTime := by
  intro j c hj
  rw [dueAt?_setDue] at hj
  split_ifs at hj
  · exact hd c hj
  · exact h j c hj

theorem schedule (h : s.OnTime) (i n : Nat) : (s.schedule i n).OnTime :=
  h.setDue fun c hc => by cases hc; exact Nat.le_max_right ..

theorem deactivate (h : s.OnTime) (i : Nat) : (s.deactivate i).OnTime :=
  h.setDue fun c hc => by cases hc

theorem deactivateAll : s.deactivateAll.OnTime := fun i c h => by
  rw [dueAt?_deactivateAll] at h; cases h

end OnTime

/-! ### The range of the clock -/

/-- No event is due past the range of the clock, unless the clock is past it. -/
def InRange : Prop := ∀ i c, s.dueAt? i = some c → c ≤ max s.now lastCycle

namespace InRange

variable {s : Scheduler}

theorem schedule (h : s.InRange) (i n : Nat) : (s.schedule i n).InRange := by
  intro j c hc
  rw [dueAt?_schedule] at hc
  rw [schedule_now]
  split at hc
  · cases hc
    omega
  · exact h j c hc

theorem deactivate (h : s.InRange) (i : Nat) : (s.deactivate i).InRange := by
  intro j c hc
  rw [dueAt?_deactivate] at hc
  split at hc
  · cases hc
  · exact h j c hc

theorem take (h : s.InRange) (cycle : Nat) : (s.advanceTo cycle).takeDue.2.InRange := by
  intro i c hc
  rw [dueAt?_takeDue, Option.filter_eq_some_iff] at hc
  have hle := h i c hc.1
  have hnow : s.now ≤ (s.advanceTo cycle).takeDue.2.now := Nat.le_max_left ..
  omega

end InRange

/-! ### Names -/

/-- The names of the events, in the order of their registration. -/
def names : Array String := s.events.map (·.name)

@[simp] theorem names_setDue (i : Nat) (d : Option Nat) : (s.setDue i d).names = s.names := by
  refine Array.ext_getElem? fun j => ?_
  simp only [names, setDue, Array.getElem?_map, Array.getElem?_modify]
  by_cases h : i = j
  · subst h
    cases s.events[i]? <;> simp
  · simp only [if_neg h]

theorem names_takeDue : s.takeDue.2.names = s.names := by
  show (s.events.map _).map _ = s.events.map _
  rw [Array.map_map]
  refine Array.map_congr_left fun e _ => ?_
  show (if e.isDue s.now then { e with due := none } else e : Event).name = e.name
  split <;> rfl

theorem names_deactivateAll : s.deactivateAll.names = s.names := by
  show (s.events.map _).map _ = s.events.map _
  rw [Array.map_map]
  rfl

/-- With all events idle only their names and the clock are left. -/
theorem deactivateAll_eq : s.deactivateAll =
    { now := s.now, events := s.names.map fun name => { name } } := by
  refine congrArg (Scheduler.mk s.now) ?_
  rw [names, Array.map_map]
  rfl

end Psx.Scheduler
