import Mathlib.Data.List.Induction
import Mathlib.Data.List.Pairwise
import Mathlib.Order.Bounds.Basic
import Psx.Proofs.Scheduling

/-!
# Histories of a scheduler

What a scheduler knows is told by the calls that have been made on it, whatever they were. Its clock
stands at the latest cycle that it was sent to (`clock`), and an event is due when its latest
schedule since its registration says, as long as no call has dropped it since (`Stands`): no call
has cancelled it, scheduled it anew, or handed it out. `Scheduler.follows_calls`: that is all, so
that taking the due events neither loses one nor hands one out twice.
-/

namespace Psx.Scheduler

/-- A use of a scheduler. -/
inductive Call where
  | register (name : String)
  | schedule (event cycles : Nat)
  | scheduleAt (event cycle : Nat)
  | deactivate (event : Nat)
  | deactivateAll
  | advanceTo (cycle : Nat)
  | takeDue
deriving DecidableEq, Repr

def call (s : Scheduler) : Call → Scheduler
  | .register name => (s.register name).2
  | .schedule event cycles => s.schedule event cycles
  | .scheduleAt event cycle => s.scheduleAt event cycle
  | .deactivate event => s.deactivate event
  | .deactivateAll => s.deactivateAll
  | .advanceTo cycle => s.advanceTo cycle
  | .takeDue => s.takeDue.2

/-- The scheduler that has seen some calls and no others. -/
def behind (calls : List Call) : Scheduler := calls.foldl call {}

/-! ### What calls tell -/

namespace Call

def isRegister : Call → Bool
  | register _ => true
  | _ => false

/-- The cycle that the clock is sent to. -/
def sentTo? : Call → Option Nat
  | advanceTo cycle => some cycle
  | _ => none

/-- The cycle at which a call makes an event due while the clock stands at `now`: none that is over,
and none past the last one that can be named. -/
def makesDue? (now event : Nat) : Call → Option Nat
  | schedule e cycles => if e = event then some (max now (min (now + cycles) lastCycle)) else none
  | scheduleAt e cycle => if e = event then some (max now cycle) else none
  | _ => none

/-- What a call drops: the event that it cancels or schedules anew, or all events, or those that it
hands out. -/
def drops (event : Nat) (taken : List Nat) : Call → Prop
  | schedule e _ | scheduleAt e _ | deactivate e => e = event
  | deactivateAll => True
  | takeDue => event ∈ taken
  | register _ | advanceTo _ => False

end Call

/-- The latest cycle that the clock was sent to. -/
def clock (calls : List Call) : Nat := (calls.filterMap Call.sentTo?).foldl max 0

def registered (calls : List Call) : Nat := calls.countP Call.isRegister

/-- The latest schedule of a registered event makes it due at a cycle, and no call has dropped it
since. -/
def Stands (calls : List Call) (event due : Nat) : Prop :=
  ∃ before call since, calls = before ++ call :: since ∧ event < registered before ∧
    call.makesDue? (clock before) event = some due ∧
    ∀ meanwhile later rest, since = meanwhile ++ later :: rest →
      ¬later.drops event (behind (before ++ call :: meanwhile)).takeDue.1

/-- What a scheduler is and does, as its calls tell it. -/
structure FollowsCalls (calls : List Call) : Prop where
  now : (behind calls).now = clock calls
  /-- The clock never goes back. -/
  forward : ∀ more, (behind calls).now ≤ (behind (calls ++ more)).now
  due : ∀ event cycle, (behind calls).dueAt? event = some cycle ↔ Stands calls event cycle
  /-- What is taken is what stands and is due by now, -/
  taken : ∀ event, event ∈ (behind calls).takeDue.1 ↔
    ∃ cycle, Stands calls event cycle ∧ cycle ≤ clock calls
  /-- each once, -/
  once : (behind calls).takeDue.1.Nodup
  /-- in the order of the cycles and, at one cycle, of registration. -/
  ordered : (behind calls).takeDue.1.Pairwise fun e f =>
    ∀ c d, Stands calls e c → Stands calls f d → c < d ∨ c = d ∧ e < f
  /-- Nothing else is made idle by that. -/
  left : ∀ event, (behind (calls ++ [.takeDue])).dueAt? event =
    if event ∈ (behind calls).takeDue.1 then none else (behind calls).dueAt? event
  boundary : ∀ limit, IsLeast {n | n = limit ∨ ∃ event, Stands calls event n}
    ((behind calls).nextBoundary limit)

/-! ### One call -/

variable (s : Scheduler)

theorem lt_size_of_dueAt? {s : Scheduler} {i c : Nat} (h : s.dueAt? i = some c) :
    i < s.events.size := by
  obtain ⟨e, he, -⟩ := Option.bind_eq_some_iff.1 h
  exact (Array.getElem?_eq_some_iff.1 he).1

theorem dueAt?_register (name : String) (i : Nat) : (s.register name).2.dueAt? i = s.dueAt? i := by
  unfold register dueAt?
  dsimp only
  rw [Array.getElem?_push]
  split
  · rename_i hi
    rw [hi, Array.getElem?_eq_none (Nat.le_refl _)]
    rfl
  · rfl

theorem now_call (call : Call) : (s.call call).now = (call.sentTo?.elim s.now (max s.now)) := by
  cases call <;> rfl

theorem size_call (call : Call) :
    (s.call call).events.size = s.events.size + if call.isRegister then 1 else 0 := by
  cases call with
  | register name => exact Array.size_push ..
  | scheduleAt event cycle => exact s.setDue_size ..
  | _ => simp [Scheduler.call, Call.isRegister]

/-- An event is due behind a call because the call makes it due, or because it was due before and
the call does not drop it. -/
theorem dueAt?_call (call : Call) (event cycle : Nat) :
    (s.call call).dueAt? event = some cycle ↔
      event < s.events.size ∧ call.makesDue? s.now event = some cycle ∨
      s.dueAt? event = some cycle ∧ ¬call.drops event s.takeDue.1 := by
  have hlt : s.dueAt? event = some cycle → event < s.events.size := lt_size_of_dueAt?
  -- scheduling and dropping one event both set when it is due
  have hset : ∀ i d, (s.setDue i d).dueAt? event = some cycle ↔
      event < s.events.size ∧ i = event ∧ d = some cycle ∨
        s.dueAt? event = some cycle ∧ ¬i = event := fun i d => by
    rw [dueAt?_setDue]
    split
    · rename_i hi
      simp [hi]
    · rename_i hi
      constructor
      · exact fun h => .inr ⟨h, fun he => hi ⟨he, hlt h⟩⟩
      · rintro (⟨hl, he, -⟩ | ⟨h, -⟩)
        · exact absurd ⟨he, hl⟩ hi
        · exact h
  cases call with
  | register name =>
    show (s.register name).2.dueAt? event = some cycle ↔ _
    rw [dueAt?_register]
    simp [Call.makesDue?, Call.drops]
  | schedule e cycles =>
    refine (hset e _).trans ?_
    simp only [Call.makesDue?, Call.drops, Nat.max_comm s.now]
    by_cases he : e = event <;> simp [he]
  | scheduleAt e c =>
    refine (hset e _).trans ?_
    simp only [Call.makesDue?, Call.drops, Nat.max_comm s.now]
    by_cases he : e = event <;> simp [he]
  | deactivate e =>
    refine (hset e _).trans ?_
    simp [Call.makesDue?, Call.drops]
  | deactivateAll =>
    show s.deactivateAll.dueAt? event = some cycle ↔ _
    rw [dueAt?_deactivateAll]
    simp [Call.makesDue?, Call.drops]
  | advanceTo c =>
    show s.dueAt? event = some cycle ↔ _
    simp [Call.makesDue?, Call.drops]
  | takeDue =>
    show s.takeDue.2.dueAt? event = some cycle ↔ _
    rw [dueAt?_takeDue, Option.filter_eq_some_iff]
    simp only [Call.makesDue?, Call.drops, mem_takeDue, reduceCtorEq, and_false, false_or]
    refine and_congr_right fun h => ?_
    rw [h]
    simp

/-! ### The order of taking -/

theorem dueList_ascending : s.dueList.Pairwise fun a b => a.2 < b.2 := by
  have hz : s.events.toList.zipIdx.Pairwise fun a b => a.2 < b.2 := by
    rw [← List.pairwise_map (f := Prod.snd) (R := (· < ·)), List.zipIdx_map_snd]
    exact List.pairwise_lt_range' 1
  refine hz.filterMap _ fun a b hab c hc d hd => ?_
  obtain ⟨e, i⟩ := a
  obtain ⟨e', j⟩ := b
  cases he : e.due with
  | none => simp [he] at hc
  | some due =>
    cases he' : e'.due with
    | none => simp [he'] at hd
    | some due' =>
      simp only [he, he'] at hc hd
      split_ifs at hc hd
      cases hc
      cases hd
      exact hab

/-- The due events as they are taken, with the cycles they are due at. -/
def takeList (s : Scheduler) : List (Nat × Nat) := s.dueList.mergeSort fun a b => a.1 ≤ b.1

theorem mem_takeList {i c : Nat} : (c, i) ∈ s.takeList ↔ s.dueAt? i = some c ∧ c ≤ s.now := by
  rw [takeList, List.mem_mergeSort, mem_dueList]

theorem due_trans (a b c : Nat × Nat) (hab : decide (a.1 ≤ b.1) = true)
    (hbc : decide (b.1 ≤ c.1) = true) : decide (a.1 ≤ c.1) = true :=
  decide_eq_true (Nat.le_trans (of_decide_eq_true hab) (of_decide_eq_true hbc))

theorem due_total (a b : Nat × Nat) : (decide (a.1 ≤ b.1) || decide (b.1 ≤ a.1)) = true := by
  simpa using Nat.le_total a.1 b.1

theorem takeList_sorted : s.takeList.Pairwise fun a b => decide (a.1 ≤ b.1) = true :=
  List.pairwise_mergeSort due_trans due_total _

/-- Of the events that are due at one cycle the sort changes nothing. -/
theorem filter_takeList (cycle : Nat) :
    s.takeList.filter (·.1 = cycle) = s.dueList.filter (·.1 = cycle) := by
  have hequal : (s.dueList.filter (·.1 = cycle)).Pairwise fun a b => decide (a.1 ≤ b.1) = true := by
    refine List.pairwise_of_forall_mem_list fun a ha b hb => ?_
    have ha : a.1 = cycle := by simpa using (List.mem_filter.1 ha).2
    have hb : b.1 = cycle := by simpa using (List.mem_filter.1 hb).2
    exact decide_eq_true (ha.trans hb.symm).le
  have hsub : (s.dueList.filter (·.1 = cycle)).Sublist s.takeList :=
    List.sublist_mergeSort due_trans due_total hequal List.filter_sublist
  have hfilter := hsub.filter (·.1 = cycle)
  rw [List.filter_filter] at hfilter
  simp only [Bool.and_self] at hfilter
  -- both are the same events, so neither has more of them
  exact (hfilter.eq_of_length ((List.mergeSort_perm s.dueList _).filter _).length_eq.symm).symm

theorem takeList_ordered : s.takeList.Pairwise fun a b => a.1 < b.1 ∨ a.1 = b.1 ∧ a.2 < b.2 := by
  rw [List.pairwise_iff_forall_sublist]
  intro a b hab
  have hle : a.1 ≤ b.1 :=
    of_decide_eq_true (List.pairwise_iff_forall_sublist.1 s.takeList_sorted hab)
  rcases Nat.lt_or_eq_of_le hle with hlt | heq
  · exact .inl hlt
  · refine .inr ⟨heq, List.pairwise_iff_forall_sublist.1 s.dueList_ascending ?_⟩
    have hfilter := hab.filter (·.1 = b.1)
    rw [filter_takeList] at hfilter
    simp only [List.filter_cons, heq, decide_true, if_true, List.filter_nil] at hfilter
    exact hfilter.trans List.filter_sublist

theorem takeDue_nodup : s.takeDue.1.Nodup := by
  have hdue : (s.dueList.map Prod.snd).Nodup :=
    (List.pairwise_map.2 s.dueList_ascending).imp fun h => Nat.ne_of_lt h
  exact (((List.mergeSort_perm s.dueList _).map Prod.snd).nodup_iff).2 hdue

/-! ### All calls -/

variable {calls : List Call} {event cycle : Nat}

theorem behind_snoc (calls : List Call) (c : Call) :
    behind (calls ++ [c]) = (behind calls).call c :=
  List.foldl_append ..

theorem clock_snoc (calls : List Call) (c : Call) :
    clock (calls ++ [c]) = c.sentTo?.elim (clock calls) (max (clock calls)) := by
  unfold clock
  rw [List.filterMap_append, List.foldl_append]
  cases c <;> rfl

theorem registered_snoc (calls : List Call) (c : Call) :
    registered (calls ++ [c]) = registered calls + if c.isRegister then 1 else 0 := by
  unfold registered
  rw [List.countP_append, List.countP_singleton]

theorem now_behind (calls : List Call) : (behind calls).now = clock calls := by
  induction calls using List.reverseRecOn with
  | nil => rfl
  | append_singleton calls c ih => rw [behind_snoc, now_call, clock_snoc, ih]

theorem size_behind (calls : List Call) : (behind calls).events.size = registered calls := by
  induction calls using List.reverseRecOn with
  | nil => rfl
  | append_singleton calls c ih => rw [behind_snoc, size_call, registered_snoc, ih]

/-- What stands behind a call is what it makes due, and what stood before and it does not drop. -/
theorem stands_snoc {c : Call} : Stands (calls ++ [c]) event cycle ↔
    event < registered calls ∧ c.makesDue? (clock calls) event = some cycle ∨
    Stands calls event cycle ∧ ¬c.drops event (behind calls).takeDue.1 := by
  constructor
  · rintro ⟨before, made, since, hcalls, hreg, hdue, hkept⟩
    rcases List.eq_nil_or_concat since with rfl | ⟨since, last, rfl⟩
    · obtain ⟨rfl, hlast⟩ := List.append_inj' hcalls rfl
      obtain rfl := List.singleton_inj.1 hlast
      exact .inl ⟨hreg, hdue⟩
    · rw [List.concat_eq_append, ← List.cons_append, ← List.append_assoc] at hcalls
      obtain ⟨rfl, hlast⟩ := List.append_inj' hcalls rfl
      obtain rfl := List.singleton_inj.1 hlast
      refine .inr ⟨⟨before, made, since, rfl, hreg, hdue, fun meanwhile later rest hs => ?_⟩,
        hkept since c [] List.concat_eq_append⟩
      exact hkept meanwhile later (rest ++ [c]) (by rw [List.concat_eq_append, hs]; simp)
  · rintro (⟨hreg, hdue⟩ | ⟨⟨before, made, since, rfl, hreg, hdue, hkept⟩, hc⟩)
    · exact ⟨calls, c, [], rfl, hreg, hdue, by simp⟩
    · refine ⟨before, made, since ++ [c], by simp, hreg, hdue, fun meanwhile later rest hs => ?_⟩
      rcases List.eq_nil_or_concat rest with rfl | ⟨rest, last, rfl⟩
      · obtain ⟨rfl, hlast⟩ := List.append_inj' hs rfl
        obtain rfl := List.singleton_inj.1 hlast
        exact hc
      · rw [List.concat_eq_append, ← List.cons_append, ← List.append_assoc] at hs
        exact hkept meanwhile later rest (List.append_inj' hs rfl).1

/-- An event is due if and when its latest schedule stands. -/
theorem dueAt?_behind (calls : List Call) (event cycle : Nat) :
    (behind calls).dueAt? event = some cycle ↔ Stands calls event cycle := by
  induction calls using List.reverseRecOn with
  | nil =>
    refine iff_of_false (by simp [behind, dueAt?]) ?_
    rintro ⟨before, made, since, hnil, -⟩
    simp at hnil
  | append_singleton calls c ih =>
    rw [behind_snoc, dueAt?_call, stands_snoc, ih, now_behind, size_behind]

theorem now_le_behind (calls more : List Call) :
    (behind calls).now ≤ (behind (calls ++ more)).now := by
  induction more using List.reverseRecOn with
  | nil => rw [List.append_nil]
  | append_singleton more c ih =>
    refine Nat.le_trans ih ?_
    rw [← List.append_assoc, behind_snoc, now_call]
    cases c.sentTo? with
    | none => exact Nat.le_refl _
    | some n => exact Nat.le_max_left ..

/-- A scheduler neither loses an event nor hands one out twice, whatever calls are made on it. -/
theorem follows_calls (calls : List Call) : FollowsCalls calls where
  now := now_behind calls
  forward := now_le_behind calls
  due := dueAt?_behind calls
  taken event := by
    rw [mem_takeDue, now_behind]
    simp only [dueAt?_behind]
  once := takeDue_nodup _
  ordered := by
    show ((behind calls).takeList.map Prod.snd).Pairwise _
    rw [List.pairwise_map]
    refine (takeList_ordered _).imp_of_mem fun {a b} ha hb hab c d hc hd => ?_
    rw [← dueAt?_behind] at hc hd
    have ha := ((behind calls).mem_takeList.1 ha).1
    have hb := ((behind calls).mem_takeList.1 hb).1
    rw [Option.some.inj (hc.symm.trans ha), Option.some.inj (hd.symm.trans hb)]
    exact hab
  left event := by
    rw [behind_snoc]
    show (behind calls).takeDue.2.dueAt? event = _
    rw [dueAt?_takeDue]
    cases hd : (behind calls).dueAt? event with
    | none => simp
    | some c =>
      by_cases hc : c ≤ (behind calls).now <;> simp [mem_takeDue, hd, Option.filter_some, hc]
  boundary limit := by
    refine ⟨?_, fun n hn => ?_⟩
    · rcases (behind calls).nextBoundary_eq_or limit with h | ⟨i, hi⟩
      · exact .inl h
      · exact .inr ⟨i, (dueAt?_behind ..).1 hi⟩
    · rcases hn with rfl | ⟨i, hi⟩
      · exact nextBoundary_le ..
      · exact nextBoundary_le_due _ ((dueAt?_behind ..).2 hi)

end Psx.Scheduler
