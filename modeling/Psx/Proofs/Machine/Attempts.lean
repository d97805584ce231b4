import Psx.Proofs.Bus.Turns
import Psx.Proofs.Machine.Accounting

/-!
# One attempt after the other

A slice is tried when the slice event is taken in a round of a wait (`Machine.Attempts`). A slice that
leaves work behind makes the event due again, and only a reset or a saved state takes back an event
that is due. `Machine.Follows` says so of the attempts of a run: each happens at the cycle for which
the one before it has made the event due. It goes along with the run (`Follows.append`), whatever is
done to the registers on the way.

`Machine.Awake` is the other half: where a transfer can go on, the event is due. A step brings that
about by itself, since its instruction wakes an event that is not due (`Machine.awake_executed`), and
each of its rounds keeps it (`Paced.awake_round`).
-/

namespace Psx

variable {δ : Type} [Device δ]

/-! ### Time does not reach the controller -/

theorem Board.advance_dma (b : Board δ) (cycles : Nat) (p : Part) :
    (b.advance cycles p).dma = b.dma := by
  cases p with
  | «external» i => unfold advance; dsimp only; split <;> rfl
  | _ => rfl

theorem Bus.advance_dma (b : Bus δ) (cycles : Nat) :
    (b.advance cycles).board.dma = b.board.dma := by
  unfold advance eachPart
  split
  · rfl
  · dsimp only
    rw [← Array.foldl_toList]
    generalize b.board = board
    induction b.table.entries.toList generalizing board with
    | nil => rfl
    | cons e es ih => exact (ih _).trans (board.advance_dma cycles e.part)

namespace Machine

variable {s : Surroundings δ} {m m' m'' : Machine δ} {target : Nat} {xs ys : List (Machine δ)}

/-! ### Where a transfer can go on, the event is due -/

/-- If an enabled channel has a transfer in flight, the slice event is due. -/
def Awake (m : Machine δ) : Prop :=
  m.bus.board.dma.hasPendingWork = true → m.scheduler.isActive dmaEvent = true

omit [Device δ] in
theorem isActive_iff : m.scheduler.isActive dmaEvent = true ↔
    ∃ c, m.scheduler.dueAt? dmaEvent = some c := by
  unfold Scheduler.isActive
  exact Option.isSome_iff_exists

omit [Device δ] in
theorem awake_wakeDma (he : m.scheduler.events.size = 2) (cost : Nat) : (m.wakeDma cost).Awake := by
  intro hpending
  rw [(m.wakeDma_frame cost).1] at hpending
  unfold wakeDma
  rw [hpending, Bool.and_true]
  cases ha : m.scheduler.isActive dmaEvent with
  | true => exact ha
  | false =>
    have hdue := m.scheduler.dueAt?_schedule dmaEvent dmaEvent cost
    rw [if_pos ⟨rfl, he ▸ Nat.zero_lt_two⟩] at hdue
    exact isActive_iff.2 ⟨_, hdue⟩

theorem awake_executed (he : m.scheduler.events.size = 2) : m.executed.2.Awake := by
  refine awake_wakeDma ?_ _
  rw [(trace_frame _).2]
  exact he

/-- After an attempt the event is due again if and only if the slice has left work behind. -/
theorem dueAt?_runDmaSlice (he : m.scheduler.events.size = 2) {slice : Dma.Slice} {b : Bus δ}
    (hr : m.bus.runSlice = (some slice, b)) (hpending : b.board.dma.hasPendingWork = true) :
    m.runDmaSlice.2.scheduler.dueAt? dmaEvent =
      some (max (min (m.now + (slice.words + slice.gap)) Scheduler.lastCycle) m.now) := by
  rw [runDmaSlice_some hr, if_pos hpending]
  exact (m.scheduler.dueAt?_schedule ..).trans (if_pos ⟨rfl, he ▸ Nat.zero_lt_two⟩)

theorem awake_runDmaSlice (he : m.scheduler.events.size = 2) : m.runDmaSlice.2.Awake := by
  intro hpending
  rw [runDmaSlice_bus] at hpending
  rcases hr : m.bus.runSlice with ⟨_ | slice, b⟩
  · obtain ⟨rfl, hidle⟩ := Bus.runSlice_none hr
    rw [hr, hidle] at hpending
    cases hpending
  · rw [hr] at hpending
    exact isActive_iff.2 ⟨_, dueAt?_runDmaSlice he hr hpending⟩

namespace Paced

theorem awake_round (h : m.Paced) (hle : m.now ≤ target) (ha : m.Awake) :
    (m.round target).2.Awake := by
  by_cases hdue : (m.elapse target).1 = true
  · rw [round_of_due hdue]
    exact awake_runDmaSlice (h.elapse target).events
  · intro hpending
    rw [round_of_idle hdue, elapse_bus, Bus.advance_dma] at hpending
    obtain ⟨c, hc⟩ := isActive_iff.1 (ha hpending)
    exact isActive_iff.2 ⟨c, (h.budget_of_idle hle hdue).2.trans hc⟩

end Paced

theorem Rounds.awake {rounds : List Round} (h : m.Rounds target rounds m') (hp : m.Paced)
    (hle : m.now ≤ target) (ha : m.Awake) : m'.Awake := by
  induction h with
  | last _ => exact hp.awake_round hle ha
  | next hmore _ ih =>
    obtain ⟨hp', hnow⟩ := hp.round hle
    exact ih hp' (by omega) (hp.awake_round hle ha)

/-! ### The attempts of a wait -/

/-- The session in which a round takes the slice event, if it does. -/
def attempted (m : Machine δ) (target : Nat) : List (Machine δ) :=
  if (m.elapse target).1 then [(m.elapse target).2] else []

/-- The rounds of a wait, with the sessions in which the slice event was taken. -/
inductive Attempts : Machine δ → Nat → List (Machine δ) → Machine δ → Prop
  | last {m : Machine δ} {target : Nat} : target + (m.round target).1 ≤ m.boundary target →
    Attempts m target (m.attempted target) (m.round target).2
  | next {m m' : Machine δ} {target : Nat} {xs : List (Machine δ)} :
    m.boundary target < target + (m.round target).1 →
    Attempts (m.round target).2 (target + (m.round target).1) xs m' →
    Attempts m target (m.attempted target ++ xs) m'

/-- The attempts are the rounds in which the slice event was taken. -/
theorem Rounds.attempts {rounds : List Round} (h : m.Rounds target rounds m') :
    ∃ xs, m.Attempts target xs m' ∧
      xs.map Machine.now = (rounds.filter (·.served)).map (·.clock) := by
  have hnote : ∀ (m : Machine δ) (target : Nat),
      (m.attempted target).map Machine.now = ([m.note target].filter (·.served)).map (·.clock) := by
    intro m target
    unfold attempted
    cases hdue : (m.elapse target).1 <;> simp [note, hdue]
  induction h with
  | last hend => exact ⟨_, .last hend, hnote ..⟩
  | next hmore _ ih =>
    obtain ⟨xs, hx, hclocks⟩ := ih
    refine ⟨_, .next hmore hx, ?_⟩
    rw [List.map_append, hnote, hclocks, ← List.map_append, ← List.filter_append]
    rfl

theorem Attempts.rounds (h : m.Attempts target xs m') : ∃ rounds, m.Rounds target rounds m' := by
  induction h with
  | last hend => exact ⟨_, .last hend⟩
  | next hmore _ ih =>
    obtain ⟨rounds, hr⟩ := ih
    exact ⟨_, .next hmore hr⟩

theorem Attempts.exists_append (h : m.Attempts target xs m') :
    ∃ ys, xs = m.attempted target ++ ys := by
  cases h with
  | last _ => exact ⟨[], (List.append_nil _).symm⟩
  | next _ _ => exact ⟨_, rfl⟩

/-! ### Each attempt when the event is due -/

/-- Attempts that happen when the slice event is due. It is due at one cycle before them, if at all,
and at another one after them; each slice that leaves work behind makes it due for the next. -/
def Follows : Option Nat → List (Machine δ) → Option Nat → Prop
  | due, [], due' => ∀ c, due = some c → due' = some c
  | due, x :: xs, due' =>
    (∀ c, due = some c → x.now = c) ∧ Follows (x.runDmaSlice.2.scheduler.dueAt? dmaEvent) xs due'

theorem Follows.append {due due' due'' : Option Nat} (h : Follows due xs due')
    (h' : Follows due' ys due'') : Follows due (xs ++ ys) due'' := by
  induction xs generalizing due with
  | nil =>
    cases ys with
    | nil => exact fun c hc => h' c (h c hc)
    | cons y ys => exact ⟨fun c hc => h'.1 c (h c hc), h'.2⟩
  | cons x xs ih => exact ⟨h.1, ih h.2⟩

theorem Follows.of_append {due due' : Option Nat} {pre post : List (Machine δ)} {x : Machine δ}
    (h : Follows due (pre ++ x :: post) due') :
    Follows (x.runDmaSlice.2.scheduler.dueAt? dmaEvent) post due' := by
  induction pre generalizing due with
  | nil => exact h.2
  | cons y pre ih => exact ih h.2

namespace Paced

theorem follows_round (h : m.Paced) (hle : m.now ≤ target) :
    Follows (m.scheduler.dueAt? dmaEvent) (m.attempted target)
      ((m.round target).2.scheduler.dueAt? dmaEvent) := by
  unfold attempted
  by_cases hdue : (m.elapse target).1 = true
  · rw [if_pos hdue, round_of_due hdue, (h.elapse_due_iff hle).1 hdue]
    exact ⟨fun c hc => (h.elapse_now hle).trans (Option.some.inj hc), fun c hc => hc⟩
  · rw [if_neg hdue]
    exact fun c hc => (h.budget_of_idle hle hdue).2.trans hc

/-- An attempt happens at the end of its round. -/
theorem of_mem_attempted (h : m.Paced) (hle : m.now ≤ target) {x : Machine δ}
    (hx : x ∈ m.attempted target) : x.Paced ∧ x.now = (m.round target).2.now := by
  unfold attempted at hx
  split at hx
  · cases List.mem_singleton.1 hx
    exact ⟨h.elapse target, (h.elapse_now hle).trans (h.round hle).2.symm⟩
  · cases hx

/-- A wait that does not run the clock over does not end where the slice event is due. -/
theorem lt_due_round (h : m.Paced) (hle : m.now ≤ target)
    (hend : target + (m.round target).1 ≤ m.boundary target)
    (hroom : (m.round target).2.now < Scheduler.lastCycle) {c : Nat}
    (hc : (m.round target).2.scheduler.dueAt? dmaEvent = some c) : (m.round target).2.now < c := by
  have hb := m.boundary_le target
  have hnow := h.elapse_now hle
  rw [(h.round hle).2] at hroom ⊢
  by_cases hdue : (m.elapse target).1 = true
  · rw [round_of_due hdue] at hend hc
    have hnone : (m.elapse target).2.scheduler.dueAt? dmaEvent = none :=
      (h.dueAt?_elapse hle).trans (if_pos hdue)
    have := (h.elapse target).lt_due_runDmaSlice hnone (by omega) hc
    omega
  · have hc' : m.scheduler.dueAt? dmaEvent = some c := (h.budget_of_idle hle hdue).2.symm.trans hc
    have hne : m.boundary target ≠ c := fun e =>
      hdue ((h.elapse_due_iff hle).2 (hc'.trans (congrArg some e.symm)))
    have hbefore : m.boundary target ≤ c := boundary_le_due hc'
    omega

end Paced

namespace Attempts

theorem follows (h : m.Attempts target xs m') (hp : m.Paced) (hle : m.now ≤ target) :
    Follows (m.scheduler.dueAt? dmaEvent) xs (m'.scheduler.dueAt? dmaEvent) := by
  induction h with
  | last _ => exact hp.follows_round hle
  | next hmore _ ih =>
    obtain ⟨hp', hnow⟩ := hp.round hle
    exact (hp.follows_round hle).append (ih hp' (by omega))

theorem le_now (h : m.Attempts target xs m') (hp : m.Paced) (hle : m.now ≤ target) :
    ∀ x ∈ xs, x.Paced ∧ x.now ≤ m'.now := by
  induction h with
  | last _ => exact fun x hx => (hp.of_mem_attempted hle hx).imp_right (·.le)
  | next hmore hrest ih =>
    obtain ⟨hp', hnow⟩ := hp.round hle
    intro x hx
    rcases List.mem_append.1 hx with hx | hx
    · obtain ⟨rounds, hr⟩ := hrest.rounds
      have hend := hr.elapsed hp' (by omega)
      obtain ⟨hpx, hx⟩ := hp.of_mem_attempted hle hx
      exact ⟨hpx, by omega⟩
    · exact ih hp' (by omega) x hx

theorem lt_due (h : m.Attempts target xs m') (hp : m.Paced) (hle : m.now ≤ target)
    (hroom : m'.now < Scheduler.lastCycle) {c : Nat}
    (hc : m'.scheduler.dueAt? dmaEvent = some c) : m'.now < c := by
  induction h with
  | last hend => exact hp.lt_due_round hle hend hroom hc
  | next hmore _ ih =>
    obtain ⟨hp', hnow⟩ := hp.round hle
    exact ih hp' (by omega) hroom hc

end Attempts

/-! ### The attempts of a run -/

/-- How a session goes on, with the sessions in which the slice event was taken. It steps as long as
the clock does not run over, and in between anything may be done to it except a reset: accesses and
images, tracing, devices attached, other things put in memory and in the registers of the
transfers. -/
inductive Course (m : Machine δ) : List (Machine δ) → Machine δ → Prop
  | start : Course m [] m
  | step {m' : Machine δ} {xs ys : List (Machine δ)} :
    Course m xs m' → m'.now + m'.step.1 < Scheduler.lastCycle →
    m'.executed.2.Attempts (m'.now + m'.executed.1) ys m'.step.2 → Course m (xs ++ ys) m'.step.2
  | perform {m' : Machine δ} {xs : List (Machine δ)} (move : Move) :
    Course m xs m' → move ≠ .step → move ≠ .reset → Course m xs (m'.perform move)
  | attach {m' m'' : Machine δ} {xs : List (Machine δ)} {slot : Slot} {device : δ} {i : Nat} :
    Course m xs m' → m'.plug slot device = .ok (i, m'') → Course m xs m''
  | alter {m' : Machine δ} {xs : List (Machine δ)} (memory : Memory)
    (channels : Vector Dma.Channel 7) (control : UInt32) :
    Course m xs m' → Course m xs (m'.withTransfers memory channels control)

theorem perform_scheduler {move : Move} (hstep : move ≠ .step) (hreset : move ≠ .reset) :
    (m.perform move).scheduler = m.scheduler := by
  cases move with
  | step => exact absurd rfl hstep
  | reset => exact absurd rfl hreset
  | loadBios image =>
    obtain ⟨memory, e⟩ := m.perform_loadBios image
    rw [e]
  | _ => rfl

/-- An instruction does not take back an event that is due. -/
theorem dueAt?_executed {c : Nat} (h : m.scheduler.dueAt? dmaEvent = some c) :
    m.executed.2.scheduler.dueAt? dmaEvent = some c := by
  let m₁ : Machine δ := { m with cpu := (m.cpu.step m.bus).2.1, bus := (m.cpu.step m.bus).2.2 }
  have hs : m₁.trace.scheduler = m.scheduler := m₁.trace_frame.2
  have hactive : m₁.trace.scheduler.isActive dmaEvent = true := by
    rw [hs]
    exact isActive_iff.2 ⟨c, h⟩
  have hsame : m₁.trace.wakeDma m.executed.1 = m₁.trace := by
    unfold wakeDma
    rw [hactive]
    rfl
  show (m₁.trace.wakeDma m.executed.1).scheduler.dueAt? dmaEvent = some c
  rw [hsame, hs]
  exact h

namespace Course

theorem paced (h : m.Course xs m') (hp : m.Paced) : m'.Paced := by
  induction h with
  | start => exact hp
  | step _ _ _ ih => exact ih.step
  | perform move _ _ _ ih => exact ih.perform move
  | attach _ hplug ih => exact ih.plug hplug
  | alter memory channels control _ ih => exact ih.of_eq rfl rfl

/-- What is known of the attempts of a run when it has come to a session: they followed one another,
none is later than the session or than the clock can tell, and if there has been one, the slice event
is not due yet. -/
structure Told (m : Machine δ) (xs : List (Machine δ)) (m' : Machine δ) : Prop where
  follows : Follows (m.scheduler.dueAt? dmaEvent) xs (m'.scheduler.dueAt? dmaEvent)
  paced : ∀ x ∈ xs, x.Paced
  room : ∀ x ∈ xs, x.now < Scheduler.lastCycle
  lt_due : xs ≠ [] → ∀ c, m'.scheduler.dueAt? dmaEvent = some c → m'.now < c

theorem Told.of_eq (h : Told m xs m') (hs : m''.scheduler = m'.scheduler) :
    Told m xs m'' where
  follows := hs ▸ h.follows
  paced := h.paced
  room := h.room
  lt_due := by
    unfold Machine.now
    rw [hs]
    exact h.lt_due

theorem Told.step (h : Told m xs m') (hp : m'.Paced)
    (hroom : m'.now + m'.step.1 < Scheduler.lastCycle)
    (ha : m'.executed.2.Attempts (m'.now + m'.executed.1) ys m'.step.2) :
    Told m (xs ++ ys) m'.step.2 := by
  have hnow := m'.executed_now
  have hle : m'.executed.2.now ≤ m'.now + m'.executed.1 := by omega
  have hend := hp.step_now hroom
  have hys := ha.le_now hp.executed hle
  have hkept : Follows (m'.scheduler.dueAt? dmaEvent) ([] : List (Machine δ))
      (m'.executed.2.scheduler.dueAt? dmaEvent) := fun c hc => dueAt?_executed hc
  refine ⟨h.follows.append (hkept.append (ha.follows hp.executed hle)), fun x hx => ?_,
    fun x hx => ?_, fun _ c hc => ha.lt_due hp.executed hle (by omega) hc⟩
  · exact (List.mem_append.1 hx).elim (h.paced x) fun hx => (hys x hx).1
  · refine (List.mem_append.1 hx).elim (h.room x) fun hx => ?_
    have := (hys x hx).2
    omega

theorem told (h : m.Course xs m') (hp : m.Paced) : Told m xs m' := by
  induction h with
  | start => exact ⟨fun c hc => hc, by simp, by simp, fun h => absurd rfl h⟩
  | step hc hroom ha ih => exact ih.step (hc.paced hp) hroom ha
  | perform move _ hstep hreset ih => exact ih.of_eq (perform_scheduler hstep hreset)
  | attach _ hplug ih =>
    obtain ⟨-, he⟩ := plug_eq hplug
    rw [he]
    exact ih.of_eq rfl
  | alter memory channels control _ ih => exact ih.of_eq rfl

end Course

/-- A started transfer is not forgotten. After a step that does not run the clock over, the slice
event is due if some enabled channel has a transfer in flight. However the session goes on, with no
reset and no saved state: if a slice leaves work behind, the next attempt comes as many cycles later
as the slice has words and gap; and if none has come, the session has not got that far. States from
elsewhere may have been restored before, if they left the session paced. -/
theorem slices_resume
    (ho : ∀ {m data}, m.Reachable s → s.offers m data → (m.restore data).2.Paced)
    (h : m.Reachable s) :
    (m.now + m.step.1 < Scheduler.lastCycle →
      (m.step.2.bus.board.dma.hasPendingWork = true →
        m.step.2.scheduler.isActive dmaEvent = true) ∧
      ∃ xs, m.executed.2.Attempts (m.now + m.executed.1) xs m.step.2) ∧
    ∀ {xs m'}, m.Course xs m' → ∀ {pre x post slice b}, xs = pre ++ x :: post →
      x.bus.runSlice = (some slice, b) → b.board.dma.hasPendingWork = true →
        (∀ y ∈ post.head?, y.now = x.now + slice.words + slice.gap) ∧
        (post = [] → m'.now < x.now + slice.words + slice.gap) := by
  have hp := h.paced ho
  refine ⟨fun hroom => ?_, ?_⟩
  · obtain ⟨rounds, hr, -⟩ := hp.step_rounds hroom
    have hle : m.executed.2.now ≤ m.now + m.executed.1 := by
      rw [executed_now]
      exact Nat.le_add_right ..
    obtain ⟨xs, hx, -⟩ := hr.attempts
    exact ⟨hr.awake hp.executed hle (awake_executed hp.events), xs, hx⟩
  · intro xs m' hcourse pre x post slice b he hr hpending
    subst he
    have ht := hcourse.told hp
    have hx : x ∈ pre ++ x :: post := by simp
    have hfollows := ht.follows.of_append
    rw [dueAt?_runDmaSlice (ht.paced x hx).events hr hpending] at hfollows
    have hroom := ht.room x hx
    cases post with
    | nil =>
      refine ⟨fun y hy => (by cases hy), fun _ => ?_⟩
      have := ht.lt_due (by simp) _ (hfollows _ rfl)
      omega
    | cons y post =>
      refine ⟨fun z hz => ?_, fun hnil => (by cases hnil)⟩
      cases Option.mem_some.1 hz
      have hy := hfollows.1 _ rfl
      have := ht.room y (by simp)
      omega

/-- A list that leads back to itself is tried when the first instruction is over, and then again a
word and sixteen cycles later. -/
theorem slices_resume_looping :
    ((fresh {} : Machine Empty).step.2.bus.board.dma.hasPendingWork = true →
        (fresh {} : Machine Empty).step.2.scheduler.isActive dmaEvent = true) ∧
      ∃ x xs, (fresh {} : Machine Empty).Course (x :: xs) looping.step.2 ∧ x.now = 23 ∧
        (∀ y ∈ xs.head?, y.now = 40) ∧ (xs = [] → looping.step.2.now < 40) := by
  have hr : (fresh {} : Machine Empty).Reachable { config := {} } :=
    reachable_fresh ⟨by decide, by decide⟩
  obtain ⟨hstep, hcourse⟩ := slices_resume (fun _ h => False.elim h) hr
  have hfresh : (fresh {} : Machine Empty).now + (fresh {} : Machine Empty).step.1 <
      Scheduler.lastCycle := by
    rw [step_fresh]
    decide
  refine ⟨(hstep hfresh).1, ?_⟩
  -- the transfer is started, and the session steps
  have hroom : looping.now + looping.step.1 < Scheduler.lastCycle := by
    rw [looping_step]
    decide
  obtain ⟨rounds, hrounds, -⟩ := paced_looping.step_rounds hroom
  obtain ⟨xs, hattempts, -⟩ := hrounds.attempts
  have hrun : (fresh {} : Machine Empty).Course ([] ++ xs) looping.step.2 :=
    .step (.alter _ _ _ .start) hroom hattempts
  -- the first round makes an attempt
  let x := (looping.executed.2.elapse 23).2
  have hcost : looping.now + looping.executed.1 = 23 := by decide +kernel
  have hdue : (looping.executed.2.elapse 23).1 = true := by decide +kernel
  have hx : looping.executed.2.attempted 23 = [x] := if_pos hdue
  rw [hcost] at hattempts
  obtain ⟨ys, rfl⟩ := hattempts.exists_append
  rw [hx] at hrun
  have hnow : x.now = 23 := by decide +kernel
  have hslice : x.bus.runSlice.1 =
      some { channel := 2, words := 1, gap := 16, completed := false } := by decide +kernel
  have hpending : x.bus.runSlice.2.board.dma.hasPendingWork = true := by decide +kernel
  have hnext := hcourse hrun (show x :: ys = [] ++ x :: ys from rfl) (Prod.ext hslice rfl) hpending
  rw [hnow] at hnext
  exact ⟨x, ys, hrun, hnow, hnext⟩

end Machine

end Psx
