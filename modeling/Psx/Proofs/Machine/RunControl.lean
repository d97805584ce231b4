import Psx.Proofs.Config.Accepted
import Psx.Proofs.Cpu.Costs
import Psx.Proofs.Machine.Standstill

/-!
# Run control

A run goes from one instruction boundary to the next until its condition holds or its budget is
spent, and looks at nothing in between (`Machine.EndsAt`). It is recursive on a fuel that the
session does not have: a run returns if there is an end, whatever the fuel beyond it
(`Machine.EndsAt.runUntil`), and if there is none it has not returned with any fuel
(`Machine.runUntil_never`).

Every step costs at least what an instruction costs, also one that is interrupted or cannot fetch. So
where that is a cycle or more, every run returns, within as many steps as its budget has cycles. A
configuration may say that an instruction costs nothing, and then there are sessions with runs that
never return (`Machine.run_returns_iff`).
-/

namespace Psx

namespace Machine

variable {δ : Type} [Device δ] {s : Surroundings δ} {m : Machine δ} {condition : Machine δ → Bool}
  {budget n k : Nat}

/-! ### Instruction boundaries -/

theorem stepMany_eq (m : Machine δ) (n cycles : Nat) :
    m.stepMany n cycles = (cycles + (m.stepN n).1, (m.stepN n).2) := by
  unfold stepN
  induction n generalizing m cycles with
  | zero => rfl
  | succ n ih =>
    unfold stepMany
    dsimp only
    rw [ih m.step.2, ih m.step.2 (0 + m.step.1), Nat.zero_add, Nat.add_assoc]

theorem stepN_zero (m : Machine δ) : m.stepN 0 = (0, m) := rfl

theorem stepN_add (m : Machine δ) (i j : Nat) :
    m.stepN (i + j) =
      ((m.stepN i).1 + ((m.stepN i).2.stepN j).1, ((m.stepN i).2.stepN j).2) := by
  induction i generalizing m with
  | zero => rw [Nat.zero_add]; exact Prod.ext (Nat.zero_add _).symm rfl
  | succ i ih =>
    have hstep : ∀ n, m.stepN (n + 1) =
        (m.step.1 + (m.step.2.stepN n).1, (m.step.2.stepN n).2) := by
      intro n
      have h : m.stepN (n + 1) = m.step.2.stepMany n (0 + m.step.1) := rfl
      rw [h, stepMany_eq, Nat.zero_add]
    rw [Nat.add_right_comm, hstep, hstep, ih, Nat.add_assoc]

theorem stepN_succ (m : Machine δ) (n : Nat) :
    m.stepN (n + 1) = ((m.stepN n).1 + (m.stepN n).2.step.1, (m.stepN n).2.step.2) := by
  rw [m.stepN_add n 1]
  exact Prod.ext (congrArg ((m.stepN n).1 + ·) (Nat.zero_add _)) rfl

theorem stepN_one (m : Machine δ) : m.stepN 1 = m.step := by
  rw [m.stepN_succ 0, stepN_zero]
  exact Prod.ext (Nat.zero_add _) rfl

/-! ### Where a run ends -/

/-- What a run answers at a boundary: that the condition holds, or else that the budget is spent. -/
def outcomeAt (m : Machine δ) (condition : Machine δ → Bool) (n : Nat) : Outcome :=
  if condition (m.stepN n).2 then .conditionMet (m.stepN n).1 else .budgetExhausted (m.stepN n).1

/-- The boundary is the first at which the condition holds or the budget is spent. -/
structure EndsAt (m : Machine δ) (condition : Machine δ → Bool) (budget n : Nat) : Prop where
  ended : condition (m.stepN n).2 = true ∨ budget ≤ (m.stepN n).1
  running : ∀ k < n, condition (m.stepN k).2 = false ∧ (m.stepN k).1 < budget

theorem endsAt_of_ended (h : condition (m.stepN n).2 = true ∨ budget ≤ (m.stepN n).1) :
    ∃ k ≤ n, m.EndsAt condition budget k := by
  classical
  have hex : ∃ k, condition (m.stepN k).2 = true ∨ budget ≤ (m.stepN k).1 := ⟨n, h⟩
  refine ⟨Nat.find hex, Nat.find_min' hex h, Nat.find_spec hex, fun k hk => ?_⟩
  have hmin := Nat.find_min hex hk
  rw [not_or] at hmin
  exact ⟨Bool.eq_false_iff.2 hmin.1, Nat.lt_of_not_le hmin.2⟩

theorem runFrom_running (h : condition (m.stepN k).2 = false ∧ (m.stepN k).1 < budget)
    (fuel : Nat) :
    runFrom condition budget (fuel + 1) (m.stepN k).2 (m.stepN k).1 =
      runFrom condition budget fuel (m.stepN (k + 1)).2 (m.stepN (k + 1)).1 := by
  rw [stepN_succ]
  exact (if_neg (Bool.eq_false_iff.1 h.1)).trans (if_neg (Nat.not_le.2 h.2))

/-- A run that has come to a boundary goes on to the one where it ends. -/
theorem EndsAt.runFrom (h : m.EndsAt condition budget n) (hk : k ≤ n) {fuel : Nat}
    (hfuel : n < k + fuel) :
    runFrom condition budget fuel (m.stepN k).2 (m.stepN k).1 =
      (some (m.outcomeAt condition n), (m.stepN n).2) := by
  induction fuel generalizing k with
  | zero => omega
  | succ fuel ih =>
    rcases Nat.lt_or_eq_of_le hk with hlt | rfl
    · rw [runFrom_running (h.running k hlt)]
      exact ih hlt (by omega)
    · unfold Machine.runFrom outcomeAt
      by_cases hc : condition (m.stepN k).2 = true
      · rw [if_pos hc, if_pos hc]
      · rw [if_neg hc, if_neg hc, if_pos (h.ended.resolve_left hc)]

theorem EndsAt.runUntil (h : m.EndsAt condition budget n) {fuel : Nat} (hfuel : n < fuel) :
    m.runUntil budget condition fuel = (some (m.outcomeAt condition n), (m.stepN n).2) :=
  h.runFrom (Nat.zero_le n) (by omega)

/-- A run that never comes to its end is still under way, whatever the fuel. -/
theorem runUntil_never (h : ∀ k, condition (m.stepN k).2 = false ∧ (m.stepN k).1 < budget)
    (fuel : Nat) : (m.runUntil budget condition fuel).1 = none := by
  have hfrom : ∀ k, (runFrom condition budget fuel (m.stepN k).2 (m.stepN k).1).1 = none := by
    induction fuel with
    | zero => exact fun k => rfl
    | succ fuel ih =>
      intro k
      rw [runFrom_running (h k)]
      exact ih (k + 1)
  exact hfrom 0

/-! ### Time -/

theorem timing_stepN (m : Machine δ) (n : Nat) : (m.stepN n).2.bus.timing = m.bus.timing := by
  induction n with
  | zero => rfl
  | succ n ih =>
    rw [stepN_succ]
    exact (frame_step (m.stepN n).2).timing.trans ih

theorem le_stepN (m : Machine δ) (n : Nat) :
    n * m.bus.timing.instructionCycles ≤ (m.stepN n).1 := by
  induction n with
  | zero => exact (Nat.zero_mul _).trans_le (Nat.zero_le _)
  | succ n ih =>
    have hstep : m.bus.timing.instructionCycles ≤ (m.stepN n).2.step.1 := by
      rw [← m.timing_stepN n, step_eq]
      exact ((m.stepN n).2.cpu.instructionCycles_le_step _).trans (Nat.le_add_right ..)
    rw [stepN_succ, Nat.succ_mul]
    exact Nat.add_le_add ih hstep

theorem stepN_le (m : Machine δ) (h : k ≤ n) : (m.stepN k).1 ≤ (m.stepN n).1 := by
  obtain ⟨j, rfl⟩ := Nat.exists_eq_add_of_le h
  rw [stepN_add]
  exact Nat.le_add_right ..

namespace Paced

theorem stepN (h : m.Paced) (n : Nat) : (m.stepN n).2.Paced := by
  induction n with
  | zero => exact h
  | succ n ih =>
    rw [stepN_succ]
    exact ih.step

theorem stepN_now (h : m.Paced) (hroom : m.now + (m.stepN n).1 < Scheduler.lastCycle) :
    (m.stepN n).2.now = m.now + (m.stepN n).1 := by
  induction n with
  | zero => rfl
  | succ n ih =>
    rw [stepN_succ] at hroom ⊢
    dsimp only at hroom ⊢
    have hnow := ih (by omega)
    rw [(h.stepN n).step_now (by omega), hnow, Nat.add_assoc]

end Paced

theorem circling_stepN (h : m.Circling) (hfree : m.bus.timing.instructionCycles = 0) (n : Nat) :
    (m.stepN n).2.Circling ∧ (m.stepN n).1 = 0 := by
  induction n with
  | zero => exact ⟨h, rfl⟩
  | succ n ih =>
    obtain ⟨hc, hcost⟩ := ih.1.step
    rw [stepN_succ]
    refine ⟨hc, ?_⟩
    show (m.stepN n).1 + (m.stepN n).2.step.1 = 0
    rw [hcost, m.timing_stepN n, hfree, ih.2]

/-- Where an instruction costs nothing, a session can be brought about in which the clock comes to a
stand. -/
theorem exists_standstill (hf : s.config.Fits) (hfree : s.config.timing.instructionCycles = 0) :
    ∃ m : Machine δ, m.Reachable s ∧ ∀ n, (m.stepN n).1 ≤ (m.stepN 4).1 := by
  obtain ⟨m, hreach, htrapped⟩ := exists_trapped (δ := δ) hf
  refine ⟨m, hreach, fun n => ?_⟩
  have hcircling : (m.stepN 4).2.Circling := by
    rw [m.stepN_succ 3, m.stepN_succ 2, m.stepN_succ 1, m.stepN_succ 0, m.stepN_zero]
    dsimp only
    exact htrapped.circling
  rcases Nat.le_total n 4 with hn | hn
  · exact m.stepN_le hn
  · obtain ⟨j, rfl⟩ := Nat.exists_eq_add_of_le hn
    have htiming : (m.stepN 4).2.bus.timing.instructionCycles = 0 := by
      rw [m.timing_stepN 4, hreach.laid.timing, hfree]
    rw [stepN_add, (circling_stepN hcircling htiming j).2]
    exact Nat.le_refl _

/-- Run control returns from every session of a configuration if and only if an instruction costs
something there. It then returns at the first boundary at which the condition holds or the budget is
spent, after at most as many steps as the budget has cycles; as long as the clock does not run over,
each of these steps comes to an end, and what is answered is by how much the clock has gone on. States
from elsewhere may have been restored before, if they left the session paced. -/
theorem run_returns_iff {text : String} (haccepted : SessionConfig.ofToml text = .ok s.config)
    (ho : ∀ {m data}, m.Reachable s → s.offers m data → (m.restore data).2.Paced) :
    (∀ m : Machine δ, m.Reachable s → ∀ (budget : Nat) (condition : Machine δ → Bool),
      ∃ n ≤ budget,
        (∀ fuel, n < fuel → m.runUntil budget condition fuel =
          (some (if condition (m.stepN n).2 then .conditionMet (m.stepN n).1
            else .budgetExhausted (m.stepN n).1), (m.stepN n).2)) ∧
        m.EndsAt condition budget n ∧
        (m.now + (m.stepN n).1 < Scheduler.lastCycle →
          (m.stepN n).2.now = m.now + (m.stepN n).1 ∧
          ∀ k < n, ∃ rounds, (m.stepN k).2.executed.2.Rounds
            ((m.stepN k).2.now + (m.stepN k).2.executed.1) rounds (m.stepN (k + 1)).2)) ↔
      0 < s.config.timing.instructionCycles := by
  constructor
  · intro hreturns
    by_contra hfree
    obtain ⟨m, hreach, hstill⟩ := exists_standstill (δ := δ)
      (SessionConfig.ofToml_inRange haccepted).2 (Nat.eq_zero_of_not_pos hfree)
    obtain ⟨n, -, -, hend, -⟩ := hreturns m hreach ((m.stepN 4).1 + 1) fun _ => false
    have hspent := hend.ended.resolve_left Bool.false_ne_true
    exact Nat.not_succ_le_self _ (hspent.trans (hstill n))
  · intro hcost m hreach budget condition
    have hspent : budget ≤ (m.stepN budget).1 := by
      rw [← hreach.laid.timing] at hcost
      exact (Nat.le_mul_of_pos_right budget hcost).trans (m.le_stepN budget)
    have hended : condition (m.stepN budget).2 = true ∨ budget ≤ (m.stepN budget).1 := .inr hspent
    obtain ⟨n, hn, hend⟩ := endsAt_of_ended hended
    refine ⟨n, hn, fun fuel hfuel => hend.runUntil hfuel, hend, fun hroom => ?_⟩
    have hp := hreach.paced ho
    refine ⟨hp.stepN_now hroom, fun k hk => ?_⟩
    have hle := m.stepN_le hk
    rw [stepN_succ] at hle ⊢
    dsimp only at hle
    have hnow := hp.stepN_now (n := k) (by omega)
    obtain ⟨rounds, hrounds, -⟩ := (hp.stepN k).step_rounds (by omega)
    exact ⟨rounds, hrounds⟩

/-- The usual session spends a budget of one cycle with its first instruction. -/
theorem run_returns_fresh :
    (SessionConfig.ofToml "" = .ok {} ∧ ∀ {m : Machine Empty} {data}, m.Reachable { config := {} } →
      False → (m.restore data).2.Paced) ∧
    ∀ fuel, 1 < fuel → ((fresh {} : Machine Empty).runUntil 1 (fun _ => false) fuel).1 =
      some (.budgetExhausted 23) := by
  have haccepted : SessionConfig.ofToml "" = .ok {} := by
    unfold SessionConfig.ofToml
    rw [show SessionConfig.ofToml? "" = some {} by decide +kernel]
  refine ⟨⟨haccepted, fun _ h => h.elim⟩, fun fuel hfuel => ?_⟩
  have hr : (fresh {} : Machine Empty).Reachable { config := {} } :=
    reachable_fresh ⟨by decide, by decide⟩
  obtain ⟨n, hn, hreturns, hend, -⟩ := (run_returns_iff (s := { config := {} }) haccepted
    fun _ h => False.elim h).2 (by decide) _ hr 1 fun _ => false
  have hstep : ((fresh {} : Machine Empty).stepN 1).1 = 23 := by
    rw [stepN_one]
    exact step_fresh
  have hone : n = 1 := by
    rcases Nat.le_one_iff_eq_zero_or_eq_one.1 hn with rfl | h
    · have hspent := hend.ended.resolve_left Bool.false_ne_true
      rw [stepN_zero] at hspent
      omega
    · exact h
  subst hone
  rw [hreturns fuel hfuel]
  exact congrArg (fun cycles => some (Outcome.budgetExhausted cycles)) hstep

/-- A configuration in which only accesses cost something is accepted. A session of it has come into
a loop in its cache, and a run that is to spend a cycle more than it took to get there does not
return, however often it goes round. -/
theorem run_never_returns :
    SessionConfig.ofToml "[timing]\ninstruction_cycles = 0\n" =
        .ok { timing := { instructionCycles := 0 } } ∧
      ∃ m : Machine Empty, m.Reachable { config := { timing := { instructionCycles := 0 } } } ∧
        ∀ fuel, (m.runUntil ((m.stepN 4).1 + 1) (fun _ => false) fuel).1 = none := by
  constructor
  · unfold SessionConfig.ofToml
    rw [show SessionConfig.ofToml? "[timing]\ninstruction_cycles = 0\n" =
      some { timing := { instructionCycles := 0 } } by decide +kernel]
  · obtain ⟨m, hreach, hstill⟩ := exists_standstill (δ := Empty)
      (s := { config := { timing := { instructionCycles := 0 } } }) ⟨by decide, by decide⟩ rfl
    exact ⟨m, hreach, runUntil_never fun k => ⟨rfl, Nat.lt_succ_of_le (hstill k)⟩⟩

end Machine

end Psx
