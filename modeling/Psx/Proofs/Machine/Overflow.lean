import Psx.Proofs.Config.Accepted
import Psx.Proofs.Cpu.Costs
import Psx.Proofs.Machine.Counts
import Psx.Proofs.Machine.Slices

/-!
# Sums that run over

A configuration gives its costs and its gap in words, and nothing keeps their sums in words. A slice
moves 0x10000 words at most, and as many slices run in a step as its instruction has cycles and one
more, so the sums of a step are bounded by what an instruction costs and by the gap
(`Machine.sums_le`). With the usual settings they are small, and every step counts in words. A gap as
long as a word can name is accepted all the same, and then a session is over when the first slice of a
transfer leaves something to be moved (`Machine.step_overflows`).
-/

namespace Psx

namespace SessionConfig

/-- What a step costs at most. -/
def mostStep (c : SessionConfig) : Nat :=
  c.timing.mostInstruction + 0x10000 * (c.timing.mostInstruction + 1)

example : mostStep {} = 3014701 := by decide

/-- After how many cycles a slice makes the next one due at most. -/
def mostPause (c : SessionConfig) : Nat := 0x10000 + max c.dma.sliceGapCycles 128

end SessionConfig

theorem AccessCost.InRange.most_lt {c : AccessCost} (h : c.InRange) : c.most < 2 ^ 32 :=
  Nat.max_lt.2 ⟨h.read, h.write⟩

theorem BusTiming.InRange.mostInstruction_lt {t : BusTiming} (h : t.InRange) :
    t.mostInstruction < 3 * 2 ^ 32 := by
  have hbase := h.instructionCycles
  have hram := h.ram.most_lt
  have hscratchpad := h.scratchpad.most_lt
  have hbios := h.bios.most_lt
  have hio := h.io.most_lt
  have hexpansion := h.expansion.most_lt
  unfold mostInstruction mostAccess
  omega

namespace Machine

variable {δ : Type} [Device δ] {s : Surroundings δ} {m : Machine δ} {gap : Nat}

/-! ### Bounds -/

namespace Spaced

theorem pause_le (h : m.Spaced gap) : ∀ n ∈ m.pause, n ≤ 0x10000 + max 128 gap := by
  have hgap := (runSlice_gap h.withinGap).board
  unfold pause
  rcases hr : m.bus.runSlice with ⟨_ | slice, b⟩
  · exact List.forall_mem_nil _
  · obtain ⟨hwords, hle, -⟩ := Bus.runSlice_counts h.regular.channels hr
    rw [hr] at hgap
    dsimp only at hgap ⊢
    rw [hgap] at hle
    split
    · rw [List.forall_mem_singleton]
      exact Nat.add_le_add hwords hle
    · exact List.forall_mem_nil _

/-- A sum of a wait is after how many cycles a slice makes the next one due, or is not more than what
is stolen in the end. -/
theorem waitSums_le (h : m.Spaced gap) (slices target stolen : Nat) :
    ∀ n ∈ m.waitSums slices target stolen,
      n ≤ max (m.catchUp slices target stolen).1 (0x10000 + max 128 gap) := by
  induction m, slices, target, stolen using catchUp_induct with
  | out m target stolen hdue =>
    rw [waitSums_due_zero stolen hdue]
    exact List.forall_mem_nil _
  | last m slices target stolen hdue hend =>
    have hpause := (h.elapse target).pause_le
    rw [waitSums_due_succ stolen hdue, catchUp_due_succ stolen hdue, if_pos hend, if_pos hend,
      List.forall_mem_append, List.forall_mem_singleton]
    exact ⟨fun n hn => (hpause n hn).trans (Nat.le_max_right ..), Nat.le_max_left ..⟩
  | slice m slices target stolen hdue hmore ih =>
    have hpause := (h.elapse target).pause_le
    have hstolen := stolen_le_catchUp (m.elapse target).2.runDmaSlice.2 slices
      (target + (m.elapse target).2.runDmaSlice.1) (stolen + (m.elapse target).2.runDmaSlice.1)
    rw [waitSums_due_succ stolen hdue, catchUp_due_succ stolen hdue, if_neg hmore, if_neg hmore,
      List.forall_mem_append, List.forall_mem_cons]
    exact ⟨fun n hn => (hpause n hn).trans (Nat.le_max_right ..),
      hstolen.trans (Nat.le_max_left ..), ih (h.elapse target).runDmaSlice⟩
  | more m slices target stolen hidle hmore ih =>
    rw [waitSums_idle stolen hidle, catchUp_idle stolen hidle, if_pos hmore, if_pos hmore]
    exact ih (h.elapse target)
  | done m slices target stolen hidle hdone =>
    rw [waitSums_idle stolen hidle, if_neg hdone]
    exact List.forall_mem_nil _

/-- The clock does not run over, whatever the slices of the step find. -/
theorem lt_lastCycle (h : m.Spaced gap) (ht : m.bus.timing.InRange) (hnow : m.now < 2 ^ 62) :
    m.now + m.step.1 < Scheduler.lastCycle := by
  have hcost : m.executed.1 ≤ m.bus.timing.mostInstruction := m.cpu.step_le m.bus
  have hmost := ht.mostInstruction_lt
  refine step_lt_lastCycle h.executed.regular ?_
  unfold sliceAllowance Scheduler.lastCycle
  omega

/-- A step runs a slice for each cycle of its instruction at most, and one more. -/
theorem step_le (h : m.Spaced gap) (hroom : m.now + m.step.1 < Scheduler.lastCycle) :
    m.step.1 ≤ m.bus.timing.mostInstruction + 0x10000 * (m.bus.timing.mostInstruction + 1) := by
  have hcost : m.executed.1 ≤ m.bus.timing.mostInstruction := m.cpu.step_le m.bus
  obtain ⟨rounds, hr, hwords⟩ := h.paced.step_rounds hroom
  have hserved := h.paced.step_served_le hroom hr hwords
  have hsum := hr.words_le h.executed.regular
  omega

end Spaced

theorem executed_le_step (m : Machine δ) : m.executed.1 ≤ m.step.1 := Nat.le_add_right ..

theorem sums_le (h : m.Spaced (max s.config.dma.sliceGapCycles 1))
    (ht : m.bus.timing = s.config.timing) (hr : s.config.timing.InRange) (hnow : m.now < 2 ^ 62) :
    ∀ n ∈ m.sums, n ≤ max s.config.mostStep s.config.mostPause := by
  have hstep := h.step_le (h.lt_lastCycle (ht ▸ hr) hnow)
  have hcost := m.executed_le_step
  have hwait := h.executed.waitSums_le (sliceAllowance m.executed.1) (m.now + m.executed.1) 0
  have hstolen : (m.executed.2.catchUp (sliceAllowance m.executed.1)
      (m.now + m.executed.1) 0).1 ≤ m.step.1 := by
    rw [← m.executed_now]
    exact Nat.le_add_left ..
  have hpause : 0x10000 + max 128 (max s.config.dma.sliceGapCycles 1) ≤ s.config.mostPause := by
    unfold SessionConfig.mostPause
    omega
  rw [ht] at hstep
  change m.step.1 ≤ s.config.mostStep at hstep
  unfold sums
  rw [List.cons_append, List.forall_mem_cons, List.forall_mem_append, List.forall_mem_singleton]
  refine ⟨by omega, fun n hn => ?_, by omega⟩
  have := hwait n hn
  omega

/-! ### Steps that count in words -/

/-- Without a boot image the first step has no result, if an instruction and its fetch cost more than
a word holds. -/
theorem step?_fresh_eq_none {config : SessionConfig}
    (h : 2 ^ 32 ≤ config.timing.instructionCycles + config.timing.bios.read) :
    (fresh config : Machine δ).step? = none := by
  have hcost : (fresh config : Machine δ).executed.1 =
      config.timing.instructionCycles + config.timing.bios.read :=
    (cpu_step_blank (show ({} : InterruptController).pending = false by decide) rfl rfl).1
  rw [step?_eq, if_neg]
  intro hf
  have hlt := hf _ List.mem_cons_self
  omega

/-- A step of a session that can be reached counts in words as long as none of its sums runs over, and
what they come to is bounded by the configuration. States from elsewhere may have been restored before,
if they left the session with the gap of its configuration. -/
theorem step_in_words {text : String} (haccepted : SessionConfig.ofToml text = .ok s.config)
    (ho : ∀ {m data}, m.Reachable s → s.offers m data →
      (m.restore data).2.Spaced (max s.config.dma.sliceGapCycles 1))
    (h : m.Reachable s) (hnow : m.now < 2 ^ 62) :
    (m.step? = some m.step ↔ ∀ n ∈ m.sums, n < 2 ^ 32) ∧
      (m.step? = none ↔ ∃ n ∈ m.sums, 2 ^ 32 ≤ n) ∧
      (∀ n ∈ m.sums, n ≤ max s.config.mostStep s.config.mostPause) ∧
      (max s.config.mostStep s.config.mostPause < 2 ^ 32 → m.step? = some m.step) := by
  obtain ⟨hrange, hfits⟩ := SessionConfig.ofToml_inRange haccepted
  have hle := sums_le (h.spaced hfits.sliceGap ho) h.laid.timing hrange hnow
  have hsome : m.step? = some m.step ↔ Fit m.sums := by
    rw [step?_eq, Option.ite_none_right_eq_some]
    exact and_iff_left rfl
  have hnone : m.step? = none ↔ ¬Fit m.sums := by
    rw [step?_eq, ite_eq_right_iff]
    simp
  refine ⟨hsome, hnone.trans ⟨fun hno => ?_, ?_⟩, hle,
    fun hmost => hsome.2 fun n hn => (hle n hn).trans_lt hmost⟩
  · by_contra hall
    exact hno fun n hn => Nat.lt_of_not_le fun hlarge => hall ⟨n, hn, hlarge⟩
  · rintro ⟨n, hn, hlarge⟩ hfit
    exact Nat.not_lt.2 hlarge (hfit n hn)

/-- The first step of the usual session counts in words. -/
theorem step_in_words_fresh :
    (SessionConfig.ofToml "" = .ok {} ∧
      ∀ {m : Machine Empty} {data}, m.Reachable { config := {} } → False →
        (m.restore data).2.Spaced 16) ∧
    (fresh {} : Machine Empty).now < 2 ^ 62 ∧
    (fresh {} : Machine Empty).step? = some (fresh {} : Machine Empty).step ∧
      (fresh {} : Machine Empty).step.1 = 23 := by
  have haccepted : SessionConfig.ofToml "" = .ok {} := by
    unfold SessionConfig.ofToml
    rw [show SessionConfig.ofToml? "" = some {} by decide +kernel]
  have hnow : (fresh {} : Machine Empty).now < 2 ^ 62 := by decide
  have hr : (fresh {} : Machine Empty).Reachable { config := {} } :=
    reachable_fresh ⟨by decide, by decide⟩
  obtain ⟨-, -, -, hmost⟩ := step_in_words (s := { config := {} }) haccepted
    (fun _ h => False.elim h) hr hnow
  exact ⟨⟨haccepted, fun _ h => h.elim⟩, hnow, hmost (by decide), step_fresh⟩

/-! ### A gap too long -/

/-- A gap with which there is to be no second slice. -/
def longGap : SessionConfig := { dma := { sliceGapCycles := 0xFFFFFFFF } }

/-- Two blocks of a word each are to be moved from the video port to RAM. -/
def moving : Machine Empty :=
  (((fresh longGap).perform (.write 0x1F8010F0 .word 0x800)).perform
    (.write 0x1F8010A4 .word 0x20001)).perform (.write 0x1F8010A8 .word 0x1000200)

/-- Registers of the controller may have been written since the session was built. -/
theorem fits_of_dma {m : Machine Empty} (hd : m.bus.board.dma.Regular)
    (hm : m = { (fresh longGap : Machine Empty) with bus.board.dma := m.bus.board.dma }) :
    m.Fits := by
  generalize m.bus.board.dma = dma at hd hm
  subst hm
  have hconfig : longGap.Fits := ⟨by decide, by decide⟩
  have hcore := Board.fits_ofConfig (δ := Empty) hconfig
  have hchips : ∀ p ∈ Part.core, ({ (fresh longGap : Machine Empty) with
      bus.board.dma := dma }).bus.board.Fits p := by
    intro p hp
    cases p with
    | dma => exact hd.fits
    | _ => exact hcore _ hp
  refine fits_of Cpu.sound_initial.lines Memory.hasSizes_initial scheduler₀_fits hchips
    (show 6 < 256 by decide) fun x hx => ?_
  exact Nat.lt_of_le_of_lt (saveDevices_size_le rfl hchips x hx)
    (show 576 + 0 * 9 + "".toUTF8.size < 256 ^ 8 by decide)

theorem reachable_moving : moving.Reachable { config := longGap } := by
  have hconfig : longGap.Fits := ⟨by decide, by decide⟩
  have h := spaced_powerOn (δ := Empty) hconfig.sliceGap (fresh_eq longGap)
  refine .perform _ (.perform _ (.perform _ (reachable_fresh hconfig) ?_) ?_) ?_
  · exact fits_of_dma (h.perform _).regular rfl
  · exact fits_of_dma ((h.perform _).perform _).regular rfl
  · exact fits_of_dma (((h.perform _).perform _).perform _).regular rfl

/-- The first block is due when the instruction is over. -/
theorem executed_moving : moving.executed = (23, { moving with
    cpu := (Cpu.initial.step moving.bus).2.1
    scheduler := scheduler₀.schedule dmaEvent 23 }) := by
  have hpending : moving.bus.board.lines.interrupts.pending = false := by decide
  obtain ⟨hcost, hbus⟩ := cpu_step_blank hpending rfl rfl
  change (Cpu.initial.step moving.bus).1 = 23 at hcost
  have hwake : (!moving.scheduler.isActive dmaEvent && moving.bus.board.dma.hasPendingWork) =
      true := by decide +kernel
  unfold executed
  rw [show moving.cpu = Cpu.initial from rfl]
  rcases hs : Cpu.initial.step moving.bus with ⟨cost, cpu, bus⟩
  rw [hs] at hcost hbus
  dsimp only at hcost hbus ⊢
  rw [hcost, hbus]
  exact congrArg (Prod.mk 23) (if_pos hwake)

/-- A gap of as many cycles as a word can name is accepted. When the first of two blocks has been
moved the next one would be due after so many cycles and one more, which no word holds. -/
theorem step_overflows :
    SessionConfig.ofToml "[dma]\nslice_gap_cycles = 4294967295\n" = .ok longGap ∧
      ∃ m : Machine Empty, m.Reachable { config := longGap } ∧ m.now = 0 ∧
        2 ^ 32 ∈ m.sums ∧ m.step? = none := by
  constructor
  · unfold SessionConfig.ofToml
    rw [show SessionConfig.ofToml? "[dma]\nslice_gap_cycles = 4294967295\n" = some longGap by
      decide +kernel]
  · have hdue : (moving.executed.2.elapse 23).1 = true := by
      rw [executed_moving]
      decide +kernel
    have hpause : (moving.executed.2.elapse 23).2.pause = [2 ^ 32] := by
      rw [executed_moving]
      decide +kernel
    have hwait : 2 ^ 32 ∈ moving.executed.2.waitSums (22 + 0x100000000 + 1) 23 0 := by
      rw [waitSums_due_succ 0 hdue, hpause]
      exact List.mem_append_left _ List.mem_cons_self
    have hcost : moving.executed.1 = 23 := by rw [executed_moving]
    have hmem : 2 ^ 32 ∈ moving.sums := by
      refine List.mem_append_left _ (List.mem_cons_of_mem _ ?_)
      rw [hcost]
      exact hwait
    refine ⟨moving, reachable_moving, rfl, hmem, ?_⟩
    rw [step?_eq, if_neg]
    exact fun hfit => Nat.lt_irrefl _ (hfit _ hmem)

end Machine

end Psx
