import Psx.Proofs.Dma.Pacing
import Psx.Proofs.Machine.Sound
import Psx.Proofs.Snapshot.Rollback

/-!
# Paced sessions

What the wait behind an instruction relies on (`Machine.Paced`): the two events are there, none of
them is over, and a cycle or more lies between two slices. Every move keeps it, and so does going
back to a snapshot of a session that had it, with whatever devices attached: either the state is
taken whole, or what is left has the scheduler and the controller of before.
-/

namespace Psx

open Snapshot

theorem Bus.map_saveDevices {δ : Type} [Device δ] (b : Bus δ) :
    b.saveDevices.map (·.2) = b.parts.map b.board.save := by
  unfold saveDevices parts
  rw [List.map_map, List.map_map]
  rfl

namespace Machine

variable {δ : Type} [Device δ] {s : Surroundings δ} {m m' : Machine δ}

/-- No event is over, and the processor gets a cycle or more after each slice. -/
structure Paced (m : Machine δ) : Prop where
  events : m.scheduler.events.size = 2
  onTime : m.scheduler.OnTime
  gap : m.bus.board.Paced

namespace Paced

omit [Device δ] in
theorem of_eq (h : m.Paced) (hs : m'.scheduler = m.scheduler)
    (hg : m'.bus.board.dma.sliceGap = m.bus.board.dma.sliceGap) : m'.Paced where
  events := hs ▸ h.events
  onTime := hs ▸ h.onTime
  gap := h.gap.of_eq hg

omit [Device δ] in
theorem within (h : m.Paced) : m.bus.Within (fun _ => True) Board.Paced :=
  ⟨fun _ _ => trivial, h.gap⟩

/-! ### Moves -/

/-- The gap stays a cycle or more, whatever is done. -/
theorem perform_board (h : m.Paced) (move : Move) : (m.perform move).bus.board.Paced :=
  Machine.perform_board Board.paced_invariant (fun _ h => h.runSlice_paced.1)
    (reset_board (fun h p => h.reset p) h.within) h.within move

theorem step (h : m.Paced) : m.step.2.Paced where
  events := (events_step m).trans h.events
  onTime := step_scheduler (P := Scheduler.OnTime) (fun _ i n h => h.schedule i n)
    (fun _ i h => h.deactivate i) (fun _ _ _ => Scheduler.takeDue_onTime _) h.onTime
  gap := h.perform_board .step

theorem reset (h : m.Paced) : m.reset.Paced where
  events := m.scheduler.deactivateAll_size.trans h.events
  onTime := .deactivateAll
  gap := h.perform_board .reset

theorem perform (h : m.Paced) (move : Move) : (m.perform move).Paced := by
  cases move with
  | step => exact h.step
  | read address w => exact ⟨h.events, h.onTime, h.perform_board (.read address w)⟩
  | write address w value => exact ⟨h.events, h.onTime, h.perform_board (.write address w value)⟩
  | loadBios image =>
    obtain ⟨memory, e⟩ := m.perform_loadBios image
    rw [e]
    exact h.of_eq rfl rfl
  | reset => exact h.reset
  | storeBytes | enableTracing | disableTracing => exact h.of_eq rfl rfl

theorem plug (h : m.Paced) {slot : Slot} {device : δ} {i : Nat}
    (hp : m.plug slot device = .ok (i, m')) : m'.Paced := by
  obtain ⟨-, he⟩ := plug_eq hp
  rw [he]
  exact h.of_eq rfl rfl

end Paced

theorem paced_powerOn {config : SessionConfig} {file : Option Bus.BiosFile}
    (h : ofConfig config file = .ok m) : m.Paced := by
  have hs := sound_powerOn h
  obtain ⟨memory, -, rfl⟩ := ofConfig_eq h
  refine ⟨rfl, hs.events, ?_⟩
  show 0 < max config.dma.sliceGapCycles 1
  omega

/-! ### Going back to a snapshot -/

theorem decode_snapshot {m₀ : Machine δ} (hf : m₀.Fits) {t : Session}
    (h : Session.decode m₀.snapshot = .ok t) : t = m₀.capture := by
  unfold snapshot at h
  rw [Session.decode_encode hf.session rfl] at h
  split at h
  · exact (Except.ok.inj h).symm
  · cases h

/-- A session that has taken a snapshot whole has the controller of the session it was taken of. -/
theorem apply_capture_dma {m₀ : Machine δ} (hm : m.Laid s) (hm₀ : m₀.Laid s) (hf₀ : m₀.Fits)
    (hv : m.validate m₀.capture = .ok ()) (h : m.apply m₀.capture = (none, m')) :
    m'.bus.board.dma = m₀.bus.board.dma := by
  obtain ⟨board, he, rfl⟩ := apply_ok hv h
  have hlen := Bus.length_of_validateDevices (validate_iff.1 hv).2.1
  have hsaved := m₀.bus.map_saveDevices
  rw [hm.parts] at he hlen
  rw [hm₀.parts] at hsaved
  change Bus.loadEach m.bus.board m₀.bus.saveDevices _ = _ at he
  obtain ⟨s₀, s₁, s₂, s₃, s₄, s₅, rest, hss, -⟩ := Bus.core_states hlen
  change m₀.bus.saveDevices = _ at hss
  rw [hss] at he hsaved
  have hdma : s₂.2 = Dma.codec.encode m₀.bus.board.dma := by
    injection hsaved with _ hsaved
    injection hsaved with _ hsaved
    injection hsaved
  have hfits : Dma.law.fits m₀.bus.board.dma := hf₀.chips .dma (by rw [hm₀.parts]; simp [Part.core])
  have hexternal : ∀ p ∈ (List.range m.bus.board.externals.size).map Part.external,
      ∃ i, p = .external i := by
    intro p hp
    obtain ⟨i, -, rfl⟩ := List.mem_map.1 hp
    exact ⟨i, rfl⟩
  have hloaded := (Bus.loadEach_core hexternal he).1
  rw [hdma, Dma.law.decode?_encode hfits] at hloaded
  exact (Option.some.inj hloaded).symm

theorem Paced.rewind {m₀ : Machine δ} (h : m.Paced) (hm : m.Laid s) (hf : m.Fits)
    (h₀ : m₀.Paced) (hm₀ : m₀.Laid s) (hf₀ : m₀.Fits) : (m.restore m₀.snapshot).2.Paced := by
  rcases m.restore_cases m₀.snapshot with ⟨-, e, he⟩ | ⟨t, m', ha, hap, he⟩ |
    ⟨t, e, m', ha, hap, he⟩
  · rw [he]
    exact h
  · rw [he]
    cases decode_snapshot hf₀ ha.decode
    have hdma := apply_capture_dma hm hm₀ hf₀ ha.validate hap
    obtain ⟨board, -, rfl⟩ := apply_ok ha.validate hap
    exact h₀.of_eq rfl (congrArg (·.sliceGap) hdma)
  · rw [he]
    obtain ⟨ss, rest, -, hback⟩ := restore_refused hm hf ha hap
    rw [hback]
    exact h.of_eq rfl rfl

/-- A session is paced, if the states from elsewhere that it is given are. -/
theorem Reachable.paced (ho : ∀ {m data}, m.Reachable s → s.offers m data → (m.restore data).2.Paced)
    (h : m.Reachable s) : m.Paced := by
  induction h with
  | powerOn h _ => exact paced_powerOn h
  | perform move _ _ ih => exact ih.perform move
  | attach slot _ _ hp _ ih => exact ih.plug hp
  | rewind h h₀ _ ih ih₀ => exact ih.rewind h.laid h.fits ih₀ h₀.laid h₀.fits
  | restore h hd _ _ => exact ho h hd

end Machine

end Psx
