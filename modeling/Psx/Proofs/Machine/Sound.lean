import Psx.Proofs.Bus.Invariant
import Psx.Proofs.Cpu.Sound
import Psx.Proofs.Machine.Reachable

/-!
# Sound sessions

`Machine.Sound` collects what the steps of a session rely on without looking: a cache of the right
size, a load in flight to a register that exists, events that are not over, transfers with something
left to move, and a beam inside the frame. A session begins so and every move keeps it.

Restoring is where it can be lost. What a session is after it has taken a state from elsewhere is
what that state holds (`Snapshot.Session.Sound`), and nothing in it is looked at but sizes, names and
the number of events.
-/

namespace Psx

namespace Machine

variable {δ : Type} [Device δ]

structure Sound (m : Machine δ) : Prop where
  cpu : m.cpu.Sound
  events : m.scheduler.OnTime
  board : m.bus.board.Sound

variable {s : Surroundings δ} {m m' : Machine δ}

namespace Sound

/-! ### Moves -/

omit [Device δ] in
theorem within (h : m.Sound) : m.bus.Within (fun _ => True) Board.Sound :=
  ⟨fun _ _ => trivial, h.board⟩

/-- What is on the board stays sound, whatever is done. -/
theorem perform_board (h : m.Sound) (move : Move) : (m.perform move).bus.board.Sound :=
  Machine.perform_board Board.sound_invariant (fun _ h => h.runSlice_sound)
    (reset_board (fun h p => h.reset p) h.within) h.within move

theorem step (h : m.Sound) : m.step.2.Sound := by
  refine ⟨?_, ?_, h.perform_board .step⟩
  · have hcpu : ∀ m : Machine δ, m.trace.cpu = m.cpu := fun m => by
      unfold trace; split <;> rfl
    have hwake : ∀ (m : Machine δ) cost, (m.wakeDma cost).cpu = m.cpu := fun m cost => by
      unfold wakeDma; split <;> rfl
    unfold Machine.step
    refine catchUp_keeps (P := fun m => m.cpu.Sound) (fun m target h => ?_) (fun m h => ?_) ?_ _ _ _
    · unfold elapse refreshDeviceEvent
      cases m.bus.untilEvent <;> exact h
    · unfold runDmaSlice
      dsimp only
      split <;> exact h
    · rw [hwake, hcpu]
      exact h.cpu.step m.bus
  · exact step_scheduler (P := Scheduler.OnTime) (fun s i n h => h.schedule i n)
      (fun s i h => h.deactivate i) (fun s c _ => Scheduler.takeDue_onTime _) h.events

theorem reset (h : m.Sound) : m.reset.Sound :=
  ⟨Cpu.sound_initial, .deactivateAll, h.perform_board .reset⟩

theorem perform (h : m.Sound) (move : Move) : (m.perform move).Sound := by
  cases move with
  | step => exact h.step
  | read address w => exact ⟨h.cpu, h.events, h.perform_board (.read address w)⟩
  | write address w value => exact ⟨h.cpu, h.events, h.perform_board (.write address w value)⟩
  | loadBios image =>
    obtain ⟨memory, e⟩ := m.perform_loadBios image
    rw [e]; exact ⟨h.cpu, h.events, h.board⟩
  | reset => exact h.reset
  | storeBytes | enableTracing | disableTracing => exact ⟨h.cpu, h.events, h.board⟩

/-- Whatever is done with a sound session from outside, it stays sound. -/
theorem performAll (h : m.Sound) (moves : List Move) : (moves.foldl Machine.perform m).Sound := by
  induction moves generalizing m with
  | nil => exact h
  | cons move moves ih => exact ih (h.perform move)

end Sound

/-! ### Power on and attaching -/

theorem sound_powerOn {config : SessionConfig} {file : Option Bus.BiosFile}
    (h : ofConfig config file = .ok m) : m.Sound := by
  obtain ⟨memory, -, rfl⟩ := ofConfig_eq h
  refine ⟨Cpu.sound_initial, fun i c hi => ?_, Dma.initial_sound _, Gpu.Beam.inFrame_initial _⟩
  have hnone : ∀ e ∈ scheduler₀.events.toList, e.due = none := by decide
  obtain ⟨e, he, hd⟩ := Scheduler.mem_events_of_dueAt? hi
  rw [hnone e he] at hd; cases hd

theorem Sound.plug (h : m.Sound) {slot : Slot} {device : δ} {i : Nat}
    (hp : m.plug slot device = .ok (i, m')) : m'.Sound := by
  obtain ⟨-, he⟩ := plug_eq hp
  rw [he]
  exact ⟨h.cpu, h.events, h.board.of_eq rfl rfl⟩

end Machine

/-! ### States from elsewhere -/

open Snapshot

/-- The saved state of a part is sound, if it is one at all. -/
def Part.SoundState (data : ByteArray) : Part → Prop
  | .dma => ∀ dma, Dma.codec.decode? data = some dma → dma.Sound
  | .gpu => ∀ gpu, Gpu.codec.decode? data = some gpu → gpu.beam.InFrame
  | _ => True

/-- What the steps of a session rely on, asked of a saved session with the given parts. -/
structure Snapshot.Session.Sound (parts : List Part) (t : Session) : Prop where
  cpu : t.cpu.Sound
  events : t.scheduler.OnTime
  devices : ∀ x ∈ parts.zip t.devices, x.1.SoundState x.2.2

namespace Machine

variable {δ : Type} [Device δ] {s : Surroundings δ} {m m' : Machine δ} {data : ByteArray}
  {t : Session}

/-- A session that has taken a state is as sound as the state. -/
theorem sound_apply_iff (hm : m.Laid s) (ha : m.Admits data t) (h : m.apply t = (none, m')) :
    m'.Sound ↔ t.Sound m.bus.parts := by
  obtain ⟨board, he, rfl⟩ := apply_ok ha.validate h
  have hlen := Bus.length_of_validateDevices (validate_iff.1 ha.validate).2.1
  rw [hm.parts] at he hlen ⊢
  generalize hext : (List.range m.bus.board.externals.size).map Part.external = ext at he hlen
  have hexternal : ∀ p ∈ ext, ∃ i, p = .external i := fun p hp => by
    rw [← hext] at hp
    obtain ⟨i, -, e⟩ := List.mem_map.1 hp
    exact ⟨i, e.symm⟩
  obtain ⟨s₀, s₁, s₂, s₃, s₄, s₅, rest, hss, -⟩ := Bus.core_states hlen
  rw [hss] at he
  obtain ⟨hdma, hgpu, -⟩ := Bus.loadEach_core hexternal he
  have hzip : (Part.core ++ ext).zip ([s₀, s₁, s₂, s₃, s₄, s₅] ++ rest) =
      [(.interrupts, s₀), (.timers, s₁), (.dma, s₂), (.memoryControl, s₃), (.expansion, s₄),
        (.gpu, s₅)] ++ ext.zip rest := rfl
  constructor
  · intro h
    refine ⟨h.cpu, h.events, fun x hx => ?_⟩
    rw [hss, hzip] at hx
    rcases List.mem_append.1 hx with hx | hx
    · simp only [List.mem_cons, List.not_mem_nil, or_false] at hx
      rcases hx with rfl | rfl | rfl | rfl | rfl | rfl
      · trivial
      · trivial
      · intro dma hd
        cases hdma.symm.trans hd
        exact h.board.dma
      · trivial
      · trivial
      · intro gpu hg
        cases hgpu.symm.trans hg
        exact h.board.beam
    · obtain ⟨i, hi⟩ := hexternal x.1 (List.of_mem_zip hx).1
      rw [hi]; trivial
  · intro h
    have hd := h.devices
    rw [hss, hzip] at hd
    exact ⟨h.cpu, h.events, hd (.dma, s₂) (by simp) _ hdma, hd (.gpu, s₅) (by simp) _ hgpu⟩

end Machine

end Psx
