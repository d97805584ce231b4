import Psx.Proofs.Snapshot.Allowance
import Psx.Proofs.Snapshot.Rollback

/-!
# What a session takes

Of a state from elsewhere only the sizes of the memories, the names of the devices and the number of
events are looked at. The rest is taken as it is, so that a session is sound after a restore if and
only if the state that it was given is (`Machine.restore_sound_iff`); from then on it stays sound.
-/

namespace Psx

open Snapshot

namespace Machine

variable {δ : Type} [Device δ] {s : Surroundings δ} {m m' : Machine δ} {data : ByteArray}

/-- The session that was built takes back its own snapshot. -/
theorem restore_fresh {config : SessionConfig} (hf : config.Fits) :
    (fresh config : Machine δ).restore (fresh config : Machine δ).snapshot =
      (none, (fresh config : Machine δ).adopt (fresh config)) := by
  rw [restore_snapshot (fits_powerOn hf (fresh_eq config)) (inStep_powerOn (fresh_eq config)) rfl rfl
    Memory.hasSizes_initial rfl, if_pos (claims_fresh hf)]

/-- A session that has been restored is sound if and only if the bytes hold a sound state, and then
whatever is done with it leaves it sound. -/
theorem restore_sound_iff (hm : m.Laid s) (hr : m.restore data = (none, m')) :
    (m'.Sound ↔ ∃ t, Session.decode data = .ok t ∧ t.Sound m.bus.parts) ∧
      (m'.Sound → ∀ moves : List Move, (moves.foldl perform m').Sound) := by
  refine ⟨?_, fun h => h.performAll⟩
  obtain ⟨t, ha, hap⟩ := restore_ok hr
  rw [sound_apply_iff hm ha hap]
  constructor
  · intro h; exact ⟨t, ha.decode, h⟩
  · rintro ⟨t', hd, h⟩
    cases ha.decode.symm.trans hd
    exact h

theorem restore_sound_iff_fresh :
    ((fresh {} : Machine Empty).Laid { config := {} } ∧
      (fresh {} : Machine Empty).restore (fresh {} : Machine Empty).snapshot =
        (none, (fresh {} : Machine Empty).adopt (fresh {}))) ∧
    (((fresh {} : Machine Empty).adopt (fresh {})).Sound ↔
      ∃ t, Session.decode (fresh {} : Machine Empty).snapshot = .ok t ∧
        t.Sound (fresh {} : Machine Empty).bus.parts) := by
  have hf : ({} : SessionConfig).Fits := ⟨by decide, by decide⟩
  have hl : (fresh {} : Machine Empty).Laid { config := {} } := laid_powerOn (fresh_eq {})
  exact ⟨⟨hl, restore_fresh hf⟩, (restore_sound_iff hl (restore_fresh hf)).1⟩

/-- A session with a load in flight to the register that is always zero. -/
def misloading : Machine Empty :=
  { fresh {} with cpu := { Cpu.initial with delayed := some { reg := 0, value := 42 } } }

/-- The snapshot of such a session is restored, and the load is in flight again. -/
theorem restore_unsound :
    (fresh {} : Machine Empty).restore misloading.snapshot =
        (none, (fresh {} : Machine Empty).adopt misloading) ∧
      ¬((fresh {} : Machine Empty).adopt misloading).Sound := by
  have hf : ({} : SessionConfig).Fits := ⟨by decide, by decide⟩
  have hlines : misloading.cpu.cache.lines.size = 1024 := Cpu.sound_initial.lines
  have hfits : misloading.Fits := (fits_powerOn hf (fresh_eq {})).with_cpu hlines
  have hstep : (fresh {} : Machine Empty).bus.board.InStep := inStep_powerOn (fresh_eq {})
  have hclaims : Session.law.claims misloading.capture ≤ allowance :=
    claims_le rfl hfits Memory.hasSizes_initial hlines
      (show Scheduler.law.claims scheduler₀ ≤ 1048576 by decide +kernel) (Nat.zero_le _)
      (show "".toUTF8.size ≤ 524288 by decide)
  refine ⟨?_, fun h => absurd (h.cpu.load _ rfl).1 (by decide)⟩
  rw [restore_snapshot (m := fresh {}) hfits hstep rfl rfl Memory.hasSizes_initial rfl,
    if_pos hclaims]

/-! ### Reachable sessions -/

omit [Device δ] in
theorem Sound.adopt {m₀ : Machine δ} (h : m₀.Sound) : (m.adopt m₀).Sound :=
  ⟨h.cpu, h.events, h.board.of_eq rfl rfl⟩

/-- A session of the core takes a snapshot of another whole, or it is left alone. -/
theorem Reachable.rewind_cases {m₀ : Machine δ} (hs : ∀ device, ¬s.attaches device)
    (h : m.Reachable s) (h₀ : m₀.Reachable s) :
    (m.restore m₀.snapshot).2 = m.adopt m₀ ∨ (m.restore m₀.snapshot).2 = m := by
  have ht : m₀.bus.table = m.bus.table := (h₀.laid.bare hs).trans (h.laid.bare hs).symm
  have hp : m₀.bus.parts = Part.core := Bus.parts_of_table (h₀.laid.bare hs)
  rw [restore_snapshot h₀.fits (h₀.inStep (.inr hs)) ht hp h₀.laid.sizes
    (h₀.laid.events.trans h.laid.events.symm)]
  split
  · exact .inl rfl
  · exact .inr rfl

/-- A session of the core is sound, if it is given no states from elsewhere that are not. -/
theorem Reachable.sound (hs : ∀ device, ¬s.attaches device)
    (ho : ∀ {m data}, m.Reachable s → s.offers m data → (m.restore data).2.Sound)
    (h : m.Reachable s) : m.Sound := by
  induction h with
  | powerOn h _ => exact sound_powerOn h
  | perform move _ _ ih => exact ih.perform move
  | attach slot _ _ hp _ ih => exact ih.plug hp
  | rewind h h₀ _ ih ih₀ =>
    rcases h.rewind_cases hs h₀ with e | e <;> rw [e]
    · exact ih₀.adopt
    · exact ih
  | restore h hd _ _ => exact ho h hd

end Machine

end Psx
