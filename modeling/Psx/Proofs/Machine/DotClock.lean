import Psx.Proofs.Snapshot.Rollback

/-!
# The two copies of the dot clock

The port keeps the horizontal resolution in its status, and the timers keep the length of a dot that
follows from it. The port tells the timers when it is connected and reset, when its resolution is
set, and when its state is loaded; the timers forget what they were told when they are reset, and
their own state brings a length along. In a session the two agree at every boundary
(`Reachable.dividers_agree`): the parts are reset and loaded in an order in which the port comes
behind the timers, and a state that is refused is rolled back in that order as well.

Attached devices could tell the timers anything, as the metronome of `Psx.Proofs.Snapshot.Rollback`
does, so they must not drive the dot clock.
-/

namespace Psx.Machine

variable {δ : Type} [Device δ] {s : Surroundings δ} {m m' : Machine δ}

/-- In every reachable session, after whatever is done with it next, and after every state it is
given, be it accepted or refused, the timers have the length of a dot of the port's resolution. -/
theorem Reachable.dividers_agree (h : m.Reachable s)
    (hd : Device.Discreet δ ∨ ∀ device, ¬s.attaches device)
    (hm : m' = m ∨ (∃ move, m' = m.perform move) ∨ ∃ data, m' = (m.restore data).2) :
    m'.bus.board.lines.timers.dotDivider =
      m'.bus.board.gpu.status.horizontalRes.dotDivider := by
  have hi : m.bus.board.InStep := h.inStep hd
  rcases hm with rfl | ⟨move, rfl⟩ | ⟨data, rfl⟩
  · exact hi
  · exact inStep_perform hi h.laid hd move
  · exact inStep_restore hi h.laid h.fits data

/-- A session is told to show 512 dots: a dot then takes five video clocks, for the port as for the
timers. -/
theorem dividers_agree_wide :
    let s : Surroundings Empty := { config := {} }
    let wide := (fresh {} : Machine Empty).perform (.write 0x1F801814 .word 0x08000002)
    Reachable s (fresh {}) ∧ (∀ device, ¬s.attaches device) ∧
      wide.bus.board.lines.timers.dotDivider = 5 ∧
      wide.bus.board.lines.timers.dotDivider =
        wide.bus.board.gpu.status.horizontalRes.dotDivider := by
  intro s wide
  have h : Reachable s (fresh {}) := reachable_fresh ⟨by decide, by decide⟩
  have hbare : ∀ device, ¬s.attaches device := fun device => device.elim
  exact ⟨h, hbare, rfl, h.dividers_agree (.inr hbare) (.inr (.inl ⟨_, rfl⟩))⟩

end Psx.Machine
