import Psx.Proofs.Bus.Invariant

/-!
# Gaps between slices

After each slice the processor gets a cycle or more. A chopped transfer has a gap of a power of two,
and every other one the gap of the controller, which is positive at power on whatever the
configuration says. No register holds that gap, so nothing that is done with the board changes it
(`Dma.sliceGap_write`, `Bus.Within.runSlice_paced`); only a loaded state could.
-/

namespace Psx

namespace Dma

theorem Channel.chopGap?_pos {c : Channel} {gap : Nat} (h : c.chopGap? = some gap) : 0 < gap := by
  unfold chopGap? at h
  split at h
  · cases h
    rw [Nat.one_shiftLeft]
    exact Nat.two_pow_pos _
  · cases h

variable (d : Dma)

@[simp] theorem sliceGap_updateMasterFlag : d.updateMasterFlag.2.sliceGap = d.sliceGap := by
  unfold updateMasterFlag
  split <;> rfl

theorem sliceGap_complete (i : Fin 7) : (d.complete i).2.sliceGap = d.sliceGap := by
  unfold complete
  dsimp only
  rw [sliceGap_updateMasterFlag]
  split <;> rfl

theorem sliceGap_write (offset : UInt32) (w : Width) (value : UInt32) :
    (d.write offset w value).2.sliceGap = d.sliceGap := by
  unfold write
  dsimp only
  split
  · split <;> rfl
  · split
    · rfl
    · split
      · exact sliceGap_updateMasterFlag _
      · rfl

end Dma

variable {δ : Type} [Device δ]

namespace Board

/-- The processor gets a cycle or more after each slice. -/
def Paced (b : Board δ) : Prop := 0 < b.dma.sliceGap

omit [Device δ] in
theorem Paced.of_eq {b b' : Board δ} (h : b.Paced) (e : b'.dma.sliceGap = b.dma.sliceGap) :
    b'.Paced := by
  unfold Paced at h ⊢
  rw [e]
  exact h

/-- What is so of the gap of the controller stays so. -/
theorem gap_invariant (P : Nat → Prop) :
    Invariant (δ := δ) (fun _ => True) fun b => P b.dma.sliceGap :=
  dma_invariant (K := fun d => P d.sliceGap) fun h _ _ _ => by rwa [Dma.sliceGap_write]

theorem gap_reset {P : Nat → Prop} {b : Board δ} (h : P b.dma.sliceGap) (p : Part) :
    P (b.reset p).dma.sliceGap := dma_reset (K := fun d => P d.sliceGap) (fun h => h) h p

theorem paced_invariant : Invariant (δ := δ) (fun _ => True) Paced := gap_invariant (0 < ·)

theorem Paced.reset {b : Board δ} (h : b.Paced) (p : Part) : (b.reset p).Paced :=
  gap_reset (P := (0 < ·)) h p

end Board

namespace Bus

variable {b : Bus δ}

/-- A slice moves its words, and then only the controller changes, which keeps its gap. -/
theorem Within.runSlice_cases {parts : Part → Prop} {P : Board δ → Prop}
    (inv : Board.Invariant parts P) (h : b.Within parts P) : b.runSlice = (none, b) ∨
      ∃ (channel : Fin 7) (c : Dma.Channel) (words : Nat) (completed asks : Bool) (dma : Dma)
        (b' : Bus δ), b'.Within parts P ∧ dma.sliceGap = b'.board.dma.sliceGap ∧
          b.runSlice = (some { channel, words, gap := c.chopGap?.getD dma.sliceGap, completed },
            { b' with board := b'.board.withDma asks dma }) := by
  unfold Bus.runSlice
  split
  · exact .inl rfl
  · rename_i channel _
    dsimp only
    split
    · exact .inl rfl
    · rename_i progress _
      have hw := h.moveSlice inv channel (b.board.dma.channel channel) progress
      revert hw
      obtain ⟨words, completed, c, b'⟩ :=
        b.moveSlice channel (b.board.dma.channel channel) progress
      intro hw
      let r := if completed then (b'.board.dma.modify channel fun _ => c).complete channel
        else (false, b'.board.dma.modify channel fun _ => c)
      have hgap : r.2.sliceGap = b'.board.dma.sliceGap := by
        cases completed with
        | true => exact Dma.sliceGap_complete ..
        | false => rfl
      refine .inr ⟨channel, c, words, completed, r.1, r.2, b', hw, hgap, ?_⟩
      rw [hgap]

/-- What depends on the gap alone of the controller is kept by a slice. -/
theorem Within.runSlice_gap {parts : Part → Prop} {P : Board δ → Prop}
    (inv : Board.Invariant parts P) (h : b.Within parts P)
    (withDma : ∀ b : Board δ, P b → ∀ asks dma, dma.sliceGap = b.dma.sliceGap →
      P (b.withDma asks dma)) : b.runSlice.2.Within parts P := by
  rcases h.runSlice_cases inv with e | ⟨channel, c, words, completed, asks, dma, b', hw, hgap, e⟩
  · rw [e]; exact h
  · rw [e]; exact ⟨hw.parts, withDma _ hw.board asks dma hgap⟩

/-- A slice leaves the gap of the controller, and its own gap is a cycle or more. -/
theorem Within.runSlice_paced (h : b.Within (fun _ => True) Board.Paced) :
    b.runSlice.2.Within (fun _ => True) Board.Paced ∧
      ∀ slice, b.runSlice.1 = some slice → 0 < slice.gap := by
  refine ⟨h.runSlice_gap Board.paced_invariant fun _ hb _ _ e => hb.of_eq e, fun slice hs => ?_⟩
  rcases h.runSlice_cases Board.paced_invariant with
    e | ⟨channel, c, words, completed, asks, dma, b', hw, hgap, e⟩
  · rw [e] at hs; cases hs
  · rw [e] at hs
    cases hs
    show 0 < c.chopGap?.getD dma.sliceGap
    cases hc : c.chopGap? with
    | none => exact hgap ▸ hw.board
    | some gap => exact Dma.Channel.chopGap?_pos hc

end Bus

end Psx
