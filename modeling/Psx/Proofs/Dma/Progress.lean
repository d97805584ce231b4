import Mathlib.Tactic.SplitIfs
import Psx.Dma.Transfer

/-!
# Transfers in flight

`Dma.Sound`: whatever is left of a block transfer is left of its current block, so a slice finds at
least one word to move and at least one block to count down. A transfer starts so, since a count of
zero stands for the largest count; a slice keeps it so, since a finished block either begins the
next one or completes the transfer; and writes to the registers only start, abort or leave alone.
-/

namespace Psx.Dma

/-- Something is left to move. -/
def Progress.Sound : Progress → Prop
  | .blocks wordsLeft blocksLeft => 0 < wordsLeft ∧ 0 < blocksLeft
  | .linkedList => True
  | .orderingTable _ => True

instance (p : Progress) : Decidable p.Sound := by
  cases p <;> unfold Progress.Sound <;> infer_instance

def Channel.Sound (c : Channel) : Prop := ∀ p, c.progress = some p → p.Sound

namespace Channel

variable {c c' : Channel}

theorem Sound.of_eq (h : c.Sound) (e : c'.progress = c.progress) : c'.Sound :=
  fun p hp => h p (e ▸ hp)

theorem Sound.of_none (e : c.progress = none) : c.Sound := fun p hp => by rw [e] at hp; cases hp

theorem countOf_pos (n : UInt32) : 0 < countOf n := by
  unfold countOf
  split
  · decide
  · rename_i h
    have : n.toNat ≠ 0 := fun e => h (by simpa using UInt32.toNat_inj.1 e)
    omega

theorem start_sound (c : Channel) : c.start.Sound := by
  intro p hp
  have hsize : 0 < c.blockSize := countOf_pos _
  have hcount : 0 < c.blockCount := countOf_pos _
  simp only [start, Option.some.injEq] at hp
  subst hp
  split
  · trivial
  · split
    · exact ⟨hsize, Nat.one_pos⟩
    · exact ⟨hsize, hcount⟩
    · trivial

theorem finish_sound (c : Channel) : c.finish.Sound := .of_none rfl

theorem Sound.writeControl (h : c.Sound) (value : UInt32) : (c.writeControl value).Sound := by
  unfold Channel.writeControl
  dsimp only
  split_ifs
  · exact .of_none rfl
  · exact h
  · exact start_sound _
  · exact h.of_eq rfl

/-- A slice that does not complete the transfer leaves something to move. -/
theorem Sound.afterChunk (c : Channel) {wordsLeft blocksLeft chunk : Nat} (hb : 0 < blocksLeft)
    (hn : (c.afterChunk wordsLeft blocksLeft chunk).2 = false) :
    (c.afterChunk wordsLeft blocksLeft chunk).1.Sound := by
  unfold Channel.afterChunk at hn ⊢
  dsimp only at hn ⊢
  split_ifs at hn ⊢ with hw
  · intro p hp
    cases hp
    exact ⟨by omega, hb⟩
  all_goals
    intro p hp
    cases hp
    exact ⟨countOf_pos _, by omega⟩

end Channel

/-- Every transfer in flight has something left to move. -/
def Sound (d : Dma) : Prop := ∀ i : Fin 7, (d.channel i).Sound

theorem channel_modify (d : Dma) (i j : Fin 7) (f : Channel → Channel) :
    (d.modify i f).channel j = if i = j then f (d.channel i) else d.channel j := by
  unfold modify channel
  simp only [Fin.getElem_fin, Vector.getElem_set, Fin.ext_iff]

theorem updateMasterFlag_channels (d : Dma) : d.updateMasterFlag.2.channels = d.channels := by
  unfold updateMasterFlag; split <;> rfl

namespace Sound

variable {d d' : Dma}

theorem of_eq (h : d.Sound) (e : d'.channels = d.channels) : d'.Sound := fun i => by
  have := h i
  unfold Dma.channel at this ⊢
  rw [e]; exact this

theorem modify (h : d.Sound) (i : Fin 7) {f : Channel → Channel} (hf : (f (d.channel i)).Sound) :
    (d.modify i f).Sound := fun j => by
  rw [channel_modify]
  split
  · exact hf
  · exact h j

/-- A completed channel is empty, whatever was left in it. -/
theorem complete {i : Fin 7} (h : ∀ j, i ≠ j → (d.channel j).Sound) : (d.complete i).2.Sound := by
  have hm : (d.modify i .finish).Sound := fun j => by
    rw [channel_modify]
    split
    · exact Channel.finish_sound _
    · exact h j ‹_›
  unfold Dma.complete
  refine of_eq ?_ (updateMasterFlag_channels _)
  split
  · exact of_eq hm rfl
  · exact hm

theorem writeInterrupt (h : d.Sound) (value : UInt32) : (d.writeInterrupt value).2.Sound :=
  h.of_eq (updateMasterFlag_channels _)

theorem write (h : d.Sound) (offset : UInt32) (w : Width) (value : UInt32) :
    (d.write offset w value).2.Sound := by
  unfold Dma.write
  dsimp only
  split
  · rename_i i _
    split
    · exact h.modify i ((h i).of_eq rfl)
    · exact h.modify i ((h i).of_eq rfl)
    · exact h.modify i ((h i).writeControl _)
    · exact h
  · split_ifs
    · exact h.of_eq rfl
    · exact h.writeInterrupt _
    · exact h

end Sound

theorem initial_sound (gap : Nat) : (initial gap).Sound := fun i => by
  have h : ∀ i : Fin 7, ((initial 1).channel i).progress = none := by decide
  exact .of_none (h i)

theorem reset_sound (d : Dma) : d.reset.Sound := (initial_sound d.sliceGap).of_eq rfl

end Psx.Dma
