import Psx.Dma.Transfer
import Psx.Proofs.Bus.Simulation

/-!
# What a DMA slice sees of the bus

A slice reads and writes RAM and hands words to and from the device that serves its channel. Buses
that answer all of these alike move a slice alike (`Mover.moveSlice`).
-/

namespace Psx.Bus

variable {δ : Type} [Device δ]

/-- Related buses hand words to and from devices alike. -/
structure Mover (R : Bus δ → Bus δ → Prop) : Prop extends Simulation R where
  consume : ∀ {a b}, R a b → ∀ channel word,
    R (a.dmaConsume channel word) (b.dmaConsume channel word)
  produce : ∀ {a b}, R a b → ∀ channel,
    (a.dmaProduce channel).1 = (b.dmaProduce channel).1 ∧
      R (a.dmaProduce channel).2 (b.dmaProduce channel).2

theorem Mover.of_kept {P : Bus δ → Prop}
    (read : ∀ b, P b → ∀ address w, P (b.read address w).2)
    (write : ∀ b, P b → ∀ address w value, P (b.write address w value))
    (consume : ∀ b, P b → ∀ channel word, P (b.dmaConsume channel word))
    (produce : ∀ b, P b → ∀ channel, P (b.dmaProduce channel).2) :
    Mover fun a b => a = b ∧ P a where
  toSimulation := .of_kept read write
  consume h channel word := ⟨by rw [h.1], consume _ h.2 ..⟩
  produce h channel := ⟨by rw [h.1], by rw [h.1], produce _ h.2 ..⟩

namespace Mover

variable {R : Bus δ → Bus δ → Prop} (s : Mover R) {a b : Bus δ}

include s

theorem moveWords (h : R a b) (channel : Fin 7) (c : Dma.Channel) (n : Nat) :
    (a.moveWords channel c n).1 = (b.moveWords channel c n).1 ∧
      R (a.moveWords channel c n).2 (b.moveWords channel c n).2 := by
  induction n generalizing a b c with
  | zero => exact ⟨rfl, h⟩
  | succ n ih =>
    unfold Bus.moveWords
    dsimp only
    cases c.direction with
    | fromRam =>
      obtain ⟨he, hr⟩ := s.read h (c.address &&& Dma.ramWordMask) .word
      dsimp only
      rw [he]
      exact ih (s.consume hr ..) _
    | toRam =>
      obtain ⟨he, hr⟩ := s.produce h channel
      dsimp only
      rw [he]
      exact ih (s.write hr ..) _

theorem moveNode (h : R a b) (channel : Fin 7) (address : UInt32) (n : Nat) :
    R (a.moveNode channel address n) (b.moveNode channel address n) := by
  induction n generalizing a b address with
  | zero => exact h
  | succ n ih =>
    obtain ⟨he, hr⟩ := s.read h ((address + 4) &&& Dma.ramWordMask) .word
    unfold Bus.moveNode
    dsimp only
    rw [he]
    exact ih (s.consume hr ..) _

theorem clearTable (h : R a b) (address : UInt32) (n : Nat) :
    (a.clearTable address n).1 = (b.clearTable address n).1 ∧
      R (a.clearTable address n).2 (b.clearTable address n).2 := by
  induction n generalizing a b address with
  | zero => exact ⟨rfl, h⟩
  | succ n ih => exact ih (s.write h ..) _

theorem moveSlice (h : R a b) (channel : Fin 7) (c : Dma.Channel) (p : Dma.Progress) :
    ∃ words completed c' a' b', a.moveSlice channel c p = (words, completed, c', a') ∧
      b.moveSlice channel c p = (words, completed, c', b') ∧ R a' b' := by
  unfold Bus.moveSlice
  cases p with
  | blocks wordsLeft blocksLeft =>
    have hm := s.moveWords h channel c (c.chunk wordsLeft)
    revert hm
    dsimp only
    obtain ⟨c₁, a'⟩ := a.moveWords channel c (c.chunk wordsLeft)
    obtain ⟨c₂, b'⟩ := b.moveWords channel c (c.chunk wordsLeft)
    rintro ⟨rfl, hr⟩
    exact ⟨_, _, _, _, _, rfl, rfl, hr⟩
  | linkedList =>
    have hm := s.read h (c.address &&& Dma.ramWordMask) .word
    revert hm
    dsimp only
    obtain ⟨header, a'⟩ := a.read (c.address &&& Dma.ramWordMask) .word
    obtain ⟨_, b'⟩ := b.read (c.address &&& Dma.ramWordMask) .word
    rintro ⟨rfl, hr⟩
    exact ⟨_, _, _, _, _, rfl, rfl, s.moveNode hr ..⟩
  | orderingTable entries =>
    have hm := s.clearTable h (c.address &&& Dma.ramWordMask) entries
    revert hm
    dsimp only
    obtain ⟨_, a'⟩ := a.clearTable (c.address &&& Dma.ramWordMask) entries
    obtain ⟨_, b'⟩ := b.clearTable (c.address &&& Dma.ramWordMask) entries
    rintro ⟨rfl, hr⟩
    exact ⟨_, _, _, _, _, rfl, rfl, hr⟩

/-- A slice runs alike on buses with the same controller. -/
theorem runSlice (h : R a b) (hd : a.board.dma = b.board.dma)
    (dma : ∀ {a b}, R a b → a.board.dma = b.board.dma)
    (withDma : ∀ {a b}, R a b → ∀ asks dma, R { a with board := a.board.withDma asks dma }
      { b with board := b.board.withDma asks dma }) :
    a.runSlice.1 = b.runSlice.1 ∧ R a.runSlice.2 b.runSlice.2 := by
  unfold Bus.runSlice
  rw [← hd]
  split
  · exact ⟨rfl, h⟩
  · rename_i channel _
    dsimp only
    split
    · exact ⟨rfl, h⟩
    · rename_i progress _
      obtain ⟨words, completed, c', a', b', ea, eb, h'⟩ :=
        s.moveSlice h channel (a.board.dma.channel channel) progress
      rw [ea, eb]
      dsimp only
      rw [← dma h']
      exact ⟨rfl, withDma h' ..⟩

end Mover

end Psx.Bus
