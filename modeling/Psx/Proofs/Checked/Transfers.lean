import Psx.Proofs.Checked.Bus
import Psx.Proofs.Dma.Operated

/-!
# DMA slices, checked

A slice is a loop over the words it moves, and the numbers it counts with come from the transfer in
flight: the words and blocks left are counts of the registers (`Dma.Channel.Regular`), so a chunk
can be taken off them. No slice moves more than 0x10000 words, and each of them drops one word of
the queue of the video port at most.
-/

namespace Psx.Bus

open Checked

variable {δ : Type} [Device δ]

def moveWord! (b : Bus δ) (channel : Fin 7) (c : Dma.Channel) : Option (Bus δ) := do
  let address := c.address &&& Dma.ramWordMask
  match c.direction with
  | .fromRam =>
    let (word, b) ← b.read! address .word
    b.dmaConsume! channel word
  | .toRam =>
    let (word, b) ← b.dmaProduce! channel
    b.write! address .word word

def moveWords! (b : Bus δ) (channel : Fin 7) (c : Dma.Channel) :
    Nat → Option (Dma.Channel × Bus δ)
  | 0 => pure (c, b)
  | n + 1 => do
    let b ← b.moveWord! channel c
    b.moveWords! channel { c with address := c.stepped } n

/-- The words of a node are counted from its header on. -/
def moveNode! (b : Bus δ) (channel : Fin 7) (node : UInt32) (i : UInt32) : Nat → Option (Bus δ)
  | 0 => pure b
  | n + 1 => do
    let next ← add32 i 1
    let address := (node + (← mul32 4 next)) &&& Dma.ramWordMask
    let (word, b) ← b.read! address .word
    (← b.dmaConsume! channel word).moveNode! channel node next n

/-- An entry is the last of so many if no other comes behind it. -/
def clearTable! (b : Bus δ) (entries : Nat) (address : UInt32) (i : Nat) :
    Nat → Option (UInt32 × Bus δ)
  | 0 => pure (address, b)
  | n + 1 => do
    let last ← sub entries 1
    let b ← b.write! address .word (Dma.tableLink address (i == last))
    b.clearTable! entries ((address - 4) &&& Dma.ramWordMask) (i + 1) n

def moveSlice! (b : Bus δ) (channel : Fin 7) (c : Dma.Channel) :
    Dma.Progress → Option (Nat × Bool × Dma.Channel × Bus δ)
  | .blocks wordsLeft blocksLeft => do
    let chunk ← c.chunk! wordsLeft
    let (c, b) ← b.moveWords! channel c chunk
    let (c, completed) ← c.afterChunk! wordsLeft blocksLeft chunk
    pure (chunk, completed, c, b)
  | .linkedList => do
    let node := c.address &&& Dma.ramWordMask
    let (header, b) ← b.read! node .word
    let count := header >>> 24
    let b ← b.moveNode! channel node 0 count.toNat
    let next := header &&& Dma.addressMask
    let words ← add32 count 1
    pure (words.toNat, next &&& Dma.endOfList != 0, { c with address := next }, b)
  | .orderingTable entries => do
    let (address, b) ← b.clearTable! entries (c.address &&& Dma.ramWordMask) 0 entries
    pure (entries, true, { c with address }, b)

def runSlice! (b : Bus δ) : Option (Option Dma.Slice × Bus δ) := do
  match ← b.board.dma.nextChannel! with
  | none => pure (none, b)
  | some channel =>
    let c := b.board.dma.channel channel
    match c.progress with
    | none => pure (none, b)
    | some progress =>
      let (words, completed, c, b) ← b.moveSlice! channel c progress
      let gap := (← c.chopGap!).getD b.board.dma.sliceGap
      let dma := b.board.dma.modify channel fun _ => c
      let (asks, dma) ← if completed then dma.complete! channel else pure (false, dma)
      pure (some { channel, words, gap, completed }, { b with board := ← b.board.withDma! asks dma })

variable {b : Bus δ}

theorem moveWord!_eq {k : Nat} (h : b.Ready (k + 1)) (channel : Fin 7) (c : Dma.Channel) :
    b.moveWord! channel c = some (b.moveWord channel c) ∧ (b.moveWord channel c).Ready k := by
  unfold moveWord! moveWord
  cases c.direction with
  | fromRam =>
    dsimp only
    rw [read!_eq h, read_masked]
    exact ⟨dmaConsume!_eq h .., h.consume ..⟩
  | toRam =>
    have hproduce := h.produce channel
    dsimp only
    rw [dmaProduce!_eq b, ← write_masked]
    simp only [Option.bind_eq_bind, Option.bind_some]
    exact ⟨write!_eq hproduce .., hproduce.write ..⟩

theorem moveWords!_eq {n k : Nat} (h : b.Ready (k + n)) (channel : Fin 7) (c : Dma.Channel) :
    b.moveWords! channel c n = some (b.moveWords channel c n) ∧
      (b.moveWords channel c n).2.Ready k := by
  induction n generalizing b c with
  | zero => exact ⟨rfl, h⟩
  | succ n ih =>
    obtain ⟨e, hr⟩ := moveWord!_eq (k := k + n) h channel c
    rw [moveWords!, e, moveWords_succ]
    exact ih hr _

/-- Stepping from word to word comes to the same place as counting from the header on. -/
theorem and_ramWordMask_step (node i : UInt32) :
    (((node + 4 * i) &&& Dma.ramWordMask) + 4) &&& Dma.ramWordMask =
      (node + 4 * (i + 1)) &&& Dma.ramWordMask := by
  apply UInt32.toNat_inj.1
  show Dma.placeOf _ = Dma.placeOf _
  rw [Dma.placeOf_eq, Dma.placeOf_eq, UInt32.toNat_add,
    show ((node + 4 * i) &&& Dma.ramWordMask).toNat = _ from Dma.placeOf_eq (node + 4 * i)]
  simp only [UInt32.toNat_add, UInt32.toNat_mul, UInt32.reduceToNat]
  omega

theorem moveNode!_eq {n k : Nat} {i : UInt32} (h : b.Ready (k + n)) (hn : i.toNat + n < 2 ^ 24)
    (channel : Fin 7) (node : UInt32) :
    b.moveNode! channel node i n =
      some (b.moveNode channel ((node + 4 * i) &&& Dma.ramWordMask) n) ∧
      (b.moveNode channel ((node + 4 * i) &&& Dma.ramWordMask) n).Ready k := by
  induction n generalizing b i with
  | zero => exact ⟨rfl, h⟩
  | succ n ih =>
    have hi : i.toNat + (1 : UInt32).toNat < 2 ^ 32 := by show i.toNat + 1 < 2 ^ 32; omega
    have hi' : (i + 1).toNat = i.toNat + 1 := by
      rw [UInt32.toNat_add]
      exact Nat.mod_eq_of_lt hi
    have hread := h.read ((node + 4 * (i + 1)) &&& Dma.ramWordMask) .word
    rw [moveNode!, moveNode, and_ramWordMask_step, add32_eq hi]
    simp only [Option.bind_eq_bind, Option.bind_some]
    rw [mul32_eq (by show 4 * (i + 1).toNat < 2 ^ 32; omega)]
    simp only [Option.bind_some]
    rw [read!_eq h]
    simp only [Option.bind_some]
    rw [dmaConsume!_eq hread]
    exact ih (hread.consume ..) (by omega)

theorem clearTable!_eq {n k entries i : Nat} (h : b.Ready (k + n)) (hn : i + n = entries)
    (address : UInt32) :
    b.clearTable! entries address i n = some (b.clearTable address n) ∧
      (b.clearTable address n).2.Ready k := by
  induction n generalizing b i address with
  | zero => exact ⟨rfl, h⟩
  | succ n ih =>
    have hlast : (i == entries - 1) = (n == 0) := by
      rw [Bool.eq_iff_iff]
      simp only [beq_iff_eq]
      omega
    rw [clearTable!, clearTable, sub_eq (by omega)]
    simp only [Option.bind_eq_bind, Option.bind_some, hlast]
    rw [write!_eq h]
    exact ih (Ready.write (n := k + n) h ..) (by omega) _

/-- The number of words in a node of a list, as the head of the node has it. -/
theorem nodeLength_lt (header : UInt32) : (header >>> 24).toNat < 256 := by
  have := header.toNat_lt
  rw [UInt32.toNat_shiftRight, Nat.shiftRight_eq_div_pow]
  show header.toNat / 2 ^ 24 < 256
  omega

/-- A slice takes words off what is left, and a block. -/
theorem moveSlice!_eq {k : Nat} {c : Dma.Channel} {p : Dma.Progress} (h : b.Ready (k + 0x10000))
    (hp : p.Bounded) (channel : Fin 7) :
    b.moveSlice! channel c p = some (b.moveSlice channel c p) ∧
      (b.moveSlice channel c p).2.2.2.Ready k := by
  cases p with
  | blocks wordsLeft blocksLeft =>
    obtain ⟨⟨-, hwords⟩, hblocks, -⟩ := hp
    have hchunk := c.chunk_le wordsLeft
    obtain ⟨e, hr⟩ := moveWords!_eq (k := k) (n := c.chunk wordsLeft) (h.mono (by omega)) channel c
    unfold moveSlice! moveSlice
    simp only [Dma.Channel.chunk!_eq, Option.bind_eq_bind, Option.bind_some, e]
    rw [Dma.Channel.afterChunk!_eq hchunk hblocks]
    exact ⟨rfl, hr⟩
  | linkedList =>
    have hread := h.read (c.address &&& Dma.ramWordMask) .word
    unfold moveSlice! moveSlice
    dsimp only
    rw [read!_eq h]
    simp only [Option.bind_eq_bind, Option.bind_some]
    generalize (b.read (c.address &&& Dma.ramWordMask) .word).1 = header
    have hcount := nodeLength_lt header
    have hnode : (c.address &&& Dma.ramWordMask) + 4 * 0 &&& Dma.ramWordMask =
        c.address &&& Dma.ramWordMask := by
      rw [UInt32.mul_zero, UInt32.add_zero, UInt32.and_assoc, UInt32.and_self]
    obtain ⟨e, hr⟩ := moveNode!_eq (k := k) (i := 0) (n := (header >>> 24).toNat)
      (hread.mono (by omega)) (by show 0 + (header >>> 24).toNat < _; omega) channel
      (c.address &&& Dma.ramWordMask)
    rw [hnode] at e hr
    -- the head of the node counts as a word of the slice
    have hsum : (header >>> 24).toNat + (1 : UInt32).toNat < 2 ^ 32 := by
      show (header >>> 24).toNat + 1 < _
      omega
    rw [e, Option.bind_some, add32_eq hsum]
    refine ⟨congrArg some (Prod.ext ?_ rfl), hr⟩
    show (header >>> 24 + 1).toNat = (header >>> 24).toNat + 1
    rw [UInt32.toNat_add]
    exact Nat.mod_eq_of_lt hsum
  | orderingTable entries =>
    obtain ⟨-, hentries⟩ := hp
    obtain ⟨e, hr⟩ := clearTable!_eq (k := k) (i := 0) (n := entries)
      (h.mono (by omega)) (Nat.zero_add _) (c.address &&& Dma.ramWordMask)
    unfold moveSlice! moveSlice
    simp only [Option.bind_eq_bind, Option.bind_some, e]
    exact ⟨rfl, hr⟩

theorem runSlice!_eq {k : Nat} (h : b.Ready (k + 0x10000))
    (hd : ∀ i, (b.board.dma.channel i).Regular) :
    b.runSlice! = some b.runSlice ∧ b.runSlice.2.Ready k := by
  unfold runSlice! runSlice
  rw [Dma.nextChannel!_eq]
  simp only [Option.bind_eq_bind, Option.bind_some]
  cases b.board.dma.nextChannel? with
  | none => exact ⟨rfl, h.mono (by omega)⟩
  | some channel =>
    dsimp only
    cases hp : (b.board.dma.channel channel).progress with
    | none => exact ⟨rfl, h.mono (by omega)⟩
    | some p =>
      obtain ⟨e, hr⟩ := moveSlice!_eq (k := k) (c := b.board.dma.channel channel) h
        ((hd channel).bounded p hp) channel
      dsimp only
      rw [e]
      refine ⟨?_, Ready.of_frame hr (.of_board rfl) (Nat.le_refl _)⟩
      simp only [Option.bind_some, Dma.Channel.chopGap!_eq, Dma.complete!_eq, Board.withDma!_eq,
        Option.pure_def]
      cases (b.moveSlice channel (b.board.dma.channel channel) p).2.1 <;> rfl

/-! ### What a slice counts -/

theorem dropped_moveWord_le (b : Bus δ) (channel : Fin 7) (c : Dma.Channel) :
    (b.moveWord channel c).board.dropped ≤ b.board.dropped + 1 := by
  unfold moveWord
  split
  · exact b.dropped_consume_le ..
  · exact (b.dropped_produce channel).le.trans (Nat.le_succ _)

theorem dropped_moveWords_le (b : Bus δ) (channel : Fin 7) (c : Dma.Channel) (n : Nat) :
    (b.moveWords channel c n).2.board.dropped ≤ b.board.dropped + n := by
  induction n generalizing b c with
  | zero => exact Nat.le_refl _
  | succ n ih =>
    have hword := b.dropped_moveWord_le channel c
    have hrest := ih (b.moveWord channel c) { c with address := c.stepped }
    rw [moveWords_succ]
    omega

theorem dropped_moveNode_le (b : Bus δ) (channel : Fin 7) (address : UInt32) (n : Nat) :
    (b.moveNode channel address n).board.dropped ≤ b.board.dropped + n := by
  induction n generalizing b address with
  | zero => exact Nat.le_refl _
  | succ n ih =>
    rw [moveNode_succ]
    refine (ih _ _).trans ?_
    have := b.dropped_consume_le channel (Bytes.load b.memory.ram
      ((address + 4) &&& Dma.ramWordMask).toNat .word)
    omega

theorem dropped_clearTable_le (b : Bus δ) (address : UInt32) (n : Nat) :
    (b.clearTable address n).2.board.dropped ≤ b.board.dropped + n := by
  induction n generalizing b address with
  | zero => exact Nat.le_refl _
  | succ n ih =>
    refine (ih _ _).trans ?_
    have := b.dropped_write_le address .word (Dma.tableLink address (n == 0))
    omega

/-- A slice moves as many words as a count register can name, and drops one for each. -/
theorem moveSlice_counts (b : Bus δ) (channel : Fin 7) (c : Dma.Channel) {p : Dma.Progress}
    (hp : p.Bounded) : (b.moveSlice channel c p).1 ≤ 0x10000 ∧
      (b.moveSlice channel c p).2.2.2.board.dropped ≤
        b.board.dropped + (b.moveSlice channel c p).1 := by
  cases p with
  | blocks wordsLeft blocksLeft =>
    exact ⟨(c.chunk_le wordsLeft).trans hp.1.2, b.dropped_moveWords_le ..⟩
  | linkedList =>
    unfold moveSlice
    dsimp only
    rw [read_masked]
    dsimp only
    generalize Bytes.load _ _ _ = header
    have hcount := nodeLength_lt header
    have := b.dropped_moveNode_le channel (c.address &&& Dma.ramWordMask) (header >>> 24).toNat
    exact ⟨by omega, by omega⟩
  | orderingTable entries => exact ⟨hp.2, b.dropped_clearTable_le ..⟩

theorem chopGap?_le {c : Dma.Channel} {gap : Nat} (h : c.chopGap? = some gap) : gap ≤ 128 := by
  have hle : ((c.control >>> 20) &&& 7).toNat ≤ 7 := by
    rw [UInt32.toNat_and]
    exact Nat.and_le_right
  unfold Dma.Channel.chopGap? at h
  split at h
  · cases h
    rw [Nat.one_shiftLeft]
    exact Nat.pow_le_pow_right (by decide) hle
  · cases h

/-- What the numbers of a slice are bounded by, and what it adds to the dropped words. -/
theorem runSlice_counts (hd : ∀ i, (b.board.dma.channel i).Regular) {slice : Dma.Slice}
    {b' : Bus δ} (h : b.runSlice = (some slice, b')) :
    slice.words ≤ 0x10000 ∧ slice.gap ≤ max 128 b'.board.dma.sliceGap ∧
      b'.board.dropped ≤ b.board.dropped + slice.words := by
  unfold runSlice at h
  split at h
  · cases h
  · rename_i channel _
    dsimp only at h
    split at h
    · cases h
    · rename_i p hp
      obtain ⟨hwords, hdropped⟩ := b.moveSlice_counts channel (b.board.dma.channel channel)
        ((hd channel).bounded p hp)
      revert h hwords hdropped
      obtain ⟨words, completed, c, b₁⟩ := b.moveSlice channel (b.board.dma.channel channel) p
      intro h hwords hdropped
      dsimp only at h hwords hdropped
      obtain ⟨rfl, rfl⟩ : _ = slice ∧ _ = b' := by
        simpa only [Prod.mk.injEq, Option.some.injEq] using h
      dsimp only
      rw [Board.dropped_withDma]
      refine ⟨hwords, ?_, hdropped⟩
      have hgap : c.chopGap?.getD b₁.board.dma.sliceGap ≤ max 128 b₁.board.dma.sliceGap := by
        cases hc : c.chopGap? with
        | none => exact Nat.le_max_right ..
        | some gap => exact (chopGap?_le hc).trans (Nat.le_max_left ..)
      have hsame : ∀ asks dma, (b₁.board.withDma asks dma).dma = dma := fun _ _ => rfl
      rw [hsame]
      cases completed with
      | true =>
        rw [if_pos rfl, Dma.sliceGap_complete]
        exact hgap
      | false => exact hgap

end Psx.Bus
