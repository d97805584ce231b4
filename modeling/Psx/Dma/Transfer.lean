import Psx.Bus

/-!
# DMA slices

A transfer moves in slices, between which the processor runs. A slice of a block transfer is what is
left of a block, or less if the transfer is chopped; one of a list is a node; clearing an ordering
table is a single slice. The controller picks the channel, the slice moves its words between RAM and
the device that serves the channel, and the last slice completes the transfer.
-/

namespace Psx

namespace Dma

structure Slice where
  channel : Fin 7
  words : Nat
  /-- Cycles that the processor gets before the next slice. -/
  gap : Nat
  completed : Bool
deriving DecidableEq, Repr

/-- A size and count register with another count. -/
def withCount (blockControl : UInt32) (count : Nat) : UInt32 :=
  let shifted := UInt32.ofNat count <<< 16
  (blockControl &&& 0xFFFF) ||| shifted

/-- What is left of a block transfer after a chunk of the current block, and the block count that
the register shows. A finished block begins the next one at the programmed size. -/
def Channel.afterChunk (c : Channel) (wordsLeft blocksLeft chunk : Nat) : Channel × Bool :=
  if wordsLeft - chunk ≠ 0 then
    ({ c with progress := some (.blocks (wordsLeft - chunk) blocksLeft) }, blocksLeft = 0)
  else
    let blocksLeft := blocksLeft - 1
    let c :=
      if c.syncMode = .block then
        { c with blockControl := withCount c.blockControl blocksLeft }
      else c
    if blocksLeft = 0 then (c, true)
    else ({ c with progress := some (.blocks c.blockSize blocksLeft) }, false)

/-- The words of the next slice of a block transfer. -/
def Channel.chunk (c : Channel) (wordsLeft : Nat) : Nat :=
  match c.chopWords? with
  | some limit => min wordsLeft limit
  | none => wordsLeft

/-- What an entry of a cleared ordering table holds: the address of the one below it, or the end
mark in the last. -/
def tableLink (address : UInt32) (last : Bool) : UInt32 :=
  if last then 0x00FFFFFF else (address - 4) &&& ramWordMask

/-- Bit 23 of a link marks the end of a list. -/
def endOfList : UInt32 := 0x00800000

end Dma

namespace Bus

variable {δ : Type} [Device δ]

/-- Moves words between RAM and the device that serves a channel, from an address on. -/
def moveWords (b : Bus δ) (channel : Fin 7) (c : Dma.Channel) : Nat → Dma.Channel × Bus δ
  | 0 => (c, b)
  | n + 1 =>
    let address := c.address &&& Dma.ramWordMask
    let b := match c.direction with
      | .fromRam =>
        let (word, b) := b.read address .word
        b.dmaConsume channel word
      | .toRam =>
        let (word, b) := b.dmaProduce channel
        b.write address .word word
    b.moveWords channel { c with address := c.stepped } n

/-- Hands the words that follow a list header to the device that serves a channel. -/
def moveNode (b : Bus δ) (channel : Fin 7) (address : UInt32) : Nat → Bus δ
  | 0 => b
  | n + 1 =>
    let address := (address + 4) &&& Dma.ramWordMask
    let (word, b) := b.read address .word
    (b.dmaConsume channel word).moveNode channel address n

/-- Clears entries of an ordering table from an address downwards; the answer is the address below
the last. -/
def clearTable (b : Bus δ) (address : UInt32) : Nat → UInt32 × Bus δ
  | 0 => (address, b)
  | n + 1 =>
    (b.write address .word (Dma.tableLink address (n == 0))).clearTable
      ((address - 4) &&& Dma.ramWordMask) n

/-- The words that a slice moved, whether it was the last, and the channel and bus after it. -/
def moveSlice (b : Bus δ) (channel : Fin 7) (c : Dma.Channel) :
    Dma.Progress → Nat × Bool × Dma.Channel × Bus δ
  | .blocks wordsLeft blocksLeft =>
    let chunk := c.chunk wordsLeft
    let (c, b) := b.moveWords channel c chunk
    let (c, completed) := c.afterChunk wordsLeft blocksLeft chunk
    (chunk, completed, c, b)
  | .linkedList =>
    let node := c.address &&& Dma.ramWordMask
    let (header, b) := b.read node .word
    let count := (header >>> 24).toNat
    let b := b.moveNode channel node count
    let next := header &&& Dma.addressMask
    (count + 1, next &&& Dma.endOfList != 0, { c with address := next }, b)
  | .orderingTable entries =>
    let (address, b) := b.clearTable (c.address &&& Dma.ramWordMask) entries
    (entries, true, { c with address }, b)

/-- Runs the next slice, if a transfer can go on. -/
def runSlice (b : Bus δ) : Option Dma.Slice × Bus δ :=
  match b.board.dma.nextChannel? with
  | none => (none, b)
  | some channel =>
    let c := b.board.dma.channel channel
    match c.progress with
    | none => (none, b)
    | some progress =>
      let (words, completed, c, b) := b.moveSlice channel c progress
      let gap := c.chopGap?.getD b.board.dma.sliceGap
      let dma := b.board.dma.modify channel fun _ => c
      let (asks, dma) := if completed then dma.complete channel else (false, dma)
      (some { channel, words, gap, completed }, { b with board := b.board.withDma asks dma })

end Bus

end Psx
