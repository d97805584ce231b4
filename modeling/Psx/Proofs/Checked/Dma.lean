import Psx.Proofs.Checked.Operations
import Psx.Proofs.Cpu.DelaySlot
import Psx.Proofs.Dma.Blocks
import Psx.Proofs.Memory.Region

/-!
# The DMA controller, checked

The number of a channel comes out of an offset or out of a search, and it is a place in the table of
channels, a shift within DPCR and a bit of DICR. What is left of a transfer is counted down by the
words of a chunk and by the block.
-/

namespace Psx

open Checked

namespace Dma

/-! ### One channel -/

namespace Channel

def chopWords! (c : Channel) : Option (Option Nat) := do
  if c.isChopped then pure (some (← shl32 1 ((c.control >>> 16) &&& 7)).toNat) else pure none

def chopGap! (c : Channel) : Option (Option Nat) := do
  if c.isChopped then pure (some (← shl32 1 ((c.control >>> 20) &&& 7)).toNat) else pure none

def chunk! (c : Channel) (wordsLeft : Nat) : Option Nat := do
  match ← c.chopWords! with
  | some limit => pure (min wordsLeft limit)
  | none => pure wordsLeft

def afterChunk! (c : Channel) (wordsLeft blocksLeft chunk : Nat) : Option (Channel × Bool) := do
  let wordsLeft ← sub wordsLeft chunk
  if wordsLeft ≠ 0 then
    pure ({ c with progress := some (.blocks wordsLeft blocksLeft) }, blocksLeft = 0)
  else
    let blocksLeft ← sub blocksLeft 1
    let c :=
      if c.syncMode = .block then
        { c with blockControl := withCount c.blockControl blocksLeft }
      else c
    if blocksLeft = 0 then pure (c, true)
    else pure ({ c with progress := some (.blocks c.blockSize blocksLeft) }, false)

variable {c : Channel}

/-- A chopping field shifts a bit by seven at most. -/
theorem shl32_chop (n : UInt32) : (shl32 1 (n &&& 7)).map UInt32.toNat =
    some (1 <<< (n &&& 7).toNat) := by
  have h : (n &&& 7).toNat ≤ 7 := by
    rw [UInt32.toNat_and]
    exact Nat.and_le_right
  rw [shl32_eq (UInt32.lt_iff_toNat_lt.2 (Nat.lt_of_le_of_lt h (by decide)))]
  rw [Option.map_some, UInt32.toNat_shiftLeft]
  generalize (n &&& 7).toNat = k at h
  interval_cases k <;> rfl

@[simp] theorem chopWords!_eq (c : Channel) : c.chopWords! = some c.chopWords? := by
  unfold chopWords! chopWords?
  split
  · have h := shl32_chop (c.control >>> 16)
    cases hs : shl32 1 ((c.control >>> 16) &&& 7) with
    | none => rw [hs] at h; cases h
    | some v => rw [hs] at h; exact congrArg some h
  · rfl

@[simp] theorem chopGap!_eq (c : Channel) : c.chopGap! = some c.chopGap? := by
  unfold chopGap! chopGap?
  split
  · have h := shl32_chop (c.control >>> 20)
    cases hs : shl32 1 ((c.control >>> 20) &&& 7) with
    | none => rw [hs] at h; cases h
    | some v => rw [hs] at h; exact congrArg some h
  · rfl

@[simp] theorem chunk!_eq (c : Channel) (wordsLeft : Nat) :
    c.chunk! wordsLeft = some (c.chunk wordsLeft) := by
  unfold chunk! chunk
  rw [chopWords!_eq]
  cases c.chopWords? <;> rfl

theorem afterChunk!_eq {wordsLeft blocksLeft chunk : Nat} (hw : chunk ≤ wordsLeft)
    (hb : 1 ≤ blocksLeft) :
    c.afterChunk! wordsLeft blocksLeft chunk = some (c.afterChunk wordsLeft blocksLeft chunk) := by
  unfold afterChunk! afterChunk
  rw [sub_eq hw, sub_eq hb]
  dsimp only [Option.bind_eq_bind, Option.bind_some, Option.pure_def]
  split
  · rfl
  · split <;> rfl

end Channel

/-! ### Priorities -/

/-- Where the field of a channel begins in DPCR. -/
def place! (i : Fin 7) : Option UInt32 := do
  pure (UInt32.ofNat (← held 64 (i * 4)))

def isEnabled! (d : Dma) (i : Fin 7) : Option Bool := do
  pure (d.control &&& (← shl32 8 (← place! i)) != 0)

def priority! (d : Dma) (i : Fin 7) : Option UInt32 := do
  pure ((← shr32 d.control (← place! i)) &&& 7)

def isRunnable! (d : Dma) (i : Fin 7) : Option Bool := do
  pure ((← d.isEnabled! i) && (d.channel i).isBusy)

def prefer! (d : Dma) (best : Option (Fin 7)) (i : Fin 7) : Option (Option (Fin 7)) := do
  if !(← d.isRunnable! i) then pure best
  else match best with
    | none => pure (some i)
    | some b => if (← d.priority! i) < (← d.priority! b) then pure (some i) else pure (some b)

def nextChannel! (d : Dma) : Option (Option (Fin 7)) :=
  (List.range 7).reverse.foldlM (fun best i => do d.prefer! best (← index 7 i)) none

/-- Work is pending if the search finds a channel. -/
def hasPendingWork! (d : Dma) : Option Bool := do pure (← d.nextChannel!).isSome

section

variable (d : Dma) (i : Fin 7)

theorem place!_eq : place! i = some (4 * UInt32.ofNat i) := by
  match i with
  | 0 | 1 | 2 | 3 | 4 | 5 | 6 => rfl

theorem place_lt : 4 * UInt32.ofNat i < 32 := by
  match i with
  | 0 | 1 | 2 | 3 | 4 | 5 | 6 => decide

theorem enable_toNat : ((8 : UInt32) <<< (4 * UInt32.ofNat i)).toNat = 2 ^ (4 * i.val + 3) := by
  match i with
  | 0 | 1 | 2 | 3 | 4 | 5 | 6 => rfl

theorem place_toNat : (4 * UInt32.ofNat i).toNat % 32 = 4 * i.val := by
  match i with
  | 0 | 1 | 2 | 3 | 4 | 5 | 6 => rfl

/-- The enable bit is the same, whether it is brought down or looked for in its place. -/
@[simp] theorem isEnabled!_eq : d.isEnabled! i = some (d.isEnabled i) := by
  unfold isEnabled! isEnabled Dma.field
  rw [place!_eq]
  simp only [Option.bind_eq_bind, Option.bind_some]
  rw [shl32_eq (place_lt i)]
  refine congrArg some ?_
  rw [Encoding.bit_ne_zero (enable_toNat i), Encoding.bit_ne_zero (i := 3) rfl]
  unfold Encoding.field
  rw [UInt32.toNat_shiftRight, place_toNat, Nat.shiftRight_eq_div_pow, Nat.div_div_eq_div_mul,
    ← Nat.pow_add]

@[simp] theorem priority!_eq : d.priority! i = some (d.priority i) := by
  unfold priority! priority Dma.field
  rw [place!_eq]
  simp only [Option.bind_eq_bind, Option.bind_some]
  rw [shr32_eq (place_lt i)]
  rfl

@[simp] theorem isRunnable!_eq : d.isRunnable! i = some (d.isRunnable i) := by
  simp [isRunnable!, isRunnable]

@[simp] theorem prefer!_eq (best : Option (Fin 7)) :
    d.prefer! best i = some (d.prefer best i) := by
  unfold prefer! prefer
  simp only [isRunnable!_eq, priority!_eq, Option.bind_eq_bind, Option.bind_some, Option.pure_def]
  split
  · rfl
  · cases best with
    | none => rfl
    | some b => dsimp only; split <;> rfl

@[simp] theorem nextChannel!_eq : d.nextChannel! = some d.nextChannel? := by
  have hlist : (List.range 7).reverse = ([6, 5, 4, 3, 2, 1, 0] : List (Fin 7)).map (·.val) := rfl
  unfold nextChannel!
  rw [hlist, List.foldlM_map]
  refine foldlM_eq (P := fun _ => True) (fun best _ i _ => ⟨?_, trivial⟩) trivial
  rw [index_eq i.isLt]
  exact d.prefer!_eq i best

@[simp] theorem hasPendingWork!_eq : d.hasPendingWork! = some d.hasPendingWork := by
  unfold hasPendingWork!
  rw [nextChannel!_eq]
  refine congrArg some ?_
  cases h : d.nextChannel? with
  | none => exact (d.nextChannel?_eq_none.1 h).symm
  | some j => exact (d.hasPendingWork_iff.2 ⟨j, isRunnable_of_nextChannel? h⟩).symm

end

/-! ### Interrupts -/

/-- The bit of a channel among those that begin at one. -/
def bit! (low : Nat) (i : Fin 7) : Option UInt32 := do
  shl32 1 (UInt32.ofNat (← held 64 (low + i)))

def complete! (d : Dma) (i : Fin 7) : Option (Bool × Dma) := do
  let d := d.modify i .finish
  let d ←
    if d.interrupt &&& (← bit! 16 i) != 0 then do
      pure { d with interrupt := d.interrupt ||| (← bit! 24 i) }
    else pure d
  pure d.updateMasterFlag

theorem bit!_eq (i : Fin 7) : bit! 16 i = some (1 <<< (16 + UInt32.ofNat i)) ∧
    bit! 24 i = some (1 <<< (24 + UInt32.ofNat i)) := by
  match i with
  | 0 | 1 | 2 | 3 | 4 | 5 | 6 => exact ⟨rfl, rfl⟩

@[simp] theorem complete!_eq (d : Dma) (i : Fin 7) : d.complete! i = some (d.complete i) := by
  unfold complete! complete
  rw [(bit!_eq i).1, (bit!_eq i).2]
  dsimp only [Option.bind_eq_bind, Option.bind_some, Option.pure_def]
  split <;> rfl

/-! ### Registers -/

/-- The channel of an offset below the registers that the channels share. -/
def channelAt! (offset : UInt32) : Option (Option (Fin 7)) := do
  if wordOf offset < 0x70 then pure (some (← index 7 (wordOf offset >>> 4).toNat)) else pure none

def register! (d : Dma) (offset : UInt32) : Option UInt32 := do
  match ← channelAt! offset with
  | some i =>
    pure <| match offset &&& 0x0C with
      | 0x00 => (d.channel i).address
      | 0x04 => (d.channel i).blockControl
      | 0x08 => (d.channel i).control
      | _ => 0
  | none =>
    pure <|
      if wordOf offset == 0x70 then d.control
      else if wordOf offset == 0x74 then d.interrupt
      else 0

def read! (d : Dma) (offset : UInt32) (w : Width) : Option UInt32 := do
  readLane! (← d.register! offset) offset w

def write! (d : Dma) (offset : UInt32) (w : Width) (value : UInt32) : Option (Bool × Dma) := do
  let merged ← writeLane! (← d.register! offset) offset w value
  match ← channelAt! offset with
  | some i =>
    pure <| match offset &&& 0x0C with
      | 0x00 => (false, d.writeAddress i merged)
      | 0x04 => (false, d.writeBlockControl i merged)
      | 0x08 => (false, d.writeChannelControl i merged)
      | _ => (false, d)
  | none =>
    if wordOf offset == 0x70 then pure (false, { d with control := merged })
    else if wordOf offset == 0x74 then
      pure (d.writeInterrupt (← writeLane! (d.interrupt &&& addressMask) offset w value))
    else pure (false, d)

@[simp] theorem channelAt!_eq (offset : UInt32) : channelAt! offset = some (channelAt? offset) := by
  have hw := wordOf_toNat offset
  have hplace : (wordOf offset >>> 4).toNat = (offset >>> 4).toNat := by
    rw [UInt32.toNat_shiftRight, UInt32.toNat_shiftRight, hw, Nat.shiftRight_eq_div_pow,
      Nat.shiftRight_eq_div_pow]
    show offset.toNat / 4 * 4 / 2 ^ 4 = offset.toNat / 2 ^ 4
    omega
  have hlt : wordOf offset < 0x70 ↔ (offset >>> 4).toNat < 7 := by
    rw [UInt32.lt_iff_toNat_lt, hw, UInt32.toNat_shiftRight, Nat.shiftRight_eq_div_pow]
    show offset.toNat / 4 * 4 < 0x70 ↔ offset.toNat / 2 ^ 4 < 7
    omega
  unfold channelAt! channelAt? index
  dsimp only
  by_cases h : (offset >>> 4).toNat < 7
  · rw [if_pos (hlt.2 h), dif_pos h, hplace, dif_pos h]
    rfl
  · rw [if_neg (hlt.not.2 h), dif_neg h]
    rfl

variable (d : Dma) (offset : UInt32) (w : Width) (value : UInt32)

@[simp] theorem register!_eq : d.register! offset = some (d.register offset) := by
  unfold register! register
  rw [channelAt!_eq]
  cases channelAt? offset <;> rfl

@[simp] theorem read!_eq : d.read! offset w = some (d.read offset w) := by
  simp [read!, read]

@[simp] theorem write!_eq : d.write! offset w value = some (d.write offset w value) := by
  unfold write! write
  simp only [register!_eq, channelAt!_eq, writeLane!_eq, Option.bind_eq_bind, Option.bind_some,
    Option.pure_def]
  cases channelAt? offset with
  | some i => rfl
  | none => dsimp only; split_ifs <;> rfl

end Dma

end Psx
