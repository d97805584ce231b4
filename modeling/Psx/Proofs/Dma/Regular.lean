import Psx.Proofs.Cpu.Exceptions
import Psx.Proofs.Dma.Plans

/-!
# Regular channels

`Channel.Regular` is what the registers of a channel and its transfer in flight have to do with each
other. The start bit tells a program that the channel is busy, so it stands as long as a transfer is
in flight; on an idle channel it can stand only where a manual transfer still waits for its trigger.
An address has 24 bits. What is left of a transfer is a count as the registers hold them, from one to
0x10000, so there is always something to count down (`Channel.plan_words`).

Writing the registers of a channel, configuring and triggering it keep this, and so does whatever a
slice leaves of it (`Channel.Regular.after`).
-/

namespace Psx.Dma

/-- What a count register can stand for, zero being the largest count. -/
def Counts (n : Nat) : Prop := 1 ≤ n ∧ n ≤ 0x10000

/-- What is left of a transfer is within the counts of the registers. -/
def Progress.Bounded : Progress → Prop
  | .blocks wordsLeft blocksLeft => Counts wordsLeft ∧ Counts blocksLeft
  | .linkedList => True
  | .orderingTable entries => Counts entries

/-- So many words can be taken off what is left of a transfer, and a block can be counted down. -/
def Progress.Suffices : Progress → Nat → Prop
  | .blocks wordsLeft blocksLeft, words => words ≤ wordsLeft ∧ 1 ≤ blocksLeft
  | .linkedList, _ => True
  | .orderingTable entries, words => words ≤ entries

theorem Progress.Bounded.sound {p : Progress} (h : p.Bounded) : p.Sound := by
  cases p with
  | blocks wordsLeft blocksLeft => exact ⟨h.1.1, h.2.1⟩
  | linkedList => trivial
  | orderingTable entries => trivial

theorem and_addressMask_lt (a : UInt32) : (a &&& addressMask).toNat < 2 ^ 24 := by
  rw [and_addressMask]
  omega

theorem and_ramWordMask_lt (a : UInt32) : (a &&& ramWordMask).toNat < 2 ^ 24 :=
  Nat.lt_trans (placeOf_lt a) (by decide)

namespace Channel

/-- The registers tell what is in flight, and both are within their bounds. -/
structure Regular (c : Channel) : Prop where
  busy : c.isBusy = true → c.control &&& startBit ≠ 0
  idle : c.isBusy = false → c.control &&& startBit ≠ 0 →
    c.syncMode = .manual ∧ c.isTriggered = false
  address : c.address.toNat < 2 ^ 24
  bounded : ∀ p, c.progress = some p → p.Bounded

variable {c : Channel}

theorem countOf_counts {n : UInt32} (h : n.toNat < 0x10000) : Counts (countOf n) := by
  refine ⟨countOf_pos n, ?_⟩
  unfold countOf
  split
  · exact Nat.le_refl _
  · exact Nat.le_of_lt h

theorem blockSize_counts (c : Channel) : Counts c.blockSize := by
  refine countOf_counts ?_
  have hle : (c.blockControl &&& 0xFFFF).toNat ≤ 0xFFFF := by
    rw [UInt32.toNat_and]
    exact Nat.and_le_right
  omega

theorem blockCount_counts (c : Channel) : Counts c.blockCount := by
  refine countOf_counts ?_
  have hlt := c.blockControl.toNat_lt
  rw [UInt32.toNat_shiftRight, show (16 : UInt32).toNat % 32 = 16 from rfl,
    Nat.shiftRight_eq_div_pow]
  omega

/-! ### Registers -/

/-- An idle channel whose start bit is clear has nothing to answer for. -/
theorem Regular.of_idle (hp : c.progress = none) (hs : c.control &&& startBit = 0)
    (ha : c.address.toNat < 2 ^ 24) : c.Regular where
  busy h := by
    unfold isBusy at h
    rw [hp] at h
    cases h
  idle _ h := absurd hs h
  address := ha
  bounded p h := by
    rw [hp] at h
    cases h

theorem initial_regular (id : UInt8) : (initial id).Regular := by
  refine .of_idle rfl ?_ (Nat.two_pow_pos 24)
  unfold initial
  dsimp only
  split <;> decide

/-- The address and the counts are no part of what the control register tells. -/
theorem Regular.withAddress (h : c.Regular) {a : UInt32} (ha : a.toNat < 2 ^ 24) (n : UInt32) :
    { c with address := a, blockControl := n }.Regular :=
  ⟨h.busy, h.idle, ha, h.bounded⟩

theorem start_regular (hs : c.control &&& startBit ≠ 0) (ha : c.address.toNat < 2 ^ 24) :
    c.start.Regular where
  busy _ := hs
  idle h := by cases h
  address := ha
  bounded p hp := by
    have hone : Counts 1 := ⟨Nat.le_refl _, by decide⟩
    simp only [start, Option.some.injEq] at hp
    subst hp
    split
    · exact c.blockSize_counts
    · split
      · exact ⟨c.blockSize_counts, hone⟩
      · exact ⟨c.blockSize_counts, c.blockCount_counts⟩
      · trivial

theorem finish_regular (ha : c.address.toNat < 2 ^ 24) : c.finish.Regular := by
  refine .of_idle rfl ?_ ha
  show c.control &&& ~~~(startBit ||| triggerBit) &&& startBit = 0
  rw [UInt32.and_assoc]
  exact UInt32.and_zero

/-- A transfer that does not want to start is a manual one without its trigger. -/
theorem manual_of_not_wantsStart (h : ¬c.wantsStart = true) (hs : c.control &&& startBit ≠ 0) :
    c.syncMode = .manual ∧ c.isTriggered = false := by
  have hstart : (c.control &&& startBit != 0) = true := bne_iff_ne.2 hs
  unfold wantsStart at h
  rw [hstart, Bool.true_and, Bool.or_eq_true, not_or] at h
  obtain ⟨hmode, htrigger⟩ := h
  exact ⟨by simpa using hmode, Bool.eq_false_iff.2 htrigger⟩

theorem Regular.writeControl (h : c.Regular) (value : UInt32) : (c.writeControl value).Regular := by
  unfold Channel.writeControl
  dsimp only
  split
  · split
    · -- the abort leaves the channel idle
      rename_i hvalue
      refine .of_idle rfl ?_ h.address
      show value &&& ~~~triggerBit &&& startBit = 0
      rw [UInt32.and_assoc, UInt32.and_comm (~~~triggerBit), ← UInt32.and_assoc,
        eq_of_beq hvalue, UInt32.zero_and]
    · exact h
  · rename_i hidle
    have hnone : c.progress = none := by
      unfold isBusy at hidle
      simpa using hidle
    split
    · rename_i hwants
      unfold wantsStart at hwants
      rw [Bool.and_eq_true, bne_iff_ne] at hwants
      exact start_regular hwants.1 h.address
    · rename_i hwants
      refine ⟨fun hbusy => ?_, fun _ hs => manual_of_not_wantsStart hwants hs, h.address, h.bounded⟩
      exact absurd hbusy hidle

/-- The start and the trigger bit come together with the transfer. -/
theorem Regular.trigger (h : c.Regular) :
    { c with control := c.control ||| (startBit ||| triggerBit) }.start.Regular := by
  refine start_regular (fun hzero => ?_) h.address
  rw [or_and, show (startBit ||| triggerBit) &&& startBit = startBit from rfl] at hzero
  have hbit := congrArg UInt32.toNat hzero
  rw [UInt32.toNat_or] at hbit
  have hle : startBit.toNat ≤ (c.control &&& startBit).toNat ||| startBit.toNat := Nat.right_le_or
  rw [hbit] at hle
  exact absurd hle (by decide)

/-- Configuring an idle channel clears its start bit, whatever the direction and the mode. -/
theorem configured_start {keep bits : UInt32} (hb : bits &&& startBit = 0) :
    (keep &&& ~~~(0x601 ||| startBit ||| triggerBit) ||| bits) &&& startBit = 0 := by
  rw [or_and, hb, UInt32.and_assoc,
    show ~~~(0x601 ||| startBit ||| triggerBit) &&& startBit = 0 from rfl, UInt32.and_zero]
  rfl

/-! ### Slices -/

variable {wordsLeft blocksLeft chunk : Nat} {ram : ByteArray} {p : Progress}

theorem afterChunk_registers (c : Channel) (wordsLeft blocksLeft chunk : Nat) :
    (c.afterChunk wordsLeft blocksLeft chunk).1.address = c.address ∧
      (c.afterChunk wordsLeft blocksLeft chunk).1.control = c.control := by
  unfold afterChunk
  dsimp only
  split
  · exact ⟨rfl, rfl⟩
  · split <;> split <;> exact ⟨rfl, rfl⟩

/-- A chunk that is not the last leaves counts: fewer words of the block, or the next block. -/
theorem afterChunk_bounded (c : Channel) (hp : (Progress.blocks wordsLeft blocksLeft).Bounded)
    (hmore : (c.afterChunk wordsLeft blocksLeft chunk).2 = false) :
    ∃ p, (c.afterChunk wordsLeft blocksLeft chunk).1.progress = some p ∧ p.Bounded := by
  obtain ⟨hwords, hblocks⟩ := hp
  unfold Counts at hwords hblocks
  have hrest : 0 < blocksLeft - 1 → Counts (blocksLeft - 1) := fun h => ⟨h, by omega⟩
  unfold afterChunk at hmore ⊢
  dsimp only at hmore ⊢
  split at hmore
  · rename_i hleft
    rw [if_pos hleft]
    exact ⟨_, rfl, ⟨by omega, by omega⟩, hblocks⟩
  · rename_i hleft
    rw [if_neg hleft]
    split at hmore
    · cases hmore
    · rename_i hlast
      rw [if_neg hlast]
      exact ⟨_, rfl, blockSize_counts _, hrest (Nat.pos_of_ne_zero hlast)⟩

theorem advanced_address_lt (h : c.address.toNat < 2 ^ 24) (n : Nat) :
    (c.advanced n).address.toNat < 2 ^ 24 := by
  unfold advanced
  split
  · exact h
  · exact and_addressMask_lt _

/-- The plan of a chunk is the chunk, whichever way the words go. -/
theorem plan_blocks (c : Channel) (ram : ByteArray) (wordsLeft blocksLeft : Nat) :
    let q := c.plan ram (.blocks wordsLeft blocksLeft)
    let n := c.chunk wordsLeft
    q.words = n ∧ (q.channel, q.completed) = (c.advanced n).afterChunk wordsLeft blocksLeft n := by
  unfold plan
  dsimp only
  cases c.direction with
  | toRam => exact ⟨rfl, rfl⟩
  | fromRam => exact ⟨rfl, rfl⟩

/-- What a slice leaves of a regular channel is regular. -/
theorem Regular.after (h : c.Regular) (hp : c.progress = some p) : (c.plan ram p).after.Regular := by
  have hbusy : c.control &&& startBit ≠ 0 := h.busy (by unfold isBusy; rw [hp]; rfl)
  cases p with
  | blocks wordsLeft blocksLeft =>
    obtain ⟨-, hplan⟩ := c.plan_blocks ram wordsLeft blocksLeft
    generalize c.plan ram (.blocks wordsLeft blocksLeft) = q at hplan ⊢
    let n := c.chunk wordsLeft
    obtain ⟨haddress, hcontrol⟩ := (c.advanced n).afterChunk_registers wordsLeft blocksLeft n
    have hlt : q.channel.address.toNat < 2 ^ 24 := by
      rw [show q.channel = _ from congrArg Prod.fst hplan, haddress]
      exact advanced_address_lt h.address n
    unfold Plan.after
    cases hq : q.completed with
    | true => exact finish_regular hlt
    | false =>
      have hmore := (congrArg Prod.snd hplan).symm.trans hq
      obtain ⟨p', hp', hb⟩ := afterChunk_bounded _ (h.bounded _ hp) hmore
      have hchannel : q.channel = _ := congrArg Prod.fst hplan
      have hsame : (c.advanced n).control = c.control := by rw [c.advanced_eq]
      rw [← hchannel] at hcontrol hp'
      refine ⟨fun _ => ?_, fun hidle => ?_, hlt, fun p'' hp'' => ?_⟩
      · show q.channel.control &&& startBit ≠ 0
        rwa [hcontrol, hsame]
      · change q.channel.isBusy = false at hidle
        unfold isBusy at hidle
        rw [hp'] at hidle
        cases hidle
      · change q.channel.progress = some p'' at hp''
        rw [hp'] at hp''
        cases hp''
        exact hb
  | linkedList =>
    have hlt : (link ram c.address).toNat < 2 ^ 24 := and_addressMask_lt _
    rw [after_list]
    dsimp only
    split
    · exact finish_regular hlt
    · exact h.withAddress hlt c.blockControl
  | orderingTable entries => exact finish_regular (and_ramWordMask_lt _)

/-- A slice moves a word or more, and what is left suffices for it. -/
theorem plan_words (c : Channel) (ram : ByteArray) (h : p.Bounded) :
    1 ≤ (c.plan ram p).words ∧ p.Suffices (c.plan ram p).words := by
  cases p with
  | blocks wordsLeft blocksLeft =>
    obtain ⟨hwords, -⟩ := c.plan_blocks ram wordsLeft blocksLeft
    rw [hwords]
    exact ⟨c.chunk_pos h.1.1, c.chunk_le wordsLeft, h.2.1⟩
  | linkedList => exact ⟨Nat.succ_pos _, trivial⟩
  | orderingTable entries => exact ⟨h.1, Nat.le_refl _⟩

end Channel

end Psx.Dma
