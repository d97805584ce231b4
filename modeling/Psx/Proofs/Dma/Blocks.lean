import Mathlib.Tactic.ByContra
import Psx.Proofs.Dma.Progress

/-!
# Block transfers, chunk by chunk

A block transfer is cut twice, into blocks by its size and into chunks by the chopping window, and
the one does not divide the other. What a chunk leaves is told by the number of words moved so far
(`Channel.Underway`): the address is that many words on, and what is left of the block and the blocks
behind it make up the rest. So each chunk that is not the last leaves a transfer underway, and the
last one, wherever the cuts have been, the channel as `Channel.finished` has it
(`Underway.afterChunk`).
-/

namespace Psx.Dma

theorem and_addressMask (a : UInt32) : (a &&& addressMask).toNat = a.toNat % 0x1000000 := by
  rw [UInt32.toNat_and, show addressMask.toNat = 2 ^ 24 - 1 from rfl,
    Nat.and_two_pow_sub_one_eq_mod]

theorem and_ramWordMask (a : UInt32) : a &&& ramWordMask = (a &&& addressMask) &&& ramWordMask := by
  rw [UInt32.and_assoc, show addressMask &&& ramWordMask = ramWordMask from rfl]

namespace Channel

variable (c : Channel)

/-! ### Addresses -/

def isBackward : Bool := c.control &&& backwardBit != 0

/-- The address so many words on. -/
def place (n : Nat) : UInt32 :=
  if c.isBackward then c.address - UInt32.ofNat (4 * n) else c.address + UInt32.ofNat (4 * n)

/-- Where in RAM the word is that comes after so many others. -/
def wordAt (n : Nat) : Nat := (c.place n &&& ramWordMask).toNat

/-- The channel so many words on. The address register has no more than 24 bits, once it has been
stepped. -/
def advanced (n : Nat) : Channel :=
  if n = 0 then c else { c with address := c.place n &&& addressMask }

/-- Addresses are counted modulo 2^24. -/
theorem place_toNat (n : Nat) : ((c.place n &&& addressMask).toNat : Int) =
    (c.address.toNat + if c.isBackward then -(4 * n : Int) else 4 * n) % 0x1000000 := by
  have hlt := c.address.toNat_lt
  rw [and_addressMask]
  unfold place
  split
  · rw [UInt32.toNat_sub, UInt32.toNat_ofNat']
    omega
  · rw [UInt32.toNat_add, UInt32.toNat_ofNat']
    omega

variable {c} in
/-- Where one is further on does not depend on the bits above the 24. -/
theorem place_add {d : Channel} {m n : Nat} (hb : d.isBackward = c.isBackward)
    (ha : d.address &&& addressMask = c.place m &&& addressMask) :
    d.place n &&& addressMask = c.place (m + n) &&& addressMask := by
  have hd := d.place_toNat n
  have hc := c.place_toNat (m + n)
  have hm := c.place_toNat m
  rw [← ha, and_addressMask] at hm
  rw [hb] at hd
  apply UInt32.toNat_inj.1
  cases hback : c.isBackward <;>
    simp only [hback, if_true, if_false, Bool.false_eq_true] at hd hc hm <;> omega

theorem stepped_eq : c.stepped = c.place 1 &&& addressMask := by
  unfold stepped place isBackward
  split <;> rfl

theorem place_zero : c.place 0 = c.address := by
  unfold place
  split
  · exact UInt32.sub_zero _
  · exact UInt32.add_zero _

theorem advanced_address (n : Nat) :
    (c.advanced n).address &&& addressMask = c.place n &&& addressMask := by
  unfold advanced
  split
  · rename_i h
    rw [h, place_zero]
  · exact (UInt32.and_assoc ..).trans (congrArg _ (UInt32.and_self ..))

theorem advanced_eq (n : Nat) : c.advanced n = { c with address := (c.advanced n).address } := by
  unfold advanced
  split <;> rfl

theorem wordAt_zero : c.wordAt 0 = (c.address &&& ramWordMask).toNat := by
  unfold wordAt
  rw [place_zero]

section

variable {c} {d : Channel} {m : Nat} (hb : d.isBackward = c.isBackward)
  (ha : d.address = (c.advanced m).address)

include hb ha

theorem wordAt_add (n : Nat) : d.wordAt n = c.wordAt (m + n) := by
  unfold wordAt
  rw [and_ramWordMask, and_ramWordMask (c.place (m + n)), place_add hb (by
    rw [ha, advanced_address])]

theorem advanced_add (n : Nat) : (d.advanced n).address = (c.advanced (m + n)).address := by
  by_cases hn : n = 0
  · subst hn
    exact ha
  · unfold advanced
    rw [if_neg hn, if_neg (by omega)]
    exact place_add hb (by rw [ha, advanced_address])

end

theorem advanced_advanced (m n : Nat) : (c.advanced m).advanced n = c.advanced (m + n) := by
  have hbackward : (c.advanced m).isBackward = c.isBackward := by
    rw [advanced_eq]
    rfl
  rw [advanced_eq, advanced_add hbackward rfl, c.advanced_eq m, ← advanced_eq]

theorem advanced_one : c.advanced 1 = { c with address := c.stepped } := by
  rw [stepped_eq]
  rfl

/-! ### What a transfer comes to -/

/-- The words of a transfer that is not along a list. -/
def total : Nat := c.blockSize * if c.syncMode = .block then c.blockCount else 1

/-- The registers when all words have been moved. -/
def finished : Channel :=
  { c with
    address := c.place c.total &&& addressMask
    control := c.control &&& ~~~(startBit ||| triggerBit)
    blockControl := if c.syncMode = .block then c.blockControl &&& 0xFFFF else c.blockControl
    progress := none }

/-- So many words of the transfer have been moved, and words of the current block and this block and
others are left. -/
structure Underway (c : Channel) (moved wordsLeft blocksLeft : Nat) (d : Channel) : Prop where
  progress : d.progress = some (.blocks wordsLeft blocksLeft)
  address : d.address = (c.advanced moved).address
  control : d.control = c.control
  id : d.id = c.id
  size : d.blockControl &&& 0xFFFF = c.blockControl &&& 0xFFFF
  manual : c.syncMode ≠ .block → blocksLeft = 1 ∧ d.blockControl = c.blockControl
  words : 0 < wordsLeft
  blocks : 0 < blocksLeft
  rest : moved + wordsLeft + (blocksLeft - 1) * c.blockSize = c.total

variable {c}

/-- Only the channel of the tables has its number. -/
theorem id_ne_six {i : Fin 7} (hi : i.val < 6) (hid : c.id = UInt8.ofNat i) : c.id ≠ 6 := by
  rw [hid]
  intro h
  have h := congrArg UInt8.toNat h
  rw [UInt8.toNat_ofNat', show (6 : UInt8).toNat = 6 from rfl] at h
  omega

theorem underway_start (hid : c.id ≠ 6) (hm : c.syncMode ≠ .linkedList) :
    ∃ blocksLeft, c.Underway 0 c.blockSize blocksLeft c.start := by
  have hid' : (c.id == 6) = false := beq_eq_false_iff_ne.2 hid
  have hsize : 0 < c.blockSize := countOf_pos _
  have hcount : 0 < c.blockCount := countOf_pos _
  unfold start
  rw [hid']
  cases hs : c.syncMode with
  | manual =>
    refine ⟨1, ⟨rfl, rfl, rfl, rfl, rfl, fun _ => ⟨rfl, rfl⟩, hsize, Nat.one_pos, ?_⟩⟩
    unfold total
    rw [hs, if_neg (by decide)]
    omega
  | block =>
    refine ⟨c.blockCount, ⟨rfl, rfl, rfl, rfl, rfl, fun h => absurd hs h, hsize, hcount, ?_⟩⟩
    obtain ⟨k, hk⟩ := Nat.exists_eq_add_of_lt hcount
    unfold total
    rw [if_pos hs, show c.blockCount = k + 1 by omega, Nat.mul_succ, Nat.add_sub_cancel,
      Nat.mul_comm]
    omega
  | linkedList => exact absurd hs hm

theorem Underway.lt {d : Channel} {moved wordsLeft blocksLeft : Nat}
    (h : c.Underway moved wordsLeft blocksLeft d) : moved < c.total := by
  have hwords := h.words
  have hrest := h.rest
  omega

theorem Underway.isBusy {d : Channel} {moved wordsLeft blocksLeft : Nat}
    (h : c.Underway moved wordsLeft blocksLeft d) : d.isBusy = true := by
  unfold Channel.isBusy
  rw [h.progress]
  rfl

/-! ### A chunk -/

theorem chunk_le (d : Channel) (wordsLeft : Nat) : d.chunk wordsLeft ≤ wordsLeft := by
  unfold chunk
  split
  · exact Nat.min_le_left ..
  · exact Nat.le_refl _

theorem chunk_pos (d : Channel) {wordsLeft : Nat} (h : 0 < wordsLeft) : 0 < d.chunk wordsLeft := by
  unfold chunk chopWords?
  split
  · rename_i limit hl
    split at hl
    · cases hl
      have hpow : 0 < 1 <<< ((d.control >>> 16) &&& 7).toNat := by
        rw [Nat.one_shiftLeft]
        exact Nat.two_pow_pos _
      omega
    · cases hl
  · exact h

theorem withCount_and (blockControl : UInt32) (count : Nat) :
    withCount blockControl count &&& 0xFFFF = blockControl &&& 0xFFFF := by
  have hlow : ∀ x : UInt32, (x &&& 0xFFFF).toNat = x.toNat % 2 ^ 16 := fun x => by
    rw [UInt32.toNat_and, show (0xFFFF : UInt32).toNat = 2 ^ 16 - 1 from rfl,
      Nat.and_two_pow_sub_one_eq_mod]
  have hshifted : (UInt32.ofNat count <<< 16).toNat % 2 ^ 16 = 0 := by
    rw [UInt32.toNat_shiftLeft, show (16 : UInt32).toNat % 32 = 16 from rfl, Nat.shiftLeft_eq]
    omega
  apply UInt32.toNat_inj.1
  unfold withCount
  rw [hlow, UInt32.toNat_or, Nat.or_mod_two_pow, hshifted, Nat.or_zero, hlow, Nat.mod_mod, ← hlow]

theorem withCount_zero (blockControl : UInt32) :
    withCount blockControl 0 = blockControl &&& 0xFFFF := by
  unfold withCount
  exact UInt32.or_zero

/-- A chunk leaves less of a transfer underway, or it is the last one. -/
theorem Underway.afterChunk {d : Channel} {moved wordsLeft blocksLeft : Nat}
    (h : c.Underway moved wordsLeft blocksLeft d) {chunk : Nat} (hpos : 0 < chunk)
    (hle : chunk ≤ wordsLeft) :
    let r := (d.advanced chunk).afterChunk wordsLeft blocksLeft chunk
    (r.2 = true ∧ moved + chunk = c.total ∧ r.1.finish = c.finished) ∨
      (r.2 = false ∧ ∃ wordsLeft' blocksLeft',
        c.Underway (moved + chunk) wordsLeft' blocksLeft' r.1) := by
  have hblocks := h.blocks
  have hrest := h.rest
  have hbackward : d.isBackward = c.isBackward := by
    unfold isBackward
    rw [h.control]
  have haddress := advanced_add hbackward h.address chunk
  obtain ⟨hcontrol, hid, hcount⟩ : (d.advanced chunk).control = c.control ∧
      (d.advanced chunk).id = c.id ∧ (d.advanced chunk).blockControl = d.blockControl := by
    rw [d.advanced_eq]
    exact ⟨h.control, h.id, rfl⟩
  generalize d.advanced chunk = e at haddress hcontrol hid hcount
  have hsync : e.syncMode = c.syncMode := by
    unfold syncMode
    rw [hcontrol]
  have hsize : e.blockControl &&& 0xFFFF = c.blockControl &&& 0xFFFF := by rw [hcount, h.size]
  dsimp only
  unfold Channel.afterChunk
  by_cases hmore : wordsLeft - chunk ≠ 0
  · -- a chunk within the block
    rw [if_pos hmore]
    exact .inr ⟨decide_eq_false (by omega), wordsLeft - chunk, blocksLeft,
      ⟨rfl, haddress, hcontrol, hid, hsize,
        fun hs => ⟨(h.manual hs).1, hcount.trans (h.manual hs).2⟩, by omega, hblocks, by omega⟩⟩
  · rw [if_neg hmore, hsync]
    dsimp only
    by_cases hlast : blocksLeft - 1 = 0
    · -- the last block
      have hend : moved + chunk = c.total := by
        rw [hlast, Nat.zero_mul] at hrest
        omega
      have hnone : moved + chunk ≠ 0 := by omega
      rw [if_pos hlast, hlast, withCount_zero, hsize]
      refine .inl ⟨rfl, hend, ?_⟩
      unfold advanced at haddress
      rw [if_neg hnone, hend] at haddress
      unfold finish finished
      by_cases hs : c.syncMode = .block
      · rw [if_pos hs, if_pos hs]
        dsimp only
        rw [haddress, hcontrol, hid]
      · rw [if_neg hs, if_neg hs]
        dsimp only
        rw [haddress, hcontrol, hid, hcount, (h.manual hs).2]
    · -- the next block
      have hs : c.syncMode = .block := by
        by_contra hs
        exact hlast (by rw [(h.manual hs).1])
      rw [if_neg hlast, if_pos hs]
      refine .inr ⟨rfl, c.blockSize, blocksLeft - 1, ⟨?_, haddress, hcontrol, hid,
        (withCount_and ..).trans hsize, fun hm => absurd hs hm, countOf_pos _, by omega, ?_⟩⟩
      · dsimp only
        unfold blockSize
        rw [withCount_and, hsize]
      · obtain ⟨k, hk⟩ := Nat.exists_eq_add_of_le (Nat.pos_of_ne_zero hlast)
        rw [hk, Nat.add_sub_cancel_left]
        rw [hk, Nat.add_mul, Nat.one_mul] at hrest
        omega

end Channel

/-! ### The controller -/

variable (d : Dma)

theorem channel_complete (i j : Fin 7) :
    (d.complete i).2.channel j = if i = j then (d.channel i).finish else d.channel j := by
  have hflag : ∀ d : Dma, d.updateMasterFlag.2.channel j = d.channel j := fun d => by
    unfold channel
    rw [updateMasterFlag_channels]
  rw [← channel_modify]
  unfold complete
  dsimp only
  rw [hflag]
  split <;> rfl

theorem control_complete (i : Fin 7) : (d.complete i).2.control = d.control := by
  have hflag : ∀ d : Dma, d.updateMasterFlag.2.control = d.control := fun d => by
    unfold updateMasterFlag
    split <;> rfl
  unfold complete
  dsimp only
  rw [hflag]
  split <;> rfl

theorem isEnabled_congr {d d' : Dma} (hc : d'.control = d.control) (i : Fin 7) :
    d'.isEnabled i = d.isEnabled i := by
  unfold isEnabled field
  rw [hc]

theorem isRunnable_congr {d d' : Dma} (hc : d'.control = d.control) {i : Fin 7}
    (hi : d'.channel i = d.channel i) : d'.isRunnable i = d.isRunnable i := by
  unfold isRunnable
  rw [isEnabled_congr hc, hi]

theorem hasPendingWork_iff : d.hasPendingWork = true ↔ ∃ i, d.isRunnable i = true := by
  unfold hasPendingWork
  rw [List.any_eq_true]
  have hall : ∀ i : Fin 7, i ∈ ([0, 1, 2, 3, 4, 5, 6] : List (Fin 7)) := by decide
  exact ⟨fun ⟨i, _, h⟩ => ⟨i, h⟩, fun ⟨i, h⟩ => ⟨i, hall i, h⟩⟩

/-- The best of some channels may run, and there is one as soon as one of them may run. -/
theorem foldl_prefer (channels : List (Fin 7)) {best : Option (Fin 7)}
    (hbest : ∀ b, best = some b → d.isRunnable b = true) :
    (∀ i, channels.foldl d.prefer best = some i → d.isRunnable i = true) ∧
      (channels.foldl d.prefer best = none ↔
        best = none ∧ ∀ i ∈ channels, d.isRunnable i = false) := by
  induction channels generalizing best with
  | nil => exact ⟨hbest, by simp⟩
  | cons j channels ih =>
    rw [List.foldl_cons]
    by_cases hj : d.isRunnable j = true
    · have hsome : ∃ k, d.prefer best j = some k ∧ d.isRunnable k = true := by
        unfold prefer
        rw [hj]
        cases hb : best with
        | none => exact ⟨j, rfl, hj⟩
        | some b =>
          dsimp only
          split
          · exact ⟨b, rfl, hbest b hb⟩
          · split
            · exact ⟨j, rfl, hj⟩
            · exact ⟨b, rfl, hbest b hb⟩
      obtain ⟨k, hk, hrun⟩ := hsome
      have hbest' : ∀ b, some k = some b → d.isRunnable b = true := by
        rintro b ⟨⟩
        exact hrun
      obtain ⟨hall, hnone⟩ := ih hbest'
      rw [hk]
      refine ⟨hall, hnone.trans ?_⟩
      simp [hj]
    · have hsame : d.prefer best j = best := by
        unfold prefer
        rw [if_pos (by simpa using hj)]
      obtain ⟨hall, hnone⟩ := ih hbest
      rw [hsame]
      exact ⟨hall, hnone.trans (by simp [hj])⟩

variable {d} in
theorem isRunnable_of_nextChannel? {i : Fin 7} (h : d.nextChannel? = some i) :
    d.isRunnable i = true :=
  (d.foldl_prefer _ fun b hb => by cases hb).1 i h

/-- There is a next channel if and only if some channel may run. -/
theorem nextChannel?_eq_none : d.nextChannel? = none ↔ d.hasPendingWork = false := by
  unfold nextChannel?
  rw [(d.foldl_prefer _ fun b hb => by cases hb).2, ← Bool.not_eq_true, hasPendingWork_iff]
  simp only [true_and, not_exists, Bool.not_eq_true]
  have hall : ∀ i : Fin 7, i ∈ ([6, 5, 4, 3, 2, 1, 0] : List (Fin 7)) := by decide
  exact ⟨fun h i => h i (hall i), fun h i _ => h i⟩

variable {d} in
theorem hasPendingWork_eq_false {i : Fin 7} (hi : d.isRunnable i = false)
    (h : ∀ j, j ≠ i → d.isRunnable j = false) : d.hasPendingWork = false := by
  rw [← Bool.not_eq_true, hasPendingWork_iff]
  rintro ⟨j, hj⟩
  by_cases hji : j = i
  · rw [hji, hi] at hj
    cases hj
  · rw [h j hji] at hj
    cases hj

variable {d} in
/-- A channel that alone may run is the next one. -/
theorem nextChannel?_alone {i : Fin 7} (hi : d.isRunnable i = true)
    (h : ∀ j, j ≠ i → d.isRunnable j = false) : d.nextChannel? = some i := by
  have hrun : ∀ j, d.isRunnable j = decide (j = i) := fun j => by
    by_cases hj : j = i
    · rw [hj, hi, decide_eq_true rfl]
    · rw [h j hj, decide_eq_false hj]
  unfold nextChannel? prefer
  simp only [hrun]
  match i with
  | 0 | 1 | 2 | 3 | 4 | 5 | 6 => rfl

end Psx.Dma
