import Psx.Proofs.Bus.Carry
import Psx.Proofs.Bus.Core

/-!
# The turns of a channel

A channel moves a block transfer in turns, one slice each, and between them anything may happen that
leaves its registers alone: other channels have their turns, the processor runs, the devices move.
Each turn carries the words that come next (`Bus.Served`), so the cuts never show: the words of all
turns are those of the transfer, each once and in order, and the turn that carries the last of them
completes it (`Bus.moves_programmed`).

The invariant between the turns is `Channel.Underway`, with the words moved so far. A slice that is
not the last moves it on by the words of the slice, which are never none; so a channel that is served
again and again gets to the end.
-/

namespace Psx

/-- A slice that a channel has been given, with the bus before and after it. -/
structure Turn (δ : Type) where
  before : Bus δ
  slice : Dma.Slice
  after : Bus δ

variable {δ : Type} [Device δ]

namespace Turn

/-- The words of some turns. -/
def words (turns : List (Turn δ)) : Nat := (turns.map (·.slice.words)).sum

/-- A turn carries the words of a transfer from a number on, and RAM changes nowhere else. -/
structure Carries (x : Turn δ) (i : Fin 7) (c : Dma.Channel) (first : Nat) : Prop where
  some_words : 0 < x.slice.words
  carried : ∃ asks dma, x.after = (x.before.carry i c first x.slice.words).withDma asks dma
  ram : ∀ j, (c.direction = .toRam → ∀ k < x.slice.words,
      j < c.wordAt (first + k) ∨ c.wordAt (first + k) + 4 ≤ j) →
    Bytes.byteAt x.after.memory.ram j = Bytes.byteAt x.before.memory.ram j

end Turn

/-- The turns of a channel from registers on to others, which are left alone between the turns. -/
inductive Turns (i : Fin 7) : Dma.Channel → List (Turn δ) → Dma.Channel → Prop
  | none {d} : Turns i d [] d
  | next {x : Turn δ} {turns d} : x.before.runSlice = (some x.slice, x.after) →
    x.slice.channel = i → Turns i (x.after.board.dma.channel i) turns d →
    Turns i (x.before.board.dma.channel i) (x :: turns) d

namespace Bus

/-- Runs slices one after another; the answer is those that were run. -/
def runSlices (b : Bus δ) : Nat → List Dma.Slice × Bus δ
  | 0 => ([], b)
  | n + 1 =>
    let r := b.runSlice.2.runSlices n
    (b.runSlice.1.toList ++ r.1, r.2)

variable {b b' : Bus δ} {i : Fin 7} {c : Dma.Channel} {slice : Dma.Slice}
  {moved wordsLeft blocksLeft : Nat}

/-! ### One turn -/

/-- A slice has carried the words that come next. It was the last, or it leaves the transfer underway
and the rest of the controller as it was. -/
structure Served (i : Fin 7) (c : Dma.Channel) (moved : Nat) (b : Bus δ) (slice : Dma.Slice)
    (b' : Bus δ) : Prop where
  channel : slice.channel = i
  some_words : 0 < slice.words
  carried : ∃ asks, (slice.completed = false → asks = false) ∧
    b' = (b.carry i c moved slice.words).withDma asks b'.board.dma
  control : b'.board.dma.control = b.board.dma.control
  others : ∀ j, j ≠ i → b'.board.dma.channel j = b.board.dma.channel j
  left : (slice.completed = true ∧ moved + slice.words = c.total ∧
      b'.board.dma.channel i = c.finished) ∨
    (slice.completed = false ∧ ∃ wordsLeft blocksLeft,
      c.Underway (moved + slice.words) wordsLeft blocksLeft (b'.board.dma.channel i))

theorem runSlice_blocks (hn : b.board.dma.nextChannel? = some i)
    (hp : (b.board.dma.channel i).progress = some (.blocks wordsLeft blocksLeft)) :
    let d := b.board.dma.channel i
    let n := d.chunk wordsLeft
    let r := (d.advanced n).afterChunk wordsLeft blocksLeft n
    let dma := b.board.dma.modify i fun _ => r.1
    let p := if r.2 then dma.complete i else (false, dma)
    ∃ gap, b.runSlice = (some { channel := i, words := n, gap, completed := r.2 },
      (b.carry i d 0 n).withDma p.1 p.2) := by
  intro d n r dma p
  have hmove : b.moveSlice i d (.blocks wordsLeft blocksLeft) = (n, r.2, r.1, b.carry i d 0 n) := by
    unfold moveSlice
    dsimp only
    rw [moveWords_eq]
  have hdma : (b.carry i d 0 n).board.dma = b.board.dma := b.carry_dma ..
  refine ⟨r.1.chopGap?.getD b.board.dma.sliceGap, ?_⟩
  unfold runSlice
  rw [hn]
  dsimp only
  rw [hp]
  dsimp only
  rw [hmove]
  dsimp only
  rw [hdma]
  rfl

/-- A channel that is next while its transfer is underway is served. -/
theorem runSlice_underway (hn : b.board.dma.nextChannel? = some i)
    (h : c.Underway moved wordsLeft blocksLeft (b.board.dma.channel i)) :
    ∃ slice b', b.runSlice = (some slice, b') ∧ Served i c moved b slice b' := by
  have hpos := (b.board.dma.channel i).chunk_pos h.words
  have hafter := h.afterChunk hpos ((b.board.dma.channel i).chunk_le wordsLeft)
  have hcarried := b.carry_advanced i h.control h.address
    ((b.board.dma.channel i).chunk wordsLeft)
  obtain ⟨gap, hrun⟩ := runSlice_blocks hn h.progress
  rw [hcarried] at hrun
  refine ⟨_, _, hrun, rfl, hpos, ⟨_, fun hmore => ?_, rfl⟩, ?_, fun j hj => ?_, ?_⟩
  · rw [if_neg (Bool.eq_false_iff.1 hmore)]
  -- what else the slice leaves is seen in the controller
  all_goals
    rcases hafter with ⟨hlast, hend, hfinished⟩ | ⟨hmore, wordsLeft', blocksLeft', hunderway⟩
  · rw [if_pos hlast]
    exact Dma.control_complete ..
  · rw [if_neg (Bool.eq_false_iff.1 hmore)]
    rfl
  · rw [if_pos hlast]
    exact (Dma.channel_complete ..).trans ((if_neg hj.symm).trans
      ((Dma.channel_modify ..).trans (if_neg hj.symm)))
  · rw [if_neg (Bool.eq_false_iff.1 hmore)]
    exact (Dma.channel_modify ..).trans (if_neg hj.symm)
  · rw [if_pos hlast]
    refine .inl ⟨hlast, hend, (Dma.channel_complete ..).trans ((if_pos rfl).trans ?_)⟩
    rw [Dma.channel_modify, if_pos rfl]
    exact hfinished
  · rw [if_neg (Bool.eq_false_iff.1 hmore)]
    refine .inr ⟨hmore, wordsLeft', blocksLeft', ?_⟩
    rw [show ∀ dma : Dma, (withDma (b.carry i c moved _) false dma).board.dma = dma from
      fun _ => rfl, Dma.channel_modify, if_pos rfl]
    exact hunderway

/-- A slice that has been run is one of the channel that was next, which had a transfer in flight. -/
theorem nextChannel?_of_runSlice (h : b.runSlice = (some slice, b')) :
    b.board.dma.nextChannel? = some slice.channel ∧
      (b.board.dma.channel slice.channel).isBusy = true := by
  unfold runSlice at h
  split at h
  · cases h
  · rename_i channel hn
    dsimp only at h
    split at h
    · cases h
    · rename_i progress hp
      obtain ⟨hslice, -⟩ := Prod.mk.inj h
      cases hslice
      refine ⟨hn, ?_⟩
      unfold Dma.Channel.isBusy
      rw [hp]
      rfl

/-- There is a slice as long as some enabled channel has a transfer in flight. -/
theorem runSlice_none (h : b.runSlice = (none, b')) :
    b' = b ∧ b.board.dma.hasPendingWork = false := by
  unfold runSlice at h
  split at h
  · rename_i hn
    cases h
    exact ⟨rfl, b.board.dma.nextChannel?_eq_none.1 hn⟩
  · rename_i channel hn
    dsimp only at h
    split at h
    · rename_i hp
      have hrun := Dma.isRunnable_of_nextChannel? hn
      unfold Dma.isRunnable Dma.Channel.isBusy at hrun
      rw [hp] at hrun
      simp at hrun
    · cases h

theorem runSlice_idle (h : b.board.dma.hasPendingWork = false) : b.runSlice = (none, b) := by
  unfold runSlice
  rw [b.board.dma.nextChannel?_eq_none.2 h]

namespace Served

theorem completed_iff (h : Served i c moved b slice b') :
    slice.completed = true ↔ moved + slice.words = c.total := by
  rcases h.left with ⟨hlast, hend, -⟩ | ⟨hmore, wordsLeft, blocksLeft, hunderway⟩
  · exact ⟨fun _ => hend, fun _ => hlast⟩
  · have hlt := hunderway.lt
    rw [hmore]
    exact ⟨fun h => (by cases h), fun h => (by omega)⟩

theorem carries {x : Turn δ} (h : Served i c moved x.before x.slice x.after) :
    x.Carries i c moved := by
  obtain ⟨asks, -, hafter⟩ := h.carried
  refine ⟨h.some_words, ⟨asks, _, hafter⟩, fun j hj => ?_⟩
  rw [hafter]
  exact x.before.byteAt_carry i hj

end Served

end Bus

/-! ### All turns -/

namespace Turns

variable {i : Fin 7} {c d d' : Dma.Channel} {turns : List (Turn δ)}
  {moved wordsLeft blocksLeft : Nat}

/-- A channel with no transfer in flight has no turn. -/
theorem of_idle (h : Turns i d turns d') (hd : d.isBusy = false) : turns = [] ∧ d' = d := by
  cases h with
  | none => exact ⟨rfl, rfl⟩
  | next hrun hi _ =>
    have hbusy := (Bus.nextChannel?_of_runSlice hrun).2
    rw [hi] at hbusy
    rw [hbusy] at hd
    cases hd

theorem underway (h : Turns i d turns d') (hd : c.Underway moved wordsLeft blocksLeft d) :
    (∀ pre x post, turns = pre ++ x :: post →
      x.Carries i c (moved + Turn.words pre) ∧
      (x.slice.completed = true ↔ moved + Turn.words pre + x.slice.words = c.total) ∧
      (x.slice.completed = true → post = [])) ∧
    ((∃ wordsLeft blocksLeft,
        c.Underway (moved + Turn.words turns) wordsLeft blocksLeft d') ∨
      (moved + Turn.words turns = c.total ∧ d' = c.finished)) := by
  induction h generalizing moved wordsLeft blocksLeft with
  | none => exact ⟨fun pre x post h => by simp at h, .inl ⟨_, _, hd⟩⟩
  | @next x turns d' hrun hi hrest ih =>
    have hnext := (Bus.nextChannel?_of_runSlice hrun).1
    rw [hi] at hnext
    obtain ⟨slice, after, hrun', hserved⟩ := Bus.runSlice_underway hnext hd
    rw [hrun] at hrun'
    cases hrun'
    have hwords : ∀ pre : List (Turn δ),
        moved + Turn.words (x :: pre) = moved + x.slice.words + Turn.words pre := fun pre => by
      unfold Turn.words
      rw [List.map_cons, List.sum_cons, Nat.add_assoc]
    have hhead : x.Carries i c (moved + Turn.words ([] : List (Turn δ))) ∧
        (x.slice.completed = true ↔
          moved + Turn.words ([] : List (Turn δ)) + x.slice.words = c.total) :=
      ⟨hserved.carries, hserved.completed_iff⟩
    rcases hserved.left with ⟨hlast, hend, hfinished⟩ | ⟨hmore, wordsLeft', blocksLeft', hunderway⟩
    · -- nothing is in flight any more
      rw [hfinished] at hrest
      obtain ⟨rfl, rfl⟩ := hrest.of_idle rfl
      refine ⟨fun pre y post he => ?_, .inr ⟨hend, rfl⟩⟩
      obtain ⟨rfl, rfl, rfl⟩ : pre = [] ∧ y = x ∧ post = [] := by
        rcases pre with _ | ⟨z, pre⟩ <;> simp_all
      exact ⟨hhead.1, hhead.2, fun _ => rfl⟩
    · obtain ⟨hall, hleft⟩ := ih hunderway
      rw [hwords]
      refine ⟨fun pre y post he => ?_, hleft⟩
      rcases pre with _ | ⟨z, pre⟩
      · obtain ⟨rfl, rfl⟩ := List.cons.inj he
        exact ⟨hhead.1, hhead.2, fun hcompleted => by rw [hmore] at hcompleted; cases hcompleted⟩
      · obtain ⟨rfl, rfl⟩ := List.cons.inj he
        rw [hwords]
        exact hall pre y post rfl

end Turns

/-! ### One turn right after the other -/

namespace Bus

variable {b : Bus δ} {i : Fin 7} {c : Dma.Channel} {moved wordsLeft blocksLeft : Nat}

/-- A channel that alone may run gets to the end of its transfer, slice by slice. -/
theorem runSlices_underway (h : c.Underway moved wordsLeft blocksLeft (b.board.dma.channel i))
    (hi : b.board.dma.isEnabled i = true)
    (halone : ∀ j, j ≠ i → b.board.dma.isRunnable j = false) :
    ∃ n, moved + n < c.total ∧
      ((b.runSlices (n + 1)).1.map (·.completed)) = List.replicate n false ++ [true] ∧
      moved + ((b.runSlices (n + 1)).1.map (·.words)).sum = c.total ∧
      ∃ asks dma, (b.runSlices (n + 1)).2 =
        (b.carry i c moved (c.total - moved)).withDma asks dma ∧ dma.channel i = c.finished := by
  have hlt := h.lt
  -- by the words that are left, as a slice that is not the last moves one or more
  obtain ⟨k, hk⟩ : ∃ k, k = c.total - moved := ⟨_, rfl⟩
  induction k using Nat.strong_induction_on generalizing b moved wordsLeft blocksLeft with
  | _ k ih =>
    have hrunnable : b.board.dma.isRunnable i = true := by
      unfold Dma.isRunnable
      rw [hi, h.isBusy]
      rfl
    obtain ⟨slice, b', hrun, hserved⟩ :=
      runSlice_underway (Dma.nextChannel?_alone hrunnable halone) h
    obtain ⟨asks, hasks, hcarried⟩ := hserved.carried
    have hsome := hserved.some_words
    rcases hserved.left with ⟨hlast, hend, hfinished⟩ | ⟨hmore, wordsLeft', blocksLeft', hunderway⟩
    · refine ⟨0, by omega, ?_, ?_, asks, b'.board.dma, ?_, hfinished⟩
      · simp [runSlices, hrun, hlast]
      · simp [runSlices, hrun, hend]
      · rw [← hend, Nat.add_sub_cancel_left, ← hcarried]
        simp [runSlices, hrun]
    · have hlt' := hunderway.lt
      have henabled : ∀ j, b'.board.dma.isEnabled j = b.board.dma.isEnabled j := fun j => by
        unfold Dma.isEnabled Dma.field
        rw [hserved.control]
      obtain ⟨n, hn, hcompleted, hsum, asks', dma, hrest, hfinished⟩ :=
        ih (c.total - (moved + slice.words)) (by omega) hunderway
          (by rw [henabled]; exact hi)
          (fun j hj => by
            have hj' := halone j hj
            unfold Dma.isRunnable at hj' ⊢
            rw [henabled, hserved.others j hj]
            exact hj') hlt' rfl
      refine ⟨n + 1, by omega, ?_, ?_, asks', dma, ?_, hfinished⟩
      · rw [runSlices, hrun]
        dsimp only
        rw [List.map_append, hcompleted]
        simp [hmore, List.replicate_succ]
      · rw [runSlices, hrun]
        dsimp only
        rw [List.map_append, List.sum_append]
        simp only [Option.toList_some, List.map_cons, List.map_nil, List.sum_cons, List.sum_nil]
        omega
      · have hwhole : c.total - moved = slice.words + (c.total - (moved + slice.words)) := by omega
        rw [runSlices, hrun]
        dsimp only
        rw [hrest, hcarried, hasks hmore, carry_withDma, carry_add, ← hwhole]
        rfl

/-- Block and manual transfers move the words that they are programmed for, however they are chopped.
Whatever goes on between its turns, a channel whose registers are left alone carries the words of its
transfer, each once and in order, with some words in each turn; the turn that carries the last one
completes the transfer, and no other does. Until then it is served whenever it is next, and one that
alone may run gets there. -/
theorem moves_programmed (hi : i.val < 6) (hid : c.id = UInt8.ofNat i)
    (hm : c.syncMode ≠ .linkedList) :
    (∀ (turns : List (Turn δ)) d, Turns i c.start turns d →
      (∀ pre x post, turns = pre ++ x :: post →
        x.Carries i c (Turn.words pre) ∧
        (x.slice.completed = true ↔ Turn.words pre + x.slice.words = c.total) ∧
        (x.slice.completed = true → post = [])) ∧
      ((Turn.words turns < c.total ∧ ∀ b : Bus δ, b.board.dma.channel i = d →
          b.board.dma.nextChannel? = some i →
            ∃ slice b', b.runSlice = (some slice, b') ∧ slice.channel = i) ∨
        (Turn.words turns = c.total ∧ d = c.finished))) ∧
    ∀ b : Bus δ, b.board.dma.channel i = c.start → b.board.dma.isEnabled i = true →
      (∀ j, j ≠ i → b.board.dma.isRunnable j = false) →
      ∃ n < c.total,
        ((b.runSlices (n + 1)).1.map (·.completed)) = List.replicate n false ++ [true] ∧
        ((b.runSlices (n + 1)).1.map (·.words)).sum = c.total ∧
        (∃ asks dma, (b.runSlices (n + 1)).2 = (b.carry i c 0 c.total).withDma asks dma ∧
          dma.channel i = c.finished) ∧
        ∀ j, (c.direction = .toRam → ∀ k < c.total, j < c.wordAt k ∨ c.wordAt k + 4 ≤ j) →
          Bytes.byteAt (b.runSlices (n + 1)).2.memory.ram j = Bytes.byteAt b.memory.ram j := by
  have hid' : c.id ≠ 6 := by
    rw [hid]
    intro h
    have hid := congrArg UInt8.toNat h
    rw [UInt8.toNat_ofNat', show (6 : UInt8).toNat = 6 from rfl] at hid
    omega
  obtain ⟨blocksLeft, hstart⟩ := Dma.Channel.underway_start hid' hm
  refine ⟨fun turns d h => ?_, fun b hb henabled halone => ?_⟩
  · obtain ⟨hall, hleft⟩ := h.underway hstart
    simp only [Nat.zero_add] at hall hleft
    refine ⟨hall, hleft.imp_left ?_⟩
    rintro ⟨wordsLeft, blocksLeft, hunderway⟩
    refine ⟨hunderway.lt, fun b hd hnext => ?_⟩
    rw [← hd] at hunderway
    obtain ⟨slice, b', hrun, hserved⟩ := runSlice_underway hnext hunderway
    exact ⟨slice, b', hrun, hserved.channel⟩
  · rw [← hb] at hstart
    obtain ⟨n, hn, hcompleted, hsum, asks, dma, hcarried, hfinished⟩ :=
      runSlices_underway hstart henabled halone
    rw [Nat.zero_add] at hn hsum
    rw [Nat.sub_zero] at hcarried
    refine ⟨n, hn, hcompleted, hsum, ⟨asks, dma, hcarried, hfinished⟩, fun j hj => ?_⟩
    rw [hcarried]
    exact b.byteAt_carry i fun hd k hk => by
      rw [Nat.zero_add]
      exact hj hd k hk

/-- Two blocks of three words each from RAM to the GPU, chopped to two words a slice. -/
def chopped : Dma.Channel :=
  { Dma.Channel.initial 2 with blockControl := 0x00020003, control := 0x01010301 }

/-- The bus of the core with this transfer under way and no other channel enabled. -/
def chopping : Bus Empty :=
  let board : Board Empty := .ofConfig {}
  { board := { board with dma := { board.dma with
      channels := board.dma.channels.setIfInBounds 2 chopped.start
      control := 0x800 } }
    table := coreTable }

theorem moves_programmed_chopped : chopped.total = 6 ∧ ∃ n < 6,
    ((chopping.runSlices (n + 1)).1.map (·.completed)) = List.replicate n false ++ [true] ∧
      ((chopping.runSlices (n + 1)).1.map (·.words)).sum = 6 := by
  have htotal : chopped.total = 6 := by decide
  obtain ⟨n, hn, hcompleted, hsum, -⟩ :=
    (@moves_programmed Empty _ 2 chopped (by decide) rfl (by decide)).2 chopping rfl (by decide)
      (by decide)
  rw [htotal] at hn hsum
  exact ⟨htotal, n, hn, hcompleted, hsum⟩

end Bus

end Psx
