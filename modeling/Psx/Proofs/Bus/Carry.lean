import Psx.Proofs.Bus.Ram
import Psx.Proofs.Dma.Blocks

/-!
# Words between RAM and a device

What a block transfer does outside of its channel is one thing, however it is cut: words go from their
places in RAM to the device that serves the channel, or from the device to their places, in order
(`Bus.carry`). The words of a chunk are a piece of that (`Bus.moveWords_eq`), and two pieces one after
the other are one (`Bus.carry_add`), since a device does not reach RAM, nor does it see the controller.
-/

namespace Psx

/-- Stores words at their places, one after another. -/
def Bytes.storeAll (b : ByteArray) (places : List Nat) (words : List UInt32) : ByteArray :=
  (places.zip words).foldl (fun b s => store b s.1 .word s.2) b

theorem Bytes.byteAt_storeAll {b : ByteArray} {places : List Nat} {words : List UInt32} {j : Nat}
    (h : ∀ i ∈ places, j < i ∨ i + 4 ≤ j) : byteAt (storeAll b places words) j = byteAt b j := by
  unfold storeAll
  induction places generalizing b words with
  | nil => rfl
  | cons i places ih =>
    cases words with
    | nil => rfl
    | cons word words =>
      have hi := h i List.mem_cons_self
      rw [List.zip_cons_cons, List.foldl_cons, ih fun i' h' => h i' (List.mem_cons_of_mem i h')]
      exact byteAt_store_of_ne b word fun k (hk : k < 4) => by omega

theorem Bytes.storeAll_cons (b : ByteArray) (i : Nat) (places : List Nat) (word : UInt32)
    (words : List UInt32) : storeAll b (i :: places) (word :: words) =
      storeAll (store b i .word word) places words := by
  unfold storeAll
  rw [List.zip_cons_cons, List.foldl_cons]

theorem Bytes.storeAll_single (b : ByteArray) (i : Nat) (word : UInt32) :
    storeAll b [i] [word] = store b i .word word := by
  rw [storeAll_cons]
  rfl

namespace Bus

variable {δ : Type} [Device δ] (b : Bus δ) (channel : Nat)

/-! ### Many words to and from a device -/

/-- Hands words to the device that serves a channel, one after another. -/
def consumeAll (words : List UInt32) : Bus δ :=
  words.foldl (fun b word => b.dmaConsume channel word) b

/-- Takes so many words from the device that serves a channel. -/
def produceAll (b : Bus δ) (channel : Nat) : Nat → List UInt32 × Bus δ
  | 0 => ([], b)
  | n + 1 =>
    let r := (b.dmaProduce channel).2.produceAll channel n
    ((b.dmaProduce channel).1 :: r.1, r.2)

theorem dmaConsume_memory (word : UInt32) : (b.dmaConsume channel word).memory = b.memory := by
  unfold dmaConsume
  split <;> rfl

theorem dmaProduce_memory : (b.dmaProduce channel).2.memory = b.memory := by
  unfold dmaProduce
  split <;> rfl

theorem dmaProduce_with (memory : Memory) : ({ b with memory } : Bus δ).dmaProduce channel =
    ((b.dmaProduce channel).1, { (b.dmaProduce channel).2 with memory }) := by
  unfold dmaProduce
  dsimp only
  split <;> rfl

theorem consumeAll_memory (words : List UInt32) :
    (b.consumeAll channel words).memory = b.memory := by
  unfold consumeAll
  induction words generalizing b with
  | nil => rfl
  | cons word words ih => exact (ih _).trans (b.dmaConsume_memory channel word)

theorem produceAll_memory (n : Nat) : (b.produceAll channel n).2.memory = b.memory := by
  induction n generalizing b with
  | zero => rfl
  | succ n ih => exact (ih _).trans (b.dmaProduce_memory channel)

theorem produceAll_with (memory : Memory) (n : Nat) :
    ({ b with memory } : Bus δ).produceAll channel n =
      ((b.produceAll channel n).1, { (b.produceAll channel n).2 with memory }) := by
  induction n generalizing b with
  | zero => rfl
  | succ n ih =>
    unfold produceAll
    rw [dmaProduce_with]
    dsimp only
    rw [ih]

theorem produceAll_length (n : Nat) : (b.produceAll channel n).1.length = n := by
  induction n generalizing b with
  | zero => rfl
  | succ n ih => exact congrArg (· + 1) (ih _)

theorem produceAll_add (m n : Nat) : b.produceAll channel (m + n) =
    let r := b.produceAll channel m
    let r' := r.2.produceAll channel n
    (r.1 ++ r'.1, r'.2) := by
  induction m generalizing b with
  | zero => rw [Nat.zero_add]; rfl
  | succ m ih =>
    rw [Nat.succ_add, produceAll, ih]
    rfl

/-! ### Carrying words -/

/-- The words of a transfer from a number on are carried between RAM and the device that serves the
channel. -/
def carry (c : Dma.Channel) (first n : Nat) : Bus δ :=
  let places := (List.range' first n).map c.wordAt
  match c.direction with
  | .fromRam => b.consumeAll channel (places.map (Bytes.load b.memory.ram · .word))
  | .toRam =>
    let r := b.produceAll channel n
    { r.2 with memory.ram := Bytes.storeAll r.2.memory.ram places r.1 }

/-- A channel carries from where it stands what its transfer carries from there. -/
theorem carry_advanced {c d : Dma.Channel} {m : Nat} (hc : d.control = c.control)
    (ha : d.address = (c.advanced m).address) (n : Nat) :
    b.carry channel d 0 n = b.carry channel c m n := by
  have hdirection : d.direction = c.direction := by
    unfold Dma.Channel.direction
    rw [hc]
  have hbackward : d.isBackward = c.isBackward := by
    unfold Dma.Channel.isBackward
    rw [hc]
  have hplaces : (List.range' 0 n).map d.wordAt = (List.range' m n).map c.wordAt := by
    rw [List.range'_eq_map_range, List.range'_eq_map_range, List.map_map, List.map_map]
    refine List.map_congr_left fun j _ => ?_
    rw [Function.comp_apply, Function.comp_apply, Nat.zero_add]
    exact Dma.Channel.wordAt_add hbackward ha j
  unfold carry
  rw [hdirection, hplaces]

theorem carry_add (c : Dma.Channel) (first m n : Nat) :
    (b.carry channel c first m).carry channel c (first + m) n =
      b.carry channel c first (m + n) := by
  unfold carry
  rw [← List.range'_append_1, List.map_append]
  cases c.direction with
  | fromRam =>
    dsimp only
    rw [consumeAll_memory, List.map_append]
    exact (List.foldl_append ..).symm
  | toRam =>
    dsimp only
    rw [produceAll_add, produceAll_with, produceAll_memory]
    dsimp only
    unfold Bytes.storeAll
    rw [List.zip_append (by
      rw [List.length_map, List.length_range', produceAll_length]), List.foldl_append]
    simp only [produceAll_memory]

theorem moveWord_eq (channel : Fin 7) (c : Dma.Channel) :
    b.moveWord channel c = b.carry channel c 0 1 := by
  have hplace : (List.range' 0 1).map c.wordAt = [(c.address &&& Dma.ramWordMask).toNat] := by
    rw [← c.wordAt_zero]
    rfl
  unfold moveWord carry
  rw [hplace]
  cases c.direction with
  | fromRam => rfl
  | toRam =>
    dsimp only
    rw [produceAll, produceAll]
    dsimp only
    rw [Bytes.storeAll_single]

/-- The words that a chunk moves are carried. -/
theorem moveWords_eq (channel : Fin 7) (c : Dma.Channel) (n : Nat) :
    b.moveWords channel c n = (c.advanced n, b.carry channel c 0 n) := by
  induction n generalizing b c with
  | zero =>
    unfold carry
    cases c.direction <;> rfl
  | succ n ih =>
    have hrest : ∀ b : Bus δ, b.carry channel (c.advanced 1) 0 n = b.carry channel c (0 + 1) n :=
      fun b => b.carry_advanced channel (c := c) (d := c.advanced 1) (m := 1) rfl rfl n
    rw [moveWords_succ, ih, moveWord_eq, ← c.advanced_one, c.advanced_advanced, Nat.add_comm n 1,
      hrest, b.carry_add]

/-! ### What carrying leaves alone -/

/-- RAM changes at the places of the words alone, and there only if the words go to RAM. -/
theorem byteAt_carry {c : Dma.Channel} {first n j : Nat}
    (h : c.direction = .toRam → ∀ k < n, j < c.wordAt (first + k) ∨ c.wordAt (first + k) + 4 ≤ j) :
    Bytes.byteAt (b.carry channel c first n).memory.ram j = Bytes.byteAt b.memory.ram j := by
  unfold carry
  cases hd : c.direction with
  | fromRam =>
    dsimp only
    rw [consumeAll_memory]
  | toRam =>
    dsimp only
    rw [Bytes.byteAt_storeAll, produceAll_memory]
    intro i hi
    obtain ⟨k, hk, rfl⟩ := List.mem_map.1 hi
    obtain ⟨k', hk', rfl⟩ := List.mem_range'.1 hk
    rw [Nat.one_mul]
    exact h hd k' hk'

end Bus

/-! ### The controller does not see it -/

namespace Board

variable {δ : Type} [Device δ] (b : Board δ) (p : Part)

theorem consume_withDma (dma : Dma) (channel : Nat) (word : UInt32) :
    (b.withDma false dma).consume p channel word =
      (b.consume p channel word).withDma false dma := by
  cases p with
  | «external» i =>
    unfold consume
    dsimp only
    rw [show (b.withDma false dma).externals = b.externals from rfl]
    split <;> rfl
  | _ => rfl

theorem produce_withDma (dma : Dma) (channel : Nat) :
    (b.withDma false dma).produce p channel =
      ((b.produce p channel).1, (b.produce p channel).2.withDma false dma) := by
  cases p with
  | «external» i =>
    unfold produce
    dsimp only
    rw [show (b.withDma false dma).externals = b.externals from rfl]
    split <;> rfl
  | _ => rfl

end Board

namespace Bus

variable {δ : Type} (b : Bus δ)

/-- Puts a controller on the board, which raises its interrupt if it asks for it. -/
def withDma (asks : Bool) (dma : Dma) : Bus δ := { b with board := b.board.withDma asks dma }

variable [Device δ] (channel : Nat)

theorem dmaConsume_withDma (dma : Dma) (word : UInt32) :
    (b.withDma false dma).dmaConsume channel word =
      (b.dmaConsume channel word).withDma false dma := by
  unfold dmaConsume
  rw [show (b.withDma false dma).table = b.table from rfl]
  split
  · rfl
  · unfold withDma
    rw [Board.consume_withDma]

theorem dmaProduce_withDma (dma : Dma) : (b.withDma false dma).dmaProduce channel =
    ((b.dmaProduce channel).1, (b.dmaProduce channel).2.withDma false dma) := by
  unfold dmaProduce
  rw [show (b.withDma false dma).table = b.table from rfl]
  split
  · rfl
  · unfold withDma
    rw [Board.produce_withDma]

theorem consumeAll_withDma (dma : Dma) (words : List UInt32) :
    (b.withDma false dma).consumeAll channel words =
      (b.consumeAll channel words).withDma false dma := by
  unfold consumeAll
  induction words generalizing b with
  | nil => rfl
  | cons word words ih => rw [List.foldl_cons, dmaConsume_withDma, ih, List.foldl_cons]

theorem produceAll_withDma (dma : Dma) (n : Nat) : (b.withDma false dma).produceAll channel n =
    ((b.produceAll channel n).1, (b.produceAll channel n).2.withDma false dma) := by
  induction n generalizing b with
  | zero => rfl
  | succ n ih =>
    unfold produceAll
    rw [dmaProduce_withDma]
    dsimp only
    rw [ih]

theorem carry_withDma (dma : Dma) (c : Dma.Channel) (first n : Nat) :
    (b.withDma false dma).carry channel c first n =
      (b.carry channel c first n).withDma false dma := by
  unfold carry
  cases c.direction with
  | fromRam => exact b.consumeAll_withDma channel dma _
  | toRam =>
    dsimp only
    rw [produceAll_withDma]
    rfl

theorem carry_dma (c : Dma.Channel) (first n : Nat) :
    (b.carry channel c first n).board.dma = b.board.dma := by
  have h : b.withDma false b.board.dma = b := rfl
  have hcarried := b.carry_withDma channel b.board.dma c first n
  rw [h] at hcarried
  rw [hcarried]
  rfl

end Bus

end Psx
