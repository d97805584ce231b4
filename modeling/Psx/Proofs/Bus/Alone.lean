import Mathlib.Data.Nat.Find
import Psx.Proofs.Bus.Exchanges

/-!
# A transfer by itself

`Bus.alone` is a transfer whose slices come one right after the other. It stays within the range that
it has at the start (`Stays.alone`), and it comes to an end unless it is along a list that has none
(`Bus.exists_turns`): each chunk brings the words that are left down, each node the end of the list
nearer, and a table is cleared at once.
-/

namespace Psx.Bus

variable {δ : Type} [Device δ] {b : Bus δ} {i : Fin 7}

/-- The bus after so many slices of one channel. -/
def alone (b : Bus δ) (i : Fin 7) (n : Nat) : Bus δ := (fun b => (b.serve i).2)^[n] b

/-- The words that pass in the slices of one channel. -/
def aloneExchanges (b : Bus δ) (i : Fin 7) (n : Nat) : List Exchange :=
  (List.range n).flatMap fun k => (b.alone i k).exchanges i

theorem alone_succ (b : Bus δ) (i : Fin 7) (n : Nat) :
    b.alone i (n + 1) = ((b.alone i n).serve i).2 := Function.iterate_succ_apply' ..

theorem alone_serve (b : Bus δ) (i : Fin 7) (n : Nat) :
    (b.serve i).2.alone i n = b.alone i (n + 1) := rfl

theorem aloneExchanges_succ (b : Bus δ) (i : Fin 7) (n : Nat) : b.aloneExchanges i (n + 1) =
    b.aloneExchanges i n ++ (b.alone i n).exchanges i := by
  unfold aloneExchanges
  rw [List.range_succ, List.flatMap_append, List.flatMap_singleton]

/-! ### Its range -/

/-- What the slice of a transfer in flight leaves: the channel as it was planned, and RAM as it was if
the transfer is along a list. -/
theorem serve_progress {p : Dma.Progress} (hp : (b.board.dma.channel i).progress = some p) :
    (b.serve i).2.board.dma.channel i = ((b.board.dma.channel i).plan b.memory.ram p).after ∧
      (p = .linkedList → (b.serve i).2.memory.ram = b.memory.ram) := by
  obtain ⟨gap, asks, dma, hserve, -, -, hchannel⟩ := serve_plan (planned_of_progress hp)
  rw [hserve]
  refine ⟨(hchannel i).trans (if_pos rfl), ?_⟩
  rintro rfl
  show (b.execute i _).2.memory.ram = _
  rw [execute_memory]
  rfl

/-- A transfer has something left to move, and stays within some words of RAM. -/
structure Stays (b : Bus δ) (i : Fin 7) (places : Nat → Prop) : Prop where
  sound : (b.board.dma.channel i).Sound
  covers : ∀ q, (b.board.dma.channel i).Covers b.memory.ram q → places q

namespace Stays

variable {places : Nat → Prop}

omit [Device δ] in
theorem touched (h : b.Stays i places) : ∀ q ∈ b.touched i, places q := by
  intro q hq
  unfold Bus.touched at hq
  split at hq
  · cases hq
  · rename_i p hp
    exact h.covers q (Dma.Channel.covers_of_touches hp hq)

theorem serve (h : b.Stays i places) : (b.serve i).2.Stays i places := by
  cases hp : (b.board.dma.channel i).progress with
  | none =>
    have hidle : b.planned i = none := by
      unfold planned
      rw [hp]
      rfl
    rw [serve_idle hidle]
    exact h
  | some p =>
    obtain ⟨hafter, hram⟩ := serve_progress hp
    have hs := h.sound p hp
    refine ⟨?_, fun q hq => h.covers q ?_⟩
    · rw [hafter]
      exact Dma.Channel.sound_after hp hs
    · rw [hafter] at hq
      exact Dma.Channel.covers_of_after hp hs hram hq

theorem alone (h : b.Stays i places) (n : Nat) : (b.alone i n).Stays i places := by
  induction n with
  | zero => exact h
  | succ n ih =>
    rw [alone_succ]
    exact ih.serve

end Stays

/-! ### Its end -/

/-- The transfer of a channel is over after some slices by itself. -/
def Finishes (b : Bus δ) (i : Fin 7) : Prop :=
  ∃ n, ((b.alone i n).board.dma.channel i).isBusy = false

omit [Device δ] in
theorem isBusy_of_progress (h : (b.board.dma.channel i).progress = none) :
    (b.board.dma.channel i).isBusy = false := by
  unfold Dma.Channel.isBusy
  rw [h]
  rfl

theorem Finishes.of_serve (h : (b.serve i).2.Finishes i) : b.Finishes i := by
  obtain ⟨n, hn⟩ := h
  rw [alone_serve] at hn
  exact ⟨n + 1, hn⟩

theorem finishes_blocks {wordsLeft blocksLeft : Nat}
    (hp : (b.board.dma.channel i).progress = some (.blocks wordsLeft blocksLeft))
    (hs : (Dma.Progress.blocks wordsLeft blocksLeft).Sound) : b.Finishes i := by
  induction hn : wordsLeft + (blocksLeft - 1) * (b.board.dma.channel i).blockSize using
    Nat.strongRecOn generalizing b wordsLeft blocksLeft with
  | _ left ih =>
    obtain ⟨hafter, -⟩ := serve_progress hp
    refine Finishes.of_serve ?_
    rcases (b.board.dma.channel i).after_blocks b.memory.ram hs with
      ⟨-, -, hnone⟩ | ⟨-, wordsLeft', blocksLeft', hp', hs', hpos, hsum, -⟩
    · exact ⟨0, isBusy_of_progress (hafter ▸ hnone)⟩
    · rw [← hafter] at hp' hsum
      exact ih _ (by omega) hp' hs' rfl

theorem finishes_list {n : Nat} (hp : (b.board.dma.channel i).progress = some .linkedList)
    (h : ∃ p ∈ Dma.nodes b.memory.ram (b.board.dma.channel i).address n,
      Dma.ends b.memory.ram p = true) : b.Finishes i := by
  induction n generalizing b with
  | zero =>
    obtain ⟨p, hmem, -⟩ := h
    cases hmem
  | succ n ih =>
    obtain ⟨hafter, hram⟩ := serve_progress hp
    refine Finishes.of_serve ?_
    rw [Dma.Channel.after_list] at hafter
    dsimp only at hafter
    cases hends : Dma.ends b.memory.ram (b.board.dma.channel i).address with
    | true =>
      rw [hends, if_pos rfl] at hafter
      exact ⟨0, congrArg Dma.Channel.isBusy hafter⟩
    | false =>
      rw [hends, if_neg (by decide)] at hafter
      obtain ⟨p, hmem, hp'⟩ := h
      rw [Dma.nodes, hends, if_neg (by decide)] at hmem
      rcases List.mem_cons.1 hmem with rfl | hmem
      · rw [hends] at hp'
        cases hp'
      · refine ih ?_ ⟨p, ?_, ?_⟩
        · rw [hafter]
          exact hp
        · rw [hafter, hram rfl]
          exact hmem
        · rw [hram rfl]
          exact hp'

theorem finishes (hs : (b.board.dma.channel i).Sound)
    (he : (b.board.dma.channel i).Ends b.memory.ram) : b.Finishes i := by
  cases hp : (b.board.dma.channel i).progress with
  | none => exact ⟨0, isBusy_of_progress hp⟩
  | some p =>
    cases p with
    | blocks wordsLeft blocksLeft => exact finishes_blocks hp (hs _ hp)
    | linkedList =>
      obtain ⟨n, h⟩ := he hp
      exact finishes_list hp h
    | orderingTable n =>
      exact Finishes.of_serve ⟨0, congrArg Dma.Channel.isBusy (serve_progress hp).1⟩

/-- A transfer that comes to an end has so many turns and no more. -/
theorem exists_turns (hs : (b.board.dma.channel i).Sound)
    (he : (b.board.dma.channel i).Ends b.memory.ram) :
    ∃ n, (∀ k < n, ((b.alone i k).board.dma.channel i).isBusy = true) ∧
      ((b.alone i n).board.dma.channel i).isBusy = false := by
  have hend := finishes hs he
  refine ⟨Nat.find hend, fun k hk => ?_, Nat.find_spec hend⟩
  exact Bool.eq_true_of_not_eq_false (Nat.find_min hend hk)

end Psx.Bus
