import Psx.Proofs.Bus.Core
import Psx.Proofs.Bus.Plans
import Psx.Proofs.Dma.MasterFlag

/-!
# When the controller asks for attention

`Dma.Operation` is what is done with a controller on its bus: it is configured, triggered, written to
by any of its lanes, reset, it runs slices, and in between the rest of the bus may become any other.
An operation answers the controller that it leaves and whether this asks for attention
(`Operation.control`); to ask is to have the interrupt of the controller raised, and nothing else
raises it for the controller (`Bus.operate`).

There are two ways into DICR, a write to it and a slice that completes a transfer; anything else
leaves it or clears it (`Operation.control_cases`). Both put the master flag right and ask if it
rises, so along every run of operations there are as many requests as rises of the flag
(`Bus.raises_at_rises`).
-/

namespace Psx

/-- What is done with a controller on its bus. -/
inductive Dma.Operation (δ : Type) where
  | configure (channel : Nat) (direction : Direction) (address : UInt32) (amount : Amount)
  | trigger (channel : Nat)
  | write (offset : UInt32) (w : Width) (value : UInt32)
  | runSlice
  | reset
  /-- All but the controller has become as it is on another bus. -/
  | meanwhile (bus : Bus δ)

variable {δ : Type} [Device δ]

/-! ### Operations -/

namespace Bus

variable (b : Bus δ)

/-- The channel of the next slice and its plan. -/
def nextPlan? : Option (Fin 7 × Dma.Plan) :=
  b.board.dma.nextChannel?.bind fun i => (b.planned i).map (i, ·)

/-- The next slice completes the transfer of a channel. -/
def Completes (i : Fin 7) : Prop :=
  ∃ slice, b.runSlice.1 = some slice ∧ slice.channel = i ∧ slice.completed = true

end Bus

namespace Dma.Operation

variable (op : Operation δ) (b : Bus δ)

/-- The controller after an operation, and whether it asks for attention. -/
def control : Bool × Dma :=
  let d := b.board.dma
  match op with
  | configure channel direction address amount =>
    (false, (d.configure channel direction address amount).toOption.getD d)
  | trigger channel => (false, (d.trigger channel).2)
  | write offset w value => d.write offset w value
  | runSlice =>
    match b.nextPlan? with
    | none => (false, d)
    | some (i, q) => d.conclude i q
  | reset => (false, d.reset)
  | meanwhile _ => (false, d)

/-- The bus when the controller changes: the words of a slice have been moved. -/
def surroundings : Bus δ :=
  match op with
  | runSlice =>
    match b.nextPlan? with
    | none => b
    | some (i, q) => (b.execute i q).2
  | meanwhile bus => bus
  | _ => b

end Dma.Operation

namespace Bus

variable (b : Bus δ)

/-- The bus after an operation. The interrupt is raised if the controller asks for it. -/
def operate (op : Dma.Operation δ) : Bus δ :=
  (op.surroundings b).withDma (op.control b).1 (op.control b).2

theorem operate_write (offset : UInt32) (w : Width) (value : UInt32) :
    b.operate (.write offset w value) = { b with board := b.board.write .dma offset w value } := rfl

theorem operate_reset : b.operate .reset = { b with board := b.board.reset .dma } := rfl

variable {b}

omit [Device δ] in
theorem nextPlan?_eq {i : Fin 7} {q : Dma.Plan} (h : b.nextPlan? = some (i, q)) :
    b.board.dma.nextChannel? = some i ∧ b.planned i = some q := by
  obtain ⟨j, hj, hq⟩ := Option.bind_eq_some_iff.1 h
  obtain ⟨q', hq', he⟩ := Option.map_eq_some_iff.1 hq
  cases he
  exact ⟨hj, hq'⟩

theorem runSlice_of_nextPlan? {i : Fin 7} {q : Dma.Plan} (h : b.nextPlan? = some (i, q)) :
    ∃ gap, b.runSlice = (some { channel := i, words := q.words, gap, completed := q.completed },
      b.operate .runSlice) := by
  obtain ⟨hnext, hq⟩ := nextPlan?_eq h
  rw [runSlice_of_next hnext, serve_eq hq]
  unfold operate Dma.Operation.surroundings Dma.Operation.control
  simp only [h]
  exact ⟨_, rfl⟩

theorem runSlice_of_no_plan (h : b.nextPlan? = none) : b.runSlice = (none, b) := by
  unfold nextPlan? at h
  rw [runSlice_eq]
  cases hi : b.board.dma.nextChannel? with
  | none => rfl
  | some i =>
    rw [hi, Option.bind_some, Option.map_eq_none_iff] at h
    exact serve_idle h

/-- The operation is what the bus does. -/
theorem operate_runSlice (b : Bus δ) : b.operate .runSlice = b.runSlice.2 := by
  cases h : b.nextPlan? with
  | none =>
    rw [runSlice_of_no_plan h]
    unfold operate Dma.Operation.surroundings Dma.Operation.control
    simp only [h]
    rfl
  | some x =>
    obtain ⟨gap, hrun⟩ := runSlice_of_nextPlan? h
    rw [hrun]

theorem completes_of_nextPlan? {i : Fin 7} {q : Dma.Plan} (h : b.nextPlan? = some (i, q))
    (hq : q.completed = true) : b.Completes i := by
  obtain ⟨gap, hrun⟩ := runSlice_of_nextPlan? h
  exact ⟨_, congrArg Prod.fst hrun, rfl, hq⟩

end Bus

/-! ### What an operation does to DICR -/

namespace Dma

namespace Operation

variable {op : Operation δ} {b : Bus δ}

/-- An operation leaves DICR, clears it, writes to it without touching a channel, or is a slice that
completes a transfer. -/
theorem control_cases (op : Operation δ) (b : Bus δ) :
    ((op.control b).1 = false ∧ (op.control b).2.interrupt = b.board.dma.interrupt) ∨
    ((op.control b).1 = false ∧ (op.control b).2.interrupt = 0) ∨
    (∃ value, op.control b = b.board.dma.writeInterrupt value) ∨
    ∃ (i : Fin 7) (c : Channel), op = .runSlice ∧ b.Completes i ∧
      op.control b = (b.board.dma.modify i fun _ => c).complete i := by
  cases op with
  | configure channel direction address amount =>
    refine .inl ⟨rfl, ?_⟩
    unfold control Dma.configure
    dsimp only
    split <;> rfl
  | trigger channel =>
    refine .inl ⟨rfl, ?_⟩
    unfold control Dma.trigger
    dsimp only
    split
    · split <;> rfl
    · rfl
  | write offset w value =>
    unfold control Dma.write
    dsimp only
    split
    · refine .inl ?_
      split <;> exact ⟨rfl, rfl⟩
    · split
      · exact .inl ⟨rfl, rfl⟩
      · split
        · exact .inr (.inr (.inl ⟨_, rfl⟩))
        · exact .inl ⟨rfl, rfl⟩
  | runSlice =>
    cases h : b.nextPlan? with
    | none =>
      have hcontrol : (runSlice : Operation δ).control b = (false, b.board.dma) := by
        unfold control
        simp only [h]
      rw [hcontrol]
      exact .inl ⟨rfl, rfl⟩
    | some x =>
      obtain ⟨i, q⟩ := x
      have hcontrol : (runSlice : Operation δ).control b = b.board.dma.conclude i q := by
        unfold control
        simp only [h]
      rw [hcontrol]
      unfold conclude
      cases hq : q.completed with
      | false => exact .inl ⟨rfl, rfl⟩
      | true => exact .inr (.inr (.inr ⟨i, q.channel, rfl, Bus.completes_of_nextPlan? h hq, rfl⟩))
  | reset => exact .inr (.inl ⟨rfl, rfl⟩)
  | meanwhile bus => exact .inl ⟨rfl, rfl⟩

end Operation

theorem shows_congr {d d' : Dma} (h : d'.interrupt = d.interrupt) (n : Nat) :
    d'.shows n = d.shows n := by
  unfold shows
  rw [h]

theorem shows_zero {d : Dma} (h : d.interrupt = 0) (n : Nat) : d.shows n = false := by
  unfold shows
  rw [h]
  exact BitVec.getLsbD_zero

namespace Operation

variable (op : Operation δ) (b : Bus δ)

/-- The controller asks for attention when the master flag rises. -/
theorem asks_control :
    (op.control b).1 = (!b.board.dma.shows 31 && (op.control b).2.shows 31) := by
  rcases op.control_cases b with ⟨hasks, hkept⟩ | ⟨hasks, hzero⟩ | ⟨value, hw⟩ | ⟨i, c, -, -, hc⟩
  · rw [hasks, shows_congr hkept, Bool.not_and_self]
  · rw [hasks, shows_zero hzero, Bool.and_false]
  · rw [hw]
    exact b.board.dma.asks_writeInterrupt value
  · rw [hc]
    exact (b.board.dma.modify i fun _ => c).asks_complete i

variable {b} in
theorem consistent_control (h : b.board.dma.Consistent) : (op.control b).2.Consistent := by
  rcases op.control_cases b with ⟨-, hkept⟩ | ⟨-, hzero⟩ | ⟨value, hw⟩ | ⟨i, c, -, -, hc⟩
  · constructor
    · rw [shows_congr hkept, hkept]
      exact h.master
    · intro n hn
      rw [shows_congr hkept]
      exact h.unused n hn
  · constructor
    · rw [shows_zero hzero, hzero]
      rfl
    · intro n _
      exact shows_zero hzero n
  · rw [hw]
    exact b.board.dma.consistent_writeInterrupt value
  · rw [hc]
    exact consistent_complete (d := b.board.dma.modify i fun _ => c) h.unused i

/-- A flag is set by a slice that completes a transfer of its channel, if it is enabled, and by
nothing else. -/
theorem flag_control {i : Fin 7} (h : b.board.dma.shows (24 + i) = false)
    (h' : (op.control b).2.shows (24 + i) = true) :
    op = .runSlice ∧ b.Completes i ∧ b.board.dma.shows (16 + i) = true := by
  have hi := i.isLt
  rcases op.control_cases b with ⟨-, hkept⟩ | ⟨-, hzero⟩ | ⟨value, hw⟩ | ⟨j, c, hop, hends, hc⟩
  · rw [shows_congr hkept, h] at h'
    cases h'
  · rw [shows_zero hzero] at h'
    cases h'
  · rw [hw, shows_writeInterrupt _ _ (by omega), if_neg (by omega), if_neg (by omega), h] at h'
    cases h'
  · rw [hc, shows_complete _ _ (by omega), show ∀ n, (b.board.dma.modify j fun _ => c).shows n =
      b.board.dma.shows n from fun _ => rfl, h, Bool.false_or, Bool.and_eq_true,
      decide_eq_true_eq] at h'
    obtain ⟨hij, henabled⟩ := h'
    obtain rfl : i = j := Fin.ext (by omega)
    exact ⟨hop, hends, henabled⟩

/-- A transfer that comes to an end is completed by a slice, or the controller does not ask for
attention and sets no flag. -/
theorem ended_control {i : Fin 7} (h : (b.board.dma.channel i).isBusy = true)
    (h' : ((op.control b).2.channel i).isBusy = false) :
    (op = .runSlice ∧ b.Completes i) ∨
      ((op.control b).1 = false ∧ ∀ n < 7, (op.control b).2.shows (24 + n) = true →
        b.board.dma.shows (24 + n) = true) := by
  rcases op.control_cases b with ⟨hasks, hkept⟩ | ⟨hasks, hzero⟩ | ⟨value, hw⟩ | ⟨j, c, hop, hends, hc⟩
  · refine .inr ⟨hasks, fun n _ hn => ?_⟩
    rwa [shows_congr hkept] at hn
  · refine .inr ⟨hasks, fun n _ hn => ?_⟩
    rw [shows_zero hzero] at hn
    cases hn
  · -- the transfer is still in flight
    have hchannel : (op.control b).2.channel i = b.board.dma.channel i := by
      rw [hw]
      unfold channel
      exact congrArg (·[i]) (updateMasterFlag_channels _)
    rw [hchannel, h] at h'
    cases h'
  · by_cases hij : j = i
    · exact .inl ⟨hop, hij ▸ hends⟩
    · rw [hc, channel_complete, if_neg hij, channel_modify, if_neg hij, h] at h'
      cases h'

end Operation

end Dma

/-! ### Runs -/

namespace Bus

/-- How often the interrupt of the controller is raised by some operations. -/
def raises : Bus δ → List (Dma.Operation δ) → Nat
  | _, [] => 0
  | b, op :: ops => (op.control b).1.toNat + (b.operate op).raises ops

/-- How often the master flag goes from zero to one. -/
def rises : Bus δ → List (Dma.Operation δ) → Nat
  | _, [] => 0
  | b, op :: ops =>
    (!b.board.dma.shows 31 && (b.operate op).board.dma.shows 31).toNat + (b.operate op).rises ops

theorem raises_eq_rises (b : Bus δ) (ops : List (Dma.Operation δ)) : b.raises ops = b.rises ops := by
  induction ops generalizing b with
  | nil => rfl
  | cons op ops ih =>
    unfold raises rises
    rw [op.asks_control b, ih]
    rfl

theorem consistent_operateAll {b : Bus δ} (h : b.board.dma.Consistent)
    (ops : List (Dma.Operation δ)) : (ops.foldl operate b).board.dma.Consistent := by
  induction ops generalizing b with
  | nil => exact h
  | cons op ops ih => exact ih (op.consistent_control h)

/-- However a controller has been operated since power on, the master flag is what the other bits of
DICR make it and the unused bits are zero, and its interrupt has been raised as often as the master
flag has risen. A flag is set by the completion of a transfer of its channel alone, and a transfer
that ends in another way sets none and raises nothing. -/
theorem raises_at_rises (b : Bus δ) (gap : Nat) (ops : List (Dma.Operation δ)) :
    let start := b.withDma false (.initial gap)
    let b' := ops.foldl operate start
    let d := b'.board.dma
    (d.shows 31 = true ↔ d.shows 15 = true ∨
      (d.shows 23 = true ∧ ∃ n < 7, d.shows (16 + n) = true ∧ d.shows (24 + n) = true)) ∧
    (∀ n < 6, d.shows n = false) ∧
    start.raises ops = start.rises ops ∧
    ∀ (op : Dma.Operation δ) (i : Fin 7),
      let d' := (b'.operate op).board.dma
      (d.shows (24 + i) = false → d'.shows (24 + i) = true →
        op = .runSlice ∧ b'.Completes i ∧ d.shows (16 + i) = true) ∧
      ((d.channel i).isBusy = true → (d'.channel i).isBusy = false →
        (op = .runSlice ∧ b'.Completes i) ∨
          ((op.control b').1 = false ∧
            ∀ n < 7, d'.shows (24 + n) = true → d.shows (24 + n) = true)) := by
  intro start b' d
  have hinitial : (Dma.initial gap).Consistent :=
    ⟨(Dma.shows_zero rfl 31).trans (show false = Dma.masterFlag 0 by decide),
      fun n _ => Dma.shows_zero rfl n⟩
  have hconsistent : d.Consistent := consistent_operateAll (b := start) hinitial ops
  refine ⟨?_, hconsistent.unused, raises_eq_rises start ops, fun op i => ⟨?_, ?_⟩⟩
  · rw [hconsistent.master]
    exact Dma.masterFlag_iff _
  · exact op.flag_control b'
  · exact op.ended_control b'

/-- The core with a list in RAM that ends in its first node. -/
def attended : Bus Empty :=
  { memory := { Memory.initial with ram := ⟨#[0xFF, 0xFF, 0xFF, 0x00]⟩ }
    board := .ofConfig {}
    table := coreTable }

/-- The flag of the GPU is enabled, its channel too, and a transfer along the list is started. -/
def attending : List (Dma.Operation Empty) :=
  [.write 0x74 .word 0x00840000, .write 0x70 .word 0x00000800, .write 0x28 .word 0x01000401]

/-- The slice that completes this transfer raises the interrupt once; to abort it raises nothing. -/
theorem raises_at_rises_attended :
    let start := attended.withDma false (.initial 1)
    let b := attending.foldl operate start
    let abort : Dma.Operation Empty := .write 0x28 .word 0
    start.raises (attending ++ [.runSlice]) = 1 ∧ b.Completes 2 ∧ (abort.control b).1 = false := by
  intro start b abort
  obtain ⟨-, -, hraises, -⟩ := raises_at_rises attended 1 (attending ++ [.runSlice])
  obtain ⟨-, -, -, hone⟩ := raises_at_rises attended 1 attending
  have hrises : start.rises (attending ++ [.runSlice]) = 1 := by decide +kernel
  have hflag := (hone .runSlice 2).1 (by decide +kernel) (by decide +kernel)
  have habort := (hone abort 2).2 (by decide +kernel) (by decide +kernel)
  refine ⟨hraises.trans hrises, hflag.2.1, ?_⟩
  rcases habort with ⟨hslice, -⟩ | ⟨hasks, -⟩
  · simp [abort] at hslice
  · exact hasks

end Bus

end Psx
