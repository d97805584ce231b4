import Psx.Proofs.Bus.Alone
import Psx.Proofs.Bus.Turns
import Psx.Proofs.Dma.Alike
import Psx.Proofs.Dma.MasterFlag
import Psx.Proofs.Dma.Operated

/-!
# A start that is rejected

A channel with a transfer in flight rejects the trigger, and the trigger changes nothing. But to
configure the channel comes before that, and of the registers of a busy channel it keeps the control
register alone: it writes the address and the count, and it enables the channel
(`Dma.configure_busy`). The next slice takes its address from there, and the next block its size.

So the transfer goes on as if nothing had been asked for exactly if what was asked for agrees with what
it is doing anyway (`Dma.Agrees`, `Bus.rejected_iff`). Then the whole system goes on as before; else the
transfer moves other words or takes other slices (`Bus.rejected_diverts`).
-/

namespace Psx

namespace Dma

variable {d : Dma} {i : Fin 7} {direction : Direction} {address : UInt32} {amount : Amount}

/-! ### Configuring a busy channel -/

theorem isEnabled_eq (d : Dma) (i : Fin 7) :
    d.isEnabled i = d.control.toBitVec.getLsbD (4 * i + 3) := by
  have hbit : d.isEnabled i = (d.field i).toBitVec.getLsbD 3 :=
    and_bit_bne (show (8 : UInt32).toNat = 2 ^ 3 from rfl)
  have hshift : ∀ i : Fin 7, ((4 * UInt32.ofNat i).toBitVec % 32).toNat = 4 * i.val := by decide
  rw [hbit]
  unfold field
  rw [UInt32.toBitVec_shiftRight, BitVec.ushiftRight_eq', BitVec.getLsbD_ushiftRight, hshift]

theorem enableMask_getLsbD (i : Fin 7) (n : Nat) :
    (8 <<< (4 * UInt32.ofNat i) : UInt32).toBitVec.getLsbD n = decide (n = 4 * i + 3) := by
  have hpow : ∀ i : Fin 7, (8 <<< (4 * UInt32.ofNat i) : UInt32).toNat = 2 ^ (4 * i.val + 3) := by
    decide
  show Nat.testBit (8 <<< (4 * UInt32.ofNat i) : UInt32).toNat n = _
  rw [hpow, Nat.testBit_two_pow]
  exact decide_eq_decide.2 eq_comm

/-- The controller with a channel enabled whose address and count have been written. -/
def reprogrammed (d : Dma) (i : Fin 7) (address : UInt32) (amount : Amount) : Dma :=
  { d.modify i fun c =>
      { c with address := address &&& addressMask, blockControl := amount.blockControl } with
    control := d.control ||| (8 <<< (4 * UInt32.ofNat i)) }

theorem modify_congr {f g : Channel → Channel} (h : f (d.channel i) = g (d.channel i)) :
    d.modify i f = d.modify i g := by
  unfold modify
  rw [h]

/-- The direction and the mode of a transfer in flight stay, the rest is written. -/
theorem configure_busy (h : (d.channel i).isBusy = true) :
    d.configure i direction address amount = .ok (d.reprogrammed i address amount) := by
  unfold configure
  rw [dif_pos i.isLt]
  dsimp only
  generalize hm : d.modify _ _ = m
  have hwritten : m = d.modify i fun c =>
      { c with address := address &&& addressMask, blockControl := amount.blockControl } :=
    hm.symm.trans (modify_congr (if_pos h))
  rw [hwritten]
  rfl

theorem channel_reprogrammed (d : Dma) (i : Fin 7) (address : UInt32) (amount : Amount) (j : Fin 7) :
    (d.reprogrammed i address amount).channel j =
    if i = j then { d.channel i with
      address := address &&& addressMask, blockControl := amount.blockControl } else d.channel j :=
  channel_modify d i j fun c =>
    { c with address := address &&& addressMask, blockControl := amount.blockControl }

theorem trigger_busy (h : (d.channel i).isBusy = true) : d.trigger i = (false, d) := by
  unfold trigger
  rw [dif_pos i.isLt]
  exact if_pos h

theorem isEnabled_reprogrammed : (d.reprogrammed i address amount).isEnabled i = true := by
  rw [isEnabled_eq]
  show (d.control ||| _).toBitVec.getLsbD _ = true
  rw [UInt32.toBitVec_or, BitVec.getLsbD_or, enableMask_getLsbD, decide_eq_true rfl, Bool.or_true]

theorem control_reprogrammed (h : d.isEnabled i = true) :
    (d.reprogrammed i address amount).control = d.control := by
  rw [isEnabled_eq] at h
  apply UInt32.eq_of_toBitVec_eq
  apply BitVec.eq_of_getLsbD_eq
  intro n _
  show (d.control ||| _).toBitVec.getLsbD n = _
  rw [UInt32.toBitVec_or, BitVec.getLsbD_or, enableMask_getLsbD]
  by_cases hn : n = 4 * i + 3
  · rw [hn, h, Bool.true_or]
  · rw [decide_eq_false hn, Bool.or_false]

/-- What is asked of a channel agrees with what it is doing: it is enabled, the address names the word
of RAM that comes next, and the size is that of the blocks, if there are any to come. -/
structure Agrees (d : Dma) (i : Fin 7) (address : UInt32) (amount : Amount) : Prop where
  enabled : d.isEnabled i = true
  place : placeOf address = placeOf (d.channel i).address
  size : ∀ wordsLeft blocksLeft, (d.channel i).progress = some (.blocks wordsLeft blocksLeft) →
    1 < blocksLeft → Channel.countOf (amount.blockControl &&& 0xFFFF) = (d.channel i).blockSize

theorem Agrees.alike (h : d.Agrees i address amount) :
    d.Alike (d.reprogrammed i address amount) := by
  refine ⟨fun j => ?_, control_reprogrammed h.enabled, rfl, rfl⟩
  rw [channel_reprogrammed]
  split
  · rename_i hij
    subst hij
    exact ⟨rfl, rfl, (placeOf_addressMask address).trans h.place, h.size⟩
  · exact .refl _

end Dma

/-! ### Buses on which transfers go on alike -/

namespace Bus

variable {δ : Type} [Device δ] {a b : Bus δ} {i : Fin 7} {d' : Dma}

omit [Device δ] in
theorem withDma_dma (b : Bus δ) (dma : Dma) : (b.withDma false dma).board.dma = dma := rfl

theorem execute_withDma (b : Bus δ) (i : Fin 7) (dma : Dma) (q : Dma.Plan) :
    (b.withDma false dma).execute i q =
      ((b.execute i q).1, (b.execute i q).2.withDma false dma) := by
  unfold execute
  rw [consumeAll_withDma, produceAll_withDma]
  rfl

/-- Slices are alike that belong to transfers that go on alike. -/
theorem serve_alike (h : b.board.dma.Alike d') (i : Fin 7) :
    ((b.withDma false d').serve i).1 = (b.serve i).1 ∧
      ∃ e, ((b.withDma false d').serve i).2 = (b.serve i).2.withDma false e ∧
        (b.serve i).2.board.dma.Alike e := by
  have hchannel := h.channels i
  cases hp : (b.board.dma.channel i).progress with
  | none =>
    have hidle : b.planned i = none := by
      unfold planned
      rw [hp]
      rfl
    have hidle' : (b.withDma false d').planned i = none := by
      unfold planned
      rw [withDma_dma, hchannel.progress, hp]
      rfl
    rw [serve_idle hidle, serve_idle hidle']
    exact ⟨rfl, d', rfl, h⟩
  | some p =>
    obtain ⟨hplan, hafter⟩ := hchannel.plan hp b.memory.ram
    have hq := planned_of_progress hp
    have hq' : (b.withDma false d').planned i = some ((d'.channel i).plan b.memory.ram p) :=
      planned_of_progress (hchannel.progress.trans hp)
    generalize (b.board.dma.channel i).plan b.memory.ram p = q at hplan hafter hq
    generalize (d'.channel i).plan b.memory.ram p = q' at hplan hafter hq'
    obtain ⟨hasks, halike⟩ := h.conclude i hafter
    obtain ⟨-, -, hgap, -⟩ := hafter.registers
    rw [← hplan] at hasks halike
    have hexecute : (b.withDma false d').execute i q' =
        ((b.execute i q).1, (b.execute i q).2.withDma false d') := by
      rw [hplan]
      exact b.execute_withDma i d' q
    obtain ⟨hwords, hcompleted⟩ : q'.words = q.words ∧ q'.completed = q.completed := by
      rw [hplan]
      exact ⟨rfl, rfl⟩
    rw [serve_eq hq, serve_eq hq']
    dsimp only
    rw [hexecute, hwords, hcompleted, hgap, withDma_dma, hasks, h.sliceGap]
    exact ⟨rfl, (d'.conclude i q').2, rfl, halike⟩

theorem runSlices_alike (h : b.board.dma.Alike d') (n : Nat) :
    ((b.withDma false d').runSlices n).1 = (b.runSlices n).1 ∧
      ∃ e, ((b.withDma false d').runSlices n).2 = (b.runSlices n).2.withDma false e ∧
        (b.runSlices n).2.board.dma.Alike e := by
  induction n generalizing b d' with
  | zero => exact ⟨rfl, d', rfl, h⟩
  | succ n ih =>
    have hslice : (b.withDma false d').runSlice.1 = b.runSlice.1 ∧
        ∃ e, (b.withDma false d').runSlice.2 = b.runSlice.2.withDma false e ∧
          b.runSlice.2.board.dma.Alike e := by
      rw [runSlice_eq, runSlice_eq, withDma_dma, h.nextChannel?_eq]
      split
      · exact ⟨rfl, d', rfl, h⟩
      · exact serve_alike h _
    obtain ⟨hsame, e, hrest, halike⟩ := hslice
    obtain ⟨hslices, hlast⟩ := ih halike
    rw [runSlices, runSlices, hrest, hsame]
    dsimp only
    rw [hslices]
    exact ⟨rfl, hlast⟩

theorem alone_alike (h : b.board.dma.Alike d') (i : Fin 7) (n : Nat) :
    ∃ e, (b.withDma false d').alone i n = (b.alone i n).withDma false e ∧
      (b.alone i n).board.dma.Alike e := by
  induction n with
  | zero => exact ⟨d', rfl, h⟩
  | succ n ih =>
    obtain ⟨e, hn, halike⟩ := ih
    obtain ⟨-, e', hrest, halike'⟩ := serve_alike halike i
    rw [alone_succ, alone_succ, hn]
    exact ⟨e', hrest, halike'⟩

/-- The transfer of a channel goes on in the same way on two buses. The same channels may run, and each
slice of the transfer reports the same, is in the same words of RAM and has the same words pass between
RAM and the device. -/
structure SameTransfer (i : Fin 7) (a b : Bus δ) : Prop where
  runnable : ∀ j, b.board.dma.isRunnable j = a.board.dma.isRunnable j
  slices : ∀ n, ((b.alone i n).serve i).1 = ((a.alone i n).serve i).1
  touched : ∀ n, (b.alone i n).touched i = (a.alone i n).touched i
  exchanges : ∀ n, (b.alone i n).exchanges i = (a.alone i n).exchanges i

theorem sameTransfer_alike (h : b.board.dma.Alike d') (i : Fin 7) :
    SameTransfer i b (b.withDma false d') := by
  refine ⟨h.isRunnable_eq, fun n => ?_, fun n => ?_, fun n => ?_⟩
  all_goals
    obtain ⟨e, hn, halike⟩ := alone_alike h i n
    rw [hn]
    generalize b.alone i n = a at halike ⊢
  · exact (serve_alike halike i).1
  · unfold Bus.touched
    rw [withDma_dma, (halike.channels i).progress]
    cases (a.board.dma.channel i).progress with
    | none => rfl
    | some p => exact (halike.channels i).touches p _
  · unfold Bus.exchanges planned
    rw [withDma_dma, (halike.channels i).progress]
    cases hp : (a.board.dma.channel i).progress with
    | none => rfl
    | some p =>
      obtain ⟨hplan, -⟩ := (halike.channels i).plan hp a.memory.ram
      dsimp only [Option.map_some]
      rw [execute_withDma, show (a.withDma false e).memory = a.memory from rfl, hplan]
      rfl

/-! ### What the slices tell -/

/-- The slices of a block transfer tell how many words are left of it. -/
theorem left_of_slices {wordsLeft blocksLeft wordsLeft' blocksLeft' : Nat}
    (hp : (a.board.dma.channel i).progress = some (.blocks wordsLeft blocksLeft))
    (hp' : (b.board.dma.channel i).progress = some (.blocks wordsLeft' blocksLeft'))
    (hs : (Dma.Progress.blocks wordsLeft blocksLeft).Sound)
    (hs' : (Dma.Progress.blocks wordsLeft' blocksLeft').Sound)
    (h : ∀ n, ((b.alone i n).serve i).1 = ((a.alone i n).serve i).1) :
    wordsLeft' + (blocksLeft' - 1) * (b.board.dma.channel i).blockSize =
      wordsLeft + (blocksLeft - 1) * (a.board.dma.channel i).blockSize := by
  induction hn : wordsLeft + (blocksLeft - 1) * (a.board.dma.channel i).blockSize using
    Nat.strongRecOn generalizing a b wordsLeft blocksLeft wordsLeft' blocksLeft' with
  | _ left ih =>
    obtain ⟨hafter, -⟩ := serve_progress hp
    obtain ⟨hafter', -⟩ := serve_progress hp'
    have hfirst : (b.serve i).1 = (a.serve i).1 := h 0
    rw [serve_eq (planned_of_progress hp), serve_eq (planned_of_progress hp')] at hfirst
    have hwords := congrArg Dma.Slice.words (Option.some.inj hfirst)
    have hcompleted := congrArg Dma.Slice.completed (Option.some.inj hfirst)
    dsimp only at hwords hcompleted
    rcases (a.board.dma.channel i).after_blocks a.memory.ram hs with
      ⟨hlast, hall, -⟩ | ⟨hmore, w, k, hq, hsound, hpos, hsum, -⟩
    · rcases (b.board.dma.channel i).after_blocks b.memory.ram hs' with
        ⟨-, hall', -⟩ | ⟨hmore', -⟩
      · rw [← hall', hwords, hall, hn]
      · rw [hmore', hlast] at hcompleted
        cases hcompleted
    · rcases (b.board.dma.channel i).after_blocks b.memory.ram hs' with
        ⟨hlast', -⟩ | ⟨-, w', k', hq', hsound', -, hsum', -⟩
      · rw [hmore, hlast'] at hcompleted
        cases hcompleted
      · rw [← hafter] at hq hsum
        rw [← hafter'] at hq' hsum'
        have hrest := ih _ (by omega) hq hq' hsound hsound' (fun n => h (n + 1)) rfl
        omega

/-- A start that a busy channel rejects leaves the transfer in flight as it was exactly if what was
asked for agrees with what the transfer does anyway. If so, all transfers go on as if neither call had
been made, with the same slices in the same order, and the bus is the same after any number of them
but for registers of the controller. -/
theorem rejected_iff (hd : b.board.dma.Operated) (hbusy : (b.board.dma.channel i).isBusy = true)
    (direction : Dma.Direction) (address : UInt32) (amount : Dma.Amount) :
    ∃ d', b.board.dma.configure i direction address amount = .ok d' ∧ d'.trigger i = (false, d') ∧
      (SameTransfer i b (b.withDma false d') ↔ b.board.dma.Agrees i address amount) ∧
      (b.board.dma.Agrees i address amount → ∀ n,
        ((b.withDma false d').runSlices n).1 = (b.runSlices n).1 ∧
        ∃ e, ((b.withDma false d').runSlices n).2 = (b.runSlices n).2.withDma false e) := by
  have hchannel := (b.board.dma.channel_reprogrammed i address amount i).trans (if_pos rfl)
  have hbusy' : ((b.board.dma.reprogrammed i address amount).channel i).isBusy = true := by
    rw [hchannel]
    exact hbusy
  refine ⟨_, Dma.configure_busy hbusy, Dma.trigger_busy hbusy', ⟨fun h => ?_, fun h => ?_⟩,
    fun h n => ?_⟩
  · obtain ⟨p, hp⟩ := Option.isSome_iff_exists.1 hbusy
    have hbounded := (hd.regular.1.channels i).bounded p hp
    have hp' : ((b.board.dma.reprogrammed i address amount).channel i).progress = some p := by
      rw [hchannel]
      exact hp
    refine ⟨?_, ?_, ?_⟩
    · have hrunnable := h.runnable i
      unfold Dma.isRunnable at hrunnable
      rw [hbusy, Bool.and_true] at hrunnable
      rw [← hrunnable]
      rw [withDma_dma, Dma.isEnabled_reprogrammed, hbusy']
      rfl
    · -- the first words of the first slices
      have htouched : (b.withDma false _).touched i = b.touched i := h.touched 0
      unfold Bus.touched at htouched
      rw [withDma_dma, hp, hp'] at htouched
      have hfirst := congrArg List.head? htouched
      dsimp only at hfirst
      rw [Dma.Channel.head?_touches _ _ hbounded, Dma.Channel.head?_touches _ _ hbounded, hchannel,
        Option.some.injEq] at hfirst
      exact (Dma.placeOf_addressMask address).symm.trans hfirst
    · intro wordsLeft blocksLeft hblocks hmore
      rw [hp] at hblocks
      cases hblocks
      have hleft := left_of_slices hp hp' hbounded.sound hbounded.sound h.slices
      have hsize := Nat.eq_of_mul_eq_mul_left (by omega : 0 < blocksLeft - 1)
        (Nat.add_left_cancel hleft)
      exact (congrArg Dma.Channel.blockSize hchannel).symm.trans hsize
  · exact sameTransfer_alike h.alike i
  · obtain ⟨hslices, e, hrest, -⟩ := runSlices_alike h.alike n
    exact ⟨hslices, e, hrest⟩

/-- The core when a program has enabled the channel of the sound unit and started it, with two blocks of
four words to RAM from address 0x1000. -/
def receiving : Bus Empty :=
  { board := { (Board.ofConfig {} : Board Empty) with
      dma := (Dma.initial 1).written
        [(0x70, 0x80000), (0x40, 0x1000), (0x44, 0x00020004), (0x48, 0x01000200)] }
    table := coreTable }

theorem operated_receiving : receiving.board.dma.Operated :=
  Dma.operated_written (.initial (by decide)) _

/-- The address names the same word of RAM, and the number of blocks does not matter. -/
theorem rejected_iff_receiving :
    ∃ d', receiving.board.dma.configure 4 .fromRam 0x201001 (.blocks 4 7) = .ok d' ∧
      d'.trigger 4 = (false, d') ∧ SameTransfer 4 receiving (receiving.withDma false d') := by
  obtain ⟨d', hd, htrigger, hsame, -⟩ := rejected_iff operated_receiving (i := 4) (by decide)
    .fromRam 0x201001 (.blocks 4 7)
  refine ⟨d', hd, htrigger, hsame.2 ⟨by decide, by decide, ?_⟩⟩
  intro wordsLeft blocksLeft _ _
  decide

/-- With another address the first slice already is in other words of RAM. -/
theorem rejected_diverts : ¬∀ (b : Bus Empty) (i : Fin 7) (direction : Dma.Direction)
    (address : UInt32) (amount : Dma.Amount) (d' : Dma), b.board.dma.Operated →
    (b.board.dma.channel i).isBusy = true →
    b.board.dma.configure i direction address amount = .ok d' →
      d'.trigger i = (false, d') ∧ SameTransfer i b (b.withDma false d') := by
  intro h
  have hbusy : (receiving.board.dma.channel 4).isBusy = true := by decide
  obtain ⟨-, hsame⟩ := h receiving 4 .toRam 0x2000 (.blocks 4 2) _ operated_receiving hbusy
    (Dma.configure_busy hbusy)
  exact absurd (hsame.touched 0) (by decide)

end Bus

end Psx
