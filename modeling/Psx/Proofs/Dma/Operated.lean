import Psx.Proofs.Bus.Plans
import Psx.Proofs.Dma.Pacing
import Psx.Proofs.Dma.Regular
import Psx.Proofs.Snapshot.Chips

/-!
# A controller in operation

`Operated d`: the controller has been powered on with some gap between slices, and since then
programs, a host and the buses that it was put on have done with it what they like, in any order.
They have configured and triggered channels, written registers by any of their lanes, run slices,
reset it, and loaded the saved state of a controller that was in operation too.

None of this takes it out of the regular states (`Dma.Regular`). So a slice that runs has a word to
move, and what is counted down is never less than what is taken off (`Operated.regular`).
-/

namespace Psx

theorem Dma.sliceGap_conclude (d : Dma) (i : Fin 7) (q : Plan) :
    (d.conclude i q).2.sliceGap = d.sliceGap := by
  unfold conclude
  dsimp only
  split
  · exact sliceGap_complete ..
  · rfl

/-- A slice leaves the gap of the controller. -/
theorem Bus.serve_sliceGap {δ : Type} [Device δ] (b : Bus δ) (i : Fin 7) :
    (b.serve i).2.board.dma.sliceGap = b.board.dma.sliceGap := by
  cases hq : b.planned i with
  | none => rw [serve_idle hq]
  | some q =>
    rw [serve_eq hq]
    exact b.board.dma.sliceGap_conclude i q

namespace Dma

/-- Every channel is regular and there is a cycle or more between two slices, as the register of the
gap holds it. -/
structure Regular (d : Dma) : Prop where
  channels : ∀ i, (d.channel i).Regular
  paced : 1 ≤ d.sliceGap
  gap_lt : d.sliceGap < 256 ^ 4

namespace Regular

variable {d d' : Dma}

theorem of_channels (h : d.Regular) (hc : d'.channels = d.channels)
    (hg : d'.sliceGap = d.sliceGap) : d'.Regular := by
  refine ⟨fun i => ?_, hg ▸ h.paced, hg ▸ h.gap_lt⟩
  have hi := h.channels i
  unfold channel at hi ⊢
  rwa [hc]

theorem modify (h : d.Regular) (i : Fin 7) {f : Channel → Channel}
    (hf : (f (d.channel i)).Regular) : (d.modify i f).Regular := by
  refine ⟨fun j => ?_, h.paced, h.gap_lt⟩
  rw [channel_modify]
  split
  · exact hf
  · exact h.channels j

theorem initial {gap : Nat} (h : gap < 256 ^ 4) : (Dma.initial gap).Regular := by
  refine ⟨fun i => ?_, Nat.le_max_right gap 1, Nat.max_lt.2 ⟨h, by decide⟩⟩
  have hpower : (Dma.initial gap).channel i = Channel.initial (UInt8.ofNat i) := by
    match i with
    | 0 | 1 | 2 | 3 | 4 | 5 | 6 => rfl
  rw [hpower]
  exact Channel.initial_regular _

theorem reset (h : d.Regular) : d.reset.Regular :=
  ⟨(initial h.gap_lt).channels, h.paced, h.gap_lt⟩

/-! ### Setting up transfers -/

theorem configure (h : d.Regular) {channel : Nat} {direction : Direction} {address : UInt32}
    {amount : Amount} (hd : d.configure channel direction address amount = .ok d') :
    d'.Regular := by
  unfold Dma.configure at hd
  split at hd
  · rename_i hchannel
    let i : Fin 7 := ⟨channel, hchannel⟩
    have haddress := and_addressMask_lt address
    have hkept := (h.channels i).withAddress haddress amount.blockControl
    dsimp only at hd
    generalize hm : d.modify _ _ = m at hd
    cases hd
    refine of_channels (d := m) ?_ rfl rfl
    rw [← hm]
    refine h.modify i ?_
    split
    · exact hkept
    · rename_i hidle
      have hnone : (d.channel i).progress = none := by
        unfold Channel.isBusy at hidle
        simpa using hidle
      refine .of_idle hnone ?_ haddress
      show (_ ||| _ ||| _) &&& startBit = 0
      rw [UInt32.or_assoc]
      have hsync : amount.syncBits = 0 ∨ amount.syncBits = 1 ∨ amount.syncBits = 2 := by
        cases amount with
        | words => exact .inl rfl
        | blocks => exact .inr (.inl rfl)
        | linkedList => exact .inr (.inr rfl)
      refine Channel.configured_start ?_
      rcases hsync with hs | hs | hs <;> rw [hs] <;> cases direction <;> decide
  · cases hd

theorem trigger (h : d.Regular) (channel : Nat) : (d.trigger channel).2.Regular := by
  unfold Dma.trigger
  split
  · split
    · exact h
    · dsimp only
      exact h.modify _ (h.channels _).trigger
  · exact h

/-! ### Registers -/

theorem writeAddress (h : d.Regular) (i : Fin 7) (value : UInt32) :
    (d.writeAddress i value).Regular :=
  h.modify i ((h.channels i).withAddress (and_addressMask_lt value) _)

theorem writeBlockControl (h : d.Regular) (i : Fin 7) (value : UInt32) :
    (d.writeBlockControl i value).Regular :=
  h.modify i ((h.channels i).withAddress (h.channels i).address value)

theorem writeChannelControl (h : d.Regular) (i : Fin 7) (value : UInt32) :
    (d.writeChannelControl i value).Regular :=
  h.modify i ((h.channels i).writeControl _)

theorem writeInterrupt (h : d.Regular) (value : UInt32) : (d.writeInterrupt value).2.Regular :=
  h.of_channels (updateMasterFlag_channels _) (sliceGap_updateMasterFlag _)

theorem write (h : d.Regular) (offset : UInt32) (w : Width) (value : UInt32) :
    (d.write offset w value).2.Regular := by
  unfold Dma.write
  dsimp only
  split
  · rename_i i _
    split
    · exact h.writeAddress i _
    · exact h.writeBlockControl i _
    · exact h.writeChannelControl i _
    · exact h
  · split
    · exact h.of_channels rfl rfl
    · split
      · exact h.writeInterrupt _
      · exact h

/-! ### Saved states -/

theorem fits (h : d.Regular) : law.fits d := by
  have hcount : ∀ n, Counts n → n < 256 ^ 4 := fun n hn => Nat.lt_of_le_of_lt hn.2 (by decide)
  refine ⟨fun c hc => ⟨trivial, trivial, trivial, trivial, fun p hp => ?_⟩, trivial, trivial, h.gap_lt⟩
  obtain ⟨i, hi, rfl⟩ := List.mem_iff_getElem.1 hc
  have hb := (h.channels ⟨i, by simpa using hi⟩).bounded p (by simpa [channel] using hp)
  cases p with
  | blocks wordsLeft blocksLeft => exact ⟨hcount _ hb.1, hcount _ hb.2⟩
  | linkedList => trivial
  | orderingTable entries => exact hcount _ hb

/-! ### Slices -/

variable {δ : Type} [Device δ] {b b' : Bus δ} {slice : Slice}

/-- What a bus has run of a regular controller: a word or more, which were left to move. -/
theorem runSlice_words (h : b.board.dma.Regular) (hs : b.runSlice = (some slice, b')) :
    1 ≤ slice.words ∧ ∃ p, (b.board.dma.channel slice.channel).progress = some p ∧
      p.Suffices slice.words := by
  obtain ⟨q, -, hq, hwords, -⟩ := Bus.runSlice_some hs
  obtain ⟨p, hp, rfl⟩ := Option.map_eq_some_iff.1 hq
  obtain ⟨hpos, hsuffices⟩ := (b.board.dma.channel slice.channel).plan_words b.memory.ram
    ((h.channels _).bounded p hp)
  rw [hwords]
  exact ⟨hpos, p, hp, hsuffices⟩

theorem runSlice (h : b.board.dma.Regular) : b.runSlice.2.board.dma.Regular := by
  rw [Bus.runSlice_eq]
  split
  · exact h
  · rename_i i _
    have hgap := b.serve_sliceGap i
    refine ⟨fun j => ?_, hgap ▸ h.paced, hgap ▸ h.gap_lt⟩
    cases hq : b.planned i with
    | none =>
      rw [Bus.serve_idle hq]
      exact h.channels j
    | some q =>
      obtain ⟨p, hp, rfl⟩ := Option.map_eq_some_iff.1 hq
      obtain ⟨gap, asks, dma, hserve, -, -, hchannel⟩ := Bus.serve_plan hq
      rw [hserve]
      show (dma.channel j).Regular
      rw [hchannel]
      split
      · exact (h.channels i).after hp
      · exact h.channels j

end Regular

/-! ### Operation -/

/-- What can have become of a controller since power on. -/
inductive Operated : Dma → Prop where
  | initial {gap : Nat} (hgap : gap < 256 ^ 4) : Operated (.initial gap)
  | configure {d d' : Dma} {channel : Nat} {direction : Direction} {address : UInt32}
      {amount : Amount} (h : Operated d)
      (hd : d.configure channel direction address amount = .ok d') : Operated d'
  | trigger {d : Dma} (h : Operated d) (channel : Nat) : Operated (d.trigger channel).2
  | write {d : Dma} (h : Operated d) (offset : UInt32) (w : Width) (value : UInt32) :
      Operated (d.write offset w value).2
  /-- The controller is on some bus, which runs the next slice. -/
  | runSlice {δ : Type} [Device δ] {b : Bus δ} (h : Operated b.board.dma) :
      Operated b.runSlice.2.board.dma
  | reset {d : Dma} (h : Operated d) : Operated d.reset
  | load {d saved d' : Dma} (h : Operated d) (hs : Operated saved)
      (hd : Board.decode codec (codec.encode saved) = .ok d') : Operated d'

theorem regular_of_operated {d : Dma} (h : Operated d) : d.Regular := by
  induction h with
  | initial hgap => exact .initial hgap
  | configure _ hd ih => exact ih.configure hd
  | trigger _ channel ih => exact ih.trigger channel
  | write _ offset w value ih => exact ih.write offset w value
  | runSlice _ ih => exact ih.runSlice
  | reset _ ih => exact ih.reset
  | load _ _ hd _ hsaved =>
    unfold Board.decode at hd
    rw [law.decode?_encode hsaved.fits] at hd
    cases hd
    exact hsaved

/-- The controller after a program has written some registers. -/
def written (d : Dma) (registers : List (UInt32 × UInt32)) : Dma :=
  registers.foldl (fun d r => (d.write r.1 .word r.2).2) d

theorem operated_written {d : Dma} (h : Operated d) (registers : List (UInt32 × UInt32)) :
    Operated (d.written registers) := by
  induction registers generalizing d with
  | nil => exact h
  | cons r registers ih => exact ih (.write h r.1 .word r.2)

/-- A controller in operation is regular. On whatever bus it is, a slice moves a word or more, and
these were left of the transfer. -/
theorem Operated.regular {d : Dma} (h : Operated d) : d.Regular ∧
    ∀ {δ : Type} [Device δ] {b b' : Bus δ} {slice : Slice}, b.board.dma = d →
      b.runSlice = (some slice, b') → 1 ≤ slice.words ∧
        ∃ p, (d.channel slice.channel).progress = some p ∧ p.Suffices slice.words := by
  refine ⟨regular_of_operated h, ?_⟩
  rintro δ _ b b' slice rfl hs
  exact (regular_of_operated h).runSlice_words hs

theorem regular_triggered : ((Dma.initial 0).trigger 2).2.Regular :=
  (Operated.regular (.trigger (.initial (by decide)) 2)).1

end Dma

end Psx
