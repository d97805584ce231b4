import Psx.Proofs.Dma.Operated

/-!
# The mode of a transfer

`Channel.Step` is all that can become of a channel: its address and count registers are written, which
a transfer in flight does not keep anyone from; while it is idle it is programmed or started; it has a
slice; its transfer is aborted; it is reset. Whatever is done with a controller takes every channel
such a step (`configure_step`, `trigger_step`, `write_step`, `reset_step`, `serve_step`).

So a channel keeps its control register as long as its transfer is in flight (`Step.control_eq`), and
what is in flight is of the kind that the mode in this register asks for (`Operated.inMode`).
-/

namespace Psx.Dma

/-! ### What can become of a channel -/

namespace Channel

/-- One step of the channel of a number, with some memory in RAM. -/
inductive Step (i : Fin 7) (ram : ByteArray) (c : Channel) : Channel → Prop
  | registers (address blockControl : UInt32) : Step i ram c { c with address, blockControl }
  | program (address blockControl control : UInt32) (h : c.isBusy = false) :
    Step i ram c { c with address, blockControl, control }
  | start (control : UInt32) (h : c.isBusy = false) : Step i ram c { c with control }.start
  | slice {p : Progress} (h : c.progress = some p) : Step i ram c (c.plan ram p).after
  | abort (control : UInt32) : Step i ram c { c with progress := none, control }
  | reset : Step i ram c (.initial (UInt8.ofNat i))

/-- The transfer in flight is of the kind that the mode asks for. The channel of the tables has no
other mode. -/
def InMode (c : Channel) : Prop :=
  ∀ p, c.progress = some p → match p with
    | .blocks _ _ => c.id ≠ 6 ∧ c.syncMode ≠ .linkedList
    | .linkedList => c.id ≠ 6 ∧ c.syncMode = .linkedList
    | .orderingTable _ => c.id = 6

variable {i : Fin 7} {ram : ByteArray} {c c' : Channel}

theorem InMode.of_idle (h : c.progress = none) : c.InMode := by
  intro p hp
  rw [h] at hp
  cases hp

theorem start_inMode (c : Channel) : c.start.InMode := by
  intro p hp
  have hp' : some _ = some p := hp
  cases hp'
  by_cases hid : c.id = 6
  · rw [if_pos (beq_iff_eq.2 hid)]
    exact hid
  · have hmode : c.start.syncMode = c.syncMode := rfl
    rw [if_neg (by simpa using hid), hmode]
    cases hs : c.syncMode with
    | manual => exact ⟨hid, by simp⟩
    | block => exact ⟨hid, by simp⟩
    | linkedList => exact ⟨hid, rfl⟩

/-- A chunk leaves blocks, if anything. -/
theorem afterChunk_blocks (c : Channel) (wordsLeft blocksLeft chunk : Nat) :
    let r := c.afterChunk wordsLeft blocksLeft chunk
    r.1.id = c.id ∧
      (r.2 = false → ∃ wordsLeft' blocksLeft', r.1.progress = some (.blocks wordsLeft' blocksLeft')) := by
  dsimp only
  unfold afterChunk
  dsimp only
  split
  · exact ⟨rfl, fun _ => ⟨_, _, rfl⟩⟩
  · by_cases hlast : blocksLeft - 1 = 0
    · rw [if_pos hlast]
      split <;> exact ⟨rfl, fun h => by cases h⟩
    · rw [if_neg hlast]
      split <;> exact ⟨rfl, fun _ => ⟨_, _, rfl⟩⟩

/-- A slice leaves the control register to the end, and what is left is of the same kind. -/
theorem plan_kept (c : Channel) (ram : ByteArray) (p : Progress) :
    let q := c.plan ram p
    q.channel.id = c.id ∧ q.channel.control = c.control ∧
      (q.completed = false → match p with
        | .blocks _ _ => ∃ wordsLeft blocksLeft, q.channel.progress = some (.blocks wordsLeft blocksLeft)
        | .linkedList => q.channel.progress = c.progress
        | .orderingTable _ => False) := by
  cases p with
  | blocks wordsLeft blocksLeft =>
    obtain ⟨-, hplan⟩ := c.plan_blocks ram wordsLeft blocksLeft
    generalize c.plan ram (.blocks wordsLeft blocksLeft) = q at hplan ⊢
    let n := c.chunk wordsLeft
    obtain ⟨-, hcontrol⟩ := (c.advanced n).afterChunk_registers wordsLeft blocksLeft n
    obtain ⟨hid, hleft⟩ := (c.advanced n).afterChunk_blocks wordsLeft blocksLeft n
    rw [← hplan, c.advanced_eq] at hcontrol hid
    rw [← hplan] at hleft
    exact ⟨hid, hcontrol, hleft⟩
  | linkedList => exact ⟨rfl, rfl, fun _ => rfl⟩
  | orderingTable n => exact ⟨rfl, rfl, fun h => by cases h⟩

namespace Step

theorem id_eq (h : Step i ram c c') (hid : c.id = UInt8.ofNat i) : c'.id = UInt8.ofNat i := by
  cases h with
  | registers | program | start | abort => exact hid
  | @slice p hp =>
    obtain ⟨hkept, -⟩ := c.plan_kept ram p
    refine Eq.trans ?_ (hkept.trans hid)
    unfold Plan.after
    split <;> rfl
  | reset => rfl

/-- A step that leaves a transfer in flight leaves the control register. -/
theorem control_eq (h : Step i ram c c') (hbusy : c.isBusy = true) (hbusy' : c'.isBusy = true) :
    c'.control = c.control := by
  cases h with
  | registers => rfl
  | program _ _ _ hidle | start _ hidle =>
    rw [hbusy] at hidle
    cases hidle
  | @slice p hp =>
    obtain ⟨-, hcontrol, -⟩ := c.plan_kept ram p
    unfold Plan.after at hbusy' ⊢
    split at hbusy'
    · cases hbusy'
    · rename_i hmore
      rw [if_neg hmore]
      exact hcontrol
  | abort | reset => cases hbusy'

theorem inMode (h : Step i ram c c') (hm : c.InMode) : c'.InMode := by
  cases h with
  | registers => exact hm
  | program address blockControl control hidle =>
    refine .of_idle ?_
    unfold isBusy at hidle
    simpa using hidle
  | start => exact start_inMode _
  | @slice p hp =>
    obtain ⟨hid, hcontrol, hleft⟩ := c.plan_kept ram p
    have hmode : (c.plan ram p).channel.syncMode = c.syncMode := by
      unfold syncMode
      rw [hcontrol]
    have hkind := hm p hp
    unfold Plan.after
    cases hq : (c.plan ram p).completed with
    | true => exact .of_idle rfl
    | false =>
      rw [if_neg (by decide)]
      intro p' hp'
      rw [hid, hmode]
      cases p with
      | blocks wordsLeft blocksLeft =>
        obtain ⟨wordsLeft', blocksLeft', hleft⟩ := hleft hq
        cases hleft.symm.trans hp'
        exact hkind
      | linkedList =>
        have hleft := (hleft hq).trans hp
        cases hleft.symm.trans hp'
        exact hkind
      | orderingTable => exact (hleft hq).elim
  | abort | reset => exact .of_idle rfl

end Step

end Channel

/-! ### What is done with a controller -/

section

variable {d d' : Dma} (i : Fin 7) (ram : ByteArray)

theorem modify_step {j : Fin 7} {f : Channel → Channel}
    (hf : (d.channel j).Step j ram (f (d.channel j))) :
    (d.channel i).Step i ram ((d.modify j f).channel i) := by
  rw [channel_modify]
  split
  · rename_i h
    exact h ▸ hf
  · exact .registers _ _

theorem configure_step {channel : Nat} {direction : Direction} {address : UInt32} {amount : Amount}
    (hd : d.configure channel direction address amount = .ok d') :
    (d.channel i).Step i ram (d'.channel i) := by
  unfold configure at hd
  split at hd
  · dsimp only at hd
    generalize hm : d.modify _ _ = m at hd
    cases hd
    show (d.channel i).Step i ram (m.channel i)
    rw [← hm]
    refine modify_step i ram ?_
    split
    · exact .registers _ _
    · rename_i hidle
      exact .program _ _ _ (Bool.eq_false_iff.2 hidle)
  · cases hd

theorem trigger_step (channel : Nat) :
    (d.channel i).Step i ram ((d.trigger channel).2.channel i) := by
  unfold trigger
  split
  · split
    · exact .registers _ _
    · rename_i hidle
      exact modify_step i ram (.start _ (Bool.eq_false_iff.2 hidle))
  · exact .registers _ _

theorem writeControl_step {c : Channel} (value : UInt32) : c.Step i ram (c.writeControl value) := by
  unfold Channel.writeControl
  dsimp only
  split
  · split
    · exact .abort _
    · exact .registers _ _
  · rename_i hidle
    split
    · exact .start _ (Bool.eq_false_iff.2 hidle)
    · exact .program _ _ _ (Bool.eq_false_iff.2 hidle)

theorem write_step (offset : UInt32) (w : Width) (value : UInt32) :
    (d.channel i).Step i ram ((d.write offset w value).2.channel i) := by
  unfold write
  dsimp only
  split
  · split
    · exact modify_step i ram (.registers _ _)
    · exact modify_step i ram (.registers _ _)
    · exact modify_step i ram (writeControl_step ..)
    · exact .registers _ _
  · split
    · exact .registers _ _
    · split
      · have hkept : ∀ value, (d.writeInterrupt value).2.channel i = d.channel i := fun _ =>
          congrArg (·[i]) (updateMasterFlag_channels _)
        rw [hkept]
        exact .registers _ _
      · exact .registers _ _

theorem reset_step : (d.channel i).Step i ram (d.reset.channel i) := by
  have hpower : d.reset.channel i = .initial (UInt8.ofNat i) := by
    match i with
    | 0 | 1 | 2 | 3 | 4 | 5 | 6 => rfl
  rw [hpower]
  exact .reset

end

theorem serve_step {δ : Type} [Device δ] (b : Bus δ) (i j : Fin 7) :
    (b.board.dma.channel i).Step i b.memory.ram ((b.serve j).2.board.dma.channel i) := by
  cases hq : b.planned j with
  | none =>
    rw [Bus.serve_idle hq]
    exact .registers _ _
  | some q =>
    obtain ⟨p, hp, rfl⟩ := Option.map_eq_some_iff.1 hq
    obtain ⟨gap, asks, dma, hserve, -, -, hchannel⟩ := Bus.serve_plan hq
    rw [hserve]
    show Channel.Step i _ _ (dma.channel i)
    rw [hchannel]
    split
    · rename_i h
      exact h ▸ .slice hp
    · exact .registers _ _

/-! ### Controllers in operation -/

/-- Each channel has its number, and its transfer is in its mode. -/
def InMode (d : Dma) : Prop := ∀ i, (d.channel i).id = UInt8.ofNat i ∧ (d.channel i).InMode

theorem InMode.of_steps {d d' : Dma} (h : d.InMode) (ram : ByteArray)
    (hs : ∀ i, (d.channel i).Step i ram (d'.channel i)) : d'.InMode :=
  fun i => ⟨(hs i).id_eq (h i).1, (hs i).inMode (h i).2⟩

theorem initial_inMode (gap : Nat) : (initial gap).InMode := by
  intro i
  match i with
  | 0 | 1 | 2 | 3 | 4 | 5 | 6 => exact ⟨rfl, .of_idle rfl⟩

theorem Operated.inMode {d : Dma} (h : Operated d) : d.InMode := by
  induction h with
  | initial => exact initial_inMode _
  | configure _ hd ih => exact ih.of_steps .empty fun i => configure_step i _ hd
  | trigger _ channel ih => exact ih.of_steps .empty fun i => trigger_step i _ channel
  | write _ offset w value ih => exact ih.of_steps .empty fun i => write_step i _ offset w value
  | @runSlice _ _ b _ ih =>
    rw [Bus.runSlice_eq]
    split
    · exact ih
    · rename_i j _
      exact ih.of_steps _ fun i => serve_step b i j
  | reset _ ih => exact ih.of_steps .empty fun i => reset_step i _
  | load _ hs hd _ ih =>
    unfold Board.decode at hd
    rw [law.decode?_encode (regular_of_operated hs).fits] at hd
    cases hd
    exact ih

end Psx.Dma
