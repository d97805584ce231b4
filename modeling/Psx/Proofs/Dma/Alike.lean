import Psx.Proofs.Bus.Plans
import Psx.Proofs.Dma.Regular

/-!
# Registers that a transfer does not see

Between slices a transfer is held by its progress and by three registers, but it does not look at all
of them. Of the address it takes the word of RAM that it names, and of the count register the block
size alone, and that only at the end of a block that has another one behind it. Channels that agree in
this are alike (`Channel.Alike`): they make the same plans and are alike afterwards
(`Alike.plan`). Controllers all of whose channels are alike serve the same channel next and ask for
attention at the same time (`Dma.Alike`).
-/

namespace Psx.Dma

/-! ### Places -/

/-- So many words on, or back, RAM going on at its other end. -/
theorem placeOf_add (a : UInt32) (n : Nat) :
    placeOf (a + UInt32.ofNat (4 * n)) = (placeOf a + 4 * n) % 0x200000 := by
  rw [placeOf_eq, placeOf_eq, UInt32.toNat_add, UInt32.toNat_ofNat']
  omega

theorem placeOf_sub (a : UInt32) (n : Nat) : placeOf (a - UInt32.ofNat (4 * n)) =
    (placeOf a + (0x200000 - 4 * n % 0x200000)) % 0x200000 := by
  have ha := a.toNat_lt
  rw [placeOf_eq, placeOf_eq, UInt32.toNat_sub, UInt32.toNat_ofNat']
  omega

section

variable {a b : UInt32} (h : placeOf a = placeOf b)

include h

/-- The node that a pointer names is where it points to. -/
theorem node_congr (ram : ByteArray) : nodeSize ram a = nodeSize ram b ∧
    payload ram a = payload ram b ∧ link ram a = link ram b ∧ ends ram a = ends ram b := by
  have hheader : header ram a = header ram b := by
    unfold header
    rw [h]
  have hplace : nodePlace a = nodePlace b := by
    funext k
    unfold nodePlace
    rw [h]
  unfold ends payload nodeSize link
  rw [hheader, hplace]
  exact ⟨rfl, rfl, rfl, rfl⟩

theorem placeOf_sub_congr (n : Nat) :
    placeOf (a - UInt32.ofNat (4 * n)) = placeOf (b - UInt32.ofNat (4 * n)) := by
  rw [placeOf_sub, placeOf_sub, h]

theorem table_congr (n : Nat) : tablePlace a n = tablePlace b n ∧ tableLinks a n = tableLinks b n ∧
    (a - UInt32.ofNat (4 * n)) &&& ramWordMask = (b - UInt32.ofNat (4 * n)) &&& ramWordMask := by
  have hmasked : ∀ k, (a - UInt32.ofNat (4 * k)) &&& ramWordMask =
      (b - UInt32.ofNat (4 * k)) &&& ramWordMask :=
    fun k => UInt32.toNat_inj.1 (placeOf_sub_congr h k)
  refine ⟨placeOf_sub_congr h n, ?_, hmasked n⟩
  unfold tableLinks
  exact List.map_congr_left fun k _ => congrArg (tableLink · _) (hmasked k)

end

theorem placeOf_addressMask (a : UInt32) : placeOf (a &&& addressMask) = placeOf a := by
  unfold placeOf
  rw [← and_ramWordMask]

/-! ### Channels -/

namespace Channel

/-- A transfer goes on alike on two channels. -/
structure Alike (c c' : Channel) : Prop where
  control : c'.control = c.control
  progress : c'.progress = c.progress
  place : placeOf c'.address = placeOf c.address
  /-- The size of the blocks that have not been begun. -/
  size : ∀ wordsLeft blocksLeft, c.progress = some (.blocks wordsLeft blocksLeft) →
    1 < blocksLeft → c'.blockSize = c.blockSize

namespace Alike

variable {c c' : Channel}

theorem refl (c : Channel) : c.Alike c := ⟨rfl, rfl, rfl, fun _ _ _ _ => rfl⟩

theorem registers (h : c.Alike c') : c'.direction = c.direction ∧ c'.syncMode = c.syncMode ∧
    c'.chopGap? = c.chopGap? ∧ (∀ n, c'.chunk n = c.chunk n) ∧ c'.isBackward = c.isBackward := by
  unfold direction syncMode chopGap? chunk chopWords? isChopped isBackward
  rw [h.control]
  exact ⟨rfl, rfl, rfl, fun _ => rfl, rfl⟩

theorem isBusy_eq (h : c.Alike c') : c'.isBusy = c.isBusy := by
  unfold isBusy
  rw [h.progress]

theorem wordAt_eq (h : c.Alike c') (n : Nat) : c'.wordAt n = c.wordAt n := by
  obtain ⟨-, -, -, -, hbackward⟩ := h.registers
  show placeOf (c'.place n) = placeOf (c.place n)
  unfold Channel.place
  rw [hbackward]
  split
  · exact placeOf_sub_congr h.place n
  · rw [placeOf_add, placeOf_add, h.place]

theorem finish (h : c.Alike c') : c.finish.Alike c'.finish where
  control := congrArg (· &&& _) h.control
  progress := rfl
  place := h.place
  size _ _ hp := by cases hp

theorem advanced (h : c.Alike c') (n : Nat) : (c.advanced n).Alike (c'.advanced n) := by
  have hplace : ∀ d : Channel, placeOf (d.advanced n).address = d.wordAt n := fun d => by
    unfold placeOf
    rw [and_ramWordMask, advanced_address, ← and_ramWordMask]
    rfl
  have haddress := (hplace c').trans ((h.wordAt_eq n).trans (hplace c).symm)
  rw [c.advanced_eq, c'.advanced_eq]
  exact ⟨h.control, h.progress, haddress, h.size⟩

theorem afterChunk (h : c.Alike c') {wordsLeft blocksLeft : Nat}
    (hp : c.progress = some (.blocks wordsLeft blocksLeft)) (n : Nat) :
    (c.afterChunk wordsLeft blocksLeft n).1.Alike (c'.afterChunk wordsLeft blocksLeft n).1 ∧
      (c'.afterChunk wordsLeft blocksLeft n).2 = (c.afterChunk wordsLeft blocksLeft n).2 := by
  obtain ⟨-, hmode, -⟩ := h.registers
  unfold Channel.afterChunk
  rw [hmode]
  split
  · -- within the block
    refine ⟨⟨h.control, rfl, h.place, fun _ _ hp' => ?_⟩, rfl⟩
    cases hp'
    exact h.size _ _ hp
  · dsimp only
    -- the count may be written back, which leaves the size
    have hcounted : ∀ n, { c with blockControl := withCount c.blockControl n }.Alike
        { c' with blockControl := withCount c'.blockControl n } := by
      intro n
      refine ⟨h.control, h.progress, h.place, fun w k hk hlt => ?_⟩
      unfold blockSize
      rw [withCount_and, withCount_and]
      exact h.size w k hk hlt
    have hkept : ∀ n, (if c.syncMode = .block then
          { c with blockControl := withCount c.blockControl n } else c).Alike
        (if c.syncMode = .block then
          { c' with blockControl := withCount c'.blockControl n } else c') := by
      intro n
      split
      · exact hcounted n
      · exact h
    have hp' : ∀ n, (if c.syncMode = .block then
        { c with blockControl := withCount c.blockControl n } else c).progress =
          some (.blocks wordsLeft blocksLeft) := by
      intro n
      split <;> exact hp
    specialize hkept (blocksLeft - 1)
    specialize hp' (blocksLeft - 1)
    generalize (if c.syncMode = .block then _ else c : Channel) = e at hkept hp' ⊢
    generalize (if c.syncMode = .block then _ else c' : Channel) = e' at hkept ⊢
    by_cases hlast : blocksLeft - 1 = 0
    · rw [if_pos hlast, if_pos hlast]
      exact ⟨hkept, rfl⟩
    · have hsize := hkept.size _ _ hp' (by omega)
      rw [if_neg hlast, if_neg hlast, hsize]
      exact ⟨⟨hkept.control, rfl, hkept.place, fun _ _ _ _ => hsize⟩, rfl⟩

/-- Alike channels make the same plan, and are alike when it has been carried out. -/
theorem plan (h : c.Alike c') {p : Progress} (hp : c.progress = some p) (ram : ByteArray) :
    c'.plan ram p = { c.plan ram p with channel := (c'.plan ram p).channel } ∧
      (c.plan ram p).channel.Alike (c'.plan ram p).channel := by
  cases p with
  | blocks wordsLeft blocksLeft =>
    obtain ⟨hdirection, -, -, hchunk, -⟩ := h.registers
    obtain ⟨hafter, hcompleted⟩ :=
      (h.advanced (c.chunk wordsLeft)).afterChunk (by rw [c.advanced_eq]; exact hp)
        (c.chunk wordsLeft)
    have hplaces : ∀ n, (List.range' 0 n).map c'.wordAt = (List.range' 0 n).map c.wordAt :=
      fun n => List.map_congr_left fun k _ => h.wordAt_eq k
    unfold Channel.plan
    dsimp only
    rw [hdirection, hchunk, hplaces, hcompleted]
    cases c.direction with
    | fromRam => exact ⟨rfl, hafter⟩
    | toRam => exact ⟨rfl, hafter⟩
  | linkedList =>
    obtain ⟨hsize, hpayload, hlink, hends⟩ := node_congr h.place ram
    unfold Channel.plan
    dsimp only
    rw [hsize, hpayload, hlink, hends]
    exact ⟨rfl, h.control, h.progress, rfl, h.size⟩
  | orderingTable n =>
    obtain ⟨-, hlinks, hleft⟩ := table_congr h.place n
    have hplaces : (List.range n).map (tablePlace c'.address) =
        (List.range n).map (tablePlace c.address) :=
      List.map_congr_left fun k _ => (table_congr h.place k).1
    unfold Channel.plan
    dsimp only
    rw [hplaces, hlinks, hleft]
    exact ⟨rfl, h.control, h.progress, rfl, h.size⟩

/-- The words of RAM of a slice are the same, too. -/
theorem touches (h : c.Alike c') (p : Progress) (ram : ByteArray) :
    c'.touches ram p = c.touches ram p := by
  cases p with
  | blocks wordsLeft blocksLeft =>
    obtain ⟨-, -, -, hchunk, -⟩ := h.registers
    unfold Channel.touches
    dsimp only
    rw [hchunk]
    exact List.map_congr_left fun k _ => h.wordAt_eq k
  | linkedList =>
    obtain ⟨hsize, -⟩ := node_congr h.place ram
    unfold Channel.touches
    dsimp only
    rw [hsize]
    refine List.map_congr_left fun k _ => ?_
    unfold nodePlace
    rw [h.place]
  | orderingTable n => exact List.map_congr_left fun k _ => (table_congr h.place k).1

end Alike

/-- A slice begins at the address. -/
theorem head?_touches (c : Channel) (ram : ByteArray) {p : Progress} (h : p.Bounded) :
    (c.touches ram p).head? = some (placeOf c.address) := by
  cases p with
  | blocks wordsLeft blocksLeft =>
    obtain ⟨n, hn⟩ := Nat.exists_eq_add_of_lt (c.chunk_pos h.1.1)
    unfold touches
    dsimp only
    rw [hn, List.range'_succ, List.map_cons, List.head?_cons, wordAt_zero]
    rfl
  | linkedList =>
    unfold touches
    dsimp only
    rw [List.range_succ_eq_map, List.map_cons, List.head?_cons, nodePlace_zero]
  | orderingTable n =>
    obtain ⟨m, rfl⟩ := Nat.exists_eq_add_of_le' h.1
    unfold touches tablePlace
    dsimp only
    rw [List.range_succ_eq_map, List.map_cons, List.head?_cons]
    exact congrArg (fun a => some (placeOf a)) (UInt32.sub_zero c.address)

end Channel

/-! ### Controllers -/

/-- The transfers of two controllers go on alike. -/
structure Alike (d d' : Dma) : Prop where
  channels : ∀ i, (d.channel i).Alike (d'.channel i)
  control : d'.control = d.control
  interrupt : d'.interrupt = d.interrupt
  sliceGap : d'.sliceGap = d.sliceGap

namespace Alike

variable {d d' : Dma}

theorem isRunnable_eq (h : d.Alike d') (i : Fin 7) : d'.isRunnable i = d.isRunnable i := by
  unfold isRunnable
  rw [isEnabled_congr h.control, (h.channels i).isBusy_eq]

theorem nextChannel?_eq (h : d.Alike d') : d'.nextChannel? = d.nextChannel? := by
  have hprefer : d'.prefer = d.prefer := by
    funext best i
    unfold prefer priority field
    rw [h.isRunnable_eq, h.control]
  unfold nextChannel?
  rw [hprefer]

theorem modify (h : d.Alike d') (i : Fin 7) {f g : Channel → Channel}
    (hf : (f (d.channel i)).Alike (g (d'.channel i))) : (d.modify i f).Alike (d'.modify i g) := by
  refine ⟨fun j => ?_, h.control, h.interrupt, h.sliceGap⟩
  rw [channel_modify, channel_modify]
  split
  · exact hf
  · exact h.channels j

theorem updateMasterFlag (h : d.Alike d') :
    d'.updateMasterFlag.1 = d.updateMasterFlag.1 ∧
      d.updateMasterFlag.2.Alike d'.updateMasterFlag.2 := by
  unfold Dma.updateMasterFlag
  rw [h.interrupt]
  split
  · exact ⟨rfl, h.channels, h.control, rfl, h.sliceGap⟩
  · exact ⟨rfl, h.channels, h.control, rfl, h.sliceGap⟩

theorem complete (h : d.Alike d') (i : Fin 7) :
    (d'.complete i).1 = (d.complete i).1 ∧ (d.complete i).2.Alike (d'.complete i).2 := by
  have hfinished := h.modify i (f := .finish) (g := .finish) (h.channels i).finish
  unfold Dma.complete
  dsimp only
  rw [hfinished.interrupt]
  split
  · exact updateMasterFlag ⟨hfinished.channels, hfinished.control, rfl, hfinished.sliceGap⟩
  · exact hfinished.updateMasterFlag

theorem conclude (h : d.Alike d') (i : Fin 7) {q : Plan} {c' : Channel} (hc : q.channel.Alike c') :
    (d'.conclude i { q with channel := c' }).1 = (d.conclude i q).1 ∧
      (d.conclude i q).2.Alike (d'.conclude i { q with channel := c' }).2 := by
  have hplanned := h.modify i (f := fun _ => q.channel) (g := fun _ => c') hc
  unfold Dma.conclude
  dsimp only
  split
  · exact hplanned.complete i
  · exact ⟨rfl, hplanned⟩

end Alike

end Psx.Dma
