import Psx.Proofs.Bus.Attention
import Psx.Proofs.Dma.Modes

/-!
# Chopping

A transfer whose control register has the chopping bit is meant to move no more than a window of words
in a slice and to leave the processor a window of cycles after it; both windows are powers of two, by
fields of the same register. The register stands as long as the transfer is in flight, whatever is done
with the controller (`Bus.control_operateAll`), and so do the windows.

The window of cycles is kept by every slice. The window of words is kept by the slices of blocks
alone: a slice of a list is a whole node, and fits into the window if fewer words than this follow its
header (`Bus.chops_iff`). A node can have 255 words behind its header (`Bus.chops_no_node`).
-/

namespace Psx

namespace Dma.Channel

variable {c : Channel} {p : Progress}

/-- The most words in a slice of a chopped transfer, as a power of two. -/
def wordWindow (c : Channel) : Nat := ((c.control >>> 16) &&& 7).toNat

/-- The cycles after a slice of a chopped transfer, as a power of two. -/
def cycleWindow (c : Channel) : Nat := ((c.control >>> 20) &&& 7).toNat

theorem chopWords?_eq (h : c.isChopped = true) : c.chopWords? = some (2 ^ c.wordWindow) := by
  unfold chopWords? wordWindow
  rw [if_pos h, Nat.one_shiftLeft]

theorem chopGap?_eq (h : c.isChopped = true) : c.chopGap? = some (2 ^ c.cycleWindow) := by
  unfold chopGap? cycleWindow
  rw [if_pos h, Nat.one_shiftLeft]

/-- Both windows are in the control register, and so are the mode and the chopping bit. -/
theorem windows_congr {d : Channel} (h : d.control = c.control) : d.isChopped = c.isChopped ∧
    d.wordWindow = c.wordWindow ∧ d.cycleWindow = c.cycleWindow ∧ d.syncMode = c.syncMode := by
  unfold isChopped wordWindow cycleWindow syncMode
  rw [h]
  exact ⟨rfl, rfl, rfl, rfl⟩

/-- A chopped slice of blocks is within its window, and one of a list if its node is. -/
theorem plan_chopped (hchop : c.isChopped = true) (hm : c.InMode) (hid : c.id ≠ 6)
    (hp : c.progress = some p) (ram : ByteArray) :
    (c.plan ram p).channel.chopGap? = some (2 ^ c.cycleWindow) ∧
      ((c.plan ram p).words ≤ 2 ^ c.wordWindow ↔
        (c.syncMode = .linkedList → nodeSize ram c.address < 2 ^ c.wordWindow)) := by
  obtain ⟨-, hcontrol, -⟩ := c.plan_kept ram p
  obtain ⟨hchopped, -, hcycles, -⟩ := windows_congr hcontrol
  refine ⟨?_, ?_⟩
  · rw [chopGap?_eq (hchopped.trans hchop), hcycles]
  · have hkind := hm p hp
    cases p with
    | blocks wordsLeft blocksLeft =>
      obtain ⟨hwords, -⟩ := c.plan_blocks ram wordsLeft blocksLeft
      have hle : c.chunk wordsLeft ≤ 2 ^ c.wordWindow := by
        unfold chunk
        rw [chopWords?_eq hchop]
        exact Nat.min_le_right ..
      rw [hwords]
      exact ⟨fun _ hlist => absurd hlist hkind.2, fun _ => hle⟩
    | linkedList => exact ⟨fun h _ => h, fun h => h hkind.2⟩
    | orderingTable => exact absurd hkind hid

end Dma.Channel

variable {δ : Type} [Device δ]

namespace Bus

variable {b : Bus δ} {i : Fin 7}

/-! ### Whatever is done -/

/-- An operation takes each channel one step. -/
theorem operate_step (b : Bus δ) (op : Dma.Operation δ) (i : Fin 7) : (b.board.dma.channel i).Step i
    b.memory.ram ((b.operate op).board.dma.channel i) := by
  cases op with
  | configure channel direction address amount =>
    show Dma.Channel.Step i _ _ (Dma.channel (Except.toOption _ |>.getD _) i)
    cases hd : b.board.dma.configure channel direction address amount with
    | ok d' => exact Dma.configure_step i _ hd
    | error e => exact .registers _ _
  | trigger channel => exact Dma.trigger_step i _ channel
  | write offset w value => exact Dma.write_step i _ offset w value
  | runSlice =>
    rw [operate_runSlice, runSlice_eq]
    split
    · exact .registers _ _
    · rename_i j _
      exact Dma.serve_step b i j
  | reset => exact Dma.reset_step i _
  | meanwhile bus => exact .registers _ _

theorem operated_operate (h : b.board.dma.Operated) (op : Dma.Operation δ) :
    (b.operate op).board.dma.Operated := by
  cases op with
  | configure channel direction address amount =>
    show Dma.Operated (Except.toOption _ |>.getD _)
    cases hd : b.board.dma.configure channel direction address amount with
    | ok d' => exact .configure h hd
    | error e => exact h
  | trigger channel => exact .trigger h channel
  | write offset w value => exact .write h offset w value
  | runSlice =>
    rw [operate_runSlice]
    exact .runSlice h
  | reset => exact .reset h
  | meanwhile bus => exact h

/-- A controller in operation stays in operation, and the control register of a channel stands as long
as its transfer is in flight. -/
theorem control_operateAll (h : b.board.dma.Operated) (ops : List (Dma.Operation δ))
    (hbusy : ∀ k ≤ ops.length,
      (((ops.take k).foldl operate b).board.dma.channel i).isBusy = true) :
    (ops.foldl operate b).board.dma.Operated ∧
      ((ops.foldl operate b).board.dma.channel i).control = (b.board.dma.channel i).control := by
  induction ops generalizing b with
  | nil => exact ⟨h, rfl⟩
  | cons op ops ih =>
    obtain ⟨hoperated, hkept⟩ := ih (operated_operate h op) fun k hk =>
      hbusy (k + 1) (Nat.succ_le_succ hk)
    have hnow := hbusy 0 (Nat.zero_le _)
    have hthen := hbusy 1 (Nat.succ_le_succ (Nat.zero_le _))
    exact ⟨hoperated, hkept.trans ((b.operate_step op i).control_eq hnow hthen)⟩

/-! ### Slices -/

/-- While a chopped transfer is in flight, whatever is done with the controller and the rest of the bus,
it has a slice whenever it is next, and each of its slices is followed by the window of cycles. A slice
is within the window of words exactly if the transfer is not along a list or fewer words than this
follow the header of the node. -/
theorem chops_iff (h : b.board.dma.Operated) (hi : i.val < 6)
    (hchop : (b.board.dma.channel i).isChopped = true) (ops : List (Dma.Operation δ))
    (hbusy : ∀ k ≤ ops.length,
      (((ops.take k).foldl operate b).board.dma.channel i).isBusy = true) :
    let c := b.board.dma.channel i
    let b' := ops.foldl operate b
    (b'.board.dma.nextChannel? = some i →
      ∃ slice b'', b'.runSlice = (some slice, b'') ∧ slice.channel = i) ∧
    ∀ slice b'', b'.runSlice = (some slice, b'') → slice.channel = i →
      slice.gap = 2 ^ c.cycleWindow ∧
      (slice.words ≤ 2 ^ c.wordWindow ↔ (c.syncMode = .linkedList →
        Dma.nodeSize b'.memory.ram (b'.board.dma.channel i).address < 2 ^ c.wordWindow)) := by
  intro c b'
  refine ⟨runSlice_next, fun slice b'' hrun hchannel => ?_⟩
  obtain ⟨hoperated, hkept⟩ := control_operateAll h ops hbusy
  obtain ⟨hchopped, hwindow, hcycles, hmode⟩ := Dma.Channel.windows_congr hkept
  obtain ⟨hnumber, hinMode⟩ := hoperated.inMode i
  obtain ⟨q, -, hq, hwords, -, hgap, -⟩ := runSlice_some hrun
  rw [hchannel] at hq
  obtain ⟨p, hp, rfl⟩ := Option.map_eq_some_iff.1 hq
  obtain ⟨hcycle, hfits⟩ := Dma.Channel.plan_chopped (hchopped.trans hchop) hinMode
    (Dma.Channel.id_ne_six hi hnumber) hp b'.memory.ram
  rw [hwindow, hmode] at hfits
  rw [hcycles] at hcycle
  rw [hgap, hwords, hcycle]
  exact ⟨rfl, hfits⟩

/-- The core when a program has enabled the channel of the GPU, set it to two blocks of three words from
address 0 and started it, with a node of three words in RAM that ends a list. -/
def sending (control : UInt32) : Bus Empty :=
  { memory := { Memory.initial with ram := ⟨#[0xFF, 0xFF, 0xFF, 0x03]⟩ }
    board := { (Board.ofConfig {} : Board Empty) with
      dma := (Dma.initial 1).written [(0x70, 0x800), (0x20, 0), (0x24, 0x00020003), (0x28, control)] }
    table := coreTable }

theorem operated_sending (control : UInt32) : (sending control).board.dma.Operated :=
  Dma.operated_written (.initial (by decide)) _

/-- Blocks that are chopped to two words, from RAM: the slice behind the first one is within the window
too, which is the last word of the first block. -/
theorem chops_iff_sending :
    let b := (sending 0x01010301).operate .runSlice
    ∃ slice b', b.runSlice = (some slice, b') ∧ slice.gap = 1 ∧ slice.words ≤ 2 := by
  intro b
  have hbusy : ∀ k ≤ 1, ((((([.runSlice] : List (Dma.Operation Empty)).take k).foldl operate
      (sending 0x01010301)).board.dma.channel 2).isBusy) = true := by
    intro k hk
    have hcases : k = 0 ∨ k = 1 := by omega
    rcases hcases with rfl | rfl <;> decide +kernel
  obtain ⟨hnext, hslices⟩ := chops_iff (operated_sending 0x01010301) (i := 2) (by decide) (by decide)
    [.runSlice] hbusy
  obtain ⟨slice, b', hrun, hchannel⟩ := hnext (by decide +kernel)
  obtain ⟨hgap, hfits⟩ := hslices slice b' hrun hchannel
  exact ⟨slice, b', hrun, hgap, hfits.2 fun h => absurd h (by decide)⟩

/-- The same transfer along a list moves the header and three words in one slice. -/
theorem chops_no_node : ¬∀ (b : Bus Empty) (i : Fin 7) (slice : Dma.Slice) (b' : Bus Empty),
    b.board.dma.Operated → i.val < 6 → (b.board.dma.channel i).isChopped = true →
    b.runSlice = (some slice, b') → slice.channel = i →
      slice.words ≤ 2 ^ (b.board.dma.channel i).wordWindow := by
  intro h
  have hslice : (sending 0x01010501).runSlice.1 =
      some { channel := 2, words := 4, gap := 1, completed := true } := by decide +kernel
  have hwindow := h (sending 0x01010501) 2 _ _ (operated_sending _) (by decide) (by decide)
    (Prod.ext hslice rfl) rfl
  exact absurd hwindow (by decide)

end Bus

end Psx
