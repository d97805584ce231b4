import Psx.Cpu.Basic
import Psx.Memory.Store
import Psx.Proofs.Snapshot.Codec
import Psx.Snapshot.Chips

/-!
# Laws of the saved states

The laws of the codecs of the chips, of the processor and of the memories, each of the shape of its
codec. What fits is what the types of the fields can hold; flags, bytes and words always fit.
-/

namespace Psx

open Snapshot

namespace Snapshot.Law

variable {α β γ : Type} {c : Codec α} {d : Codec β}

theorem map_get (l : Law c) (make : α → β) {a : α} {cur : Cursor} (h : l.fits a)
    (hr : cur.Reads (l.image a)) : (make <$> c.get) cur =
      (cur.spend (l.claims a)).map fun cur => (make a, cur.skip (l.image a).length) := by
  rw [Get.map_apply, l.get a cur h hr, Option.map_map]
  rfl

/-- Two fields read for one alternative of a choice. -/
theorem map_pair_get (f : α → β → γ) :
    (do let a ← c.get; let b ← d.get; pure (f a b)) = (fun p => f p.1 p.2) <$> (c.pair d).get := by
  funext cur
  show (c.get cur).bind _ = ((c.get cur).bind _).bind _
  cases c.get cur with
  | none => rfl
  | some r =>
    show (d.get r.2).bind _ = ((d.get r.2).bind _).bind _
    cases d.get r.2 <;> rfl

end Snapshot.Law

def InterruptController.law : Law codec :=
  (Law.word16.pair Law.word16).imap _ _ fun _ => rfl

/-! ### Timers -/

def Timer.Mode.law : Law codec :=
  (Law.bool.pair <| Law.byte.pair <| Law.bool.pair <| Law.bool.pair <| Law.bool.pair <|
    Law.bool.pair <| Law.bool.pair Law.byte).imap _ _ fun _ => rfl

def Timer.Channel.law : Law codec :=
  (Law.word16.pair <| Mode.law.pair <| Law.word16.pair <| Law.byte.pair <| Law.bool.pair <|
    Law.bool.pair <| Law.bool.pair <| Law.bool.pair <| Law.bool.pair <| Law.bool.pair
    Law.nat64).imap _ _ fun _ => rfl

def Timers.law : Law codec :=
  ((Timer.Channel.law.vector 3).pair Law.word32).imap _ _ fun _ => rfl

/-! ### Transfers -/

def Dma.Progress.law : Law codec :=
  Law.choice
    (fun
      | .blocks wordsLeft blocksLeft => wordsLeft < 256 ^ 4 ∧ blocksLeft < 256 ^ 4
      | .linkedList => True
      | .orderingTable entries => entries < 256 ^ 4)
    (fun
      | .blocks .. => 8
      | .linkedList => 0
      | .orderingTable _ => 4)
    (fun
      | .blocks wordsLeft blocksLeft => Law.natBytes wordsLeft ++ Law.natBytes blocksLeft
      | .linkedList => []
      | .orderingTable entries => Law.natBytes entries)
    (fun a => by cases a <;> dsimp only <;> decide)
    (fun a out h => by
      cases a with
      | blocks wordsLeft blocksLeft =>
        exact (Law.nat32.pair Law.nat32).put (wordsLeft, blocksLeft) out h
      | linkedList => exact (List.append_nil _).symm
      | orderingTable entries => exact Law.nat32.put entries out h)
    (fun a cur h hr => by
      cases a with
      | blocks wordsLeft blocksLeft =>
        rw [show (_ : Get Progress) = _ from Law.map_pair_get Progress.blocks]
        exact (Law.nat32.pair Law.nat32).map_get _ (a := (wordsLeft, blocksLeft)) h hr
      | linkedList => rw [Cursor.spend_zero]; rfl
      | orderingTable entries => exact Law.nat32.map_get Progress.orderingTable h hr)

def Dma.Channel.law : Law codec :=
  (Law.word32.pair <| Law.word32.pair <| Law.word32.pair <| Law.byte.pair
    Progress.law.option).imap _ _ fun _ => rfl

def Dma.law : Law codec :=
  ((Channel.law.vector 7).pair <| Law.word32.pair <| Law.word32.pair Law.nat32).imap _ _
    fun _ => rfl

/-! ### The video port -/

def VideoStandard.law : Law codec :=
  (Law.nat32.filter _ _ fun s => by cases s <;> rfl).restrict (fun _ => True)
    fun s _ => by
      cases s with
      | ntsc => exact (by decide : 0 < 256 ^ 4)
      | pal => exact (by decide : 1 < 256 ^ 4)

def Gpu.Status.law : Law codec :=
  (Law.word16.pair <| Law.bool.pair <| Law.bool.pair <| Law.bool.pair <| Law.byte.pair <|
    Law.bool.pair <| Law.bool.pair <| Law.bool.pair <| Law.bool.pair <| Law.bool.pair <|
    Law.bool.pair <| Law.bool.pair <| Law.bool.pair Law.byte).imap _ _ fun _ => rfl

def Gpu.DisplayArea.law : Law codec :=
  (Law.word16.pair <| Law.word16.pair <| Law.word16.pair <| Law.word16.pair <| Law.word16.pair
    Law.word16).imap _ _ fun _ => rfl

def Gpu.Environment.law : Law codec :=
  (Law.word32.pair <| Law.word32.pair <| Law.word32.pair Law.word32).imap _ _ fun _ => rfl

def Gpu.CommandQueue.law : Law codec :=
  (Law.word32.array.pair <| Law.nat64.pair Law.nat64).imap _ _ fun _ => rfl

def Gpu.Packet.law : Law codec :=
  Law.choice
    (fun
      | .idle => True
      | .command _ remaining => remaining < 256 ^ 4
      | .polyline mandatory => mandatory < 256 ^ 4
      | .imageData remaining => remaining < 256 ^ 4)
    (fun
      | .idle => 0
      | .command .. => 5
      | .polyline _ => 4
      | .imageData _ => 4)
    (fun
      | .idle => []
      | .command opcode remaining => opcode :: Law.natBytes remaining
      | .polyline mandatory => Law.natBytes mandatory
      | .imageData remaining => Law.natBytes remaining)
    (fun a => by cases a <;> dsimp only <;> decide)
    (fun a out h => by
      cases a with
      | idle => exact (List.append_nil _).symm
      | command opcode remaining =>
        exact (Law.byte.pair Law.nat32).put (opcode, remaining) out ⟨trivial, h⟩
      | polyline mandatory => exact Law.nat32.put mandatory out h
      | imageData remaining => exact Law.nat32.put remaining out h)
    (fun a cur h hr => by
      cases a with
      | idle => rw [Cursor.spend_zero]; rfl
      | command opcode remaining =>
        rw [show (_ : Get Packet) = _ from Law.map_pair_get Packet.command]
        exact (Law.byte.pair Law.nat32).map_get _ (a := (opcode, remaining)) ⟨trivial, h⟩ hr
      | polyline mandatory => exact Law.nat32.map_get Packet.polyline h hr
      | imageData remaining => exact Law.nat32.map_get Packet.imageData h hr)

def Gpu.Beam.law : Law codec :=
  (VideoStandard.law.pair <| Law.nat16.pair <| Law.nat32.pair <| Law.nat64.pair <| Law.bool.pair
    Law.bool).imap _ _ fun _ => rfl

def Gpu.law : Law codec :=
  (Status.law.pair <| DisplayArea.law.pair <| Environment.law.pair <| CommandQueue.law.pair <|
    Packet.law.pair <| Law.word32.pair <| Law.nat32.pair <| VideoStandard.law.pair
    Beam.law).imap _ _ fun _ => rfl

/-! ### The rest of the bus -/

def MemoryControl.law : Law codec :=
  ((Law.word32.vector 9).pair Law.word32).imap _ _ fun _ => rfl

def Expansion.law : Law codec :=
  (Law.byte.pair Law.text).imap _ _ fun _ => rfl

def Memory.law : Law codec :=
  (Law.bytes.pair <| Law.bytes.pair <| Law.bytes.pair Law.word32).imap _ _ fun _ => rfl

/-! ### The processor -/

def Cop0.law : Law codec := (Law.word32.vector 32).imap _ _ fun _ => rfl

def CacheLine.law : Law codec :=
  (Law.word32.pair <| Law.word32.pair Law.bool).imap _ _ fun _ => rfl

def InstructionCache.law : Law codec := CacheLine.law.array.imap _ _ fun _ => rfl

def DelayedLoad.law : Law codec := (Law.byte.pair Law.word32).imap _ _ fun _ => rfl

def Cpu.law : Law codec :=
  ((Law.word32.vector 32).pair <| Law.word32.pair <| Law.word32.pair <| Law.word32.pair <|
    Law.word32.pair <| Law.word32.pair <| Cop0.law.pair <| InstructionCache.law.pair <|
    DelayedLoad.law.option.pair <| Law.bool.pair <| Law.bool.pair Law.word32).imap _ _ fun _ => rfl

end Psx
