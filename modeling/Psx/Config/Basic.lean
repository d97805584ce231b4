import Psx.Gpu.Video

/-!
# Session configuration

What a session is built from: the boot image, the video standard, what an unanswered read yields,
how many drawing words are kept, and what accesses and transfers cost.
-/

namespace Psx

structure AccessCost where
  read : Nat
  write : Nat
deriving DecidableEq, Repr

/-- Cycles of an instruction and of an access to each region. -/
structure BusTiming where
  instructionCycles : Nat := 1
  ram : AccessCost := ⟨4, 1⟩
  scratchpad : AccessCost := ⟨0, 0⟩
  bios : AccessCost := ⟨22, 0⟩
  io : AccessCost := ⟨2, 1⟩
  expansion : AccessCost := ⟨10, 5⟩
deriving DecidableEq, Repr

structure DmaTiming where
  /-- Cycles between two slices of a transfer. -/
  sliceGapCycles : Nat := 16
deriving DecidableEq, Repr

structure SessionConfig where
  biosPath : Option String := none
  video : VideoStandard := .ntsc
  openBusValue : UInt32 := 0xFFFFFFFF
  gpuFifoCapacity : Nat := 4096
  timing : BusTiming := {}
  dma : DmaTiming := {}
deriving DecidableEq, Repr

end Psx
