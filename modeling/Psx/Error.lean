import Psx.Hex

/-!
# What can go wrong

Each way in which building, configuring or restoring a session fails, and its one-line message.
-/

namespace Psx

inductive Error where
  | biosNotFound (path : String)
  | invalidBiosSize (expected got : Nat)
  | inputOutput (reason : String)
  | config (reason : String)
  | snapshotEncode (reason : String)
  | snapshotDecode (reason : String)
  | snapshotVersion (expected got : Nat)
  | snapshotMismatch (reason : String)
  | addressConflict (first last : UInt32) (existing : String)
  | invalidDmaChannel (channel : Nat)
deriving DecidableEq, Repr

namespace Error

def message : Error → String
  | biosNotFound path => "BIOS file not found: " ++ path
  | invalidBiosSize expected got =>
    s!"Invalid BIOS size: expected {expected} bytes, got {got} bytes"
  | inputOutput reason => "I/O error: " ++ reason
  | config reason => "Configuration error: " ++ reason
  | snapshotEncode reason => "Snapshot encode error: " ++ reason
  | snapshotDecode reason => "Snapshot decode error: " ++ reason
  | snapshotVersion expected got =>
    s!"Snapshot version mismatch: expected {expected}, got {got}"
  | snapshotMismatch reason => "Snapshot does not match session: " ++ reason
  | addressConflict first last existing =>
    s!"Address window {hexAddress first}-{hexAddress last} overlaps {existing}"
  | invalidDmaChannel channel => s!"Invalid DMA channel: {channel}"

end Error

end Psx
