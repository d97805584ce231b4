import Psx.Board
import Psx.Bus
import Psx.CommandLine
import Psx.Config.Basic
import Psx.Config.Document
import Psx.Cpu.Arithmetic
import Psx.Cpu.Basic
import Psx.Cpu.Cache
import Psx.Cpu.Cop0
import Psx.Cpu.Disassembly
import Psx.Cpu.Encoding
import Psx.Cpu.Execute
import Psx.Cpu.Instruction
import Psx.Cpu.Step
import Psx.Cpu.Trace
import Psx.Device
import Psx.Dma.Channel
import Psx.Dma.Controller
import Psx.Dma.Transfer
import Psx.Error
import Psx.Gpu.Beam
import Psx.Gpu.CommandQueue
import Psx.Gpu.Packet
import Psx.Gpu.Port
import Psx.Gpu.Status
import Psx.Gpu.Video
import Psx.Hex
import Psx.Interrupt
import Psx.Machine
import Psx.Machine.Counts
import Psx.Main
import Psx.Memory.Bytes
import Psx.Memory.Control
import Psx.Memory.DecodeTable
import Psx.Memory.Expansion
import Psx.Memory.Region
import Psx.Memory.Store
import Psx.Proofs.Bus.Alone
import Psx.Proofs.Bus.Attention
import Psx.Proofs.Bus.Capture
import Psx.Proofs.Bus.Carry
import Psx.Proofs.Bus.Cells
import Psx.Proofs.Bus.Chopping
import Psx.Proofs.Bus.Core
import Psx.Proofs.Bus.Exchanges
import Psx.Proofs.Bus.Frame
import Psx.Proofs.Bus.Invariant
import Psx.Proofs.Bus.Lists
import Psx.Proofs.Bus.Loading
import Psx.Proofs.Bus.Metering
import Psx.Proofs.Bus.NarrowWrites
import Psx.Proofs.Bus.Plans
import Psx.Proofs.Bus.PowerOn
import Psx.Proofs.Bus.Ram
import Psx.Proofs.Bus.RamBytes
import Psx.Proofs.Bus.RegisterMap
import Psx.Proofs.Bus.Registration
import Psx.Proofs.Bus.Rejected
import Psx.Proofs.Bus.Requests
import Psx.Proofs.Bus.Schedules
import Psx.Proofs.Bus.Simulation
import Psx.Proofs.Bus.Tables
import Psx.Proofs.Bus.Transfers
import Psx.Proofs.Bus.Turns
import Psx.Proofs.Bus.Windows
import Psx.Proofs.Checked.Bus
import Psx.Proofs.Checked.Chips
import Psx.Proofs.Checked.Cpu
import Psx.Proofs.Checked.Dma
import Psx.Proofs.Checked.Gpu
import Psx.Proofs.Checked.Instructions
import Psx.Proofs.Checked.Machine
import Psx.Proofs.Checked.Operations
import Psx.Proofs.Checked.Session
import Psx.Proofs.Checked.Timers
import Psx.Proofs.Checked.Transfers
import Psx.Proofs.Config.Accepted
import Psx.Proofs.Config.Documents
import Psx.Proofs.Config.Settings
import Psx.Proofs.Cpu.Accesses
import Psx.Proofs.Cpu.CacheBytes
import Psx.Proofs.Cpu.Coherent
import Psx.Proofs.Cpu.Costs
import Psx.Proofs.Cpu.DelaySlot
import Psx.Proofs.Cpu.Delays
import Psx.Proofs.Cpu.Disassembly
import Psx.Proofs.Cpu.Encoded
import Psx.Proofs.Cpu.Exceptions
import Psx.Proofs.Cpu.Faults
import Psx.Proofs.Cpu.Flow
import Psx.Proofs.Cpu.Isolation
import Psx.Proofs.Cpu.Precise
import Psx.Proofs.Cpu.Quotients
import Psx.Proofs.Cpu.Registers
import Psx.Proofs.Cpu.Return
import Psx.Proofs.Cpu.Shadow
import Psx.Proofs.Cpu.Sides
import Psx.Proofs.Cpu.Sound
import Psx.Proofs.Cpu.Touches
import Psx.Proofs.Cpu.TraceLines
import Psx.Proofs.Cpu.Unaligned
import Psx.Proofs.Cpu.Uncached
import Psx.Proofs.Cpu.UserMode
import Psx.Proofs.Dma.Alike
import Psx.Proofs.Dma.Blocks
import Psx.Proofs.Dma.MasterFlag
import Psx.Proofs.Dma.Modes
import Psx.Proofs.Dma.Operated
import Psx.Proofs.Dma.Pacing
import Psx.Proofs.Dma.Plans
import Psx.Proofs.Dma.Progress
import Psx.Proofs.Dma.Regular
import Psx.Proofs.Gpu.Capture
import Psx.Proofs.Gpu.Frames
import Psx.Proofs.Gpu.Framing
import Psx.Proofs.Gpu.Grammar
import Psx.Proofs.Gpu.Moments
import Psx.Proofs.Gpu.NextPulse
import Psx.Proofs.Gpu.Operations
import Psx.Proofs.Gpu.Port
import Psx.Proofs.Gpu.Position
import Psx.Proofs.Gpu.Raster
import Psx.Proofs.Gpu.VerticalBlank
import Psx.Proofs.Gpu.Waits
import Psx.Proofs.Interrupt.Requests
import Psx.Proofs.Machine.Accounting
import Psx.Proofs.Machine.Attempts
import Psx.Proofs.Machine.Counts
import Psx.Proofs.Machine.DotClock
import Psx.Proofs.Machine.Later
import Psx.Proofs.Machine.Lockstep
import Psx.Proofs.Machine.Overflow
import Psx.Proofs.Machine.Paced
import Psx.Proofs.Machine.PowerCycle
import Psx.Proofs.Machine.Reachable
import Psx.Proofs.Machine.Requests
import Psx.Proofs.Machine.Rounds
import Psx.Proofs.Machine.RunControl
import Psx.Proofs.Machine.Slices
import Psx.Proofs.Machine.Sound
import Psx.Proofs.Machine.Standstill
import Psx.Proofs.Machine.TimeSlices
import Psx.Proofs.Memory.Bytes
import Psx.Proofs.Memory.Cells
import Psx.Proofs.Memory.DecodeTable
import Psx.Proofs.Memory.Lanes
import Psx.Proofs.Scheduling
import Psx.Proofs.Scheduling.History
import Psx.Proofs.Snapshot.Admission
import Psx.Proofs.Snapshot.Allowance
import Psx.Proofs.Snapshot.Chips
import Psx.Proofs.Snapshot.Codec
import Psx.Proofs.Snapshot.Delimited
import Psx.Proofs.Snapshot.Own
import Psx.Proofs.Snapshot.Restore
import Psx.Proofs.Snapshot.Resume
import Psx.Proofs.Snapshot.Rollback
import Psx.Proofs.Snapshot.Session
import Psx.Proofs.Timer.Calls
import Psx.Proofs.Timer.Counting
import Psx.Proofs.Timer.Gating
import Psx.Proofs.Timer.OneShot
import Psx.Proofs.Timer.Slices
import Psx.Proofs.Timer.Ticking
import Psx.Proofs.Toml.Quoted
import Psx.Proofs.Toml.Tables
import Psx.Proofs.Toml.Written
import Psx.Report
import Psx.Scheduler
import Psx.Signal
import Psx.Snapshot.Chips
import Psx.Snapshot.Codec
import Psx.Snapshot.Session
import Psx.Timer.Bank
import Psx.Timer.Channel
import Psx.Timer.Count
import Psx.Timer.Mode
import Psx.Toml.Document
import Psx.Toml.Quoted
import Psx.Toml.Scalar
import Psx.Toml.Value
import Psx.Width
