import Psx.Cpu.Basic
import Psx.Cpu.Disassembly
import Psx.Error

/-!
# Instruction traces

A tracer writes a line for each executed instruction, with the values of some registers if they are
asked for, until it has written as many as it may. What it writes goes to a sink, which may keep
text back until it is flushed, and may fail; a line counts only when all of it was written.
-/

namespace Psx

namespace Trace

inductive Sink where
  /-- Keeps everything at once. -/
  | text (written : String)
  /-- Keeps text back until so many bytes would be exceeded. -/
  | buffered (capacity : Nat) (written pending : String)
  /-- Takes nothing. -/
  | broken
deriving DecidableEq, Repr

namespace Sink

def file : Sink := buffered 8192 "" ""

def output : Sink → String
  | text written => written
  | buffered _ written _ => written
  | broken => ""

/-- Takes a piece of text, if it can. A piece as long as the buffer is not kept back. -/
def write? (s : Sink) (piece : String) : Option Sink :=
  match s with
  | text written => some (text (written ++ piece))
  | buffered capacity written pending =>
    if capacity ≤ piece.utf8ByteSize then
      some (buffered capacity (written ++ pending ++ piece) "")
    else if pending.utf8ByteSize + piece.utf8ByteSize ≤ capacity then
      some (buffered capacity written (pending ++ piece))
    else some (buffered capacity (written ++ pending) piece)
  | broken => none

def flush? : Sink → Option Sink
  | text written => some (text written)
  | buffered capacity written pending => some (buffered capacity (written ++ pending) "")
  | broken => none

/-- Takes pieces one after the other; those before a failure stay taken. -/
def writeAll (s : Sink) : List String → Bool × Sink
  | [] => (true, s)
  | piece :: pieces =>
    match s.write? piece with
    | some s => s.writeAll pieces
    | none => (false, s)

end Sink

def registerLimit : Nat := 8

/-- The registers of a line: those of a list that exist, the first few of them. -/
def shown (regs : List UInt8) : List Reg :=
  (regs.filterMap fun r => if h : r.toNat < 32 then some ⟨r.toNat, h⟩ else none).take
    registerLimit

/-- A word in the pieces in which it is written: each zero in front, and then the other digits. -/
def wordPieces (n : UInt32) : List String :=
  let digits := hexDigits 8 n.toNat
  let zeros := (digits.take 7).takeWhile (· = '0')
  zeros.map String.singleton ++ [String.ofList (digits.drop zeros.length)]

/-- The pieces of the line for the instruction that was executed last. -/
def line (cpu : Cpu) (regs : List UInt8) : List String :=
  ["PC=0x"] ++ wordPieces cpu.currentPc ++ [" [0x"] ++ wordPieces cpu.currentInstruction
    ++ ["] ", Instruction.disassemble cpu.currentInstruction cpu.currentPc]
    ++ (shown regs).flatMap (fun r => [" r", toString r.val, "="] ++ wordPieces (cpu.reg r))
    ++ ["\n"]

end Trace

structure Tracer where
  sink : Trace.Sink
  enabled : Bool := true
  /-- How many lines may be written, if that is bounded. -/
  limit : Option Nat := none
  written : Nat := 0
deriving DecidableEq, Repr

namespace Tracer

def failure : Error := .inputOutput "the trace could not be written"

def isFull (t : Tracer) : Bool := t.limit.any (· ≤ t.written)

/-- Writes the line for the instruction that was executed last. A full tracer turns itself off. -/
def trace (t : Tracer) (cpu : Cpu) (regs : List UInt8 := []) : Option Error × Tracer :=
  if !t.enabled then (none, t)
  else if t.isFull then (none, { t with enabled := false })
  else
    match t.sink.writeAll (Trace.line cpu regs) with
    | (true, sink) => (none, { t with sink, written := t.written + 1 })
    | (false, sink) => (some failure, { t with sink })

def flush (t : Tracer) : Option Error × Tracer :=
  match t.sink.flush? with
  | some sink => (none, { t with sink })
  | none => (some failure, t)

end Tracer

end Psx
