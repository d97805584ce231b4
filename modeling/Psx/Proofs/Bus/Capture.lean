import Psx.Proofs.Bus.Frame
import Psx.Proofs.Gpu.Capture

/-!
# Captured words on the bus

The video port is used from outside, by accesses that the decode table sends there, and by the
channels that it serves. `PortCall.operation` is what such a call means to the port, and
`Bus.gpu_callPort` that it does this to the port and nothing else, whoever else it concerns. So what
is said of the captured words holds whichever way they are written (`Bus.captured_words`).
-/

namespace Psx

open Gpu (newest)

/-- A call that may concern the video port. -/
inductive PortCall where
  /-- The port is used directly. -/
  | direct (op : Gpu.Operation)
  | read (address : UInt32) (w : Width)
  | write (address : UInt32) (w : Width) (value : UInt32)
  /-- A channel hands on a word that it has moved out of RAM. -/
  | consume (channel : Nat) (word : UInt32)
  /-- A channel asks for a word to move into RAM. -/
  | produce (channel : Nat)
deriving DecidableEq, Repr

namespace DecodeTable

/-- What the decode table answers for a virtual address, if it is asked. -/
def target? (t : DecodeTable Part) (address : UInt32) : Option (Part × UInt32) :=
  match Address.region address with
  | .io | .expansion1 | .expansion2 => t.lookup? (Address.translate address)
  | _ => none

end DecodeTable

namespace PortCall

/-- What the call means to the port. -/
def operation (t : DecodeTable Part) : PortCall → Gpu.Operation
  | direct op => op
  | read address w =>
    match t.target? (w.align address) with
    | some (.gpu, offset) => if wordOf offset == 0 then .readLatch else .pass
    | _ => .pass
  | write address w value =>
    match t.target? (w.align address) with
    | some (.gpu, offset) =>
      if wordOf offset == 0 then .writeGp0 (value &&& w.mask) else .writeGp1 (value &&& w.mask)
    | _ => .pass
  | consume channel word => if t.served? channel = some .gpu then .writeGp0 word else .pass
  | produce channel => if t.served? channel = some .gpu then .readLatch else .pass

end PortCall

theorem Gpu.read_eq_operate (g : Gpu) (offset : UInt32) (w : Width) :
    (g.read offset w).2 = (g.operate (if wordOf offset == 0 then .readLatch else .pass)).2 := by
  unfold Gpu.read
  split_ifs <;> rfl

theorem Gpu.write_eq_operate (g : Gpu) (offset value : UInt32) : (g.write offset value).2 =
    (g.operate (if wordOf offset == 0 then .writeGp0 value else .writeGp1 value)).2 := by
  unfold Gpu.write
  split_ifs <;> rfl

namespace Board

variable {δ : Type} [Device δ] (b : Board δ)

theorem gpu_read (part : Part) (offset : UInt32) (w : Width) : (b.read part offset w).2.gpu =
    if part = .gpu then (b.gpu.read offset w).2 else b.gpu := by
  cases part with
  | gpu => rfl
  | external i =>
    unfold read
    dsimp only
    split <;> rfl
  | _ => rfl

theorem gpu_write (part : Part) (offset : UInt32) (w : Width) (value : UInt32) :
    (b.write part offset w value).gpu =
      if part = .gpu then (b.gpu.write offset value).2 else b.gpu := by
  cases part with
  | gpu => rfl
  | external i =>
    unfold write
    dsimp only
    split <;> rfl
  | _ => rfl

theorem gpu_consume (part : Part) (channel : Nat) (word : UInt32) :
    (b.consume part channel word).gpu =
      if part = .gpu then (b.gpu.writeGp0 word).2 else b.gpu := by
  cases part with
  | gpu => rfl
  | external i =>
    unfold consume
    dsimp only
    split <;> rfl
  | _ => rfl

theorem gpu_produce (part : Part) (channel : Nat) : (b.produce part channel).2.gpu =
    if part = .gpu then b.gpu.readLatch.2 else b.gpu := by
  cases part with
  | gpu => rfl
  | external i =>
    unfold produce
    dsimp only
    split <;> rfl
  | _ => rfl

end Board

namespace Bus

variable {δ : Type} [Device δ]

/-- Makes a call. -/
def callPort (b : Bus δ) : PortCall → Bus δ
  | .direct op =>
    { b with board := b.board.withGpu (b.board.gpu.operate op).1 (b.board.gpu.operate op).2 }
  | .read address w => (b.read address w).2
  | .write address w value => b.write address w value
  | .consume channel word => b.dmaConsume channel word
  | .produce channel => (b.dmaProduce channel).2

def callPortAll (b : Bus δ) (calls : List PortCall) : Bus δ := calls.foldl callPort b

variable (b : Bus δ)

theorem board_read (address : UInt32) (w : Width) : (b.read address w).2.board =
    match b.table.target? (w.align address) with
    | some (part, offset) => (b.board.read part offset w).2
    | none => b.board := by
  unfold Bus.read DecodeTable.target? readDevice
  dsimp only
  cases Address.region (w.align address) with
  | io | expansion1 | expansion2 =>
    dsimp only
    cases b.table.lookup? (Address.translate (w.align address)) <;> rfl
  | _ => rfl

theorem board_write (address : UInt32) (w : Width) (value : UInt32) :
    (b.write address w value).board =
      match b.table.target? (w.align address) with
      | some (part, offset) => b.board.write part offset w (value &&& w.mask)
      | none => b.board := by
  unfold Bus.write DecodeTable.target? writeDevice
  dsimp only
  cases Address.region (w.align address) with
  | io | expansion1 | expansion2 =>
    dsimp only
    cases b.table.lookup? (Address.translate (w.align address)) <;> rfl
  | _ => rfl

/-- No call changes the decode table. -/
theorem table_callPort (call : PortCall) : (b.callPort call).table = b.table := by
  cases call with
  | direct op => rfl
  | read address w => exact (b.frame_read address w).table
  | write address w value => exact (b.frame_write address w value).table
  | consume channel word => exact (b.frame_dmaConsume channel word).table
  | produce channel => exact (b.frame_dmaProduce channel).table

/-- A call does to the port what it means to it. -/
theorem gpu_callPort (call : PortCall) :
    (b.callPort call).board.gpu = (b.board.gpu.operate (call.operation b.table)).2 := by
  cases call with
  | direct op => rfl
  | read address w =>
    simp only [callPort, PortCall.operation, board_read]
    cases htarget : b.table.target? (w.align address) with
    | none => rfl
    | some target =>
      obtain ⟨part, offset⟩ := target
      dsimp only
      rw [Board.gpu_read]
      cases part with
      | gpu => exact b.board.gpu.read_eq_operate offset w
      | _ => rfl
  | write address w value =>
    simp only [callPort, PortCall.operation, board_write]
    cases htarget : b.table.target? (w.align address) with
    | none => rfl
    | some target =>
      obtain ⟨part, offset⟩ := target
      dsimp only
      rw [Board.gpu_write]
      cases part with
      | gpu => exact b.board.gpu.write_eq_operate offset (value &&& w.mask)
      | _ => rfl
  | consume channel word =>
    simp only [callPort, PortCall.operation, dmaConsume]
    cases hserved : b.table.served? channel with
    | none => rfl
    | some part =>
      dsimp only
      rw [Board.gpu_consume]
      cases part <;> rfl
  | produce channel =>
    simp only [callPort, PortCall.operation, dmaProduce]
    cases hserved : b.table.served? channel with
    | none => rfl
    | some part =>
      dsimp only
      rw [Board.gpu_produce]
      cases part <;> rfl

theorem gpu_callPortAll (calls : List PortCall) : (b.callPortAll calls).board.gpu =
    (b.board.gpu.operateAll (calls.map (PortCall.operation b.table))).2 := by
  induction calls generalizing b with
  | nil => rfl
  | cons call calls ih =>
    have hrest := ih (b.callPort call)
    rw [table_callPort, gpu_callPort] at hrest
    exact hrest

/-- Whichever way words are written to a port that is fresh, and whatever else is done with it: the
queue holds the newest of the words written since it was last emptied, in order, and no more than it
has room for; it has counted as dropped the other words of each time between one emptying and the
next; and each word that was written was dropped, or taken, or thrown away by a command, or is in
the queue. -/
theorem captured_words (capacity : Nat) (standard : VideoStandard) (calls : List PortCall) :
    let fresh := Gpu.initial capacity standard
    let b := { b with board := { b.board with gpu := fresh } }
    let queue := (b.callPortAll calls).board.gpu.queue
    let ops := calls.map (PortCall.operation b.table)
    let log := Gpu.log ops
    let room := max capacity 1
    log.times.flatten = ops.filterMap Gpu.Operation.word? ∧
      queue.toList = newest room log.current ∧
      queue.size = min log.current.length room ∧
      queue.dropped =
        (log.times.map fun words => words.length - min words.length room).sum ∧
      ∃ lost, lost.length = queue.dropped ∧
        (ops.filterMap Gpu.Operation.word?).Perm
          (lost ++ (fresh.drained ops ++ fresh.cleared ops ++ queue.toList)) := by
  intro fresh b' queue ops log room
  have hroom : 0 < room := Nat.lt_of_lt_of_le Nat.one_pos (Nat.le_max_right ..)
  have hfresh : Gpu.Captures room {} fresh.queue := Gpu.captures_initial capacity standard
  have hgpu : (b'.callPortAll calls).board.gpu = (fresh.operateAll ops).2 :=
    b'.gpu_callPortAll calls
  have hqueue : Gpu.Captures room log queue := by
    have hrun := hfresh.operateAll hroom ops
    rw [← hgpu] at hrun
    exact hrun
  have hperm := Gpu.words_perm hfresh hroom ops
  rw [← hgpu] at hperm
  refine ⟨Gpu.flatten_times {} ops, hqueue.words, ?_, ?_, _, hqueue.dropped.symm, hperm⟩
  · rw [Gpu.CommandQueue.size_eq, hqueue.words, Gpu.length_newest]
  · rw [hqueue.dropped, Gpu.Log.lost, List.length_flatMap]
    simp only [Gpu.length_oldest]

end Bus

end Psx
