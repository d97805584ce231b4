import Mathlib.Data.List.Perm.Basic
import Psx.Proofs.Gpu.Operations

/-!
# Captured words

The words that are written to the drawing port are captured until they are taken or a command throws
them away. `Gpu.log` holds what has been written, apart for each time between one emptying of the
queue and the next. Of the words of such a time the queue keeps the newest, as many as it has room
for, in order, and counts the others as dropped (`Captures`); what is done with the port keeps it so
(`Captures.operate`). So each word that was ever written is in exactly one place: it was dropped,
taken, thrown away by a command, or is in the queue (`words_perm`).
-/

namespace Psx.Gpu

/-! ### What an operation does to the queue -/

namespace Operation

/-- The operation empties the queue. -/
def empties : Operation → Bool
  | .drain => true
  | .writeGp1 value => (value >>> 24) &&& 0x3F ≤ 1
  | _ => false

/-- The word that the operation writes to the drawing port. -/
def word? : Operation → Option UInt32
  | .writeGp0 word => some word
  | _ => none

end Operation

theorem writeGp1_queue (g : Gpu) (value : UInt32) : (g.writeGp1 value).2.queue =
    if (Operation.writeGp1 value).empties then g.queue.clear else g.queue := by
  have hempties : (Operation.writeGp1 value).empties = decide ((value >>> 24) &&& 0x3F ≤ 1) := rfl
  rw [hempties]
  generalize hqueue : (g.writeGp1 value).2.queue = queue
  unfold writeGp1 at hqueue
  split at hqueue
  case h_1 h | h_2 h =>
    rw [h, if_pos (by decide)]
    exact hqueue.symm
  case h_10 hreset hclear _ _ _ _ _ _ _ =>
    have hkeeps : ¬(value >>> 24) &&& 0x3F ≤ 1 := by
      rw [UInt32.le_iff_toNat_le]
      intro hle
      rcases Nat.le_one_iff_eq_zero_or_eq_one.1 hle with h | h
      · exact hreset (UInt32.toNat_inj.1 h)
      · exact hclear (UInt32.toNat_inj.1 h)
    rw [if_neg (by simpa using hkeeps), ← hqueue]
    split <;> rfl
  all_goals
    rename_i h
    rw [h, if_neg (by decide)]
    exact hqueue.symm

theorem operate_queue (g : Gpu) (op : Operation) : (g.operate op).2.queue =
    if op.empties then g.queue.clear
    else match op.word? with
      | some word => g.queue.push word
      | none => g.queue := by
  cases op with
  | writeGp0 word => exact g.writeGp0_queue word
  | writeGp1 value => exact g.writeGp1_queue value
  | readLatch => exact g.readLatch_queue
  | drain | advance | pass => rfl

/-! ### What has been written -/

/-- The words that have been written, apart for each time between one emptying of the queue and the
next. -/
structure Log where
  closed : List (List UInt32) := []
  current : List UInt32 := []

namespace Log

def record (log : Log) (op : Operation) : Log :=
  if op.empties then { closed := log.closed ++ [log.current] }
  else { log with current := log.current ++ op.word?.toList }

/-- All times, the last of which is not over. -/
def times (log : Log) : List (List UInt32) := log.closed ++ [log.current]

end Log

def log (ops : List Operation) : Log := ops.foldl Log.record {}

/-- The last words, as many as there is room for. -/
def newest (room : Nat) (words : List UInt32) : List UInt32 := words.drop (words.length - room)

/-- The words before these. -/
def oldest (room : Nat) (words : List UInt32) : List UInt32 := words.take (words.length - room)

/-- The words of all times that there was no room for. -/
def Log.lost (room : Nat) (log : Log) : List UInt32 := log.times.flatMap (oldest room)

/-- What drains take, in order. -/
def drained (g : Gpu) : List Operation → List UInt32
  | [] => []
  | op :: ops => (if op = .drain then g.drain.1 else []) ++ drained (g.operate op).2 ops

/-- What commands throw away, in order. -/
def cleared (g : Gpu) : List Operation → List UInt32
  | [] => []
  | op :: ops =>
    (if op.empties ∧ op ≠ .drain then g.queue.toList else []) ++ cleared (g.operate op).2 ops

variable {room : Nat} {words : List UInt32} {log : Log}

theorem oldest_append_newest (room : Nat) (words : List UInt32) :
    oldest room words ++ newest room words = words := List.take_append_drop ..

theorem length_newest : (newest room words).length = min words.length room := by
  unfold newest
  rw [List.length_drop]
  omega

theorem length_oldest : (oldest room words).length = words.length - min words.length room := by
  unfold oldest
  rw [List.length_take]
  omega

theorem newest_nil : newest room [] = [] := List.drop_nil

/-! ### The queue -/

namespace CommandQueue

variable {q : CommandQueue}

theorem toList_push (q : CommandQueue) (word : UInt32) : (q.push word).toList =
    (if q.capacity ≤ q.size then q.toList.drop 1 else q.toList) ++ [word] := by
  unfold push toList
  dsimp only
  rw [Array.toList_push]
  split_ifs
  · simp [dropOldest, List.take_of_length_le]
  · rfl

theorem dropped_push (q : CommandQueue) (word : UInt32) : (q.push word).dropped =
    q.dropped + if q.capacity ≤ q.size then 1 else 0 := by
  unfold push
  dsimp only
  split_ifs <;> rfl

theorem size_eq (q : CommandQueue) : q.size = q.toList.length := (Array.length_toList).symm

end CommandQueue

/-- The queue has room for so many words, holds the newest of the last time, and has counted those
that there was no room for. -/
structure Captures (room : Nat) (log : Log) (q : CommandQueue) : Prop where
  capacity : q.capacity = room
  words : q.toList = newest room log.current
  dropped : q.dropped = (log.lost room).length

theorem captures_initial (capacity : Nat) (standard : VideoStandard) :
    Captures (max capacity 1) {} (initial capacity standard).queue :=
  ⟨rfl, newest_nil.symm, by simp [Log.lost, Log.times, oldest, initial, CommandQueue.empty]⟩

theorem length_lost (room : Nat) (closed : List (List UInt32)) (current : List UInt32) :
    (Log.lost room { closed, current }).length =
      (closed.flatMap (oldest room)).length + (current.length - min current.length room) := by
  unfold Log.lost Log.times
  rw [List.flatMap_append, List.length_append, List.flatMap_singleton, length_oldest]

theorem Captures.push {q : CommandQueue} (h : Captures room log q) (hroom : 0 < room)
    (word : UInt32) :
    Captures room { log with current := log.current ++ [word] } (q.push word) := by
  have hsize : q.size = min log.current.length room := by
    rw [CommandQueue.size_eq, h.words, length_newest]
  constructor
  · rw [CommandQueue.push_capacity]
    exact h.capacity
  · rw [CommandQueue.toList_push, h.capacity, hsize, h.words]
    unfold newest
    rw [List.length_append, List.length_singleton]
    by_cases hfull : room ≤ min log.current.length room
    · rw [if_pos hfull, List.drop_drop, List.drop_append_of_le_length (by omega)]
      congr 2
      omega
    · rw [if_neg hfull, List.drop_append_of_le_length (by omega)]
      congr 2
      omega
  · rw [CommandQueue.dropped_push, h.capacity, hsize, h.dropped, length_lost, length_lost,
      List.length_append, List.length_singleton]
    split_ifs <;> omega

theorem Captures.clear {q : CommandQueue} (h : Captures room log q) :
    Captures room { closed := log.closed ++ [log.current] } q.clear := by
  refine ⟨h.capacity, newest_nil.symm, ?_⟩
  have hdropped : q.clear.dropped = q.dropped := rfl
  rw [hdropped, h.dropped, length_lost, length_lost, List.flatMap_append, List.length_append,
    List.flatMap_singleton, length_oldest, List.length_nil, Nat.zero_min, Nat.sub_zero,
    Nat.add_zero]

/-- What is done with the port is recorded. -/
theorem Captures.operate {g : Gpu} (h : Captures room log g.queue) (hroom : 0 < room)
    (op : Operation) : Captures room (log.record op) (g.operate op).2.queue := by
  rw [operate_queue]
  unfold Log.record
  split_ifs with hempties
  · exact h.clear
  · cases hword : op.word? with
    | some word => exact h.push hroom word
    | none =>
      rw [Option.toList_none, List.append_nil]
      exact h

theorem Captures.operateAll {g : Gpu} (h : Captures room log g.queue) (hroom : 0 < room)
    (ops : List Operation) :
    Captures room (ops.foldl Log.record log) (g.operateAll ops).2.queue := by
  induction ops generalizing g log with
  | nil => exact h
  | cons op ops ih => exact ih (h.operate hroom op)

/-! ### Where the words are -/

/-- The log has every word that is written. -/
theorem flatten_times (log : Log) (ops : List Operation) :
    (ops.foldl Log.record log).times.flatten =
      log.times.flatten ++ ops.filterMap Operation.word? := by
  induction ops generalizing log with
  | nil => exact (List.append_nil _).symm
  | cons op ops ih =>
    have hstep : (log.record op).times.flatten = log.times.flatten ++ op.word?.toList := by
      unfold Log.record
      split_ifs with hempties
      · have hnone : op.word? = none := by
          cases op <;> first | rfl | cases hempties
        simp [Log.times, hnone]
      · simp [Log.times]
    rw [List.foldl_cons, ih, hstep, List.append_assoc]
    cases hword : op.word? <;> simp [hword]

/-- What the queue holds when it is emptied is taken or thrown away. -/
theorem emptied_perm {g : Gpu} (h : Captures room log g.queue) (hroom : 0 < room)
    (ops : List Operation) :
    ((ops.foldl Log.record log).closed.flatMap (newest room)).Perm
      (log.closed.flatMap (newest room) ++ (g.drained ops ++ g.cleared ops)) := by
  induction ops generalizing g log with
  | nil => simp [drained, cleared]
  | cons op ops ih =>
    refine (ih (h.operate hroom op)).trans ?_
    have hdrained : g.drained (op :: ops) =
        (if op = .drain then g.queue.toList else []) ++ (g.operate op).2.drained ops := rfl
    have hcleared : g.cleared (op :: ops) =
        (if op.empties ∧ op ≠ .drain then g.queue.toList else []) ++
          (g.operate op).2.cleared ops := rfl
    rw [hdrained, hcleared, Log.record]
    by_cases hempties : op.empties = true
    · rw [if_pos hempties, List.flatMap_append, List.flatMap_singleton, ← h.words,
        List.append_assoc]
      refine List.Perm.append_left _ ?_
      by_cases hdrain : op = .drain
      · rw [if_pos hdrain, if_neg fun hc => hc.2 hdrain, List.nil_append, List.append_assoc]
      · rw [if_neg hdrain, if_pos ⟨hempties, hdrain⟩, List.nil_append]
        exact List.perm_append_comm_assoc ..
    · have hdrain : op ≠ .drain := fun hc => hempties (hc ▸ rfl)
      rw [if_neg hempties, if_neg hdrain, if_neg fun hc => hempties hc.1, List.nil_append,
        List.nil_append]

/-- Each word that was written was dropped, or taken, or thrown away, or is in the queue. -/
theorem words_perm {g : Gpu} (h : Captures room {} g.queue) (hroom : 0 < room)
    (ops : List Operation) :
    (ops.filterMap Operation.word?).Perm ((Gpu.log ops).lost room ++
      (g.drained ops ++ g.cleared ops ++ (g.operateAll ops).2.queue.toList)) := by
  have hwords : (Gpu.log ops).times.flatten = ops.filterMap Operation.word? := flatten_times {} ops
  have hqueue : (g.operateAll ops).2.queue.toList = newest room (Gpu.log ops).current :=
    (h.operateAll hroom ops).words
  have hemptied : ((Gpu.log ops).closed.flatMap (newest room)).Perm
      (g.drained ops ++ g.cleared ops) := emptied_perm h hroom ops
  have hsplit := List.flatMap_append_perm (Gpu.log ops).times (oldest room) (newest room)
  simp only [oldest_append_newest, List.flatMap_id'] at hsplit
  have hkept : (Gpu.log ops).times.flatMap (newest room) =
      (Gpu.log ops).closed.flatMap (newest room) ++ newest room (Gpu.log ops).current := by
    rw [Log.times, List.flatMap_append, List.flatMap_singleton]
  rw [hwords, hkept] at hsplit
  rw [hqueue]
  exact hsplit.symm.trans ((hemptied.append_right _).append_left _)

end Psx.Gpu
