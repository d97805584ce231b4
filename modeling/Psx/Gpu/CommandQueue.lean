/-!
# The queue of captured words

A bounded queue that drops its oldest word to take a new one when it is full, and counts what it
dropped.
-/

namespace Psx.Gpu

/-- The newest words that were written, and how many were dropped for them. -/
structure CommandQueue where
  /-- Oldest first. -/
  words : Array UInt32 := #[]
  capacity : Nat
  dropped : Nat := 0
deriving DecidableEq, Repr

namespace CommandQueue

def size (q : CommandQueue) : Nat := q.words.size

def toList (q : CommandQueue) : List UInt32 := q.words.toList

/-- An empty queue that holds at least one word. -/
def empty (capacity : Nat) : CommandQueue where
  capacity := max capacity 1

def clear (q : CommandQueue) : CommandQueue := { q with words := #[] }

def dropOldest (q : CommandQueue) : CommandQueue :=
  { q with words := q.words.extract 1, dropped := q.dropped + 1 }

def push (q : CommandQueue) (word : UInt32) : CommandQueue :=
  let q := if q.size ≥ q.capacity then q.dropOldest else q
  { q with words := q.words.push word }

end CommandQueue

end Psx.Gpu
