/-!
# The scheduler

A clock and a list of named events. An event is idle or due at a cycle; the clock moves forward to a
cycle and the events due by then are taken, the earliest first and of two due at once the one that
was registered first. Taking an event makes it idle. Operations on an event that was never
registered have no effect.
-/

namespace Psx

structure Scheduler.Event where
  name : String
  due : Option Nat := none
deriving DecidableEq, Repr

/-- The clock and the events in the order of their registration. -/
structure Scheduler where
  now : Nat := 0
  events : Array Scheduler.Event := #[]
deriving DecidableEq, Repr

namespace Scheduler

/-- The last cycle that can be named. -/
def lastCycle : Nat := 0xFFFFFFFFFFFFFFFF

/-- Adds an idle event; the answer is its number. -/
def register (s : Scheduler) (name : String) : Nat × Scheduler :=
  (s.events.size, { s with events := s.events.push { name } })

def nameOf (s : Scheduler) (event : Nat) : String :=
  (s.events[event]?.map (·.name)).getD "<unknown>"

def setDue (s : Scheduler) (event : Nat) (due : Option Nat) : Scheduler :=
  { s with events := s.events.modify event fun e => { e with due } }

/-- Makes an event due at a cycle, or now if that cycle is over. -/
def scheduleAt (s : Scheduler) (event cycle : Nat) : Scheduler :=
  s.setDue event (some (max cycle s.now))

/-- Makes an event due so many cycles from now. -/
def schedule (s : Scheduler) (event cycles : Nat) : Scheduler :=
  s.scheduleAt event (min (s.now + cycles) lastCycle)

def deactivate (s : Scheduler) (event : Nat) : Scheduler := s.setDue event none

def deactivateAll (s : Scheduler) : Scheduler :=
  { s with events := s.events.map fun e => { e with due := none } }

def dueAt? (s : Scheduler) (event : Nat) : Option Nat := s.events[event]?.bind (·.due)

def isActive (s : Scheduler) (event : Nat) : Bool := (s.dueAt? event).isSome

/-- The earliest cycle at which an event is due. -/
def earliest? (s : Scheduler) : Option Nat :=
  s.events.foldl
    (fun soonest e => match soonest, e.due with
      | none, due => due
      | some s, none => some s
      | some s, some due => some (min s due))
    none

/-- The first cycle at which something is due, but not past a limit. -/
def nextBoundary (s : Scheduler) (limit : Nat) : Nat :=
  s.events.foldl (fun b e => e.due.elim b (min b)) limit

/-- Moves the clock forward; it never goes back. -/
def advanceTo (s : Scheduler) (cycle : Nat) : Scheduler := { s with now := max s.now cycle }

/-- An event is due by now. -/
def Event.isDue (e : Event) (now : Nat) : Bool := e.due.any (· ≤ now)

/-- The numbers of the due events with the cycles they are due at, in the order of registration. -/
def dueList (s : Scheduler) : List (Nat × Nat) :=
  s.events.toList.zipIdx.filterMap fun (e, i) =>
    match e.due with
    | some due => if due ≤ s.now then some (due, i) else none
    | none => none

/-- Takes the due events, the earliest first. -/
def takeDue (s : Scheduler) : List Nat × Scheduler :=
  let taken := (s.dueList.mergeSort fun a b => a.1 ≤ b.1).map (·.2)
  (taken,
    { s with
      events := s.events.map fun e => if e.isDue s.now then { e with due := none } else e })

end Scheduler

end Psx
