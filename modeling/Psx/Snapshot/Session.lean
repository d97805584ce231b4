import Psx.Machine

/-!
# Saved sessions

A snapshot holds the processor, the memories, the scheduler and the state of each registered device
with its name. It can be restored into a session that has the same devices in the same order; when a
device refuses its state, what was changed before is put back from a state captured beforehand.
-/

namespace Psx

namespace Scheduler

open Snapshot.Codec

def Event.codec : Snapshot.Codec Event :=
  (text.pair nat64.option).imap (fun e => (e.name, e.due)) fun (name, due) => { name, due }

def codec : Snapshot.Codec Scheduler :=
  (nat64.pair Event.codec.array).imap (fun s => (s.now, s.events))
    fun (now, events) => { now, events }

end Scheduler

namespace Snapshot

/-- The format that is written, and the only one that is read. -/
def version : Nat := 1

/-- What the fields of a snapshot may claim. -/
def allowance : Nat := 16 * 1024 * 1024

/-- What a snapshot holds. -/
structure Session where
  version : Nat := Snapshot.version
  cpu : Cpu
  memory : Memory
  scheduler : Scheduler
  devices : List Bus.SavedDevice

namespace Session

open Codec in
def codec : Codec Session :=
  (nat32.pair <| Cpu.codec.pair <| Memory.codec.pair <| Scheduler.codec.pair
    (text.pair bytes).list).imap
    (fun s => (s.version, s.cpu, s.memory, s.scheduler, s.devices))
    fun (version, cpu, memory, scheduler, devices) =>
      { version, cpu, memory, scheduler, devices }

def encode (s : Session) : ByteArray := codec.encode s

/-- Reads a snapshot; what follows it is ignored. -/
def decode (data : ByteArray) : Except Error Session :=
  match codec.get.run? data (some allowance) with
  | none => .error Board.malformed
  | some s =>
    if s.version = Snapshot.version then .ok s
    else .error (.snapshotVersion Snapshot.version s.version)

end Session

end Snapshot

namespace Machine

open Snapshot

variable {δ : Type} [Device δ]

/-- The state of a session as a snapshot holds it. -/
def capture (m : Machine δ) : Session where
  cpu := m.cpu
  memory := m.bus.memory
  scheduler := m.scheduler
  devices := m.bus.saveDevices

def snapshot (m : Machine δ) : ByteArray := m.capture.encode

/-- A state fits if its images have the sizes of the memories, its devices are those of the session,
and it has as many events. -/
def validate (m : Machine δ) (s : Session) : Except Error Unit := do
  if !s.memory.hasSizes then throw Memory.mismatch
  m.bus.validateDevices s.devices
  if s.scheduler.events.size ≠ m.scheduler.events.size then
    throw <| .snapshotMismatch
      s!"snapshot has {s.scheduler.events.size} timing events, session has {m.scheduler.events.size}"

/-- Puts a session into a state: first the devices, and if they all take theirs, the rest. -/
def apply (m : Machine δ) (s : Session) : Option Error × Machine δ :=
  match m.bus.loadDevices s.devices with
  | (some error, bus) => (some error, { m with bus })
  | (none, bus) =>
    match bus.loadMemory s.memory with
    | .error error => (some error, { m with bus })
    | .ok bus => (none, { m with bus, cpu := s.cpu, scheduler := s.scheduler })

/-- Restores a snapshot. If that fails the session is put back. -/
def restore (m : Machine δ) (data : ByteArray) : Option Error × Machine δ :=
  match Session.decode data with
  | .error error => (some error, m)
  | .ok s =>
    match m.validate s with
    | .error error => (some error, m)
    | .ok () =>
      let backup := m.capture
      match m.apply s with
      | (none, m) => (none, m)
      | (some error, m) => (some error, (m.apply backup).2)

end Machine

end Psx
