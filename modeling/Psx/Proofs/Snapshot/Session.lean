import Psx.Proofs.Bus.Invariant
import Psx.Proofs.Snapshot.Chips
import Psx.Snapshot.Session

/-!
# Laws of saved sessions

What is read back of a session that was saved: itself, unless its fields claim more than the
allowance (`Session.decode_encode`). `Machine.Fits` is what saving needs: every number of the session
lies in the range of the type of its field.

Loading what was saved of a chip puts that chip into the saved state and leaves the rest of the
board alone, but for the dot clock that the video port then drives (`Board.load_save`).
-/

namespace Psx

open Snapshot

def Scheduler.Event.law : Law codec := (Law.text.pair Law.nat64.option).imap _ _ fun _ => rfl

def Scheduler.law : Law codec := (Law.nat64.pair Event.law.array).imap _ _ fun _ => rfl

namespace Snapshot.Session

def law : Law codec :=
  (Law.nat32.pair <| Cpu.law.pair <| Memory.law.pair <| Scheduler.law.pair
    (Law.text.pair Law.bytes).list).imap _ _ fun _ => rfl

theorem decode_encode {s : Session} (h : law.fits s) (hv : s.version = Snapshot.version) :
    decode s.encode =
      if law.claims s ≤ Snapshot.allowance then .ok s else .error Board.malformed := by
  unfold decode encode
  rw [law.run?_eq h]
  by_cases hc : law.claims s ≤ allowance
  · simp only [Option.all_some, hc, decide_true, if_true]
    exact if_pos hv
  · simp only [Option.all_some, hc, decide_false, if_false, Bool.false_eq_true]

end Snapshot.Session

/-! ### Parts -/

namespace Board

variable {δ : Type}

/-- The numbers of a chip lie in the ranges of their types; what a device from outside saves is its
own affair. -/
def Fits (b : Board δ) : Part → Prop
  | .interrupts => InterruptController.law.fits b.lines.interrupts
  | .timers => Timers.law.fits b.lines.timers
  | .dma => Dma.law.fits b.dma
  | .memoryControl => MemoryControl.law.fits b.memoryControl
  | .expansion => Expansion.law.fits b.expansion
  | .gpu => Gpu.law.fits b.gpu
  | .external _ => True

/-- Takes over the state of one chip from another board, as loading it does. -/
def adopt (b from_ : Board δ) : Part → Board δ
  | .interrupts => { b with lines.interrupts := from_.lines.interrupts }
  | .timers => { b with lines.timers := from_.lines.timers }
  | .dma => { b with dma := from_.dma }
  | .memoryControl => { b with memoryControl := from_.memoryControl }
  | .expansion => { b with expansion := from_.expansion }
  | .gpu => b.withGpu from_.gpu.dotClock from_.gpu
  | .external _ => b

variable [Device δ]

theorem decode_encode {α : Type} {c : Codec α} (l : Law c) {a : α} (h : l.fits a) :
    decode c (c.encode a) = .ok a := by
  unfold decode
  rw [l.decode?_encode h]

theorem load_save (b : Board δ) {b₀ : Board δ} {p : Part} (hp : p ∈ Part.core) (h : b₀.Fits p) :
    b.load p (b₀.save p) = .ok (b.adopt b₀ p) := by
  cases p with
  | interrupts => simp only [load, save, decode_encode InterruptController.law h]; rfl
  | timers => simp only [load, save, decode_encode Timers.law h]; rfl
  | dma => simp only [load, save, decode_encode Dma.law h]; rfl
  | memoryControl => simp only [load, save, decode_encode MemoryControl.law h]; rfl
  | expansion => simp only [load, save, decode_encode Expansion.law h]; rfl
  | gpu => simp only [load, save, decode_encode Gpu.law h]; rfl
  | «external» i => simp [Part.core] at hp

end Board

namespace Machine

variable {δ : Type} [Device δ]

/-- Every number lies in the range of the type of its field. -/
structure Fits (m : Machine δ) : Prop where
  session : Session.law.fits m.capture
  chips : ∀ p ∈ m.bus.parts, m.bus.board.Fits p

end Machine

namespace Bus

variable {δ : Type} [Device δ]

theorem saveDevices_eq (b : Bus δ) :
    b.saveDevices = b.names.zip (b.parts.map b.board.save) := by
  simp [saveDevices, names, parts, List.zip_map', Function.comp_def]

theorem firstMismatch?_zip (names : List String) (states : List ByteArray) :
    firstMismatch? (names.zip states) names = none := by
  induction names generalizing states with
  | nil => rfl
  | cons name names ih =>
    cases states with
    | nil => rfl
    | cons state states =>
      rw [List.zip_cons_cons, firstMismatch?, if_pos rfl]
      exact ih states

omit [Device δ] in
theorem length_of_validateDevices {b : Bus δ} {states : List SavedDevice}
    (h : b.validateDevices states = .ok ()) : states.length = b.parts.length := by
  unfold validateDevices at h
  split at h
  · cases h
  · rename_i hl
    unfold parts
    simpa using hl

/-- States saved under the names of the registered devices are tried. -/
theorem validateDevices_saved {b b₀ : Bus δ} (h : b₀.table = b.table) :
    b.validateDevices b₀.saveDevices = .ok () := by
  have hn : b₀.names = b.names := by unfold names; rw [h]
  have hl : b₀.saveDevices.length = b.table.entries.size := by simp [saveDevices, h]
  unfold validateDevices
  rw [if_neg (by simpa using hl), saveDevices_eq, hn, firstMismatch?_zip]

/-- Loading what was saved of chips takes them over one by one. -/
theorem loadEach_saved (b₀ : Board δ) {ps : List Part} (hp : ∀ p ∈ ps, p ∈ Part.core)
    (hf : ∀ p ∈ ps, b₀.Fits p) {names : List String} (hn : names.length = ps.length)
    (b : Board δ) :
    loadEach b (names.zip (ps.map b₀.save)) ps = (none, ps.foldl (·.adopt b₀ ·) b) := by
  induction ps generalizing b names with
  | nil => rw [List.length_eq_zero_iff.1 hn]; rfl
  | cons p ps ih =>
    obtain ⟨name, names, rfl⟩ := List.exists_cons_of_length_eq_add_one hn
    rw [List.map_cons, List.zip_cons_cons, loadEach, b.load_save (hp p List.mem_cons_self)
      (hf p List.mem_cons_self)]
    exact ih (fun q hq => hp q (List.mem_cons_of_mem p hq))
      (fun q hq => hf q (List.mem_cons_of_mem p hq)) (Nat.succ.inj hn) _

omit [Device δ] in
/-- Taking over every chip of the core takes over all but what is outside and what was printed. The
video port has then driven its dot clock. -/
theorem foldl_adopt_core (b b₀ : Board δ) : Part.core.foldl (·.adopt b₀ ·) b =
    { b₀.synced with externals := b.externals, console := b.console } := rfl

end Bus

end Psx
