import Psx.Bus
import Psx.Proofs.Memory.DecodeTable

/-!
# Registering devices

A call that registers a device or gives it a further window goes through just if there is no cause
for its refusal, and adds one window then (`Registration.cases`). Every table is built by such calls,
so it is sound whatever was called for before (`DecodeTable.Built.sound`), and an address belongs to
the one device whose window holds it (`Bus.windows_sound`).
-/

namespace Psx

namespace DecodeTable

variable {ι : Type}

/-- The tables that registering, mapping and routing can bring about. -/
inductive Built : DecodeTable ι → Prop
  | empty : Built {}
  | register {t t'} {name : String} {part : ι} {start size : UInt32} {i : Nat} :
    Built t → t.register name part start size = .ok (i, t') → Built t'
  | map {t t'} {device : Nat} {start size : UInt32} :
    Built t → t.map device start size = .ok t' → Built t'
  | route {t t'} {channel device : Nat} : Built t → t.route channel device = .ok t' → Built t'

/-- What a call does to the windows that goes through: it adds one for a device, which begins where it
is asked for and holds as many addresses. -/
structure Adds (t t' : DecodeTable ι) (start size : UInt32) (device : Nat) : Prop where
  sound : t'.Sound
  windows : ∃ w : Window, w.first = start ∧ w.last.toNat + 1 = start.toNat + size.toNat ∧
    w.device = device ∧ ∀ v, v ∈ t'.windows ↔ v = w ∨ v ∈ t.windows

/-- No device has the number, or its base lies above the start of the window. -/
def Misplaces (t : DecodeTable ι) (device : Nat) (start : UInt32) : Prop :=
  ∀ e, t.entries[device]? = some e → start < e.base

variable {t t' : DecodeTable ι}

theorem sound_empty : ({} : DecodeTable ι).Sound where
  sorted := .nil
  nonempty w hw := absurd hw (Array.not_mem_empty w)
  apart w hw := absurd hw (Array.not_mem_empty w)
  based w hw := absurd hw (Array.not_mem_empty w)

theorem register_eq (t : DecodeTable ι) (name : String) (part : ι) (start size : UInt32) :
    t.register name part start size =
      (t.insertWindow t.entries.size name start size).map fun t' =>
        (t.entries.size, { t' with entries := t'.entries.push { name, base := start, part } }) := by
  unfold register
  cases h : t.insertWindow t.entries.size name start size with
  | error error => simp only [h]; rfl
  | ok t' => simp only [h]; rfl

namespace Sound

theorem register_cases (h : t.Sound) (name : String) (part : ι) (start size : UInt32) :
    (t.Refuses start size ∧ ∃ error, t.register name part start size = .error error) ∨
    (¬t.Refuses start size ∧ ∃ t', t.register name part start size = .ok (t.entries.size, t') ∧
      t.Adds t' start size t.entries.size ∧
      t'.entries = t.entries.push { name, base := start, part }) := by
  rw [register_eq]
  rcases h.insertWindow_cases t.entries.size name start size with
    ⟨hr, error, he⟩ | ⟨hr, w, hfirst, hlast, hdevice, hfree, he⟩
  · exact .inl ⟨hr, error, by rw [he]; rfl⟩
  · have hentries : ∀ (i : Nat) e, t.entries[i]? = some e →
        (t.entries.push { name, base := start, part })[i]? = some e := fun i e hi => by
      rw [Array.getElem?_push, if_neg (Nat.ne_of_lt (Array.getElem?_eq_some_iff.1 hi).1), hi]
    rw [he]
    refine .inr ⟨hr, _, rfl, ⟨?_, ⟨w, hfirst, hlast, hdevice, fun v => mem_insertAt⟩⟩, rfl⟩
    refine h.insert (first_le_last hr hfirst hlast) hfree rfl hentries
      ⟨{ name, base := start, part }, ?_, ?_⟩
    · rw [hdevice]
      exact Array.getElem?_push_size
    · exact hfirst ▸ UInt32.le_refl _

theorem map_cases (h : t.Sound) (device : Nat) (start size : UInt32) :
    ((t.Misplaces device start ∨ t.Refuses start size) ∧
      ∃ error, t.map device start size = .error error) ∨
    (¬(t.Misplaces device start ∨ t.Refuses start size) ∧
      ∃ t', t.map device start size = .ok t' ∧ t.Adds t' start size device ∧
        t'.entries = t.entries) := by
  unfold map
  cases hd : t.entries[device]? with
  | none =>
    refine .inl ⟨.inl fun e he => ?_, _, rfl⟩
    rw [hd] at he
    cases he
  | some e =>
    dsimp only
    by_cases hbase : start < e.base
    · refine .inl ⟨.inl fun e' he => ?_, _, if_pos hbase⟩
      obtain rfl := Option.some.inj (hd.symm.trans he)
      exact hbase
    rw [if_neg hbase]
    have hplace : ¬t.Misplaces device start := fun hm => hbase (hm e hd)
    rcases h.insertWindow_cases device e.name start size with
      ⟨hr, error, he⟩ | ⟨hr, w, hfirst, hlast, hdevice, hfree, he⟩
    · exact .inl ⟨.inr hr, error, he⟩
    · refine .inr ⟨not_or.2 ⟨hplace, hr⟩, _, he,
        ⟨?_, ⟨w, hfirst, hlast, hdevice, fun v => mem_insertAt⟩⟩, rfl⟩
      refine h.insert (first_le_last hr hfirst hlast) hfree rfl (fun _ _ hi => hi) ⟨e, ?_, ?_⟩
      · rw [hdevice]
        exact hd
      · rw [hfirst]
        exact UInt32.not_lt.1 hbase

theorem route (h : t.Sound) {channel device : Nat} (hr : t.route channel device = .ok t') :
    t'.Sound := by
  unfold DecodeTable.route at hr
  split at hr
  · split at hr
    · obtain rfl := Except.ok.inj hr
      exact ⟨h.sorted, h.nonempty, h.apart, h.based⟩
    · cases hr
  · cases hr

end Sound

theorem Built.sound (h : t.Built) : t.Sound := by
  induction h with
  | empty => exact sound_empty
  | @register t t' name part start size i _ he ih =>
    rcases ih.register_cases name part start size with ⟨-, error, hr⟩ | ⟨-, t₂, hr, ha, -⟩
    · cases he.symm.trans hr
    · obtain ⟨-, rfl⟩ := Prod.mk.inj (Except.ok.inj (he.symm.trans hr))
      exact ha.sound
  | @map t t' device start size _ he ih =>
    rcases ih.map_cases device start size with ⟨-, error, hr⟩ | ⟨-, t₂, hr, ha, -⟩
    · cases he.symm.trans hr
    · obtain rfl := Except.ok.inj (he.symm.trans hr)
      exact ha.sound
  | route _ he ih => exact ih.route he

end DecodeTable

open DecodeTable

/-- A call that asks for a window: for a new device, or for one that there is. -/
inductive Registration where
  | register (part : Part) (start size : UInt32)
  | map (device : Nat) (start size : UInt32)
deriving DecidableEq, Repr

namespace Registration

def start : Registration → UInt32
  | register _ start _ => start
  | map _ start _ => start

def size : Registration → UInt32
  | register _ _ size => size
  | map _ _ size => size

variable {ι δ : Type}

/-- The device that a call is about; a new one gets the next number. -/
def device (t : DecodeTable ι) : Registration → Nat
  | register .. => t.entries.size
  | map device .. => device

/-- Why a call fails. The window may be refused, and one for a device that there is may be misplaced. -/
def Fails (t : DecodeTable ι) : Registration → Prop
  | register _ start size => t.Refuses start size
  | map device start size => t.Misplaces device start ∨ t.Refuses start size

/-- The devices once the call has gone through. -/
def entries [Device δ] (b : Bus δ) : Registration → Array (Entry Part)
  | register part start _ => b.table.entries.push { name := b.board.nameOf part, base := start, part }
  | map .. => b.table.entries

end Registration

namespace Bus

variable {δ : Type} [Device δ]

/-- Makes a call. One that fails leaves the bus as it is. -/
def enroll (b : Bus δ) : Registration → Option Error × Bus δ
  | .register part start size =>
    match b.register part start size with
    | .ok (_, b) => (none, b)
    | .error error => (some error, b)
  | .map device start size =>
    match b.mapWindow device start size with
    | .ok b => (none, b)
    | .error error => (some error, b)

def enrollAll (b : Bus δ) (calls : List Registration) : Bus δ :=
  calls.foldl (fun b call => (b.enroll call).2) b

variable {b : Bus δ}

/-- A call fails just if there is a cause for it, and otherwise adds its window and, if that is what it
registers, its device. -/
theorem enroll_cases (h : b.table.Sound) (call : Registration) :
    (call.Fails b.table ∧ ∃ error, b.enroll call = (some error, b)) ∨
    (¬call.Fails b.table ∧ ∃ table, b.enroll call = (none, { b with table }) ∧
      b.table.Adds table call.start call.size (call.device b.table) ∧
      table.entries = call.entries b) := by
  cases call with
  | register part start size =>
    rcases h.register_cases (b.board.nameOf part) part start size with
      ⟨hr, error, he⟩ | ⟨hr, table, he, hadds⟩
    · exact .inl ⟨hr, error, by simp only [enroll, register, he]; rfl⟩
    · exact .inr ⟨hr, table, by simp only [enroll, register, he]; rfl, hadds⟩
  | map device start size =>
    rcases h.map_cases device start size with ⟨hr, error, he⟩ | ⟨hr, table, he, hadds⟩
    · exact .inl ⟨hr, error, by simp only [enroll, mapWindow, he]; rfl⟩
    · exact .inr ⟨hr, table, by simp only [enroll, mapWindow, he]; rfl, hadds⟩

theorem sound_enrollAll (h : b.table.Sound) (calls : List Registration) :
    (b.enrollAll calls).table.Sound := by
  induction calls generalizing b with
  | nil => exact h
  | cons call calls ih =>
    refine ih (b := (b.enroll call).2) ?_
    rcases enroll_cases h call with ⟨-, error, he⟩ | ⟨-, table, he, hadds, -⟩
    · rw [he]
      exact h
    · rw [he]
      exact hadds.sound

/-- Whatever devices and windows were asked for, with or without success: the windows are in order,
apart from each other and from the memories, and none begins below the base of its device. The next
call fails just if its window is empty, goes on past the last address, holds an address that is
taken, or is for no device or one based above it; it then changes nothing, and otherwise adds its
window, and its device if that is new, and nothing else. An address is looked up at the one window
that holds it, at its distance from the base of the device, and not found if there is none. -/
theorem windows_sound (hb : b.table.Built) (calls : List Registration) :
    (b.enrollAll calls).table.Sound ∧
    (∀ call : Registration,
      (call.Fails (b.enrollAll calls).table ∧
        ∃ error, (b.enrollAll calls).enroll call = (some error, b.enrollAll calls)) ∨
      (¬call.Fails (b.enrollAll calls).table ∧
        ∃ table, (b.enrollAll calls).enroll call = (none, { b.enrollAll calls with table }) ∧
          (b.enrollAll calls).table.Adds table call.start call.size
            (call.device (b.enrollAll calls).table) ∧
          table.entries = call.entries (b.enrollAll calls))) ∧
    ∀ a,
      (∃ w ∈ (b.enrollAll calls).table.windows, w.contains a = true ∧
        (∀ v ∈ (b.enrollAll calls).table.windows, v.contains a = true → v = w) ∧
        ∃ e, (b.enrollAll calls).table.entries[w.device]? = some e ∧ e.base ≤ a ∧
          (b.enrollAll calls).table.lookup? a = some (e.part, a - e.base)) ∨
      ((∀ w ∈ (b.enrollAll calls).table.windows, w.contains a = false) ∧
        (b.enrollAll calls).table.lookup? a = none) := by
  have h : (b.enrollAll calls).table.Sound := sound_enrollAll hb.sound calls
  refine ⟨h, enroll_cases h, fun a => ?_⟩
  by_cases hnone : ∀ w ∈ (b.enrollAll calls).table.windows, w.contains a = false
  · exact .inr ⟨hnone, h.lookup?_eq_none_iff.2 hnone⟩
  · obtain ⟨w, hw, ha⟩ : ∃ w ∈ (b.enrollAll calls).table.windows, w.contains a = true := by
      simpa using hnone
    obtain ⟨e, he, hbase⟩ := h.based w hw
    exact .inl ⟨w, hw, ha, fun v hv hva => h.eq_of_contains hv hw hva ha, e, he,
      UInt32.le_trans hbase (Window.contains_iff.1 ha).1, h.lookup?_eq_some hw ha he⟩

/-- Of three windows that are asked for, the last holds addresses of the first. -/
theorem windows_sound_ofConfig :
    (ofConfig {} : Bus Empty).table.Built ∧
      ((ofConfig {} : Bus Empty).enrollAll [.register .timers 0x1F801100 0x30,
        .map 0 0x1F801140 4, .map 0 0x1F801110 4]).table.Sound ∧
      ((ofConfig {} : Bus Empty).enrollAll [.register .timers 0x1F801100 0x30,
        .map 0 0x1F801140 4, .map 0 0x1F801110 4]).table.windows =
          #[⟨0x1F801100, 0x1F80112F, 0⟩, ⟨0x1F801140, 0x1F801143, 0⟩] :=
  ⟨.empty, (windows_sound .empty _).1, by decide +kernel⟩

end Bus

end Psx
