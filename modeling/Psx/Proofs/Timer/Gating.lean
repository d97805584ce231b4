import Psx.Proofs.Timer.Calls

/-!
# What a gated timer counts

The first two timers may be gated by a blanking interval. Which cycles such a timer counts is told
from the calls alone, by what comes before the cycles and what comes after them (`counts`): outside
the blank, since the blank last began, inside it since it last began, or since it first began. A
timer on the system clock that does not reset on its target holds their number
(`counter_after_mode_write`).
-/

namespace Psx

namespace Timers

/-! ### What calls tell -/

namespace Call

/-- The cycles that pass in a call. -/
def cycles : Call → Nat
  | .advance cycles => cycles
  | _ => 0

/-- The blanking interval that gates a timer begins. -/
def beginsBlank (i : Fin 3) : Call → Bool
  | .hblankBegin => i.val == 0
  | .vblankBegin => i.val == 1
  | _ => false

/-- The blanking interval that gates a timer ends. -/
def endsBlank (i : Fin 3) : Call → Bool
  | .hblankEnd => i.val == 0
  | .vblankEnd => i.val == 1
  | _ => false

/-- The call sets the counter of a timer. -/
def Overwrites (i : Fin 3) (call : Call) : Prop := call.Restarts i ∨ call.writes i 0x00

instance (i : Fin 3) (call : Call) : Decidable (call.Overwrites i) :=
  inferInstanceAs (Decidable (_ ∨ _))

end Call

/-- Whether a timer is inside its blank after some calls. -/
def blankAfter (i : Fin 3) (blank : Bool) (calls : List Call) : Bool :=
  calls.foldl (fun blank call => call.beginsBlank i || blank && !call.endsBlank i) blank

/-- The cycles of those calls that are chosen by what comes before them and what comes after. -/
def elapsedWhen (p : List Call → List Call → Bool) (before : List Call) : List Call → Nat
  | [] => 0
  | call :: after =>
    (if p before after then call.cycles else 0) + elapsedWhen p (before ++ [call]) after

/-- Which cycles a gated timer counts: those outside its blank, those since the blank last began,
those inside the blank since it last began, or those since it first began. -/
def counts (i : Fin 3) (syncMode : UInt8) (blank : Bool) (before after : List Call) : Bool :=
  match syncMode with
  | 0 => !blankAfter i blank before
  | 1 => !after.any (·.beginsBlank i)
  | 2 => blankAfter i blank before && !after.any (·.beginsBlank i)
  | _ => before.any (·.beginsBlank i)

end Timers

/-! ### One timer -/

namespace Timer

/-- The action sets the counter. -/
def Action.Overwrites : Action → Prop
  | .writeMode _ | .writeCounter _ | .reset => True
  | _ => False

def Action.cycles : Action → Nat
  | .wait cycles _ => cycles
  | _ => 0

namespace Mode

/-- A mode that gates the timer and lets it run past the target. -/
structure Gates (m : Mode) : Prop where
  sync : m.syncEnable = true
  free : m.resetOnTarget = false
  range : m.syncMode = 0 ∨ m.syncMode = 1 ∨ m.syncMode = 2 ∨ m.syncMode = 3

/-- The beginning of the blank starts the counter over. -/
def wipes (m : Mode) : Bool := m.syncMode == 1 || m.syncMode == 2

/-- Whether a gated timer counts, by whether it is in its blank and whether that has begun. -/
def isOpen (m : Mode) (blank begun : Bool) : Bool :=
  match m.syncMode with
  | 0 => !blank
  | 1 => true
  | 2 => blank
  | _ => begun

theorem gates_ofBits {value : UInt16} (hs : (ofBits value).syncEnable = true)
    (hr : (ofBits value).resetOnTarget = false) : (ofBits value).Gates := by
  refine ⟨hs, hr, ?_⟩
  have h : ∀ n < 4, UInt8.ofNat n = 0 ∨ UInt8.ofNat n = 1 ∨ UInt8.ofNat n = 2 ∨
      UInt8.ofNat n = 3 := by decide
  have hle : ((value >>> 1) &&& 3).toNat ≤ 3 := by
    rw [UInt16.toNat_and]
    exact Nat.and_le_right
  exact h _ (Nat.lt_succ_of_le hle)

end Mode

namespace Channel

variable {m : Mode} {c : Channel} {blank begun : Bool} {a : Action}

/-- A timer other than the third, in a mode and on the system clock, knows whether it is in its
blank and, where that matters, whether its blank has begun since the mode was written. -/
structure Gated (m : Mode) (blank begun : Bool) (c : Channel) : Prop where
  id : c.id ≠ 2
  mode : c.mode = m
  clock : c.clock = .system
  inBlank : c.inBlank = blank
  latched : m.syncMode = 3 → c.latched = begun

theorem Gated.isCounting (h : c.Gated m blank begun) (hm : m.Gates) :
    c.isCounting = m.isOpen blank begun := by
  obtain ⟨hid, rfl, -, rfl, hlatched⟩ := h
  have hsync := hm.sync
  obtain e | e | e | e := hm.range
  all_goals simp [Channel.isCounting, Mode.isOpen, hsync, hid, e]
  exact hlatched e

/-- A gated timer counts the cycles that pass while its gate is open. -/
theorem Gated.wait (h : c.Gated m blank begun) (hm : m.Gates) (cycles : Nat) (d : UInt32) :
    (c.act (.wait cycles d)).2.Gated m blank begun ∧
      (c.act (.wait cycles d)).2.counter.toNat =
        (c.counter.toNat + if m.isOpen blank begun then cycles else 0) % 0x10000 := by
  have hticks : c.ticks cycles d = (if m.isOpen blank begun then cycles else 0, c) := by
    rw [ticks, h.isCounting hm, h.clock]
    cases m.isOpen blank begun <;> rfl
  rw [act, ticksIn, touch, hticks]
  generalize (if m.isOpen blank begun then cycles else 0) = n
  refine ⟨?_, ?_⟩
  · obtain ⟨_, _, _, _, _, e⟩ := c.count_frame n
    rw [e]
    exact ⟨h.id, h.mode, h.clock, h.inBlank, h.latched⟩
  · rw [count_counter, c.successor_iterate (by rw [h.mode, hm.free])]

theorem Gated.blankBegin (h : c.Gated m blank begun) (hm : m.Gates) :
    c.blankBegin.Gated m true true ∧
      c.blankBegin.counter.toNat = if m.wipes then 0 else c.counter.toNat := by
  obtain ⟨hid, rfl, hclock, -, -⟩ := h
  have hsync := hm.sync
  obtain e | e | e | e := hm.range
  all_goals
    simp only [Channel.blankBegin, Mode.wipes, hsync, e]
    simp [hid]
    exact ⟨hid, rfl, hclock, rfl, by simp [e]⟩

/-- What an action makes of a gated timer. -/
theorem Gated.act (h : c.Gated m blank begun) (hm : m.Gates) (ha : ¬ a.Overwrites) :
    let begins := decide (a = .blankBegin)
    (c.act a).2.Gated m (begins || blank && !decide (a = .blankEnd)) (begun || begins) ∧
      (c.act a).2.counter.toNat = ((if begins && m.wipes then 0 else c.counter.toNat) +
        if m.isOpen blank begun then a.cycles else 0) % 0x10000 := by
  have hmod : c.counter.toNat % 0x10000 = c.counter.toNat := Nat.mod_eq_of_lt c.counter.toNat_lt
  cases a with
  | wait cycles d => simpa [Action.cycles] using h.wait hm cycles d
  | blankBegin =>
    obtain ⟨hgated, hcounter⟩ := h.blankBegin hm
    rw [act_of_idle c rfl, touch]
    refine ⟨by simpa using hgated, hcounter.trans ?_⟩
    cases m.wipes <;> simp [Action.cycles, hmod]
  | blankEnd =>
    rw [act_of_idle c rfl]
    exact ⟨by simpa using ⟨h.id, h.mode, h.clock, rfl, h.latched⟩,
      by simp [Action.cycles, hmod, touch, blankEnd]⟩
  | line =>
    rw [act_of_idle c (by simp [ticksIn, h.clock]), touch]
    exact ⟨by simpa using h, by simp [Action.cycles, hmod]⟩
  | readMode | writeTarget | none =>
    rw [act_of_idle c rfl]
    exact ⟨by simpa using ⟨h.id, h.mode, h.clock, h.inBlank, h.latched⟩,
      by simp [Action.cycles, hmod, touch, readMode, writeTarget]⟩
  | writeMode | writeCounter | reset => exact absurd trivial ha

end Channel

end Timer

/-! ### Any calls -/

namespace Timers

open Timer

variable {t : Timers} {i : Fin 3} {m : Mode} {blank : Bool} {before calls : List Call}

/-- What a call tells of its action. -/
theorem action_told (t : Timers) (i : Fin 3) (call : Call) :
    (t.action i call).cycles = call.cycles ∧
      decide (t.action i call = .blankBegin) = call.beginsBlank i ∧
      decide (t.action i call = .blankEnd) = call.endsBlank i ∧
      ((t.action i call).Overwrites → call.Overwrites i) := by
  cases call with
  | write offset w value =>
    rcases t.action_write_cases i offset w value with ⟨_, hw, e⟩ | ⟨_, hw, e⟩ | ⟨_, e⟩ | e
    · rw [e]; exact ⟨rfl, rfl, rfl, fun _ => .inr hw⟩
    · rw [e]; exact ⟨rfl, rfl, rfl, fun _ => .inl (.inr hw)⟩
    · rw [e]; exact ⟨rfl, rfl, rfl, False.elim⟩
    · rw [e]; exact ⟨rfl, rfl, rfl, False.elim⟩
  | advance | setDotDivider => exact ⟨rfl, rfl, rfl, False.elim⟩
  | reset => exact ⟨rfl, rfl, rfl, fun _ => .inl (.inl rfl)⟩
  | read =>
    simp only [action]
    split_ifs <;> exact ⟨rfl, rfl, rfl, False.elim⟩
  | hblankBegin | hblankEnd | vblankBegin | vblankEnd =>
    obtain rfl | rfl | rfl : i = 0 ∨ i = 1 ∨ i = 2 := by omega
    all_goals exact ⟨rfl, rfl, rfl, False.elim⟩

theorem counts_eq (hm : m.Gates) (before after : List Call) :
    counts i m.syncMode blank before after =
      (m.isOpen (blankAfter i blank before) (before.any (·.beginsBlank i)) &&
        !(m.wipes && after.any (·.beginsBlank i))) := by
  obtain e | e | e | e := hm.range <;> simp [counts, Mode.isOpen, Mode.wipes, e]

theorem blankAfter_append (call : Call) : blankAfter i blank (before ++ [call]) =
    (call.beginsBlank i || blankAfter i blank before && !call.endsBlank i) := by
  simp [blankAfter]

/-- Calls add to the counter what the sync mode names, from 0 if a beginning of the blank starts it
over. -/
theorem counter_callAll (hm : m.Gates)
    (h : (t.channels.get i).Gated m (blankAfter i blank before) (before.any (·.beginsBlank i)))
    (hcalls : ∀ call ∈ calls, ¬ call.Overwrites i) :
    ((t.callAll calls).channels.get i).counter.toNat =
      ((if m.wipes && calls.any (·.beginsBlank i) then 0
        else (t.channels.get i).counter.toNat) +
          elapsedWhen (counts i m.syncMode blank) before calls) % 0x10000 := by
  induction calls generalizing t before with
  | nil => simp [callAll, elapsedWhen, Nat.mod_eq_of_lt (UInt16.toNat_lt _)]
  | cons call calls ih =>
    obtain ⟨hcall, hcalls⟩ := List.forall_mem_cons.1 hcalls
    obtain ⟨hcycles, hbegins, hends, hover⟩ := t.action_told i call
    obtain ⟨hgated, hcounter⟩ := h.act hm fun ho => hcall (hover ho)
    rw [hbegins, hends, ← (t.call_acts i call).2] at hgated
    rw [hbegins, hcycles, ← (t.call_acts i call).2] at hcounter
    have hnext : ((t.call call).2.channels.get i).Gated m (blankAfter i blank (before ++ [call]))
        ((before ++ [call]).any (·.beginsBlank i)) := by
      rw [blankAfter_append, List.any_append]
      simpa using hgated
    have hall := ih hnext hcalls
    rw [hcounter] at hall
    show (((t.call call).2.callAll calls).channels.get i).counter.toNat = _
    rw [hall, elapsedWhen, counts_eq hm before calls, List.any_cons]
    -- no cycles pass in a call that starts the counter over
    have hidle : call.beginsBlank i = true → call.cycles = 0 := by
      cases call <;> simp [Call.beginsBlank, Call.cycles]
    generalize call.beginsBlank i = begins at *
    generalize calls.any (·.beginsBlank i) = later
    generalize m.isOpen _ _ = isOpen
    cases m.wipes
    · cases isOpen <;> simp; omega
    · cases begins <;> cases later <;> cases isOpen <;> simp_all; omega

/-- A gated timer on the system clock that does not reset on its target holds the number of cycles
that its sync mode names, in 16 bits, whatever was done to the timers since its mode was written but
to set its counter. -/
theorem counter_after_mode_write (t : Timers) (i : Fin 3) (value : UInt16) (calls : List Call)
    (hid : (t.channels.get i).id ≠ 2) (hsync : (Mode.ofBits value).syncEnable = true)
    (hreset : (Mode.ofBits value).resetOnTarget = false)
    (hclock : ((t.channels.get i).writeMode value).clock = .system)
    (h : ∀ call ∈ calls, ¬ call.Overwrites i) :
    (((t.modify i (·.writeMode value)).callAll calls).channels.get i).counter.toNat =
      elapsedWhen (counts i (Mode.ofBits value).syncMode (t.channels.get i).inBlank) [] calls
        % 0x10000 := by
  have hs : (t.modify i (·.writeMode value)).channels.get i =
      (t.channels.get i).writeMode value := by
    rw [channel_modify, if_pos rfl]
  have hgated : ((t.channels.get i).writeMode value).Gated (.ofBits value)
      (blankAfter i (t.channels.get i).inBlank []) (([] : List Call).any (·.beginsBlank i)) :=
    ⟨hid, rfl, hclock, rfl, fun _ => rfl⟩
  have hall := counter_callAll (Mode.gates_ofBits hsync hreset) (hs ▸ hgated) h
  rw [hall, hs]
  simp [Channel.writeMode]

/-- The first timer in each of its sync modes, the mode written inside the blank. -/
theorem counter_in_each_sync_mode :
    let t := ({} : Timers).hblankBegin.2
    let calls : List Call := [.advance 3, .hblankEnd, .advance 5, .read 0x04 .half, .hblankBegin,
      .advance 7, .vblankEnd, .hblankBegin, .advance 11, .hblankEnd, .advance 0x1000D]
    (∀ call ∈ calls, ¬ call.Overwrites 0) ∧
      ∀ r ∈ [((0x1 : UInt16), 18), (0x3, 24), (0x5, 11), (0x7, 31)],
        (((t.modify 0 (·.writeMode r.1)).callAll calls).channels.get 0).counter.toNat = r.2 := by
  intro t calls
  have h : ∀ call ∈ calls, ¬ call.Overwrites 0 := by decide
  have hcounter : ∀ value : UInt16, (Mode.ofBits value).syncEnable = true →
      (Mode.ofBits value).resetOnTarget = false →
      ((t.channels.get 0).writeMode value).clock = .system →
      (((t.modify 0 (·.writeMode value)).callAll calls).channels.get 0).counter.toNat =
        elapsedWhen (counts 0 (Mode.ofBits value).syncMode true) [] calls % 0x10000 :=
    fun value hsync hreset hclock =>
      counter_after_mode_write t 0 value calls (by decide) hsync hreset hclock h
  refine ⟨h, ?_⟩
  simp only [List.forall_mem_cons, List.not_mem_nil, false_imp_iff, implies_true, and_true]
  exact ⟨(hcounter 0x1 (by decide) (by decide) (by decide)).trans (by decide),
    (hcounter 0x3 (by decide) (by decide) (by decide)).trans (by decide),
    (hcounter 0x5 (by decide) (by decide) (by decide)).trans (by decide),
    (hcounter 0x7 (by decide) (by decide) (by decide)).trans (by decide)⟩

end Timers

end Psx
