import Psx.Proofs.Timer.Ticking

/-!
# Uses of the timers

Whatever is done with the bank (`Timers.Call`), each of its timers sees one action (`Timer.Action`),
and an action is a silent change of the timer followed by a count of some ticks, often of none. The
bank raises for a timer what that count asks for, and nothing else (`Timers.call_acts`). So what a
timer does under any sequence of uses is told one action at a time.
-/

namespace Psx

namespace Timer

/-- What can happen to one timer. -/
inductive Action where
  | wait (cycles : Nat) (dotDivider : UInt32)
  /-- A horizontal blank begins, which a timer may count. -/
  | line
  | blankBegin
  | blankEnd
  | readMode
  | writeMode (value : UInt16)
  | writeCounter (value : UInt16)
  | writeTarget (value : UInt16)
  | reset
  | none
deriving DecidableEq, Repr

namespace Channel

variable (c : Channel)

/-- How many ticks a timer counts in an action. -/
def ticksIn : Action → Nat
  | .wait cycles dotDivider => (c.ticks cycles dotDivider).1
  | .line => if c.clock = .hblank ∧ c.isCounting then 1 else 0
  | _ => 0

/-- What an action changes by itself, before anything is counted. -/
def touch : Action → Channel
  | .wait cycles dotDivider => (c.ticks cycles dotDivider).2
  | .blankBegin => c.blankBegin
  | .blankEnd => c.blankEnd
  | .readMode => c.readMode.2
  | .writeMode value => c.writeMode value
  | .writeCounter value => c.writeCounter value
  | .writeTarget value => c.writeTarget value
  | .reset => c.reset
  | .line | .none => c

/-- An action, and whether the timer asks for attention. -/
def act (a : Action) : Bool × Channel := (c.touch a).count (c.ticksIn a)

theorem act_of_idle {a : Action} (h : c.ticksIn a = 0) : c.act a = (false, c.touch a) := by
  rw [act, h, count_eq_tell, if_pos rfl]

end Channel

end Timer

namespace Timers

open Timer

/-- A use of the timers. -/
inductive Call where
  | advance (cycles : Nat)
  | hblankBegin
  | hblankEnd
  | vblankBegin
  | vblankEnd
  | setDotDivider (divider : UInt32)
  | read (offset : UInt32) (w : Width)
  | write (offset : UInt32) (w : Width) (value : UInt32)
  | reset
deriving DecidableEq, Repr

variable (t : Timers) (i : Fin 3)

/-- The interrupts that a call raises, and the timers after it. -/
def call : Call → List Interrupt × Timers
  | .advance cycles => t.advance cycles
  | .hblankBegin => t.hblankBegin
  | .hblankEnd => ([], t.hblankEnd)
  | .vblankBegin => ([], t.vblankBegin)
  | .vblankEnd => ([], t.vblankEnd)
  | .setDotDivider divider => ([], t.setDotDivider divider)
  | .read offset w => ([], (t.read offset w).2)
  | .write offset w value => ([], t.write offset w value)
  | .reset => ([], t.reset)

def callAll (calls : List Call) : Timers := calls.foldl (fun t call => (t.call call).2) t

namespace Call

/-- The call writes to a register of a timer. -/
def writes (i : Fin 3) (register : UInt32) : Call → Prop
  | .write offset _ _ => channelAt? offset = some i ∧ offset &&& 0x0C = register
  | _ => False

instance (call : Call) (register : UInt32) : Decidable (call.writes i register) := by
  cases call <;> unfold writes <;> infer_instance

/-- The call starts a timer over. -/
def Restarts (i : Fin 3) (call : Call) : Prop := call = .reset ∨ call.writes i 0x04

instance (call : Call) : Decidable (call.Restarts i) := inferInstanceAs (Decidable (_ ∨ _))

end Call

/-- What a write to the registers of a timer does to it. -/
def written (c : Channel) (offset : UInt32) (w : Width) (value : UInt32) : Action :=
  match offset &&& 0x0C with
  | 0x00 => .writeCounter (writeLane c.counter.toUInt32 offset w value).toUInt16
  | 0x04 => .writeMode (writeLane c.mode.bits.toUInt32 offset w value).toUInt16
  | 0x08 => .writeTarget (writeLane c.target.toUInt32 offset w value).toUInt16
  | _ => .none

/-- What a call does to a timer. -/
def action : Call → Action
  | .advance cycles => .wait cycles t.dotDivider
  | .hblankBegin => if i.val = 0 then .blankBegin else if i.val = 1 then .line else .none
  | .hblankEnd => if i.val = 0 then .blankEnd else .none
  | .vblankBegin => if i.val = 1 then .blankBegin else .none
  | .vblankEnd => if i.val = 1 then .blankEnd else .none
  | .read offset _ =>
    if channelAt? offset = some i ∧ offset &&& 0x0C = 0x04 then .readMode else .none
  | .write offset w value =>
    if channelAt? offset = some i then written (t.channels.get i) offset w value else .none
  | .setDotDivider _ => .none
  | .reset => .reset

/-- A write sets the counter, the mode or the target of a timer, or leaves the timer alone. -/
theorem action_write_cases (offset : UInt32) (w : Width) (value : UInt32) :
    let call := Call.write offset w value
    (∃ v, call.writes i 0x00 ∧ t.action i call = .writeCounter v) ∨
      (∃ v, call.writes i 0x04 ∧ t.action i call = .writeMode v) ∨
      (∃ v, t.action i call = .writeTarget v) ∨ t.action i call = .none := by
  by_cases h : channelAt? offset = some i
  · simp only [action, if_pos h, written]
    split
    case h_1 hr => exact .inl ⟨_, ⟨h, hr⟩, rfl⟩
    case h_2 hr => exact .inr (.inl ⟨_, ⟨h, hr⟩, rfl⟩)
    case h_3 => exact .inr (.inr (.inl ⟨_, rfl⟩))
    case h_4 => exact .inr (.inr (.inr rfl))
  · exact .inr (.inr (.inr (if_neg h)))

/-- In raising `r.1` and coming to `r.2` the bank does an action to a timer. -/
def Acts (a : Action) (r : List Interrupt × Timers) : Prop :=
  r.1.count (.timer i) = ((t.channels.get i).act a).1.toNat ∧
    r.2.channels.get i = ((t.channels.get i).act a).2

theorem acts_none : t.Acts i .none ([], t) := by
  rw [Acts, Channel.act_of_idle _ rfl]
  exact ⟨rfl, rfl⟩

/-- A timer changed by itself raises nothing, and the other timers do not see it. -/
theorem acts_modify {a : Action} (j : Fin 3) (h : (t.channels.get j).ticksIn a = 0) :
    t.Acts i (if i.val = j.val then a else .none) ([], t.modify j (·.touch a)) := by
  unfold Acts
  rw [channel_modify]
  rcases eq_or_ne i j with rfl | hij
  · rw [if_pos rfl, if_pos rfl, Channel.act_of_idle _ h]
    exact ⟨rfl, rfl⟩
  · rw [if_neg hij, if_neg (Fin.val_ne_of_ne hij), Channel.act_of_idle _ rfl]
    exact ⟨rfl, rfl⟩

theorem count_requests (asked : Bool) : ∀ j < 3,
    (requests asked j).count (.timer i) = if i.val = j then asked.toNat else 0 := by
  revert i
  cases asked <;> decide

theorem acts_advance (cycles : Nat) :
    t.Acts i (.wait cycles t.dotDivider) (t.advance cycles) := by
  refine ⟨?_, t.advance_channel cycles i⟩
  simp only [advance, List.count_append, count_requests i _ _ (show 0 < 3 by decide),
    count_requests i _ _ (show 1 < 3 by decide), count_requests i _ _ (show 2 < 3 by decide)]
  obtain h | h | h : i = 0 ∨ i = 1 ∨ i = 2 := by omega
  all_goals
    rw [h]
    simp
    rfl

theorem act_line (c : Channel) : c.act .line =
    if c.clock == .hblank && c.isCounting then c.count 1 else (false, c) := by
  rcases h : c.clock == .hblank && c.isCounting with _ | _
  · rw [Channel.act_of_idle] <;> simp_all [Channel.ticksIn, Channel.touch]
  · simp_all [Channel.act, Channel.ticksIn, Channel.touch]

/-- The first timer is gated by the horizontal blank, the second sees it as a line that it may
count. -/
theorem acts_hblankBegin : t.Acts i (t.action i .hblankBegin) t.hblankBegin := by
  set b := t.modify 0 Channel.blankBegin with hb
  set r := (t.channels.get 1).act .line with hr
  have h1 : b.channels[1] = t.channels.get 1 := t.channel_modify 1 0 _
  have hline : t.hblankBegin.1 = requests r.1 1 ∧
      t.hblankBegin.2.channels.get i = if i = 1 then r.2 else b.channels.get i := by
    rw [hr, act_line]
    unfold hblankBegin
    simp only [← hb, h1]
    split
    · exact ⟨rfl, channel_modify _ i 1 _⟩
    · refine ⟨rfl, ?_⟩
      split
      case isTrue e => rw [e]; exact h1
      case isFalse => rfl
  obtain ⟨hasked, hafter⟩ := hline
  rw [Acts, hasked, hafter, count_requests i r.1 1 (by decide)]
  rcases eq_or_ne i 1 with rfl | hi
  · exact ⟨rfl, rfl⟩
  · have hval : i.val ≠ 1 := Fin.val_ne_of_ne hi
    have ha : t.action i .hblankBegin = if i.val = 0 then .blankBegin else .none := by
      simp [action, hval]
    rw [if_neg hval, if_neg hi, ha]
    exact t.acts_modify i 0 rfl

theorem acts_read (offset : UInt32) (w : Width) :
    t.Acts i (t.action i (.read offset w)) ([], (t.read offset w).2) := by
  unfold read
  simp only [action]
  cases channelAt? offset with
  | none => simpa using t.acts_none i
  | some j =>
    have hread : t.Acts i (if i.val = j.val then .readMode else .none)
        ([], t.modify j fun _ => t.channels[j].readMode.2) := t.acts_modify i j rfl
    dsimp only
    by_cases hr : offset &&& 0x0C = 0x04
    · simpa [hr, Fin.ext_iff, eq_comm (a := i.val)] using hread
    · rw [if_neg fun h => hr h.2]
      split
      case h_2 h => exact absurd h hr
      all_goals exact t.acts_none i

theorem acts_write (offset : UInt32) (w : Width) (value : UInt32) :
    t.Acts i (t.action i (.write offset w value)) ([], t.write offset w value) := by
  cases hj : channelAt? offset with
  | none => simpa [write, action, hj] using t.acts_none i
  | some j =>
    set a := written (t.channels.get j) offset w value with ha
    have hidle : (t.channels.get j).ticksIn a = 0 := by
      rw [ha]
      unfold written
      split <;> rfl
    have htouch : t.modify j (·.touch a) = t.write offset w value := by
      simp only [write, hj, modify, ha, written]
      generalize offset &&& 0x0C = register
      split
      case h_4 => simp_all [Channel.touch]
      all_goals rfl
    have h := t.acts_modify i j hidle
    rw [htouch] at h
    rcases eq_or_ne i j with rfl | hij
    · simpa [action, hj] using h
    · simpa [action, hj, hij.symm, Fin.val_ne_of_ne hij] using h

/-- A call does to each timer what its action does, and raises for it what the action asks for. -/
theorem call_acts (call : Call) : t.Acts i (t.action i call) (t.call call) := by
  cases call with
  | advance cycles => exact t.acts_advance i cycles
  | hblankBegin => exact t.acts_hblankBegin i
  | hblankEnd => exact t.acts_modify i 0 rfl
  | vblankBegin => exact t.acts_modify i 1 rfl
  | vblankEnd => exact t.acts_modify i 1 rfl
  | setDotDivider divider => exact t.acts_none i
  | read offset w => exact t.acts_read i offset w
  | write offset w value => exact t.acts_write i offset w value
  | reset => exact ⟨rfl, Vector.getElem_map ..⟩

end Timers

end Psx
