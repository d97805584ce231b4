import Psx.Proofs.Timer.Calls

/-!
# One-shot and repeating timers

A timer whose mode was written without the repeat bit remembers its first event until the mode is
written again, and until that event its request line is high (`Armed`). So it asks in the first call
in which an enabled crossing occurs, and in no other, whatever reads of the mode and writes to the
other registers come in between. With the repeat bit, and a line that is pulled low rather than
flipped, it asks in all the calls in which one occurs.
-/

namespace Psx

namespace Timer

/-- The action writes the mode or takes the timer back to power on. -/
def Action.Restarts : Action → Prop
  | .writeMode _ | .reset => True
  | _ => False

namespace Channel

variable {c : Channel} {n : Nat} {a : Action}

/-- Some ticks make an enabled crossing. -/
def crosses (c : Channel) (n : Nat) : Bool :=
  c.mode.irqOnTarget && (c.landings n).contains c.target ||
    c.mode.irqOnMax && (c.landings n).contains 0xFFFF

/-- The request line has not fallen before the first event. -/
def Armed (c : Channel) : Prop := c.fired = false → c.line = true

/-! ### Counting -/

theorem enabled_ne_zero_iff (c : Channel) (n : Nat) :
    c.enabled (c.crossings (c.landings n)) ≠ 0 ↔ c.crosses n = true := by
  have h : ∀ value, (c.landings n).contains value = true ↔ (c.landings n).count value ≠ 0 :=
    fun value => by rw [List.contains_iff_mem, ← List.count_pos_iff, Nat.pos_iff_ne_zero]
  simp only [crosses, Bool.or_eq_true, Bool.and_eq_true, h, enabled, crossings]
  split_ifs <;> simp [*]
  omega

/-- Counting asks for what the crossings of the landings ask for. -/
theorem count_eq_landings (c : Channel) (hn : n ≠ 0) : c.count n =
    ((c.tell (c.crossings (c.landings n))).1,
      (c.tell (c.crossings (c.landings n))).2.land (c.successor^[n] c.counter).toNat
        (c.crossings (c.landings n))) := by
  rw [count_eq_tell, if_neg hn]
  dsimp only
  rw [countBy_iterate, tell_land]
  rfl

theorem count_of_not_crosses (h : c.crosses n = false) :
    (c.count n).1 = false ∧ (c.count n).2.fired = c.fired ∧ (c.count n).2.line = c.line := by
  rcases eq_or_ne n 0 with rfl | hn
  · rw [count_eq_tell, if_pos rfl]
    exact ⟨rfl, rfl, rfl⟩
  · have h0 : c.enabled (c.crossings (c.landings n)) = 0 := by
      by_contra h'
      simp [(c.enabled_ne_zero_iff n).1 h'] at h
    rw [c.count_eq_landings hn, tell, if_pos h0]
    exact ⟨rfl, rfl, rfl⟩

theorem count_of_crosses (h : c.crosses n = true) : ∃ k ≠ 0, (c.count n).1 = (c.event k).1 ∧
    (c.count n).2.fired = (c.event k).2.fired ∧ (c.count n).2.line = (c.event k).2.line := by
  have hn : n ≠ 0 := by
    rintro rfl
    simp [crosses, landings] at h
  have h0 := (c.enabled_ne_zero_iff n).2 h
  refine ⟨_, h0, ?_⟩
  rw [c.count_eq_landings hn, tell, if_neg h0]
  exact ⟨rfl, rfl, rfl⟩

theorem count_mode (c : Channel) (n : Nat) : (c.count n).2.mode = c.mode := by
  obtain ⟨_, _, _, _, _, e⟩ := c.count_frame n
  rw [e]

/-- Without repeat the first crossing is the only event. -/
theorem count_once (hr : c.mode.irqRepeat = false) (h : c.Armed) (n : Nat) :
    (c.count n).1 = (!c.fired && c.crosses n) ∧
      (c.count n).2.fired = (c.fired || c.crosses n) ∧ (c.count n).2.Armed := by
  unfold Armed
  rcases hx : c.crosses n with _ | _
  · obtain ⟨hasked, hfired, hline⟩ := count_of_not_crosses hx
    rw [hasked, hfired, hline]
    simpa [Armed] using h
  · obtain ⟨k, -, hasked, hfired, hline⟩ := count_of_crosses hx
    rw [hasked, hfired, hline]
    rcases hf : c.fired with _ | _
    · have hl : c.line = true := h hf
      cases ht : c.mode.irqToggle <;> simp [event, hr, hf, ht, hl]
    · simp [event, hr, hf]

/-- With repeat and no toggle every crossing asks. -/
theorem count_always (hr : c.mode.irqRepeat = true) (ht : c.mode.irqToggle = false) (n : Nat) :
    (c.count n).1 = c.crosses n := by
  rcases hx : c.crosses n with _ | _
  · exact (count_of_not_crosses hx).1
  · obtain ⟨k, -, hasked, -⟩ := count_of_crosses hx
    rw [hasked]
    simp [event, hr, ht]

/-! ### One action -/

/-- An action that does not start the timer over leaves the mode and the memory of the first event
alone, and pulls no line low. -/
theorem touch_of_not_restarts (c : Channel) (h : ¬ a.Restarts) :
    (c.touch a).mode = c.mode ∧ (c.touch a).fired = c.fired ∧
      (c.line = true → (c.touch a).line = true) := by
  cases a with
  | wait cycles dotDivider =>
    obtain ⟨p, e⟩ := c.ticks_frame cycles dotDivider
    rw [touch, e]
    exact ⟨rfl, rfl, fun hl => hl⟩
  | blankBegin =>
    unfold touch blankBegin
    dsimp only
    split_ifs <;> exact ⟨rfl, rfl, fun hl => hl⟩
  | readMode => exact ⟨rfl, rfl, fun hl => by simp [touch, readMode, hl]⟩
  | writeMode | reset => exact absurd trivial h
  | line | blankEnd | writeCounter | writeTarget | none => exact ⟨rfl, rfl, fun hl => hl⟩

/-- What an action changes besides does not matter to the ticks it counts. -/
theorem crosses_touch (c : Channel) (a : Action) :
    (c.touch a).crosses (c.ticksIn a) = c.crosses (c.ticksIn a) := by
  have h0 : ∀ c : Channel, c.crosses 0 = false := fun c => by simp [crosses, landings]
  cases a with
  | wait cycles dotDivider =>
    obtain ⟨p, e⟩ := c.ticks_frame cycles dotDivider
    rw [touch, e]
    rfl
  | line | none => rfl
  | blankBegin | blankEnd | readMode | writeMode | writeCounter | writeTarget | reset =>
    exact (h0 _).trans (h0 c).symm

theorem act_once (hr : c.mode.irqRepeat = false) (h : c.Armed) (ha : ¬ a.Restarts) :
    (c.act a).1 = (!c.fired && c.crosses (c.ticksIn a)) ∧
      (c.act a).2.fired = (c.fired || c.crosses (c.ticksIn a)) ∧ (c.act a).2.Armed := by
  obtain ⟨hmode, hfired, hline⟩ := c.touch_of_not_restarts ha
  have harmed : (c.touch a).Armed := fun hf => hline (h (by rw [← hfired, hf]))
  rw [← hfired, ← crosses_touch]
  exact count_once (by rw [hmode, hr]) harmed _

theorem act_always (hr : c.mode.irqRepeat = true) (ht : c.mode.irqToggle = false)
    (ha : ¬ a.Restarts) : (c.act a).1 = c.crosses (c.ticksIn a) := by
  obtain ⟨hmode, -, -⟩ := c.touch_of_not_restarts ha
  rw [← crosses_touch]
  exact count_always (by rw [hmode, hr]) (by rw [hmode, ht]) _

theorem act_mode (c : Channel) (ha : ¬ a.Restarts) : (c.act a).2.mode = c.mode :=
  (count_mode _ _).trans (c.touch_of_not_restarts ha).1

end Channel

end Timer

/-! ### Any calls -/

namespace Timers

open Timer

variable {t : Timers} {i : Fin 3} {calls : List Call}

/-- How often each of some calls raises the interrupt of a timer. -/
def raises (i : Fin 3) : Timers → List Call → List Nat
  | _, [] => []
  | t, call :: calls => (t.call call).1.count (.timer i) :: raises i (t.call call).2 calls

/-- In which of some calls the ticks of a timer make an enabled crossing. -/
def crossed (i : Fin 3) : Timers → List Call → List Bool
  | _, [] => []
  | t, call :: calls =>
    (t.channels.get i).crosses ((t.channels.get i).ticksIn (t.action i call)) ::
      crossed i (t.call call).2 calls

theorem action_not_restarts {call : Call} (h : ¬ call.Restarts i) :
    ¬ (t.action i call).Restarts := by
  cases call with
  | write offset w value =>
    rcases t.action_write_cases i offset w value with ⟨_, -, e⟩ | ⟨_, hw, -⟩ | ⟨_, e⟩ | e
    case inr.inl => exact absurd (.inr hw) h
    all_goals exact e ▸ fun h => h
  | reset => exact absurd (.inl rfl) h
  | hblankBegin | hblankEnd | vblankBegin | vblankEnd | read =>
    simp only [action]
    split_ifs <;> exact fun h => h
  | advance | setDotDivider => exact fun h => h

theorem raises_always (hr : (t.channels.get i).mode.irqRepeat = true)
    (ht : (t.channels.get i).mode.irqToggle = false) (h : ∀ call ∈ calls, ¬ call.Restarts i) :
    raises i t calls = (crossed i t calls).map Bool.toNat := by
  induction calls generalizing t with
  | nil => rfl
  | cons call calls ih =>
    obtain ⟨hcall, hcalls⟩ := List.forall_mem_cons.1 h
    have ha := action_not_restarts (t := t) hcall
    obtain ⟨hasked, hafter⟩ := t.call_acts i call
    have hmode := (t.channels.get i).act_mode ha
    rw [raises, crossed, List.map_cons, hasked, Channel.act_always hr ht ha,
      ih (by rw [hafter, hmode, hr]) (by rw [hafter, hmode, ht]) hcalls]

/-- A timer that does not repeat asks at the first crossing, unless it has asked before. -/
theorem raises_first (hr : (t.channels.get i).mode.irqRepeat = false)
    (harmed : (t.channels.get i).Armed) (h : ∀ call ∈ calls, ¬ call.Restarts i) :
    (raises i t calls).sum ≤ (!(t.channels.get i).fired).toNat ∧
      ∀ k, (raises i t calls)[k]? = some 1 ↔ (t.channels.get i).fired = false ∧
        (crossed i t calls)[k]? = some true ∧ true ∉ (crossed i t calls).take k := by
  induction calls generalizing t with
  | nil => simp [raises, crossed]
  | cons call calls ih =>
    obtain ⟨hcall, hcalls⟩ := List.forall_mem_cons.1 h
    have ha := action_not_restarts (t := t) hcall
    obtain ⟨hasked, hafter⟩ := t.call_acts i call
    obtain ⟨hone, hfired, harmed'⟩ := Channel.act_once hr harmed ha
    have hmode := (t.channels.get i).act_mode ha
    rw [← hafter] at hfired harmed' hmode
    obtain ⟨hsum, hfirst⟩ := ih (by rw [hmode, hr]) harmed' hcalls
    rw [hfired] at hsum hfirst
    rw [raises, crossed, hasked, hone]
    generalize (t.channels.get i).crosses _ = x at *
    generalize (t.channels.get i).fired = f at *
    refine ⟨?_, fun k => ?_⟩
    · rw [List.sum_cons]
      cases f <;> cases x <;> simp_all
    · cases k with
      | zero => cases f <;> cases x <;> simp
      | succ k =>
        rw [List.getElem?_cons_succ, List.getElem?_cons_succ, List.take_succ_cons, hfirst k]
        cases f <;> cases x <;> simp

/-- After its mode was written a timer without repeat raises its interrupt at most once, in the
first call in which an enabled crossing occurs; one that repeats and does not toggle raises it in
exactly the calls in which one occurs. Any calls may follow that do not start the timer over. -/
theorem raises_after_mode_write (t : Timers) (i : Fin 3) (value : UInt16) (calls : List Call)
    (h : ∀ call ∈ calls, ¬ call.Restarts i) :
    let s := t.modify i (·.writeMode value)
    (value &&& 0x40 = 0 →
      (raises i s calls).sum ≤ 1 ∧
        ∀ k, (raises i s calls)[k]? = some 1 ↔
          (crossed i s calls)[k]? = some true ∧ true ∉ (crossed i s calls).take k) ∧
    (value &&& 0x40 ≠ 0 → value &&& 0x80 = 0 →
      raises i s calls = (crossed i s calls).map Bool.toNat) := by
  intro s
  have hs : s.channels.get i = (t.channels.get i).writeMode value := by
    rw [channel_modify, if_pos rfl]
  refine ⟨fun hv => ?_, fun hv ht => ?_⟩
  · have hr : (s.channels.get i).mode.irqRepeat = false := by
      rw [hs]
      simp [Channel.writeMode, Mode.ofBits, hv]
    have hf : (s.channels.get i).fired = false := by rw [hs]; rfl
    have harmed : (s.channels.get i).Armed := fun _ => by rw [hs]; rfl
    have hfirst := raises_first hr harmed h
    simpa [hf] using hfirst
  · refine raises_always ?_ ?_ h
    · rw [hs]
      simpa [Channel.writeMode, Mode.ofBits] using hv
    · rw [hs]
      simpa [Channel.writeMode, Mode.ofBits] using ht

/-- The third timer, reset on its target 5, crosses it in both of two waits of six cycles. Without
repeat it asks in the first alone, although its mode was read in between. -/
theorem raises_after_two_crossings :
    let calls : List Call :=
      [.write 0x28 .word 5, .advance 6, .read 0x24 .word, .hblankBegin, .advance 6]
    let once := ({} : Timers).modify 2 (·.writeMode 0x18)
    let always := ({} : Timers).modify 2 (·.writeMode 0x58)
    (∀ call ∈ calls, ¬ call.Restarts 2) ∧
      crossed 2 once calls = [false, true, false, false, true] ∧
      (raises 2 once calls).sum ≤ 1 ∧
      (raises 2 once calls)[1]? = some 1 ∧
      raises 2 always calls = (crossed 2 always calls).map Bool.toNat := by
  intro calls once always
  have h : ∀ call ∈ calls, ¬ call.Restarts 2 := by decide
  have hcrossed : crossed 2 once calls = [false, true, false, false, true] := by decide +kernel
  obtain ⟨hsum, hfirst⟩ := (raises_after_mode_write {} 2 0x18 calls h).1 (by decide)
  refine ⟨h, hcrossed, hsum, (hfirst 1).2 ?_, ?_⟩
  · show (crossed 2 once calls)[1]? = some true ∧ true ∉ (crossed 2 once calls).take 1
    rw [hcrossed]
    decide
  · exact (raises_after_mode_write {} 2 0x58 calls h).2 (by decide) (by decide)

end Timers

end Psx
