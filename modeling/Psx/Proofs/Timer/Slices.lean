import Psx.Board
import Psx.Proofs.Timer.Counting

/-!
# Timers do not see how time is cut

Letting `a` and then `b` cycles pass leaves a timer where `a + b` cycles leave it, and it asks for
attention in one of the two if and only if it asks in the whole (`Channel.advance_add`). The two
halves of an advance commute: dividing a clock touches the remainder alone, counting touches
everything but the remainder and what the division looks at. Each half may be cut by itself.
`Timers.advance_split` says it of the three timers and their interrupts, for any number of parts.
-/

namespace Psx

namespace Timer.Channel

variable (c : Channel)

/-! ### Dividing -/

theorem divide_add (a b period : Nat) :
    c.divide (a + b) period =
      ((c.divide a period).1 + ((c.divide a period).2.divide b period).1,
        ((c.divide a period).2.divide b period).2) := by
  simp only [divide]
  rw [← Nat.add_assoc]
  generalize c.prescale + a = x
  refine Prod.ext ?_ ?_
  · show (x + b) / period = x / period + (x % period + b) / period
    rcases Nat.eq_zero_or_pos period with rfl | hp
    · simp
    · conv_lhs => rw [← Nat.div_add_mod x period, Nat.add_assoc, Nat.mul_add_div hp]
  · show ({ c with prescale := (x + b) % period } : Channel) =
      { c with prescale := (x % period + b) % period }
    rw [Nat.mod_add_mod]

theorem ticks_add (a b : Nat) (d : UInt32) :
    c.ticks (a + b) d =
      ((c.ticks a d).1 + ((c.ticks a d).2.ticks b d).1, ((c.ticks a d).2.ticks b d).2) := by
  have hcount : ∀ p, ({ c with prescale := p } : Channel).isCounting = c.isCounting := fun _ => rfl
  have hclock : ∀ p, ({ c with prescale := p } : Channel).clock = c.clock := fun _ => rfl
  by_cases h : c.isCounting
  · cases hk : c.clock with
    | system => simp [ticks, h, hk]
    | hblank => simp [ticks, h, hk]
    | systemEighth =>
      have := c.divide_add a b 8
      simp_all [ticks, divide]
    | dot =>
      have := c.divide_add (a * 11) (b * 11) (7 * max d.toNat 1)
      simp_all [ticks, divide, Nat.add_mul]
  · simp [ticks, h]

/-! ### Counting -/

/-- The counter comes to a value, having crossed others on the way. -/
def land (value : Nat) (hits : Crossings) : Channel :=
  { c with
    counter := .ofNat value
    reachedTarget := c.reachedTarget || decide (hits.target > 0)
    reachedMax := c.reachedMax || decide (hits.max > 0) }

/-- The enabled ones of some crossings. -/
def enabled (hits : Crossings) : Nat :=
  (if c.mode.irqOnTarget then hits.target else 0) + (if c.mode.irqOnMax then hits.max else 0)

/-- Asks for attention for the enabled ones of some crossings. -/
def tell (hits : Crossings) : Bool × Channel :=
  if c.enabled hits = 0 then (false, c) else c.event (c.enabled hits)

theorem count_eq_tell (n : Nat) : c.count n =
    if n = 0 then (false, c)
    else
      let r := countBy c.mode.resetOnTarget c.target.toNat c.counter.toNat n
      (c.land r.1 r.2).tell r.2 := rfl

theorem land_land (v w : Nat) (h k : Crossings) : (c.land v h).land w k = c.land w (h + k) := by
  have e : ∀ (b : Bool) (m n : Nat),
      ((b || decide (m > 0)) || decide (n > 0)) = (b || decide (m + n > 0)) := fun b m n => by
    rw [Bool.or_assoc, ← Bool.decide_or]
    exact congrArg (b || ·) (decide_eq_decide.2 (by omega))
  simp only [land, e, Crossings.add_target, Crossings.add_max]

theorem event_land (n v : Nat) (h : Crossings) :
    (c.land v h).event n = ((c.event n).1, (c.event n).2.land v h) := by
  unfold event land; dsimp only; split_ifs <;> rfl

theorem tell_land (v : Nat) (h k : Crossings) :
    (c.land v h).tell k = ((c.tell k).1, (c.tell k).2.land v h) := by
  have e : (c.land v h).enabled k = c.enabled k := rfl
  unfold tell
  rw [e, event_land]; split <;> rfl

/-- Events may be told one after the other. -/
theorem event_event {n m : Nat} (hn : n ≠ 0) (hm : m ≠ 0) :
    ((c.event n).1 || ((c.event n).2.event m).1, ((c.event n).2.event m).2) = c.event (n + m) := by
  cases hr : c.mode.irqRepeat <;> cases ht : c.mode.irqToggle
  · cases hf : c.fired <;> simp [event, hr, ht, hf]
  · cases hf : c.fired <;> simp [event, hr, ht, hf]
  · simp [event, hr, ht]
  · have h2 : 2 ≤ n + m := by omega
    simp only [event, hr, ht, h2, Bool.not_true, Bool.false_and, Bool.false_eq_true, if_false,
      if_true, decide_true, Bool.or_true]
    refine Prod.ext ?_ ?_
    · -- a line that was low and flips once is high for the second part
      show ((c.line || decide (n ≥ 2)) || ((c.line ^^ (n % 2 == 1)) || decide (m ≥ 2))) = true
      by_cases h1 : n = 1
      · subst h1; cases c.line <;> simp
      · have : n ≥ 2 := by omega
        simp [this]
    · show ({ c with fired := true, line := (c.line ^^ (n % 2 == 1)) ^^ (m % 2 == 1) } : Channel) =
        { c with fired := true, line := c.line ^^ ((n + m) % 2 == 1) }
      rw [Bool.xor_assoc, Nat.add_mod]
      rcases Nat.mod_two_eq_zero_or_one n with h | h <;>
        rcases Nat.mod_two_eq_zero_or_one m with h' | h' <;> simp [h, h']

/-- An event touches the request line and what remembers it, and nothing else. -/
theorem event_frame (n : Nat) :
    ∃ fired line, (c.event n).2 = { c with fired := fired, line := line } := by
  unfold event; split_ifs <;> exact ⟨_, _, rfl⟩

theorem tell_frame (h : Crossings) :
    ∃ fired line, (c.tell h).2 = { c with fired := fired, line := line } := by
  unfold tell; split
  · exact ⟨_, _, rfl⟩
  · exact c.event_frame _

/-- Crossings may be told one after the other. -/
theorem tell_tell (h k : Crossings) :
    ((c.tell h).1 || ((c.tell h).2.tell k).1, ((c.tell h).2.tell k).2) = c.tell (h + k) := by
  have hadd : c.enabled (h + k) = c.enabled h + c.enabled k := by
    unfold enabled; dsimp only [Crossings.add_target, Crossings.add_max]; split_ifs <;> omega
  have hk : (c.tell h).2.enabled k = c.enabled k := by
    obtain ⟨f, l, e⟩ := c.tell_frame h; rw [e]; rfl
  by_cases h0 : c.enabled h = 0
  · have e : c.tell h = (false, c) := by simp [tell, h0]
    rw [e, tell, tell, hadd, h0]; simp
  · by_cases k0 : c.enabled k = 0
    · rw [tell.eq_1 (c.tell h).2, hk, k0, tell.eq_1 c (h + k), hadd, k0]
      simp [tell, h0]
    · -- only here is there an event in each part
      have e : c.tell h = c.event (c.enabled h) := by simp [tell, h0]
      rw [tell.eq_1 (c.tell h).2, hk, if_neg k0, e, event_event c h0 k0, tell, hadd,
        if_neg (by omega)]

theorem count_add (a b : Nat) :
    c.count (a + b) =
      ((c.count a).1 || ((c.count a).2.count b).1, ((c.count a).2.count b).2) := by
  rcases Nat.eq_zero_or_pos a with rfl | ha
  · simp [count_eq_tell c 0]
  rcases Nat.eq_zero_or_pos b with rfl | hb
  · simp [count_eq_tell _ 0]
  have hc : c.counter.toNat < 0x10000 := c.counter.toNat_lt
  have ht : c.target.toNat < 0x10000 := c.target.toNat_lt
  simp only [count_eq_tell, show a + b ≠ 0 by omega, ha.ne', hb.ne', if_false]
  rw [countBy_add a b hc ht]
  set r := countBy c.mode.resetOnTarget c.target.toNat c.counter.toNat a with hr
  have hv : (UInt16.ofNat r.1).toNat = r.1 := by
    rw [UInt16.toNat_ofNat']; exact Nat.mod_eq_of_lt (countBy_lt a hc ht)
  set k := countBy c.mode.resetOnTarget c.target.toNat r.1 b
  obtain ⟨f, l, e⟩ := c.tell_frame r.2
  have hk : countBy ((c.tell r.2).2.land r.1 r.2).mode.resetOnTarget
      ((c.tell r.2).2.land r.1 r.2).target.toNat
      ((c.tell r.2).2.land r.1 r.2).counter.toNat b = k := by
    rw [e]
    show countBy _ _ (UInt16.ofNat r.1).toNat b = k
    rw [hv]; rfl
  simp only [tell_land, land_land, hk]
  rw [← c.tell_tell r.2 k.2]

/-! ### Both -/

/-- Neither the clock of a channel nor whether it counts depends on what counting changes. -/
theorem count_frame (n : Nat) : ∃ counter target max fired line, (c.count n).2 =
    { c with
      counter := counter, reachedTarget := target, reachedMax := max
      fired := fired, line := line } := by
  rw [count_eq_tell]; split
  · exact ⟨_, _, _, _, _, rfl⟩
  · dsimp only
    rw [tell_land]
    obtain ⟨f, l, e⟩ := c.tell_frame
      (countBy c.mode.resetOnTarget c.target.toNat c.counter.toNat n).2
    rw [e]
    exact ⟨_, _, _, _, _, rfl⟩

theorem count_prescale (n p : Nat) : ({ c with prescale := p } : Channel).count n =
    ((c.count n).1, { (c.count n).2 with prescale := p }) := by
  unfold count event; dsimp only; split_ifs <;> rfl

/-- Dividing touches the remainder alone. -/
theorem ticks_frame (n : Nat) (d : UInt32) : ∃ p, (c.ticks n d).2 = { c with prescale := p } := by
  unfold ticks divide; split
  · exact ⟨_, rfl⟩
  · split <;> exact ⟨_, rfl⟩

theorem ticks_count (n b : Nat) (d : UInt32) :
    (c.count n).2.ticks b d = ((c.ticks b d).1, ((c.ticks b d).2.count n).2) := by
  obtain ⟨v, t, m, f, l, e⟩ := c.count_frame n
  have hp : (c.count n).2.prescale = c.prescale := by rw [e]
  have hi : (c.count n).2.isCounting = c.isCounting := by rw [e]; rfl
  have hk : (c.count n).2.clock = c.clock := by rw [e]; rfl
  unfold ticks divide
  rw [hi, hk]
  split
  · rfl
  · split <;> simp only [count_prescale, hp]

/-- Cycles may pass in two parts. -/
theorem advance_add (a b : Nat) (d : UInt32) :
    c.advance (a + b) d =
      ((c.advance a d).1 || ((c.advance a d).2.advance b d).1,
        ((c.advance a d).2.advance b d).2) := by
  simp only [advance, ticks_add c a b d, ticks_count]
  rw [count_add]
  obtain ⟨p, e⟩ := (c.ticks a d).2.ticks_frame b d
  rw [e, count_prescale]

/-! ### What a divided clock keeps -/

/-- How much a cycle adds to what a clock has to count, and how much of that makes a tick. -/
def rate (d : UInt32) : Nat × Nat :=
  if !c.isCounting then (0, 1)
  else match c.clock with
    | .system => (1, 1)
    | .hblank => (0, 1)
    | .systemEighth => (1, 8)
    | .dot => (11, 7 * max d.toNat 1)

/-- Whatever does not make a tick yet is kept. -/
theorem ticks_exact (n : Nat) (d : UInt32) :
    (c.rate d).2 * (c.ticks n d).1 + (c.ticks n d).2.prescale = c.prescale + (c.rate d).1 * n := by
  unfold rate ticks divide
  split
  · simp
  · cases c.clock with
    | system | hblank => simp [Nat.add_comm]
    | systemEighth => simpa using Nat.div_add_mod _ _
    | dot => simpa [Nat.mul_comm 11] using Nat.div_add_mod _ _

/-- What a divided clock keeps is less than a tick. -/
theorem ticks_prescale_lt (n : Nat) (d : UInt32) :
    (c.ticks n d).2.prescale < (c.rate d).2 ∨ (c.rate d).2 = 1 := by
  unfold rate ticks divide
  split
  · exact .inr rfl
  · cases c.clock with
    | system | hblank => exact .inr rfl
    | systemEighth => exact .inl (Nat.mod_lt _ (by decide))
    | dot => exact .inl (Nat.mod_lt _ (by omega))

theorem count_prescale_eq (n : Nat) : (c.count n).2.prescale = c.prescale := by
  obtain ⟨v, t, m, f, l, e⟩ := c.count_frame n
  rw [e]

theorem advance_prescale (n : Nat) (d : UInt32) :
    (c.advance n d).2.prescale = (c.ticks n d).2.prescale :=
  count_prescale_eq _ _

/-- A channel ticks as fast after an advance as before. -/
theorem advance_rate (n : Nat) (d e : UInt32) : (c.advance n d).2.rate e = c.rate e := by
  obtain ⟨p, ht⟩ := c.ticks_frame n d
  obtain ⟨v, t, m, f, l, hc⟩ := (c.ticks n d).2.count_frame (c.ticks n d).1
  rw [advance, hc, ht]
  rfl

end Timer.Channel

/-! ### The bank and its interrupts -/

namespace InterruptController

theorem raise_comm (c : InterruptController) (i j : Interrupt) :
    (c.raise i).raise j = (c.raise j).raise i := by
  simp only [raise, request, UInt16.or_assoc, UInt16.or_comm (i.bit &&& _)]

theorem raise_self (c : InterruptController) (i : Interrupt) : (c.raise i).raise i = c.raise i := by
  simp only [raise, request, UInt16.or_assoc, UInt16.or_self]

end InterruptController

namespace Lines

variable (l : Lines)

theorem raise_comm (i j : Interrupt) : (l.raise i).raise j = (l.raise j).raise i := by
  simp only [raise, l.interrupts.raise_comm i j]

theorem raise_self (i : Interrupt) : (l.raise i).raise i = l.raise i := by
  simp only [raise, l.interrupts.raise_self i]

theorem raiseAll_append (is js : List Interrupt) :
    l.raiseAll (is ++ js) = (l.raiseAll is).raiseAll js := List.foldl_append

theorem raiseAll_cons (i : Interrupt) (is : List Interrupt) :
    l.raiseAll (i :: is) = (l.raise i).raiseAll is := rfl

theorem raiseAll_perm {is js : List Interrupt} (h : is.Perm js) : l.raiseAll is = l.raiseAll js :=
  h.foldl_eq' (fun i _ j _ l => l.raise_comm i j) l

theorem raiseAll_requests_or (p q : Bool) (i : Nat) :
    l.raiseAll (Timers.requests (p || q) i) =
      (l.raiseAll (Timers.requests p i)).raiseAll (Timers.requests q i) := by
  cases p <;> cases q <;> simp [Timers.requests, raiseAll, raise_self]

theorem raiseAll_timers (is : List Interrupt) : (l.raiseAll is).timers = l.timers := by
  induction is generalizing l with
  | nil => rfl
  | cons i is ih => rw [raiseAll_cons, ih]; rfl

theorem raiseAll_with (t : Timers) (is : List Interrupt) :
    { l.raiseAll is with timers := t } = ({ l with timers := t } : Lines).raiseAll is := by
  induction is generalizing l with
  | nil => rfl
  | cons i is ih => rw [raiseAll_cons, ih]; rfl

end Lines

/-- The timers after `a + b` cycles are those after `a` and then `b`. -/
theorem Timers.advance_add_snd (t : Timers) (a b : Nat) :
    (t.advance (a + b)).2 = ((t.advance a).2.advance b).2 := by
  simp [Timers.advance, Timer.Channel.advance_add]

/-- What the timers raise in `a + b` cycles is what they raise in `a` and then in `b`. -/
theorem Lines.raiseAll_advance_add (l : Lines) (t : Timers) (a b : Nat) :
    l.raiseAll (t.advance (a + b)).1 =
      (l.raiseAll (t.advance a).1).raiseAll ((t.advance a).2.advance b).1 := by
  simp only [Timers.advance, Timer.Channel.advance_add, Vector.getElem_mk, List.getElem_toArray,
    List.getElem_cons_zero, List.getElem_cons_succ, raiseAll_append, raiseAll_requests_or]
  simp only [← raiseAll_append]
  -- the requests of the second part move past those of the first
  refine l.raiseAll_perm (List.perm_iff_count.2 fun i => ?_)
  simp only [List.count_append]; omega

theorem Lines.advance_add (l : Lines) (a b : Nat) :
    l.advance (a + b) = (l.advance a).advance b := by
  have ht : (l.advance a).timers = (l.timers.advance a).2 := raiseAll_timers _ _
  rw [Lines.advance, Lines.advance.eq_1 (l.advance a), ht]
  simp only [Lines.advance, raiseAll_with, raiseAll_advance_add, Timers.advance_add_snd]

namespace Timers

variable (t : Timers)

theorem advance_dotDivider (n : Nat) : (t.advance n).2.dotDivider = t.dotDivider := rfl

theorem advance_channel (n : Nat) (k : Fin 3) :
    (t.advance n).2.channels.get k = ((t.channels.get k).advance n t.dotDivider).2 := by
  match k with
  | 0 | 1 | 2 => rfl

theorem channel_modify (k j : Fin 3) (f : Timer.Channel → Timer.Channel) :
    (t.modify j f).channels.get k = if k = j then f (t.channels.get k) else t.channels.get k := by
  show (t.channels.set j.val (f (t.channels.get j)) j.isLt)[k.val] = _
  by_cases h : k = j
  · subst h
    rw [if_pos rfl]
    exact Vector.getElem_set_self _
  · rw [if_neg h]
    exact Vector.getElem_set_ne _ _ fun e => h (Fin.ext e).symm

theorem mem_requests {p : Bool} {k : Nat} {i : Interrupt} :
    i ∈ requests p k ↔ p = true ∧ i = .timer k := by
  cases p <;> simp [requests]

/-- The interrupts of an advance are those of the channels that ask. -/
theorem mem_advance {n : Nat} {i : Interrupt} :
    i ∈ (t.advance n).1 ↔
      ∃ k : Fin 3, ((t.channels.get k).advance n t.dotDivider).1 = true ∧ i = .timer k := by
  simp [advance, mem_requests, Fin.exists_fin_succ]
  rfl

/-- An interrupt is raised in one of two parts if and only if it is raised in the whole. -/
theorem mem_advance_add {a b : Nat} {i : Interrupt} :
    i ∈ (t.advance (a + b)).1 ↔ i ∈ (t.advance a).1 ∨ i ∈ ((t.advance a).2.advance b).1 := by
  simp only [mem_advance, advance_channel, advance_dotDivider, Timer.Channel.advance_add,
    Bool.or_eq_true, or_and_right, exists_or]

/-- Lets the parts of some time pass one after the other. -/
def advanceAll (t : Timers) : List Nat → List Interrupt × Timers
  | [] => ([], t)
  | n :: parts =>
    let (asked, t) := t.advance n
    let (more, t) := advanceAll t parts
    (asked ++ more, t)

theorem advanceAll_cons (n : Nat) (parts : List Nat) : t.advanceAll (n :: parts) =
    ((t.advance n).1 ++ ((t.advance n).2.advanceAll parts).1,
      ((t.advance n).2.advanceAll parts).2) := rfl

theorem advanceAll_sum (n : Nat) (parts : List Nat) :
    (t.advanceAll (n :: parts)).2 = (t.advance (n + parts.sum)).2 ∧
      ∀ i, i ∈ (t.advanceAll (n :: parts)).1 ↔ i ∈ (t.advance (n + parts.sum)).1 := by
  induction parts generalizing t n with
  | nil => simp [advanceAll]
  | cons m parts ih =>
    obtain ⟨hs, hi⟩ := ih (t.advance n).2 m
    rw [advanceAll_cons, List.sum_cons, t.advance_add_snd, hs]
    refine ⟨rfl, fun i => ?_⟩
    rw [List.mem_append, mem_advance_add, hi i]

/-- However some time is cut into parts, the timers end in the same state and raise the same
interrupts. A divided clock counts all of it: the ticks of two parts and what is kept after them
make up what was kept before and what the cycles add. -/
theorem advance_split :
    (∀ a b, (t.advance (a + b)).2 = ((t.advance a).2.advance b).2 ∧
      ∀ i, i ∈ (t.advance (a + b)).1 ↔ i ∈ (t.advance a).1 ∨ i ∈ ((t.advance a).2.advance b).1) ∧
    (∀ a parts, (t.advanceAll (a :: parts)).2 = (t.advance (a :: parts).sum).2 ∧
      ∀ i, i ∈ (t.advanceAll (a :: parts)).1 ↔ i ∈ (t.advance (a :: parts).sum).1) ∧
    ∀ (a b : Nat) (k : Fin 3),
      let d := t.dotDivider
      let first := (t.channels.get k).ticks a d
      let second := ((t.advance a).2.channels.get k).ticks b d
      let kept := ((t.advance (a + b)).2.channels.get k).prescale
      let (gain, period) := (t.channels.get k).rate d
      period * (first.1 + second.1) + kept = (t.channels.get k).prescale + gain * (a + b) ∧
        (kept < period ∨ period = 1) := by
  refine ⟨fun a b => ⟨t.advance_add_snd a b, fun _ => t.mem_advance_add⟩, fun a parts => ?_,
    fun a b k => ?_⟩
  · rw [List.sum_cons]
    exact t.advanceAll_sum a parts
  · set c := t.channels.get k with hc
    have hkept : ((t.advance (a + b)).2.channels.get k).prescale =
        ((c.advance a t.dotDivider).2.ticks b t.dotDivider).2.prescale := by
      rw [advance_channel, ← hc, Timer.Channel.advance_add, Timer.Channel.advance_prescale]
    have h1 := c.ticks_exact a t.dotDivider
    have h2 := (c.advance a t.dotDivider).2.ticks_exact b t.dotDivider
    have hlt := (c.advance a t.dotDivider).2.ticks_prescale_lt b t.dotDivider
    rw [Timer.Channel.advance_rate] at h2 hlt
    rw [Timer.Channel.advance_prescale] at h2
    dsimp only
    rw [hkept, advance_channel, ← hc, Nat.mul_add, Nat.mul_add]
    exact ⟨by omega, hlt⟩

end Timers

end Psx
