import Psx.Proofs.Bus.PowerOn
import Psx.Proofs.Checked.Operations

/-!
# Timers and interrupts, checked

A timer counts in 64 bits, and what its divided clock keeps is below one period of the clock. So
with cycles of 32 bits no sum and no product comes near the end of the range.
-/

namespace Psx

open Checked

namespace Timer

/-! ### Counting -/

def passes! (distance period ticks : Nat) : Option Nat := do
  let first := if distance = 0 then period else distance
  if ticks < first then pure 0
  else held 64 (1 + (← div (← sub ticks first) period))

def countInRange! (target counter ticks : Nat) : Option (Nat × Crossings) := do
  let period ← held 64 (target + 1)
  let hits ← passes! (← sub target counter) period ticks
  let value ← mod (← held 64 (counter + ticks)) period
  pure (value, { target := hits, max := if target = 0xFFFF then hits else 0 })

def countPastTarget! (target counter ticks : Nat) : Option (Nat × Crossings) := do
  let toWrap ← sub 0x10000 counter
  if ticks < toWrap then
    let value ← held 64 (counter + ticks)
    pure (value, { max := if counter < 0xFFFF ∧ value ≥ 0xFFFF then 1 else 0 })
  else
    let (value, hits) ← countInRange! target 0 (← sub ticks toWrap)
    let target ← held 64 ((if target = 0 then 1 else 0) + hits.target)
    let max ← held 64 ((if counter < 0xFFFF then 1 else 0) + hits.max)
    pure (value, { target, max })

def countFree! (target counter ticks : Nat) : Option (Nat × Crossings) := do
  let toTarget ← mod (← sub (← held 64 (target + 0x10000)) counter) 0x10000
  let toMax ← mod (← sub (← held 64 (0xFFFF + 0x10000)) counter) 0x10000
  let value ← mod (← held 64 (counter + ticks)) 0x10000
  pure (value,
    { target := ← passes! toTarget 0x10000 ticks
      max := ← passes! toMax 0x10000 ticks })

def countBy! (resetOnTarget : Bool) (target counter ticks : Nat) : Option (Nat × Crossings) :=
  if resetOnTarget then
    if counter > target then countPastTarget! target counter ticks
    else countInRange! target counter ticks
  else countFree! target counter ticks

/-- Ticks that are far from the end of their range. -/
def Few (ticks : Nat) : Prop := ticks < 2 ^ 40

section counting

variable {distance period target counter ticks : Nat}

theorem passes_le : passes distance period ticks ≤ ticks + 1 := by
  unfold passes
  dsimp only
  generalize (if distance = 0 then period else distance) = first
  have := Nat.div_le_self (ticks - first) period
  split <;> omega

theorem passes!_eq (hp : period ≠ 0) (ht : Few ticks) :
    passes! distance period ticks = some (passes distance period ticks) := by
  unfold passes! passes
  dsimp only
  generalize (if distance = 0 then period else distance) = first
  split
  · rfl
  · have := Nat.div_le_self (ticks - first) period
    unfold Few at ht
    rw [sub_eq (by omega)]
    simp only [Option.bind_eq_bind, Option.bind_some]
    rw [div_eq hp]
    exact held_eq (by omega)

theorem countInRange!_eq (hc : counter ≤ target) (ht : target < 0x10000) (hn : Few ticks) :
    countInRange! target counter ticks = some (countInRange target counter ticks) := by
  have hsum : counter + ticks < 2 ^ 64 := by unfold Few at hn; omega
  rw [countInRange!, held_eq (by omega), sub_eq hc, held_eq hsum]
  simp only [Option.bind_eq_bind, Option.bind_some]
  rw [passes!_eq (by omega) hn, mod_eq (by omega)]
  rfl

theorem hits_le (target counter ticks : Nat) :
    (countInRange target counter ticks).2.target ≤ ticks + 1 ∧
      (countInRange target counter ticks).2.max ≤ ticks + 1 := by
  have h : (countInRange target counter ticks).2.target ≤ ticks + 1 := passes_le
  refine ⟨h, ?_⟩
  show (if target = 0xFFFF then _ else _) ≤ _
  split
  · exact h
  · omega

theorem countPastTarget!_eq (hc : counter < 0x10000) (ht : target < 0x10000) (hn : Few ticks) :
    countPastTarget! target counter ticks = some (countPastTarget target counter ticks) := by
  have hsum : counter + ticks < 2 ^ 64 := by unfold Few at hn; omega
  rw [countPastTarget!, sub_eq (by omega), countPastTarget]
  simp only [Option.bind_eq_bind, Option.bind_some]
  split
  · rw [held_eq hsum]
    rfl
  · have hn' : Few (ticks - (0x10000 - counter)) := by unfold Few at hn ⊢; omega
    obtain ⟨ht', hm'⟩ := hits_le target 0 (ticks - (0x10000 - counter))
    rw [sub_eq (by omega)]
    simp only [Option.bind_some]
    rw [countInRange!_eq (Nat.zero_le _) ht hn']
    simp only [Option.bind_some]
    unfold Few at hn'
    rw [held_eq (by split <;> omega), held_eq (by split <;> omega)]
    rfl

theorem countFree!_eq (hc : counter < 0x10000) (ht : target < 0x10000) (hn : Few ticks) :
    countFree! target counter ticks = some (countFree target counter ticks) := by
  have hsum : counter + ticks < 2 ^ 64 := by unfold Few at hn; omega
  rw [countFree!, held_eq (by omega), held_eq (by omega), held_eq hsum]
  simp only [Option.bind_eq_bind, Option.bind_some]
  rw [sub_eq (by omega), sub_eq (by omega), mod_eq (by decide)]
  simp only [Option.bind_some]
  rw [mod_eq (by decide), mod_eq (by decide)]
  simp only [Option.bind_some]
  rw [passes!_eq (by decide) hn, passes!_eq (by decide) hn]
  rfl

theorem countBy!_eq {resetOnTarget : Bool} (hc : counter < 0x10000) (ht : target < 0x10000)
    (hn : Few ticks) :
    countBy! resetOnTarget target counter ticks =
      some (countBy resetOnTarget target counter ticks) := by
  unfold countBy! countBy
  split
  · split
    · exact countPastTarget!_eq hc ht hn
    · exact countInRange!_eq (by omega) ht hn
  · exact countFree!_eq hc ht hn

/-- A crossing takes a tick, but for the two with which a counter comes from past its target. -/
theorem countBy_hits_le (resetOnTarget : Bool) (target counter ticks : Nat) :
    (countBy resetOnTarget target counter ticks).2.target ≤ ticks + 2 ∧
      (countBy resetOnTarget target counter ticks).2.max ≤ ticks + 2 := by
  unfold countBy
  split
  · split
    · unfold countPastTarget
      dsimp only
      split
      · exact ⟨Nat.zero_le _, by dsimp only; split <;> omega⟩
      · obtain ⟨ht, hm⟩ := hits_le target 0 (ticks - (0x10000 - counter))
        exact ⟨by dsimp only; split <;> omega, by dsimp only; split <;> omega⟩
    · obtain ⟨ht, hm⟩ := hits_le target counter ticks
      exact ⟨Nat.le_succ_of_le ht, Nat.le_succ_of_le hm⟩
  · exact ⟨Nat.le_succ_of_le passes_le, Nat.le_succ_of_le passes_le⟩

end counting

/-! ### One timer -/

namespace Channel

def divide! (c : Channel) (amount period : Nat) : Option (Nat × Channel) := do
  let sum ← held 64 (c.prescale + amount)
  let ticks ← div sum period
  let prescale ← mod sum period
  pure (ticks, { c with prescale })

def ticks! (c : Channel) (cycles : Nat) (dotDivider : UInt32) : Option (Nat × Channel) :=
  if !c.isCounting then pure (0, c)
  else match c.clock with
    | .system => pure (cycles, c)
    | .hblank => pure (0, c)
    | .systemEighth => c.divide! cycles 8
    | .dot => do
      let period ← held 64 (7 * max dotDivider.toNat 1)
      c.divide! (← held 64 (cycles * 11)) period

def count! (c : Channel) (ticks : Nat) : Option (Bool × Channel) := do
  if ticks = 0 then pure (false, c)
  else
    let (value, hits) ← countBy! c.mode.resetOnTarget c.target.toNat c.counter.toNat ticks
    let c := { c with
      counter := .ofNat value
      reachedTarget := c.reachedTarget || decide (hits.target > 0)
      reachedMax := c.reachedMax || decide (hits.max > 0) }
    let events ← held 64
      ((if c.mode.irqOnTarget then hits.target else 0) + (if c.mode.irqOnMax then hits.max else 0))
    pure (if events = 0 then (false, c) else c.event events)

def advance! (c : Channel) (cycles : Nat) (dotDivider : UInt32) : Option (Bool × Channel) := do
  let (ticks, c) ← c.ticks! cycles dotDivider
  c.count! ticks

/-- What the divided clock keeps is less than a period of the longest dot. -/
def Kept (c : Channel) : Prop := c.prescale < 2 ^ 35

variable {c : Channel} {cycles ticks amount period : Nat} {dotDivider : UInt32}

theorem divide!_eq (hc : c.Kept) (ha : amount < 2 ^ 36) (hp : period ≠ 0) :
    c.divide! amount period = some (c.divide amount period) := by
  unfold Kept at hc
  rw [divide!, held_eq (by omega)]
  simp only [Option.bind_eq_bind, Option.bind_some]
  rw [div_eq hp, mod_eq hp]
  rfl

theorem ticks!_eq (hc : c.Kept) (hn : cycles < 2 ^ 32) :
    c.ticks! cycles dotDivider = some (c.ticks cycles dotDivider) := by
  have hd := dotDivider.toNat_lt
  unfold ticks! ticks
  split
  · rfl
  · cases c.clock with
    | system | hblank => rfl
    | systemEighth => exact divide!_eq hc (by omega) (by decide)
    | dot =>
      dsimp only
      rw [held_eq (by omega), held_eq (by omega)]
      exact divide!_eq hc (by omega) (by omega)

theorem ticks_few (hc : c.Kept) (hn : cycles < 2 ^ 32) : Few (c.ticks cycles dotDivider).1 := by
  unfold Kept at hc
  unfold Few ticks
  split
  · dsimp only; omega
  · cases c.clock with
    | system | hblank => dsimp only; omega
    | systemEighth | dot => exact Nat.lt_of_le_of_lt (Nat.div_le_self ..) (by omega)

theorem count!_eq (hn : Few ticks) : c.count! ticks = some (c.count ticks) := by
  unfold count! count
  split
  · rfl
  · have hh := countBy_hits_le c.mode.resetOnTarget c.target.toNat c.counter.toNat ticks
    rw [countBy!_eq c.counter.toNat_lt c.target.toNat_lt hn]
    generalize countBy c.mode.resetOnTarget c.target.toNat c.counter.toNat ticks = r at hh
    unfold Few at hn
    dsimp only [Option.bind_eq_bind, Option.bind_some]
    rw [held_eq (by split <;> split <;> omega)]
    rfl

theorem advance!_eq (hc : c.Kept) (hn : cycles < 2 ^ 32) :
    c.advance! cycles dotDivider = some (c.advance cycles dotDivider) := by
  rw [advance!, ticks!_eq hc hn]
  exact count!_eq (ticks_few hc hn)

theorem Kept.after_ticks (hc : c.Kept) (cycles : Nat) (dotDivider : UInt32) :
    (c.ticks cycles dotDivider).2.Kept := by
  have hd := dotDivider.toNat_lt
  have hkept : ∀ {amount period}, period ≠ 0 → period < 2 ^ 35 →
      (c.divide amount period).2.Kept := fun hp hlt =>
    Nat.lt_trans (Nat.mod_lt _ (Nat.pos_of_ne_zero hp)) hlt
  unfold Channel.ticks
  split
  · exact hc
  · cases c.clock with
    | system | hblank => exact hc
    | systemEighth => exact hkept (by decide) (by decide)
    | dot => exact hkept (by omega) (by omega)

theorem Kept.count (hc : c.Kept) (ticks : Nat) : (c.count ticks).2.Kept := by
  unfold Kept
  rw [count_prescale_eq]
  exact hc

theorem Kept.advance (hc : c.Kept) (cycles : Nat) (dotDivider : UInt32) :
    (c.advance cycles dotDivider).2.Kept :=
  (hc.after_ticks cycles dotDivider).count _

theorem Kept.blankBegin (hc : c.Kept) : c.blankBegin.Kept := by
  unfold Channel.blankBegin
  dsimp only
  split
  · exact hc
  · split
    · exact hc
    · split <;> exact hc

end Channel

end Timer

/-! ### Interrupts -/

namespace Interrupt

def bit! (i : Interrupt) : Option UInt16 := do
  let place ← held 16 i.index
  if place < 16 then pure (1 <<< UInt16.ofNat place) else none

@[simp] theorem bit!_eq (i : Interrupt) : i.bit! = some i.bit := by
  cases i <;> rfl

end Interrupt

namespace InterruptController

def raise! (c : InterruptController) (i : Interrupt) : Option InterruptController := do
  pure (c.request (← i.bit!))

def read! (c : InterruptController) (offset : UInt32) (w : Width) : Option UInt32 :=
  let register :=
    if wordOf offset == 0 then c.status.toUInt32
    else if wordOf offset == 4 then c.mask.toUInt32
    else 0
  readLane! register offset w

def write! (c : InterruptController) (offset : UInt32) (w : Width) (value : UInt32) :
    Option InterruptController := do
  if wordOf offset == 0 then pure (c.writeStatus (← writeLane! 0xFFFFFFFF offset w value))
  else if wordOf offset == 4 then pure (c.writeMask (← writeLane! c.mask.toUInt32 offset w value))
  else pure c

variable (c : InterruptController) (offset : UInt32) (w : Width) (value : UInt32)

@[simp] theorem raise!_eq (i : Interrupt) : c.raise! i = some (c.raise i) := by
  simp [raise!, raise]

@[simp] theorem read!_eq : c.read! offset w = some (c.read offset w) := readLane!_eq ..

@[simp] theorem write!_eq : c.write! offset w value = some (c.write offset w value) := by
  simp only [write!, write, writeLane!_eq, Option.bind_eq_bind, Option.bind_some, Option.pure_def]
  split
  · rfl
  · split <;> rfl

end InterruptController

/-! ### The three timers -/

namespace Timers

open Timer

def channel! (t : Timers) (i : Nat) : Option Channel := do pure (t.channels.get (← index 3 i))

def modify! (t : Timers) (i : Nat) (f : Channel → Channel) : Option Timers := do
  pure (t.modify (← index 3 i) f)

def advance! (t : Timers) (cycles : Nat) : Option (List Interrupt × Timers) := do
  let (r0, c0) ← (← t.channel! 0).advance! cycles t.dotDivider
  let (r1, c1) ← (← t.channel! 1).advance! cycles t.dotDivider
  let (r2, c2) ← (← t.channel! 2).advance! cycles t.dotDivider
  let t ← (← (← t.modify! 0 fun _ => c0).modify! 1 fun _ => c1).modify! 2 fun _ => c2
  pure (requests r0 0 ++ requests r1 1 ++ requests r2 2, t)

def hblankBegin! (t : Timers) : Option (List Interrupt × Timers) := do
  let t ← t.modify! 0 .blankBegin
  let c ← t.channel! 1
  if c.clock == .hblank && c.isCounting then
    let (asked, c) ← c.count! 1
    pure (requests asked 1, ← t.modify! 1 fun _ => c)
  else pure ([], t)

def read! (t : Timers) (offset : UInt32) (w : Width) : Option (UInt32 × Timers) := do
  let place := (offset >>> 4).toNat
  if place > 2 then pure (0, t)
  else
    let i ← index 3 place
    let c := t.channels.get i
    match offset &&& 0x0C with
    | 0x00 => pure (← readLane! c.counter.toUInt32 offset w, t)
    | 0x04 =>
      let (value, c) := c.readMode
      pure (← readLane! value.toUInt32 offset w, t.modify i fun _ => c)
    | 0x08 => pure (← readLane! c.target.toUInt32 offset w, t)
    | _ => pure (← readLane! 0 offset w, t)

def write! (t : Timers) (offset : UInt32) (w : Width) (value : UInt32) : Option Timers := do
  let place := (offset >>> 4).toNat
  if place > 2 then pure t
  else
    let i ← index 3 place
    let c := t.channels.get i
    let c ← match offset &&& 0x0C with
      | 0x00 => do pure (c.writeCounter (← writeLane! c.counter.toUInt32 offset w value).toUInt16)
      | 0x04 => do pure (c.writeMode (← writeLane! c.mode.bits.toUInt32 offset w value).toUInt16)
      | 0x08 => do pure (c.writeTarget (← writeLane! c.target.toUInt32 offset w value).toUInt16)
      | _ => pure c
    pure (t.modify i fun _ => c)

/-- Each of the divided clocks keeps less than a period. -/
def Kept (t : Timers) : Prop := ∀ i : Fin 3, (t.channels.get i).Kept

variable {t : Timers} {cycles : Nat}

theorem channel!_eq (t : Timers) {i : Nat} (h : i < 3) : t.channel! i = some t.channels[i] := by
  rw [channel!, index_eq h]
  rfl

theorem modify!_eq (t : Timers) {i : Nat} (h : i < 3) (f : Channel → Channel) :
    t.modify! i f = some (t.modify ⟨i, h⟩ f) := by
  rw [modify!, index_eq h]
  rfl

theorem modify_all (t : Timers) (c0 c1 c2 : Channel) :
    ((t.modify 0 fun _ => c0).modify 1 fun _ => c1).modify 2 (fun _ => c2) =
      { t with channels := #v[c0, c1, c2] } := by
  simp only [modify, mk.injEq, and_true]
  ext1 i hi
  match i, hi with
  | 0, _ | 1, _ | 2, _ => simp

theorem advance!_eq (h : t.Kept) (hn : cycles < 2 ^ 32) :
    t.advance! cycles = some (t.advance cycles) := by
  have h0 : t.channels[0].Kept := h 0
  have h1 : t.channels[1].Kept := h 1
  have h2 : t.channels[2].Kept := h 2
  unfold advance!
  rw [t.channel!_eq (by decide), t.channel!_eq (by decide), t.channel!_eq (by decide)]
  simp only [Option.bind_eq_bind, Option.bind_some]
  rw [Channel.advance!_eq h0 hn]
  simp only [Option.bind_some]
  rw [Channel.advance!_eq h1 hn]
  simp only [Option.bind_some]
  rw [Channel.advance!_eq h2 hn]
  simp only [Option.bind_some]
  rw [modify!_eq _ (by decide)]
  simp only [Option.bind_some]
  rw [modify!_eq _ (by decide)]
  simp only [Option.bind_some]
  rw [modify!_eq _ (by decide)]
  exact congrArg (fun t => some (_, t)) (t.modify_all _ _ _)

@[simp] theorem hblankBegin!_eq (t : Timers) : t.hblankBegin! = some t.hblankBegin := by
  unfold hblankBegin! hblankBegin
  rw [t.modify!_eq (by decide)]
  simp only [Option.bind_eq_bind, Option.bind_some]
  rw [channel!_eq _ (by decide)]
  simp only [Option.bind_some]
  split
  · rw [Channel.count!_eq (by unfold Few; decide)]
    simp only [Option.bind_some]
    rw [modify!_eq _ (by decide)]
    simp_all
  · simp_all

/-- The guard leaves the places that there are. -/
theorem channelAt?_eq (offset : UInt32) : channelAt? offset =
    if (offset >>> 4).toNat > 2 then none else index 3 (offset >>> 4).toNat := by
  unfold channelAt? index
  dsimp only
  split_ifs <;> first | rfl | omega

theorem get_channel (t : Timers) {i : Nat} (h : i < 3) : t.channels.get ⟨i, h⟩ = t.channels[i] := rfl

theorem readLane_zero (offset : UInt32) (w : Width) : readLane 0 offset w = 0 := by
  simp [readLane]

@[simp] theorem read!_eq (t : Timers) (offset : UInt32) (w : Width) :
    t.read! offset w = some (t.read offset w) := by
  unfold read! read
  rw [channelAt?_eq]
  dsimp only
  split
  · rfl
  · rw [index_eq (by omega)]
    simp only [readLane!_eq, Option.bind_eq_bind, Option.bind_some, Option.pure_def]
    split <;> simp_all [readLane_zero, get_channel]

@[simp] theorem write!_eq (t : Timers) (offset : UInt32) (w : Width) (value : UInt32) :
    t.write! offset w value = some (t.write offset w value) := by
  unfold write! write
  rw [channelAt?_eq]
  dsimp only
  split
  · rfl
  · rw [index_eq (by omega)]
    simp only [writeLane!_eq, Option.bind_eq_bind, Option.bind_some, Option.pure_def]
    split <;> simp_all [modify, get_channel]

theorem Kept.modify (h : t.Kept) (i : Fin 3) {f : Channel → Channel}
    (hf : ∀ c : Channel, c.Kept → (f c).Kept) : (t.modify i f).Kept := by
  intro j
  rw [channel_modify]
  split_ifs
  · exact hf _ (h j)
  · exact h j

theorem Kept.after_advance (h : t.Kept) (cycles : Nat) : (t.advance cycles).2.Kept := fun i => by
  rw [advance_channel]
  exact (h i).advance ..

theorem Kept.hblankBegin (h : t.Kept) : t.hblankBegin.2.Kept := by
  have hb : (t.modify 0 Channel.blankBegin).Kept := h.modify 0 fun _ hc => hc.blankBegin
  unfold Timers.hblankBegin
  dsimp only
  split
  · exact hb.modify 1 fun _ _ => (hb 1).count 1
  · exact hb

theorem Kept.read (h : t.Kept) (offset : UInt32) (w : Width) : (t.read offset w).2.Kept := by
  unfold Timers.read
  split
  · exact h
  · rename_i i _
    dsimp only
    split
    · exact h
    · exact h.modify i fun _ _ => h i
    · exact h
    · exact h

theorem Kept.write (h : t.Kept) (offset : UInt32) (w : Width) (value : UInt32) :
    (t.write offset w value).Kept := by
  unfold Timers.write
  split
  · exact h
  · refine h.modify _ fun c hc => ?_
    split
    · exact hc
    · exact (by decide : 0 < 2 ^ 35)
    · exact hc
    · exact hc

theorem kept_initial : ({} : Timers).Kept := fun i => by
  match i with
  | 0 | 1 | 2 => exact (by decide : 0 < 2 ^ 35)

theorem kept_reset (t : Timers) : t.reset.Kept := fun i => by
  show (t.channels.map Channel.reset)[i.val].Kept
  rw [Vector.getElem_map]
  exact (by decide : 0 < 2 ^ 35)

end Timers

/-! ### What signals reach -/

namespace Lines

def raise! (l : Lines) (i : Interrupt) : Option Lines := do
  pure { l with interrupts := ← l.interrupts.raise! i }

def raiseAll! (l : Lines) (is : List Interrupt) : Option Lines := is.foldlM raise! l

def deliver! (l : Lines) : Signal → Option Lines
  | .raise i => l.raise! i
  | .hblankBegin => do
    let (asked, timers) ← l.timers.hblankBegin!
    { l with timers }.raiseAll! asked
  | .hblankEnd => pure { l with timers := l.timers.hblankEnd }
  | .vblankBegin => pure { l with timers := l.timers.vblankBegin }
  | .vblankEnd => pure { l with timers := l.timers.vblankEnd }
  | .dotClock divider => pure { l with timers := l.timers.setDotDivider divider }

def deliverAll! (l : Lines) (signals : List Signal) : Option Lines := signals.foldlM deliver! l

def advance! (l : Lines) (cycles : Nat) : Option Lines := do
  let (asked, timers) ← l.timers.advance! cycles
  { l with timers }.raiseAll! asked

@[simp] theorem raise!_eq (l : Lines) (i : Interrupt) : l.raise! i = some (l.raise i) := by
  simp [raise!, raise]

@[simp] theorem raiseAll!_eq (l : Lines) (is : List Interrupt) :
    l.raiseAll! is = some (l.raiseAll is) :=
  foldlM_eq (P := fun _ => True) (fun l _ i _ => ⟨l.raise!_eq i, trivial⟩) trivial

@[simp] theorem deliver!_eq (l : Lines) (s : Signal) : l.deliver! s = some (l.deliver s) := by
  cases s <;> simp [deliver!, deliver]

@[simp] theorem deliverAll!_eq (l : Lines) (signals : List Signal) :
    l.deliverAll! signals = some (l.deliverAll signals) :=
  foldlM_eq (P := fun _ => True) (fun l _ s _ => ⟨l.deliver!_eq s, trivial⟩) trivial

theorem advance!_eq {l : Lines} {cycles : Nat} (h : l.timers.Kept) (hn : cycles < 2 ^ 32) :
    l.advance! cycles = some (l.advance cycles) := by
  rw [advance!, Timers.advance!_eq h hn]
  exact raiseAll!_eq ..

theorem kept_deliver {l : Lines} (h : l.timers.Kept) (s : Signal) : (l.deliver s).timers.Kept := by
  cases s with
  | raise i => exact h
  | hblankBegin =>
    unfold deliver
    simp only [raiseAll_timers]
    exact h.hblankBegin
  | hblankEnd => exact h.modify 0 fun _ hc => hc
  | vblankBegin => exact h.modify 1 fun _ hc => hc.blankBegin
  | vblankEnd => exact h.modify 1 fun _ hc => hc
  | dotClock divider => exact h

theorem kept_deliverAll {l : Lines} (h : l.timers.Kept) (signals : List Signal) :
    (l.deliverAll signals).timers.Kept := by
  induction signals generalizing l with
  | nil => exact h
  | cons s signals ih => exact ih (kept_deliver h s)

theorem kept_advance {l : Lines} (h : l.timers.Kept) (cycles : Nat) :
    (l.advance cycles).timers.Kept := by
  unfold advance
  simp only [raiseAll_timers]
  exact h.after_advance cycles

end Lines

end Psx
