import Mathlib.Data.List.Iterate
import Psx.Proofs.Timer.Slices

/-!
# Counting tick by tick

`successor` is what one tick makes of a counter, in 16 bits, and `landings` are the values that so
many ticks bring it to, one after the other. The closed form of a count ends at the last of them and
reports as many crossings as the target and 0xFFFF occur among them (`count_tick_by_tick`). So
whether a timer has something to ask for can be told from the landings, without the closed form.
-/

namespace Psx.Timer.Channel

variable (c : Channel)

/-- The value after a tick: a counter that resets on its target goes from there to 0. -/
def successor (value : UInt16) : UInt16 :=
  if c.mode.resetOnTarget && value == c.target then 0 else value + 1

/-- The values that the counter lands on in so many ticks. -/
def landings (n : Nat) : List UInt16 := List.iterate c.successor (c.successor c.counter) n

/-- The crossings among some landings. -/
def crossings (values : List UInt16) : Crossings :=
  { target := values.count c.target, max := values.count 0xFFFF }

theorem crossings_cons (value : UInt16) (values : List UInt16) :
    c.crossings (value :: values) = c.crossings [value] + c.crossings values := by
  ext <;> simp [crossings, List.count_cons, Nat.add_comm]

theorem tick_toNat (value : UInt16) :
    tick c.mode.resetOnTarget c.target.toNat value.toNat =
      ((c.successor value).toNat, c.crossings [c.successor value]) := by
  have hnext : (if c.mode.resetOnTarget && value.toNat == c.target.toNat then 0
      else (value.toNat + 1) % 0x10000) = (c.successor value).toNat := by
    unfold successor
    by_cases h : value = c.target
    · cases c.mode.resetOnTarget <;> simp [h, UInt16.toNat_add]
    · have hne : value.toNat ≠ c.target.toNat := fun e => h (UInt16.toNat_inj.1 e)
      simp [h, hne, UInt16.toNat_add]
  have hmax : (c.successor value).toNat = 0xFFFF ↔ c.successor value = 0xFFFF :=
    UInt16.toNat_inj (b := 0xFFFF)
  simp only [tick, hnext, crossings, UInt16.toNat_inj, hmax, List.count_singleton, beq_iff_eq]

/-- The closed form from any value of the counter. -/
theorem countBy_iterate (value : UInt16) (n : Nat) :
    countBy c.mode.resetOnTarget c.target.toNat value.toNat n =
      ((c.successor^[n] value).toNat,
        c.crossings (List.iterate c.successor (c.successor value) n)) := by
  induction n generalizing value with
  | zero => exact countBy_zero value.toNat_lt
  | succ n ih =>
    rw [countBy_succ n value.toNat_lt c.target.toNat_lt, tick_toNat, ih]
    exact Prod.ext rfl (c.crossings_cons _ _).symm

theorem count_counter (n : Nat) : (c.count n).2.counter = c.successor^[n] c.counter := by
  rw [count_eq_tell]
  split
  case isTrue h => rw [h]; rfl
  case isFalse h =>
    dsimp only
    rw [tell_land, countBy_iterate]
    exact UInt16.ofNat_toNat

/-- A counter that does not reset on its target counts in 16 bits. -/
theorem successor_iterate (h : c.mode.resetOnTarget = false) (value : UInt16) (n : Nat) :
    (c.successor^[n] value).toNat = (value.toNat + n) % 0x10000 := by
  induction n generalizing value with
  | zero => exact (Nat.mod_eq_of_lt value.toNat_lt).symm
  | succ n ih =>
    rw [Function.iterate_succ_apply, ih, successor, h]
    simp [UInt16.toNat_add]
    omega

/-- Counting in closed form is counting tick by tick: so many ticks at once leave the counter where
they leave it one by one, and report every landing on the target and on 0xFFFF. -/
theorem count_tick_by_tick (n : Nat) :
    countBy c.mode.resetOnTarget c.target.toNat c.counter.toNat n =
        ((c.successor^[n] c.counter).toNat,
          { target := (c.landings n).count c.target, max := (c.landings n).count 0xFFFF }) ∧
      (c.count n).2.counter = c.successor^[n] c.counter :=
  ⟨c.countBy_iterate c.counter n, c.count_counter n⟩

end Psx.Timer.Channel
