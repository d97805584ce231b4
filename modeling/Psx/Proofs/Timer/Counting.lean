import Mathlib.Data.Nat.ModEq
import Mathlib.Tactic.SplitIfs
import Psx.Timer.Count

/-!
# The closed form of a counter

`tick` is one tick of a counter with the crossings it makes. `countBy_succ` takes one tick off the
front of a closed-form count; every other fact about `countBy` comes from it by induction on the
ticks, so neither the two ways in which a counter wraps nor the detour through 0xFFFF of a counter
past its target is looked at again.
-/

namespace Psx.Timer

namespace Crossings

instance : Add Crossings where
  add a b := { target := a.target + b.target, max := a.max + b.max }

@[simp] theorem add_target (a b : Crossings) : (a + b).target = a.target + b.target := rfl

@[simp] theorem add_max (a b : Crossings) : (a + b).max = a.max + b.max := rfl

@[ext] theorem ext {a b : Crossings} (ht : a.target = b.target) (hm : a.max = b.max) : a = b := by
  cases a; cases b; simp_all

theorem add_assoc (a b c : Crossings) : a + b + c = a + (b + c) := by
  ext <;> simp [Nat.add_assoc]

theorem zero_add (a : Crossings) : ({} : Crossings) + a = a := by
  ext <;> simp

end Crossings

/-- One tick of a counter, and what it lands on. -/
def tick (resetOnTarget : Bool) (target counter : Nat) : Nat × Crossings :=
  let next := if resetOnTarget && counter == target then 0 else (counter + 1) % 0x10000
  (next, { target := if next = target then 1 else 0, max := if next = 0xFFFF then 1 else 0 })

theorem tick_lt (r : Bool) (target counter : Nat) : (tick r target counter).1 < 0x10000 := by
  unfold tick; dsimp only; split <;> omega

/-! ### Landings on one value -/

theorem passes_zero {d p : Nat} (hp : 0 < p) : passes d p 0 = 0 := by
  unfold passes; dsimp only; rw [if_pos]; split <;> omega

/-- The first step of a cycle brings the value in question one step nearer, or lands on it. -/
theorem passes_succ {d p : Nat} (n : Nat) (hp : 0 < p) :
    passes d p (n + 1) =
      (if d = 1 ∨ (d = 0 ∧ p = 1) then 1 else 0) + passes (if d = 0 then p - 1 else d - 1) p n := by
  have hdiv : ¬ n < p → n / p = 1 + (n - p) / p := fun h => by
    rw [Nat.div_eq, if_pos ⟨hp, by omega⟩, Nat.add_comm]
  unfold passes
  by_cases h0 : d = 0
  · by_cases h1 : p = 1
    · subst h0 h1; by_cases hn : n = 0
      · simp [hn]
      · simp [hn]; omega
    · have e : n + 1 - p = n - (p - 1) := by omega
      have hne : p - 1 ≠ 0 := by omega
      simp only [h0, h1, hne, e, if_true, if_false, Nat.zero_ne_one, and_false, or_self]
      split <;> split <;> omega
  · by_cases h1 : d = 1
    · subst h1
      by_cases hn : n < p
      · simp [hn, Nat.div_eq_of_lt hn]
      · simp [hn, hdiv hn]
    · have hne : d - 1 ≠ 0 := by omega
      have e : n + 1 - d = n - (d - 1) := by omega
      simp only [h0, h1, hne, e, if_false, false_and, or_self]
      split <;> split <;> omega

/-! ### One tick off the front -/

theorem countInRange_zero {target counter : Nat} (hc : counter ≤ target) :
    countInRange target counter 0 = (counter, {}) := by
  have hp : passes (target - counter) (target + 1) 0 = 0 := passes_zero (by omega)
  simp [countInRange, hp, Nat.mod_eq_of_lt (Nat.lt_succ_of_le hc)]

theorem countInRange_succ {target counter : Nat} (n : Nat) (hc : counter ≤ target)
    (ht : target < 0x10000) :
    countInRange target counter (n + 1) =
      ((countInRange target (tick true target counter).1 n).1,
        (tick true target counter).2 + (countInRange target (tick true target counter).1 n).2) := by
  have hp := passes_succ (d := target - counter) (p := target + 1) n (by omega)
  by_cases he : counter = target
  · subst he
    simp only [Nat.sub_self, if_true, Nat.add_sub_cancel, Nat.zero_ne_one, false_or, true_and]
      at hp
    have hm : (counter + (n + 1)) % (counter + 1) = n % (counter + 1) := by
      rw [show counter + (n + 1) = n + (counter + 1) by omega, Nat.add_mod_right]
    simp only [countInRange, tick, beq_self_eq_true, Bool.and_self, if_true, Nat.sub_self, hp, hm,
      Nat.zero_add, Nat.sub_zero]
    refine Prod.ext rfl (Crossings.ext ?_ ?_)
    · simp only [Crossings.add_target, eq_comm]; simp
    · rcases Nat.eq_zero_or_pos counter with rfl | hpos
      · simp
      · simp [hpos.ne']
  · have hne : (counter == target) = false := by simpa using he
    have hmod : (counter + 1) % 0x10000 = counter + 1 := Nat.mod_eq_of_lt (by omega)
    have hd : target - counter ≠ 0 := by omega
    have e : target - counter - 1 = target - (counter + 1) := by omega
    simp only [hd, if_false, e, false_and, or_false] at hp
    simp only [countInRange, tick, hne, Bool.and_false, hmod, hp]
    refine Prod.ext (by simp [Nat.add_assoc, Nat.add_comm 1 n]) (Crossings.ext ?_ ?_)
    · simp only [Crossings.add_target, Bool.false_eq_true, if_false]; split_ifs <;> omega
    · simp only [Crossings.add_max, Bool.false_eq_true, if_false]; split_ifs <;> omega

theorem countFree_succ {target counter : Nat} (n : Nat) (hc : counter < 0x10000)
    (ht : target < 0x10000) :
    countFree target counter (n + 1) =
      ((countFree target (tick false target counter).1 n).1,
        (tick false target counter).2 + (countFree target (tick false target counter).1 n).2) := by
  -- the distance to a value goes down by one, and from zero to the whole cycle
  have hd : ∀ v < 0x10000, passes ((v + 0x10000 - counter) % 0x10000) 0x10000 (n + 1) =
      (if (counter + 1) % 0x10000 = v then 1 else 0) +
        passes ((v + 0x10000 - (counter + 1) % 0x10000) % 0x10000) 0x10000 n := fun v hv => by
    rw [passes_succ n (by omega)]
    congr 1
    · split_ifs <;> omega
    · congr 1; split_ifs <;> omega
  simp only [countFree, tick, Bool.false_and, Bool.false_eq_true, if_false, hd target ht,
    hd 0xFFFF (by omega)]
  exact Prod.ext (by show _ % _ = _ % _; omega) rfl

theorem countPastTarget_succ {target counter : Nat} (n : Nat) (hc : counter < 0x10000)
    (ht : target < counter) :
    countPastTarget target counter (n + 1) =
      ((countBy true target (tick true target counter).1 n).1,
        (tick true target counter).2 + (countBy true target (tick true target counter).1 n).2) := by
  have hne : (counter == target) = false := by simp; omega
  by_cases hw : counter = 0xFFFF
  · subst hw
    have hz : countBy true target 0 n = countInRange target 0 n := by simp [countBy]
    simp only [tick, hne, Bool.and_false, Bool.false_eq_true, if_false]
    rw [show (0xFFFF + 1) % 0x10000 = 0 from rfl, hz, countPastTarget, if_neg (by omega)]
    simp only [show n + 1 - (0x10000 - 0xFFFF) = n by omega]
    refine Prod.ext rfl (Crossings.ext ?_ ?_)
    · simp only [Crossings.add_target, eq_comm]
    · simp [Crossings.add_max]
  · have hmod : (counter + 1) % 0x10000 = counter + 1 := Nat.mod_eq_of_lt (by omega)
    have hz : countBy true target (counter + 1) n = countPastTarget target (counter + 1) n := by
      simp [countBy, show counter + 1 > target by omega]
    simp only [tick, hne, Bool.and_false, Bool.false_eq_true, if_false, hmod, hz]
    unfold countPastTarget
    by_cases hn : n + 1 < 0x10000 - counter
    · simp only [hn, show n < 0x10000 - (counter + 1) by omega, if_true]
      refine Prod.ext (by dsimp only; omega) (Crossings.ext ?_ ?_)
      · simp only [Crossings.add_target]; split_ifs <;> omega
      · simp only [Crossings.add_max]; split_ifs <;> omega
    · simp only [hn, show ¬ n < 0x10000 - (counter + 1) by omega, if_false,
        show n + 1 - (0x10000 - counter) = n - (0x10000 - (counter + 1)) by omega]
      refine Prod.ext rfl (Crossings.ext ?_ ?_)
      · simp only [Crossings.add_target]; split_ifs <;> omega
      · simp only [Crossings.add_max]; split_ifs <;> omega

theorem countBy_zero {r : Bool} {target counter : Nat} (hc : counter < 0x10000) :
    countBy r target counter 0 = (counter, {}) := by
  unfold countBy
  split_ifs with hr hp
  · simp [countPastTarget, show 0 < 0x10000 - counter by omega]
  · exact countInRange_zero (by omega)
  · simp [countFree, passes_zero, Nat.mod_eq_of_lt hc]

/-- Counting `n + 1` ticks is one tick and counting the rest. -/
theorem countBy_succ {r : Bool} {target counter : Nat} (n : Nat) (hc : counter < 0x10000)
    (ht : target < 0x10000) :
    countBy r target counter (n + 1) =
      ((countBy r target (tick r target counter).1 n).1,
        (tick r target counter).2 + (countBy r target (tick r target counter).1 n).2) := by
  cases r with
  | false => simpa [countBy] using countFree_succ n hc ht
  | true =>
    by_cases hp : counter > target
    · rw [← countPastTarget_succ n hc hp]; simp [countBy, hp]
    · have hle : (tick true target counter).1 ≤ target := by
        simp only [tick]; split_ifs with he
        · omega
        · simp at he; omega
      rw [show countBy true target counter (n + 1) = countInRange target counter (n + 1) by
        simp [countBy, hp], countInRange_succ n (by omega) ht]
      simp [countBy, show ¬ (tick true target counter).1 > target by omega]

theorem countBy_lt {r : Bool} {target counter : Nat} (n : Nat) (hc : counter < 0x10000)
    (ht : target < 0x10000) : (countBy r target counter n).1 < 0x10000 := by
  induction n generalizing counter with
  | zero => rw [countBy_zero hc]; exact hc
  | succ n ih => rw [countBy_succ n hc ht]; exact ih (tick_lt ..)

/-- A count may be cut anywhere. -/
theorem countBy_add {r : Bool} {target counter : Nat} (a b : Nat) (hc : counter < 0x10000)
    (ht : target < 0x10000) :
    countBy r target counter (a + b) =
      ((countBy r target (countBy r target counter a).1 b).1,
        (countBy r target counter a).2 + (countBy r target (countBy r target counter a).1 b).2) := by
  induction a generalizing counter with
  | zero => rw [Nat.zero_add, countBy_zero hc, Crossings.zero_add]
  | succ a ih =>
    rw [Nat.add_right_comm, countBy_succ _ hc ht, countBy_succ _ hc ht, ih (tick_lt ..),
      Crossings.add_assoc]

end Psx.Timer
