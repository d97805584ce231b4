import Psx.Proofs.Checked.Instructions
import Psx.Proofs.Memory.Lanes

/-!
# The halves of an unaligned access, byte by byte

An unaligned word is accessed in two halves: the right one is addressed at its first byte, the left
one at its last (`Side.reach`), and each moves the bytes that lie in the aligned word around that
address (`Side.Covers`). A load takes these bytes of the register from the lanes of the word
(`Side.byteOf_merge`), and a store puts them there (`Side.stores_pieces`). Between them the halves
cover the register (`Side.covers_other`).
-/

namespace Psx

namespace Side

def other : Side → Side
  | left => right
  | right => left

/-- How far from the first byte of the unaligned word a half is addressed. -/
def reach : Side → UInt32
  | left => 3
  | right => 0

/-- Whether a half that is addressed at a lane moves a byte of the register. -/
def Covers (side : Side) (lane k : Nat) : Prop :=
  match side with
  | left => 3 ≤ lane + k
  | right => lane + k < 4

instance (side : Side) (lane k : Nat) : Decidable (side.Covers lane k) :=
  match side with
  | left => inferInstanceAs (Decidable (3 ≤ lane + k))
  | right => inferInstanceAs (Decidable (lane + k < 4))

/-- The lane in which that byte lies. -/
def laneOf (side : Side) (lane k : Nat) : Nat :=
  match side with
  | left => lane + k - 3
  | right => lane + k

/-- The bytes that a half stores, and in which lanes. -/
def stores (side : Side) (address value : UInt32) : List (Nat × UInt8) :=
  ((List.range 4).filter (side.Covers (address.toNat % 4))).map fun k =>
    (side.laneOf (address.toNat % 4) k, Bytes.byteOf value k)

theorem laneOf_lt {side : Side} {lane k : Nat} (hl : lane < 4) (hk : k < 4)
    (h : side.Covers lane k) : side.laneOf lane k < 4 := by
  cases side with
  | left =>
    show lane + k - 3 < 4
    omega
  | right => exact h

theorem lane_toNat {address lane : UInt32} (h : address &&& 3 = lane) :
    address.toNat % 4 = lane.toNat := by
  rw [← h, UInt32.toNat_and, show (3 : UInt32).toNat = 2 ^ 2 - 1 from rfl,
    Nat.and_two_pow_sub_one_eq_mod]

open Bytes

/-- Some bytes are kept, and others are moved in from another word. -/
theorem byteOf_splice {p : Prop} [Decidable p] {mask moved : UInt32} {b : UInt8} {k : Nat}
    (hk : k < 4) (current : UInt32) (hmask : byteOf mask k = if p then 0 else 0xFF)
    (hmoved : byteOf moved k = if p then b else 0) :
    byteOf ((current &&& mask) ||| moved) k = if p then b else byteOf current k := by
  rw [byteOf_or _ _ hk, byteOf_and _ _ hk, hmask, hmoved]
  split
  · rw [UInt8.and_zero, UInt8.zero_or]
  · rw [UInt8.or_zero]
    exact UInt8.and_neg_one

/-- A load moves the bytes that its half covers, and keeps the others. -/
theorem byteOf_merge (side : Side) (current word address : UInt32) {k : Nat} (hk : k < 4) :
    byteOf (side.merge current word address) k =
      if side.Covers (address.toNat % 4) k then
        byteOf word (side.laneOf (address.toNat % 4) k)
      else byteOf current k := by
  unfold merge
  cases side with
  | left =>
    rcases and_three_cases address with h | h | h | h <;> rw [lane_toNat h, h]
    · refine byteOf_splice hk current (by interval_cases k <;> rfl) ?_
      rw [byteOf_shiftLeft (n := 3) rfl (by decide) hk]
      interval_cases k <;> rfl
    · refine byteOf_splice hk current (by interval_cases k <;> rfl) ?_
      rw [byteOf_shiftLeft (n := 2) rfl (by decide) hk]
      interval_cases k <;> rfl
    · refine byteOf_splice hk current (by interval_cases k <;> rfl) ?_
      rw [byteOf_shiftLeft (n := 1) rfl (by decide) hk]
      interval_cases k <;> rfl
    · interval_cases k <;> rfl
  | right =>
    rcases and_three_cases address with h | h | h | h <;> rw [lane_toNat h, h]
    · interval_cases k <;> rfl
    · refine byteOf_splice hk current (by interval_cases k <;> rfl) ?_
      rw [byteOf_shiftRight (n := 1) rfl (by decide) hk]
      interval_cases k <;> rfl
    · refine byteOf_splice hk current (by interval_cases k <;> rfl) ?_
      rw [byteOf_shiftRight (n := 2) rfl (by decide) hk]
      interval_cases k <;> rfl
    · refine byteOf_splice hk current (by interval_cases k <;> rfl) ?_
      rw [byteOf_shiftRight (n := 3) rfl (by decide) hk]
      interval_cases k <;> rfl

/-- A store shifts the bytes that its half covers to their lanes. -/
theorem byteOf_lanes {side : Side} {address : UInt32} {k : Nat} (hk : k < 4)
    (h : side.Covers (address.toNat % 4) k) (value : UInt32) :
    byteOf (side.lanes value address) (side.laneOf (address.toNat % 4) k) = byteOf value k := by
  have hlane : address.toNat % 4 < 4 := Nat.mod_lt _ (by decide)
  have hlt := laneOf_lt hlane hk h
  have hmod : (address &&& 3).toNat = address.toNat % 4 := (lane_toNat rfl).symm
  generalize address.toNat % 4 = lane at h hlane hlt hmod ⊢
  cases side with
  | left =>
    have hshift : ((3 - (address &&& 3)) * 8).toNat = 8 * (3 - lane) := by
      rcases and_three_cases address with h | h | h | h <;> rw [h] at hmod ⊢ <;> subst hmod <;> rfl
    change 3 ≤ lane + k at h
    change lane + k - 3 < 4 at hlt
    show byteOf (value >>> ((3 - (address &&& 3)) * 8)) (lane + k - 3) = _
    rw [byteOf_shiftRight hshift (by omega) hlt, if_pos (by omega)]
    congr 1
    omega
  | right =>
    have hshift : ((address &&& 3) * 8).toNat = 8 * lane := by
      rcases and_three_cases address with h | h | h | h <;> rw [h] at hmod ⊢ <;> subst hmod <;> rfl
    change lane + k < 4 at hlt
    show byteOf (value <<< ((address &&& 3) * 8)) (lane + k) = _
    rw [byteOf_shiftLeft hshift hlane hlt, if_pos (Nat.le_add_right ..), Nat.add_sub_cancel_left]

theorem lanes_pieces (side : Side) (address : UInt32) :
    (side.pieces address).flatMap (fun p => (List.range p.2.bytes.toNat).map (p.1.toNat + ·)) =
      ((List.range 4).filter (side.Covers (address.toNat % 4))).map
        (side.laneOf (address.toNat % 4)) := by
  unfold pieces
  rcases and_three_cases address with h | h | h | h <;> rw [lane_toNat h, h] <;> cases side <;> rfl

/-- The pieces that a store writes are the bytes of its half. -/
theorem stores_pieces (side : Side) (address value : UInt32) :
    (side.pieces address).flatMap (fun p => (List.range p.2.bytes.toNat).map fun k =>
      (p.1.toNat + k, byteOf (side.lanes value address >>> (p.1 * 8)) k)) =
        side.stores address value := by
  have hpieces : (side.pieces address).flatMap (fun p => (List.range p.2.bytes.toNat).map fun k =>
      (p.1.toNat + k, byteOf (side.lanes value address >>> (p.1 * 8)) k)) =
        ((side.pieces address).flatMap fun p =>
          (List.range p.2.bytes.toNat).map (p.1.toNat + ·)).map fun lane =>
            (lane, byteOf (side.lanes value address) lane) := by
    rw [List.map_flatMap]
    refine congrArg List.flatten (List.map_congr_left fun p hp => ?_)
    rw [List.map_map]
    refine List.map_congr_left fun k hk => ?_
    have hwithin := (side.pieces_within address).2 p hp
    have hk := List.mem_range.1 hk
    have hshift : (p.1 * 8).toNat = 8 * p.1.toNat := by
      rw [UInt32.toNat_mul, show (8 : UInt32).toNat = 8 from rfl]
      omega
    rw [byteOf_shiftRight hshift (by omega) (by omega), if_pos (by omega)]
    rfl
  rw [hpieces, lanes_pieces, List.map_map]
  refine List.map_congr_left fun k hk => ?_
  rw [List.mem_filter, List.mem_range, decide_eq_true_eq] at hk
  exact congrArg _ (byteOf_lanes hk.1 hk.2 value)

/-- The two halves of an unaligned word cover the register. -/
theorem covers_other {a : UInt32} (side : Side) {k : Nat} (hk : k < 4)
    (h : ¬side.Covers ((a + side.reach).toNat % 4) k) :
    side.other.Covers ((a + side.other.reach).toNat % 4) k := by
  have hleft : (a + 3).toNat % 4 = (a.toNat % 4 + 3) % 4 := by
    rw [UInt32.toNat_add, show (3 : UInt32).toNat = 3 from rfl]
    omega
  cases side with
  | left =>
    change ¬3 ≤ (a + 3).toNat % 4 + k at h
    show (a + 0).toNat % 4 + k < 4
    rw [UInt32.add_zero]
    omega
  | right =>
    change ¬(a + 0).toNat % 4 + k < 4 at h
    rw [UInt32.add_zero] at h
    show 3 ≤ (a + 3).toNat % 4 + k
    omega

/-- A byte of the register is moved to or from the byte that is as far into the unaligned word. -/
theorem laneOf_add {a : UInt32} {side : Side} {k : Nat}
    (h : side.Covers ((a + side.reach).toNat % 4) k) (ha : a.toNat + 3 < 2 ^ 32) :
    (wordOf (a + side.reach)).toNat + side.laneOf ((a + side.reach).toNat % 4) k = a.toNat + k := by
  rw [wordOf_toNat]
  cases side with
  | left =>
    have hsum : (a + 3).toNat = a.toNat + 3 := by
      rw [UInt32.toNat_add, show (3 : UInt32).toNat = 3 from rfl, Nat.mod_eq_of_lt ha]
    change 3 ≤ (a + 3).toNat % 4 + k at h
    show (a + 3).toNat / 4 * 4 + ((a + 3).toNat % 4 + k - 3) = _
    omega
  | right =>
    show (a + 0).toNat / 4 * 4 + ((a + 0).toNat % 4 + k) = _
    rw [UInt32.add_zero]
    omega

end Side

end Psx
