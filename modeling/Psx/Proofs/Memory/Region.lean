import Mathlib.Tactic.IntervalCases
import Mathlib.Tactic.SplitIfs
import Psx.Memory.Region
import Psx.Width

/-!
# Regions as ranges of addresses

A region of the physical address space is a range of addresses (`Address.physicalRegion_eq`); what
the bus serves itself are three of these (`Address.isMemory_iff`). Of the virtual addresses, all but
those of the last segment are aliases of physical ones (`Address.translate_toNat`).
-/

namespace Psx

namespace Address

variable {a : UInt32}

theorem physicalRegion_eq (a : UInt32) : physicalRegion a =
    if a.toNat < 0x00800000 then .ram
    else if a.toNat < 0x1F000000 then .unmapped
    else if a.toNat < 0x1F800000 then .expansion1
    else if a.toNat < 0x1F800400 then .scratchpad
    else if a.toNat < 0x1F801000 then .unmapped
    else if a.toNat < 0x1F802000 then .io
    else if a.toNat < 0x1F804000 then .expansion2
    else if a.toNat < 0x1FA00000 then .unmapped
    else if a.toNat < 0x1FC00000 then .expansion3
    else if a.toNat < 0x1FC80000 then .bios
    else .unmapped := by
  simp only [physicalRegion, ramMirrorLast, expansion1First, expansion1Last, scratchpadLast,
    biosLast, UInt32.le_iff_toNat_le, UInt32.lt_iff_toNat_lt, UInt32.reduceToNat,
    ← Nat.lt_succ_iff, Nat.succ_eq_add_one, Nat.reduceAdd]

/-- Where the addresses of a region lie, of the regions that the bus serves itself; the others lie
apart from these. -/
def Bounds : Region → Nat → Prop
  | .ram, n => n < 0x00800000
  | .scratchpad, n => 0x1F800000 ≤ n ∧ n < 0x1F800400
  | .bios, n => 0x1FC00000 ≤ n ∧ n < 0x1FC80000
  | .cacheControl, _ => False
  | _, n => 0x00800000 ≤ n ∧ ¬(0x1F800000 ≤ n ∧ n < 0x1F800400) ∧
      ¬(0x1FC00000 ≤ n ∧ n < 0x1FC80000)

section

variable {r r' : Region} {n : Nat}

theorem bounds_ite {c : Prop} [Decidable c] (h : c → Bounds r n) (h' : ¬c → Bounds r' n) :
    Bounds (if c then r else r') n := by
  split
  · exact h ‹_›
  · exact h' ‹_›

/-- A region that the bus serves itself is known by an address of it. -/
theorem Bounds.eq_of_memory (h : Bounds r n) (h' : Bounds r' n)
    (hm : r' ∈ [Region.ram, .scratchpad, .bios]) : r = r' := by
  simp only [List.mem_cons, List.not_mem_nil, or_false] at hm
  rcases hm with rfl | rfl | rfl
  all_goals
    dsimp only [Bounds] at h'
    cases r <;> dsimp only [Bounds] at h <;> first | rfl | omega

end

theorem physicalRegion_bounds (a : UInt32) : Bounds (physicalRegion a) a.toNat := by
  rw [physicalRegion_eq]
  repeat' (apply bounds_ite <;> intro _)
  all_goals
    dsimp only [Bounds]
    omega

theorem physicalRegion_eq_iff {r : Region} (hm : r ∈ [Region.ram, .scratchpad, .bios]) :
    physicalRegion a = r ↔ Bounds r a.toNat :=
  ⟨fun hr => hr ▸ physicalRegion_bounds a, fun h => (physicalRegion_bounds a).eq_of_memory h hm⟩

theorem physicalRegion_eq_ram : physicalRegion a = .ram ↔ a.toNat < 0x00800000 :=
  physicalRegion_eq_iff (by decide)

theorem physicalRegion_eq_scratchpad :
    physicalRegion a = .scratchpad ↔ 0x1F800000 ≤ a.toNat ∧ a.toNat < 0x1F800400 :=
  physicalRegion_eq_iff (by decide)

theorem physicalRegion_eq_bios :
    physicalRegion a = .bios ↔ 0x1FC00000 ≤ a.toNat ∧ a.toNat < 0x1FC80000 :=
  physicalRegion_eq_iff (by decide)

theorem physicalRegion_ne_cacheControl (a : UInt32) : physicalRegion a ≠ .cacheControl :=
  fun hr => by
    have h := physicalRegion_bounds a
    rw [hr] at h
    exact h

/-- The bus serves the address itself: RAM with its mirrors, the scratchpad or the BIOS. -/
def isMemory (address : UInt32) : Bool :=
  [Region.ram, .scratchpad, .bios].contains (physicalRegion address)

theorem isMemory_iff : isMemory a = true ↔ a.toNat < 0x00800000 ∨
    (0x1F800000 ≤ a.toNat ∧ a.toNat < 0x1F800400) ∨
    (0x1FC00000 ≤ a.toNat ∧ a.toNat < 0x1FC80000) := by
  rw [← physicalRegion_eq_ram, ← physicalRegion_eq_scratchpad, ← physicalRegion_eq_bios]
  simp [isMemory]

/-! ### Aliases -/

theorem segment_eq_kseg2 : Segment.of a = .kseg2 ↔ 0xC0000000 ≤ a.toNat := by
  unfold Segment.of
  simp only [UInt32.lt_iff_toNat_lt, UInt32.reduceToNat]
  split_ifs <;> simp <;> omega

theorem segment_eq_kseg1 :
    Segment.of a = .kseg1 ↔ 0xA0000000 ≤ a.toNat ∧ a.toNat < 0xC0000000 := by
  unfold Segment.of
  simp only [UInt32.lt_iff_toNat_lt, UInt32.reduceToNat]
  split_ifs <;> simp <;> omega

theorem translate_toNat (h : a.toNat < 0xC0000000) :
    (translate a).toNat = a.toNat % 0x20000000 := by
  unfold translate
  rw [if_neg (by rw [segment_eq_kseg2]; omega), UInt32.toNat_and]
  exact Nat.and_two_pow_sub_one_eq_mod a.toNat 29

/-- The scratchpad is not reached through the third segment, and all else is where it is. -/
theorem region_eq (h : a.toNat < 0xC0000000) : region a =
    if physicalRegion (translate a) = .scratchpad ∧ 0xA0000000 ≤ a.toNat then .unmapped
    else physicalRegion (translate a) := by
  have hkseg2 : Segment.of a ≠ .kseg2 := by
    rw [ne_eq, segment_eq_kseg2]
    omega
  unfold region
  split
  · rename_i hs
    exact absurd hs hkseg2
  · rename_i hs
    have hle := (segment_eq_kseg1.1 hs).1
    split
    · rename_i hp
      rw [if_pos ⟨hp, hle⟩]
    · rename_i hp
      rw [if_neg fun hc => hp hc.1]
  · rename_i hkseg1
    rw [if_neg fun hc => hkseg1 (segment_eq_kseg1.2 ⟨hc.2, h⟩)]

theorem region_kseg2 (h : 0xC0000000 ≤ a.toNat) :
    region a = if a = cacheControl then .cacheControl else .unmapped := by
  unfold region
  rw [segment_eq_kseg2.2 h]

theorem region_eq_cacheControl : region a = .cacheControl ↔ a = cacheControl := by
  by_cases h : 0xC0000000 ≤ a.toNat
  · rw [region_kseg2 h]
    split
    · rename_i ha
      exact iff_of_true rfl ha
    · rename_i ha
      exact iff_of_false (by decide) ha
  · refine iff_of_false (fun hr => ?_) fun ha => h (ha ▸ by decide)
    rw [region_eq (Nat.not_le.1 h)] at hr
    split at hr
    · cases hr
    · exact physicalRegion_ne_cacheControl _ hr

end Address

/-- Clearing the low bits of an address rounds it down to a multiple. -/
theorem and_not_toNat (a : UInt32) {n : Nat} (hn : n < 3) :
    (a &&& ~~~(UInt32.ofNat (2 ^ n) - 1)).toNat = a.toNat / 2 ^ n * 2 ^ n := by
  have hshift : a &&& ~~~(UInt32.ofNat (2 ^ n) - 1) =
      (a >>> UInt32.ofNat n) <<< UInt32.ofNat n := by
    apply UInt32.eq_of_toBitVec_eq
    ext j hj
    interval_cases n <;> interval_cases j <;> simp
  have hlt := a.toNat_lt
  rw [hshift, UInt32.toNat_shiftLeft, UInt32.toNat_shiftRight, Nat.shiftLeft_eq,
    Nat.shiftRight_eq_div_pow, UInt32.toNat_ofNat']
  have hle := Nat.div_mul_le_self a.toNat (2 ^ n)
  have hmod : n % 2 ^ 32 % 32 = n := by omega
  rw [hmod, Nat.mod_eq_of_lt (by omega)]

theorem Width.bytes_eq (w : Width) :
    ∃ n < 3, w.bytes = UInt32.ofNat (2 ^ n) ∧ w.bytes.toNat = 2 ^ n := by
  cases w with
  | byte => exact ⟨0, by decide⟩
  | half => exact ⟨1, by decide⟩
  | word => exact ⟨2, by decide⟩

theorem Width.align_toNat (w : Width) (a : UInt32) :
    (w.align a).toNat = a.toNat / w.bytes.toNat * w.bytes.toNat := by
  obtain ⟨n, hn, hbytes, hsize⟩ := w.bytes_eq
  unfold align
  rw [hsize, hbytes, and_not_toNat a hn]

end Psx
