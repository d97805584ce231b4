import Psx.Proofs.Checked.Instructions
import Psx.Proofs.Cpu.Coherent
import Psx.Proofs.Cpu.Sound
import Psx.Proofs.Memory.Lanes

/-!
# The cache as a memory

The data of the lines are 4 KiB, and while the cache is isolated an address names the byte at what is
left of it modulo 4 KiB (`InstructionCache.byte`). A load puts bytes together
(`InstructionCache.readIsolated_eq`), and a store stores bytes, or in tag test mode invalidates the
line that it falls on (`InstructionCache.stored_writeIsolated`); so do accesses one after another
(`Outside.stored_performAll`), and no bus comes into it.
-/

namespace Psx

/-! ### Accesses to the cache alone -/

namespace Access

/-- An access to the isolated cache, within a word. -/
def Aside : Access → Prop
  | readIsolated address w | writeIsolated address w _ => address.toNat % 4 + w.bytes.toNat ≤ 4
  | _ => False

/-- The bytes that an access stores in the isolated cache, and where. -/
def stores : Access → List (Nat × UInt8)
  | writeIsolated address w value => (List.range w.bytes.toNat).map fun k =>
    ((address.toNat + k) % 0x1000, Bytes.byteOf value k)
  | _ => []

end Access

namespace InstructionCache

variable {c c' c'' : InstructionCache}

def line (c : InstructionCache) (i : Nat) : CacheLine := (c.lines[i]?).getD {}

def byte (c : InstructionCache) (offset : Nat) : UInt8 :=
  Bytes.byteOf (c.line (offset / 4)).data (offset % 4)

/-- The bytes from an address on put together, the low one first. -/
def compose (held : Nat → UInt8) (address : UInt32) (w : Width) : UInt32 :=
  .ofNat (Nat.ofDigits 256 ((List.range w.bytes.toNat).map fun k =>
    (held ((address.toNat + k) % 0x1000)).toNat))

/-- The bytes once some have been stored; in tag test mode none is. -/
def bytesAfter (c : InstructionCache) (tagTest : Bool) (stores : List (Nat × UInt8)) :
    Nat → UInt8 :=
  if tagTest then c.byte else overlay c.byte stores

/-- What is left of a cache when bytes have been stored in it while it was isolated: in tag test mode
the lines on which they fall are invalid and all else is as it was, and otherwise the bytes are there
and all else is as it was. -/
structure Stored (tagTest : Bool) (stores : List (Nat × UInt8)) (c c' : InstructionCache) :
    Prop where
  size : c'.lines.size = c.lines.size
  tag : ∀ i, (c'.line i).tag = (c.line i).tag
  byte : c'.byte = c.bytesAfter tagTest stores
  valid : ∀ i, (c'.line i).valid = true ↔
    (c.line i).valid = true ∧ (tagTest = true → ∀ s ∈ stores, s.1 / 4 ≠ i)

variable {tagTest : Bool} {stores stores' : List (Nat × UInt8)}

namespace Stored

theorem refl (tagTest : Bool) (c : InstructionCache) : Stored tagTest [] c c where
  size := rfl
  tag _ := rfl
  byte := by cases tagTest <;> rfl
  valid i := ⟨fun h => ⟨h, fun _ _ hs => by cases hs⟩, fun h => h.1⟩

theorem trans (h : Stored tagTest stores c c') (h' : Stored tagTest stores' c' c'') :
    Stored tagTest (stores ++ stores') c c'' where
  size := h'.size.trans h.size
  tag i := (h'.tag i).trans (h.tag i)
  byte := by
    rw [h'.byte]
    unfold bytesAfter
    rw [h.byte]
    cases tagTest with
    | true => rfl
    | false => exact (overlay_append ..).symm
  valid i := by
    rw [h'.valid, h.valid]
    simp only [List.mem_append, or_imp, forall_and, and_assoc]

end Stored

/-! ### Where an access falls -/

theorem line_index (c : InstructionCache) (a : UInt32) : c.line (index a) = c.lineAt a := rfl

/-- The bytes of an access lie in one line. -/
theorem offset_add {a : UInt32} {k : Nat} (hk : a.toNat % 4 + k < 4) :
    (a.toNat + k) % 0x1000 / 4 = index a ∧ (a.toNat + k) % 0x1000 % 4 = a.toNat % 4 + k := by
  rw [index_eq]
  omega

theorem byte_offset {a : UInt32} {k : Nat} (hk : a.toNat % 4 + k < 4) :
    c.byte ((a.toNat + k) % 0x1000) = Bytes.byteOf (c.lineAt a).data (a.toNat % 4 + k) := by
  unfold byte
  rw [(offset_add hk).1, (offset_add hk).2, line_index]

/-- A load yields the bytes at the address. -/
theorem readIsolated_eq {a : UInt32} {w : Width} (h : a.toNat % 4 + w.bytes.toNat ≤ 4) :
    c.readIsolated a w = compose c.byte a w := by
  have hbytes : ((List.range w.bytes.toNat).map fun k =>
      (c.byte ((a.toNat + k) % 0x1000)).toNat) = (List.range w.bytes.toNat).map fun k =>
        (Bytes.byteOf (c.lineAt a).data (a.toNat % 4 + k)).toNat :=
    List.map_congr_left fun k hk => by
      have hlt := List.mem_range.1 hk
      rw [byte_offset (by omega)]
  unfold compose readIsolated
  rw [hbytes, ← readLane_toNat _ h, UInt32.ofNat_toNat]

/-! ### Stores -/

theorem line_writeIsolated (hsize : c.lines.size = lineCount) (a : UInt32) (w : Width)
    (value : UInt32) (tagTest : Bool) (i : Nat) :
    (c.writeIsolated a w value tagTest).line i =
      if index a = i then
        if tagTest then { c.line i with valid := false }
        else { c.line i with data := writeLane (c.line i).data a w value }
      else c.line i := by
  unfold line writeIsolated
  dsimp only
  rw [Array.getElem?_modify]
  split
  · rename_i hi
    subst hi
    rw [Array.getElem?_eq_getElem (index_lt hsize a)]
    rfl
  · rfl

theorem byte_writeIsolated (hsize : c.lines.size = lineCount) {a : UInt32} {w : Width}
    (h : a.toNat % 4 + w.bytes.toNat ≤ 4) (value : UInt32) :
    (c.writeIsolated a w value false).byte =
      overlay c.byte (Access.writeIsolated a w value).stores := by
  have hfst : (Access.writeIsolated a w value).stores.map Prod.fst =
      (List.range w.bytes.toNat).map fun k => (a.toNat + k) % 0x1000 := List.map_map ..
  refine eq_overlay ?_ (fun s hs => ?_) fun i hi => ?_
  · rw [hfst]
    refine List.Nodup.map_on (fun j hj k hk hjk => ?_) List.nodup_range
    have hj := List.mem_range.1 hj
    have hk := List.mem_range.1 hk
    omega
  · obtain ⟨k, hk, rfl⟩ := List.mem_map.1 hs
    have hk := List.mem_range.1 hk
    rw [byte_offset (by omega), ← line_index, line_writeIsolated hsize, if_pos rfl,
      if_neg Bool.false_ne_true, Bytes.byteOf_writeLane _ _ _ _ (by omega), if_pos (by omega),
      Nat.add_sub_cancel_left]
  · have hmiss : ∀ k < w.bytes.toNat, (a.toNat + k) % 0x1000 ≠ i := fun k hk he =>
      hi (hfst ▸ List.mem_map.2 ⟨k, List.mem_range.2 hk, he⟩)
    unfold byte
    rw [line_writeIsolated hsize]
    split
    · rename_i hline
      rw [if_neg Bool.false_ne_true, Bytes.byteOf_writeLane _ _ _ _ (Nat.mod_lt _ (by decide)),
        if_neg fun hin => ?_]
      rw [index_eq] at hline
      exact hmiss (i % 4 - a.toNat % 4) (by omega) (by omega)
    · rfl

theorem stored_writeIsolated (hsize : c.lines.size = lineCount) {a : UInt32} {w : Width}
    (h : a.toNat % 4 + w.bytes.toNat ≤ 4) (value : UInt32) (tagTest : Bool) :
    Stored tagTest (Access.writeIsolated a w value).stores c
      (c.writeIsolated a w value tagTest) where
  size := c.writeIsolated_size ..
  tag i := by
    rw [line_writeIsolated hsize]
    split_ifs <;> rfl
  byte := by
    cases tagTest with
    | true =>
      funext i
      show Bytes.byteOf ((c.writeIsolated a w value true).line (i / 4)).data (i % 4) = c.byte i
      rw [line_writeIsolated hsize, if_pos rfl]
      split <;> rfl
    | false => exact byte_writeIsolated hsize h value
  valid i := by
    have hfalls : (∃ s ∈ (Access.writeIsolated a w value).stores, s.1 / 4 = i) ↔ index a = i := by
      have hpos : 0 < w.bytes.toNat := by cases w <;> decide
      refine ⟨fun ⟨s, hs, hi⟩ => ?_, fun hi =>
        ⟨_, List.mem_map.2 ⟨0, List.mem_range.2 hpos, rfl⟩, ?_⟩⟩
      · obtain ⟨k, hk, rfl⟩ := List.mem_map.1 hs
        have hk := List.mem_range.1 hk
        rw [← hi]
        exact (offset_add (by omega)).1.symm
      · rw [← hi]
        exact (offset_add (by omega)).1
    have hmiss : (∀ s ∈ (Access.writeIsolated a w value).stores, s.1 / 4 ≠ i) ↔ index a ≠ i := by
      rw [ne_eq, ← hfalls]
      simp only [not_exists, not_and, ne_eq]
    rw [line_writeIsolated hsize, hmiss]
    by_cases hi : index a = i
    · cases tagTest <;> simp [hi]
    · simp [hi]

end InstructionCache

namespace Outside

variable {δ : Type} [Device δ] {o : Outside δ}

open InstructionCache

/-- Accesses to the isolated cache leave the bus alone. -/
theorem stored_performAll {as : List Access} (has : ∀ a ∈ as, a.Aside)
    (hsize : o.cache.lines.size = lineCount) : (o.performAll as).bus = o.bus ∧
      Stored (CacheControl.tagTest o.bus.memory.cacheControl) (as.flatMap Access.stores) o.cache
        (o.performAll as).cache := by
  induction as generalizing o with
  | nil => exact ⟨rfl, .refl _ _⟩
  | cons a as ih =>
    rw [List.forall_mem_cons] at has
    obtain ⟨ha, has⟩ := has
    have hone : (o.perform a).bus = o.bus ∧ Stored (CacheControl.tagTest o.bus.memory.cacheControl)
        a.stores o.cache (o.perform a).cache := by
      cases a with
      | readIsolated => exact ⟨rfl, .refl _ _⟩
      | writeIsolated address w value => exact ⟨rfl, stored_writeIsolated hsize ha value _⟩
      | fetch | fetchCached | read | write => exact ha.elim
    obtain ⟨hbus, hstored⟩ := hone
    obtain ⟨hbus', hstored'⟩ := ih has (hstored.size.trans hsize)
    rw [hbus] at hbus' hstored'
    exact ⟨hbus', hstored.trans hstored'⟩

end Outside

end Psx
