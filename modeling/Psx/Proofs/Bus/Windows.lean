import Psx.Proofs.Bus.Registration

/-!
# Windows and regions

A window keeps its addresses for its device, whatever is registered later (`serves_enrollAll`). But
an access is first sent to the region of its address, and the decode table is asked in three of
these only, those of `Address.isDecoded`: there an access to a window comes to its device
(`Bus.Reaches`). The other regions that windows may lie in are left to the open bus, whoever has
registered there (`Bus.Vacant`, `Bus.register_reaches_iff`).
-/

namespace Psx

namespace Address

variable {a : UInt32}

/-- Accesses to the physical address are handed on by the decode table. -/
def isDecoded (address : UInt32) : Bool :=
  [Region.io, .expansion1, .expansion2].contains (physicalRegion address)

theorem isDecoded_iff : isDecoded a = true ↔
    (0x1F000000 ≤ a.toNat ∧ a.toNat < 0x1F800000) ∨
      (0x1F801000 ≤ a.toNat ∧ a.toNat < 0x1F804000) := by
  unfold isDecoded
  rw [physicalRegion_eq]
  split_ifs <;> simp <;> omega

/-- A virtual address is in the region of its physical one, unless that is a memory. -/
theorem region_of_not_isMemory (h : a.toNat < 0xC0000000)
    (hm : isMemory (translate a) = false) : region a = physicalRegion (translate a) := by
  rw [region_eq h, if_neg]
  rintro ⟨hp, -⟩
  unfold isMemory at hm
  rw [hp] at hm
  cases hm

theorem region_of_isDecoded (h : a.toNat < 0xC0000000) (hd : isDecoded (translate a) = true) :
    region a = .io ∨ region a = .expansion1 ∨ region a = .expansion2 := by
  have hregion : physicalRegion (translate a) = .io ∨ physicalRegion (translate a) = .expansion1 ∨
      physicalRegion (translate a) = .expansion2 := by simpa [isDecoded] using hd
  have hm : isMemory (translate a) = false := by
    unfold isMemory
    rcases hregion with hr | hr | hr <;> rw [hr] <;> rfl
  rw [region_of_not_isMemory h hm]
  exact hregion

theorem region_of_not_isDecoded (h : a.toNat < 0xC0000000)
    (hm : isMemory (translate a) = false) (hd : isDecoded (translate a) = false) :
    region a = .expansion3 ∨ region a = .unmapped := by
  rw [region_of_not_isMemory h hm]
  unfold isMemory at hm
  unfold isDecoded at hd
  have hcache := physicalRegion_ne_cacheControl (translate a)
  cases hr : physicalRegion (translate a) <;> rw [hr] at hm hd hcache <;> simp at hm hd hcache ⊢

end Address

namespace Bus

variable {δ : Type} [Device δ]

/-- A byte that is read or written at the address is read from or written to the part, at the
offset. -/
structure Reaches (b : Bus δ) (address : UInt32) (part : Part) (offset : UInt32) : Prop where
  read : b.read address .byte =
    ((b.board.read part offset .byte).1 &&& Width.byte.mask,
      { b with board := (b.board.read part offset .byte).2 })
  write : ∀ value, b.write address .byte value =
    { b with board := b.board.write part offset .byte (value &&& Width.byte.mask) }

/-- Nothing answers at the address. -/
structure Vacant (b : Bus δ) (address : UInt32) : Prop where
  read : b.read address .byte = (b.openBus &&& Width.byte.mask, b)
  write : ∀ value, b.write address .byte value = b

variable {b : Bus δ} {a : UInt32} {part : Part} {offset : UInt32}

theorem align_byte (a : UInt32) : Width.byte.align a = a := by
  unfold Width.align Width.bytes
  rw [show (~~~(1 - 1) : UInt32) = -1 from by decide]
  exact UInt32.and_neg_one

theorem reaches_of_lookup? (ha : a.toNat < 0xC0000000)
    (hd : Address.isDecoded (Address.translate a) = true)
    (hl : b.table.lookup? (Address.translate a) = some (part, offset)) :
    b.Reaches a part offset := by
  have hregion := Address.region_of_isDecoded ha hd
  constructor
  · unfold Bus.read
    rcases hregion with hr | hr | hr <;> simp only [align_byte, hr, readDevice, hl]
  · intro value
    unfold Bus.write
    rcases hregion with hr | hr | hr <;> simp only [align_byte, hr, writeDevice, hl]

theorem vacant_of_not_isDecoded (ha : a.toNat < 0xC0000000)
    (hm : Address.isMemory (Address.translate a) = false)
    (hd : Address.isDecoded (Address.translate a) = false) : b.Vacant a := by
  have hregion := Address.region_of_not_isDecoded ha hm hd
  constructor
  · unfold Bus.read
    rcases hregion with hr | hr <;> simp only [align_byte, hr]
  · intro value
    unfold Bus.write
    rcases hregion with hr | hr <;> simp only [align_byte, hr]

/-! ### Windows stay -/

/-- The address lies in a window of the device of the entry. -/
def Serves (t : DecodeTable Part) (address : UInt32) (e : Entry Part) : Prop :=
  ∃ w ∈ t.windows, w.contains address = true ∧ t.entries[w.device]? = some e

variable {e : Entry Part}

theorem serves_enroll (h : b.table.Sound) (call : Registration) (hs : Serves b.table a e) :
    Serves (b.enroll call).2.table a e := by
  rcases enroll_cases h call with
    ⟨-, error, he⟩ | ⟨-, table, he, ⟨-, w, -, -, -, hwindows⟩, hentries⟩
  · rw [he]
    exact hs
  · obtain ⟨v, hv, hcontains, hentry⟩ := hs
    rw [he]
    refine ⟨v, (hwindows v).2 (.inr hv), hcontains, ?_⟩
    rw [hentries]
    cases call with
    | register part start size =>
      have hlt := (Array.getElem?_eq_some_iff.1 hentry).1
      rw [Registration.entries, Array.getElem?_push, if_neg (Nat.ne_of_lt hlt)]
      exact hentry
    | map device start size => exact hentry

theorem serves_enrollAll (h : b.table.Sound) (calls : List Registration)
    (hs : Serves b.table a e) : Serves (b.enrollAll calls).table a e := by
  induction calls generalizing b with
  | nil => exact hs
  | cons call calls ih =>
    exact ih (b := (b.enroll call).2) (sound_enrollAll h [call]) (serves_enroll h call hs)

theorem Serves.lookup? {t : DecodeTable Part} (h : t.Sound) (hs : Serves t a e) :
    t.lookup? a = some (e.part, a - e.base) := by
  obtain ⟨w, hw, hcontains, hentry⟩ := hs
  exact h.lookup?_eq_some hw hcontains hentry

theorem serves_register {b' : Bus δ} {start size : UInt32} {device : Nat} (h : b.table.Sound)
    (hr : b.register part start size = .ok (device, b')) (hfirst : start ≤ a)
    (hlast : a.toNat < start.toNat + size.toNat) :
    b'.table.Sound ∧ ∃ e, Serves b'.table a e ∧ e.part = part ∧ e.base = start := by
  have henroll : b.enroll (.register part start size) = (none, b') := by
    simp only [enroll, hr]
  rcases enroll_cases h (.register part start size) with
    ⟨-, error, he⟩ | ⟨-, table, he, ⟨hsound, w, hw, hend, hdevice, hwindows⟩, hentries⟩
  · cases henroll.symm.trans he
  · obtain ⟨-, rfl⟩ := Prod.mk.inj (henroll.symm.trans he)
    refine ⟨hsound, ⟨b.board.nameOf part, start, part⟩, ⟨w, (hwindows w).2 (.inl rfl), ?_, ?_⟩,
      rfl, rfl⟩
    · have hend : w.last.toNat + 1 = start.toNat + size.toNat := hend
      rw [Window.contains_iff, hw, UInt32.le_iff_toNat_le (b := w.last)]
      exact ⟨hfirst, by omega⟩
    · rw [hentries, hdevice]
      exact Array.getElem?_push_size

/-- Whatever is registered later and whatever else happens on the bus, a byte that is read or
written in a window comes to the device that it was registered for, at its distance from the base,
if the decode table is asked for the region; otherwise nothing answers. -/
theorem register_reaches_iff {b b' c : Bus δ} {part : Part} {start size : UInt32} {device : Nat}
    (hb : b.table.Built) (h : b.register part start size = .ok (device, b'))
    (calls : List Registration) (hc : c.table = (b'.enrollAll calls).table)
    {a : UInt32} (ha : a.toNat < 0xC0000000) (hfirst : start ≤ Address.translate a)
    (hlast : (Address.translate a).toNat < start.toNat + size.toNat) :
    (Address.isDecoded (Address.translate a) = true →
      c.Reaches a part (Address.translate a - start)) ∧
    (Address.isDecoded (Address.translate a) = false → c.Vacant a) := by
  obtain ⟨hsound, e, hserves, hpart, hbase⟩ := serves_register hb.sound h hfirst hlast
  have hlater := serves_enrollAll hsound calls hserves
  have hsound := sound_enrollAll hsound calls
  have hlookup := hlater.lookup? hsound
  obtain ⟨w, hw, hcontains, -⟩ := hlater
  rw [← hc, hpart, hbase] at hlookup
  exact ⟨fun hd => reaches_of_lookup? ha hd hlookup,
    vacant_of_not_isDecoded ha (hsound.apart w hw _ hcontains)⟩

/-- A window in the region of the chips, through the segment that is not cached, with another window
that is registered later. -/
theorem register_reaches_timers :
    ∃ b' : Bus Empty, (ofConfig {} : Bus Empty).register .timers 0x1F801100 0x30 = .ok (0, b') ∧
      (b'.enrollAll [.register .interrupts 0x1F801070 8]).Reaches 0xBF801114 .timers 0x14 := by
  obtain ⟨b', hb'⟩ : ∃ b',
      (ofConfig {} : Bus Empty).register .timers 0x1F801100 0x30 = .ok (0, b') := ⟨_, rfl⟩
  exact ⟨b', hb', (register_reaches_iff .empty hb' [.register .interrupts 0x1F801070 8] rfl
    (by decide) (by decide) (by decide)).1 (by decide)⟩

/-- A window in a region for which the decode table is not asked: the mask of the interrupts, which
is zero, reads as the open bus. -/
theorem register_vacant :
    ∃ b' : Bus Empty, (ofConfig {} : Bus Empty).register .interrupts 0x1FA00000 8 = .ok (0, b') ∧
      b'.Vacant 0x1FA00004 ∧ ¬b'.Reaches 0x1FA00004 .interrupts 4 := by
  refine ⟨_, rfl, vacant_of_not_isDecoded (by decide) (by decide) (by decide), fun hreaches => ?_⟩
  have hread := congrArg Prod.fst hreaches.read
  rw [(vacant_of_not_isDecoded (by decide) (by decide) (by decide)).read] at hread
  exact absurd hread (by decide)

end Bus

end Psx
