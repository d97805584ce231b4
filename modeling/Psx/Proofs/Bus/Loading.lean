import Psx.Proofs.Bus.RamBytes

/-!
# Loading is storing

Bytes that are put into RAM as a whole go to places that are counted from the first address on,
round and round (`Memory.storeBytes_eq`), while a write decodes each address by itself. In the
segments that lead to RAM these are the same places (`Bus.write_byte_ram`, `Bus.write_word_ram`),
so a load is the writes that it stands for, one after another, also where it passes from one mirror
to the next or comes round to what it has stored itself (`Bus.loads_as_writes`).
-/

namespace Psx

theorem Width.align_of_dvd {w : Width} {a : UInt32} (h : w.bytes.toNat ∣ a.toNat) :
    w.align a = a := by
  apply UInt32.toNat_inj.1
  rw [align_toNat, Nat.div_mul_cancel h]

/-- RAM after bytes have been put into it from a place on, round and round. -/
def Bytes.putAll (ram : ByteArray) (place : Nat) : List UInt8 → ByteArray
  | [] => ram
  | byte :: bytes => putAll (setByte ram (place % Address.ramSize) byte) (place + 1) bytes

namespace Bytes

variable {ram : ByteArray} {n n' : Nat}

theorem putAll_append (bytes bytes' : List UInt8) : putAll ram n (bytes ++ bytes') =
    putAll (putAll ram n bytes) (n + bytes.length) bytes' := by
  induction bytes generalizing ram n with
  | nil => rfl
  | cons byte bytes ih =>
    rw [List.cons_append, putAll, ih, putAll, List.length_cons, Nat.add_right_comm, Nat.add_assoc]

/-- Places that differ by whole mirrors are the same place. -/
theorem putAll_congr (h : n % Address.ramSize = n' % Address.ramSize) (bytes : List UInt8) :
    putAll ram n bytes = putAll ram n' bytes := by
  induction bytes generalizing ram n n' with
  | nil => rfl
  | cons byte bytes ih =>
    rw [putAll, putAll, h]
    exact ih (by rw [Nat.add_mod, h, ← Nat.add_mod])

end Bytes

open Bytes

theorem Memory.storeBytes_eq (m : Memory) (a : UInt32) (bytes : List UInt8) :
    m.storeBytes a bytes = { m with ram := putAll m.ram a.toNat bytes } := by
  have hstart : ramIndex (Address.translate a) % Address.ramSize = a.toNat % Address.ramSize := by
    unfold ramIndex
    rw [Address.translate_and_ramMask]
    show ramIndex a % 0x200000 = _
    rw [ramIndex_eq, Nat.mod_mod]
    rfl
  have hfold : ∀ (ram : ByteArray) (n : Nat), (bytes.foldl
      (fun state byte => (setByte state.1 (state.2 % Address.ramSize) byte, state.2 + 1))
      (ram, n)).1 = putAll ram n bytes := by
    induction bytes with
    | nil => intro _ _; rfl
    | cons byte bytes ih => intro ram n; exact ih ..
  exact congrArg (fun ram => { m with ram }) ((hfold ..).trans (putAll_congr hstart _))

namespace Bus

variable {δ : Type}

theorem storeBytes_append (b : Bus δ) (a : UInt32) (bytes bytes' : List UInt8) :
    b.storeBytes a (bytes ++ bytes') =
      (b.storeBytes a bytes).storeBytes (a + .ofNat bytes.length) bytes' := by
  have hplace : (a + UInt32.ofNat bytes.length).toNat % Address.ramSize =
      (a.toNat + bytes.length) % Address.ramSize := by
    rw [UInt32.toNat_add, UInt32.toNat_ofNat']
    unfold Address.ramSize
    omega
  unfold storeBytes
  rw [Memory.storeBytes_eq, Memory.storeBytes_eq, Memory.storeBytes_eq, putAll_append,
    putAll_congr hplace]

variable [Device δ] {b : Bus δ} {a : UInt32}

/-! ### One write -/

theorem write_byte_ram (h : Address.region a = .ram) (byte : UInt8) :
    b.write a .byte byte.toUInt32 = b.storeBytes a [byte] := by
  have ha : Width.byte.align a = a := Width.align_of_dvd (Nat.one_dvd _)
  have hbyte : (byte.toUInt32 &&& Width.byte.mask).toUInt8 = byte := by
    rw [show Width.byte.mask = 0xFF from rfl, ← toUInt32_toUInt8]
    simp
  rw [write_ram (by rw [ha]; exact h), ramIndex_eq h ha]
  unfold storeBytes
  rw [Memory.storeBytes_eq]
  show { b with memory.ram := setByte _ _ (byte.toUInt32 &&& Width.byte.mask).toUInt8 } = _
  rw [hbyte]
  rfl

/-- A word that is aligned does not pass the end of RAM. -/
theorem write_word_ram (h : Address.region a = .ram) (hd : 4 ∣ a.toNat) (word : UInt32) :
    b.write a .word word = b.storeBytes a (ofWord word) := by
  have ha : Width.word.align a = a := Width.align_of_dvd hd
  have hword : word &&& Width.word.mask = word := UInt32.and_neg_one
  have hplace : ∀ k < 4, (a.toNat + k) % Address.ramSize = a.toNat % 0x200000 + k := by
    intro k hk
    unfold Address.ramSize
    omega
  rw [write_ram (by rw [ha]; exact h), ramIndex_eq h ha, hword]
  unfold storeBytes ofWord
  rw [Memory.storeBytes_eq]
  simp only [putAll]
  rw [hplace 1 (by decide), hplace 2 (by decide), hplace 3 (by decide)]
  rfl

/-! ### Many writes -/

/-- Writes values one after another, at addresses that follow one another. -/
def writeAll (b : Bus δ) (w : Width) (address : UInt32) : List UInt32 → Bus δ
  | [] => b
  | value :: values => (b.write address w value).writeAll w (address + w.bytes) values

theorem storeBytes_eq_writes {bytes : List UInt8}
    (h : ∀ i < bytes.length, Address.region (a + .ofNat i) = .ram) :
    b.storeBytes a bytes = b.writeAll .byte a (bytes.map (·.toUInt32)) := by
  induction bytes generalizing b a with
  | nil => rfl
  | cons byte bytes ih =>
    have hfirst : Address.region a = .ram := by simpa using h 0 (Nat.succ_pos _)
    have hrest : ∀ i < bytes.length, Address.region (a + 1 + .ofNat i) = .ram := by
      intro i hi
      have hnext := h (i + 1) (Nat.succ_lt_succ hi)
      rwa [Nat.add_comm, UInt32.ofNat_add, ← UInt32.add_assoc] at hnext
    calc b.storeBytes a (byte :: bytes)
        = (b.storeBytes a [byte]).storeBytes (a + 1) bytes := b.storeBytes_append a [byte] bytes
      _ = (b.write a .byte byte.toUInt32).storeBytes (a + 1) bytes := by
        rw [write_byte_ram hfirst]
      _ = _ := ih hrest

theorem storeWords_eq_writes {words : List UInt32} (hd : 4 ∣ a.toNat)
    (h : ∀ i < words.length, Address.region (a + .ofNat (4 * i)) = .ram) :
    b.storeWords a words = b.writeAll .word a words := by
  induction words generalizing b a with
  | nil => rfl
  | cons word words ih =>
    have hfirst : Address.region a = .ram := by simpa using h 0 (Nat.succ_pos _)
    have hnext : 4 ∣ (a + 4).toNat := by
      rw [UInt32.toNat_add]
      change 4 ∣ (a.toNat + 4) % 2 ^ 32
      omega
    have hrest : ∀ i < words.length, Address.region (a + 4 + .ofNat (4 * i)) = .ram := by
      intro i hi
      have hlater := h (i + 1) (Nat.succ_lt_succ hi)
      rwa [Nat.mul_add, Nat.add_comm, UInt32.ofNat_add, ← UInt32.add_assoc] at hlater
    calc b.storeWords a (word :: words)
        = (b.storeBytes a (ofWord word)).storeWords (a + 4) words :=
          b.storeBytes_append a (ofWord word) (words.flatMap ofWord)
      _ = (b.write a .word word).storeWords (a + 4) words := by rw [write_word_ram hfirst hd]
      _ = _ := ih hnext hrest

/-! ### Ranges -/

omit [Device δ] in
/-- A range that lies in RAM and its mirrors does not leave its segment. -/
theorem region_of_range (hs : Segment.of a ≠ .kseg2) {n : Nat}
    (h : (Address.translate a).toNat + n ≤ Address.ramMirrorLast.toNat) :
    Address.region (a + .ofNat n) = .ram := by
  have hlow : a.toNat < 0xC0000000 := Nat.not_le.1 (mt Address.segment_eq_kseg2.2 hs)
  rw [Address.translate_toNat hlow] at h
  change a.toNat % 0x20000000 + n ≤ 0x7FFFFF at h
  rw [Address.region_eq_ram, UInt32.toNat_add, UInt32.toNat_ofNat']
  omega

/-- From any address below the last segment on, a range of RAM and its mirrors is loaded as it is
written: byte by byte, or word by word if the address is that of a word. -/
theorem loads_as_writes (b : Bus δ) (hs : Segment.of a ≠ .kseg2) :
    (∀ bytes : List UInt8,
      (∀ i < bytes.length, (Address.translate a).toNat + i ≤ Address.ramMirrorLast.toNat) →
        b.storeBytes a bytes = b.writeAll .byte a (bytes.map (·.toUInt32))) ∧
    (4 ∣ a.toNat → ∀ words : List UInt32,
      (∀ i < 4 * words.length, (Address.translate a).toNat + i ≤ Address.ramMirrorLast.toNat) →
        b.storeWords a words = b.writeAll .word a words) := by
  refine ⟨fun bytes h => ?_, fun hd words h => ?_⟩
  · exact storeBytes_eq_writes fun i hi => region_of_range hs (h i hi)
  · exact storeWords_eq_writes hd fun i hi => region_of_range hs (h (4 * i) (by omega))

/-- More bytes and more words than RAM holds, across the end of a mirror. -/
theorem loads_as_writes_twice :
    let b : Bus Empty := .ofConfig {}
    let bytes : List UInt8 := List.replicate 0x300000 1 ++ List.replicate 0x1001 2
    let words : List UInt32 := List.replicate 0x80001 0x01020304
    Segment.of 0x801FFFFF ≠ .kseg2 ∧ Segment.of 0xA03FFFFC ≠ .kseg2 ∧
      b.storeBytes 0x801FFFFF bytes = b.writeAll .byte 0x801FFFFF (bytes.map (·.toUInt32)) ∧
      b.storeWords 0xA03FFFFC words = b.writeAll .word 0xA03FFFFC words := by
  intro b bytes words
  have hbytes : bytes.length = 0x301001 := by
    rw [List.length_append, List.length_replicate, List.length_replicate]
  have hwords : words.length = 0x80001 := List.length_replicate
  have hs : Segment.of 0x801FFFFF ≠ .kseg2 := by decide
  have hs' : Segment.of 0xA03FFFFC ≠ .kseg2 := by decide
  refine ⟨hs, hs', (b.loads_as_writes hs).1 bytes fun i hi => ?_,
    (b.loads_as_writes hs').2 (by decide) words fun i hi => ?_⟩
  · change 0x1FFFFF + i ≤ 0x7FFFFF
    omega
  · change 0x3FFFFC + i ≤ 0x7FFFFF
    omega

end Bus

end Psx
