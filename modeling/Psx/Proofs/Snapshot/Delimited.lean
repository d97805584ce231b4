import Psx.Proofs.Snapshot.Allowance

/-!
# Truncated states

A field says by itself where it ends: what is written of a value is never the beginning of what is
written of another one, so a reader that runs out of bytes within a field does not take the rest for
something else. `Law.Delimited` says so of a codec: a reader that has before it only some of the
bytes of a value, and not all of them, yields nothing. It does not matter what the reader may still
claim, as running out of the allowance yields nothing either.

The combinators keep this. They need the law of the fields as well: of two fields the first one may
be whole, and then it is by the law that the reader stands where the second begins
(`Delimited.pair`).
-/

namespace Psx.Snapshot

namespace Cursor

variable {c c' : Cursor} {xs ys : List UInt8}

/-- The bytes that come next are some first ones of these, but not all. -/
def Cut (c : Cursor) (bytes : List UInt8) : Prop :=
  c.data.data.toList.drop c.pos <+: bytes ∧ (c.data.data.toList.drop c.pos).length < bytes.length

theorem Cut.of_spend (h : c.Cut xs) {n : Nat} (hs : c.spend n = some c') : c'.Cut xs := by
  obtain ⟨hdata, hpos⟩ := Cursor.of_spend hs
  unfold Cut
  rw [hdata, hpos]
  exact h

/-- A cut through two fields goes through the first, or the first is whole and the cut goes through
the second. -/
theorem Cut.append (h : c.Cut (xs ++ ys)) : c.Cut xs ∨ c.Reads xs ∧ (c.skip xs.length).Cut ys := by
  obtain ⟨hbegin, hlt⟩ := h
  by_cases hx : (c.data.data.toList.drop c.pos).length < xs.length
  · exact .inl ⟨List.prefix_of_prefix_length_le hbegin (List.prefix_append xs ys)
      (Nat.le_of_lt hx), hx⟩
  · have hreads : c.Reads xs :=
      List.prefix_of_prefix_length_le (List.prefix_append xs ys) hbegin (Nat.le_of_not_lt hx)
    refine .inr ⟨hreads, ?_⟩
    obtain ⟨rest, hrest⟩ := hreads
    have hdrop : c.data.data.toList.drop (c.pos + xs.length) = rest := by
      rw [← List.drop_drop, ← hrest, List.drop_left]
    rw [← hrest] at hbegin hlt
    rw [List.length_append, List.length_append] at hlt
    show c.data.data.toList.drop (c.pos + xs.length) <+: ys ∧
      (c.data.data.toList.drop (c.pos + xs.length)).length < ys.length
    rw [hdrop]
    exact ⟨(List.prefix_append_right_inj xs).1 hbegin, Nat.lt_of_add_lt_add_left hlt⟩

theorem not_cut_nil : ¬c.Cut [] := fun h => Nat.not_lt_zero _ h.2

/-- A cut in front of a single byte leaves none. -/
theorem Cut.nothing {b : UInt8} (h : c.Cut [b]) : c.data.size ≤ c.pos := by
  have hlt := h.2
  have hlength : c.data.data.toList.length = c.data.size := Array.length_toList
  rw [List.length_drop, hlength, List.length_singleton] at hlt
  omega

end Cursor

namespace Get

theorem failure_apply {α : Type} (c : Cursor) : (failure : Get α) c = none := rfl

theorem rawByte_cut {c : Cursor} {b : UInt8} (h : c.Cut [b]) : rawByte c = none := by
  unfold rawByte
  exact dif_neg (Nat.not_lt.2 h.nothing)

theorem rawNat_cut (n value : Nat) {c : Cursor} (h : c.Cut (Law.rawBytes n value)) :
    rawNat n c = none := by
  induction n generalizing value c with
  | zero => exact absurd h Cursor.not_cut_nil
  | succ n ih =>
    have happend : c.Cut ([.ofNat value] ++ Law.rawBytes n (value / 256)) := h
    rw [rawNat, bind_apply]
    rcases happend.append with hfirst | ⟨hfirst, hrest⟩
    · rw [rawByte_cut hfirst]
      rfl
    · have hnone : rawNat n (c.skip 1) = none := ih _ hrest
      rw [rawByte_apply hfirst, Option.bind_some, bind_apply, hnone]
      rfl

theorem rawBytes_cut {b : ByteArray} {c : Cursor} (h : c.Cut b.data.toList) :
    rawBytes b.size c = none := by
  have hlt := h.2
  have hlength : c.data.data.toList.length = c.data.size := Array.length_toList
  have hsize : b.data.toList.length = b.size := Array.length_toList
  rw [List.length_drop, hlength, hsize] at hlt
  unfold rawBytes
  exact if_neg (by omega)

end Get

namespace Law

variable {α β : Type} {c : Codec α} {d : Codec β}

/-- Some bytes of a value, but not all, are not read as anything. -/
def Delimited (l : Law c) : Prop := ∀ a cur, l.fits a → cur.Cut (l.image a) → c.get cur = none

/-- Whatever is left out at the end of what was written, nothing is read. -/
theorem Delimited.run?_extract {l : Law c} (hl : l.Delimited) {a : α} (h : l.fits a) {n : Nat}
    (hn : n < (c.encode a).size) (allowance : Option Nat) :
    c.get.run? ((c.encode a).extract 0 n) allowance = none := by
  have himage := l.encode_eq h
  have hlength : (l.image a).length = (c.encode a).size := by
    rw [← himage]
    exact Array.length_toList
  have hcut : ({ data := (c.encode a).extract 0 n, allowance } : Cursor).Cut (l.image a) := by
    unfold Cursor.Cut
    dsimp only
    rw [List.drop_zero, ByteArray.data_extract, Array.toList_extract, himage,
      List.extract_eq_take_drop, Nat.sub_zero, List.drop_zero, List.length_take]
    exact ⟨List.take_prefix n _, by omega⟩
  unfold Get.run?
  rw [hl a _ h hcut]
  rfl

namespace Delimited

/-! ### Numbers -/

theorem getNat_cut (size value : Nat) {cur : Cursor} (h : cur.Cut (natBytes value)) :
    Codec.getNat size cur = none := by
  have htagged : ∀ {width : Nat} {tag : UInt8}, cur.Cut (tag :: rawBytes width value) →
      (tag = 251 ∧ width = 2 ∨ tag = 252 ∧ width = 4 ∨ tag = 253 ∧ width = 8) →
        Codec.getNat size cur = none := by
    intro width tag htag hwidth
    have happend : cur.Cut ([tag] ++ rawBytes width value) := htag
    rw [Codec.getNat, Get.bind_apply]
    rcases happend.append with hfirst | ⟨hfirst, hrest⟩
    · rw [Get.rawByte_cut hfirst]
      rfl
    · have hnone : Get.rawNat width (cur.skip 1) = none := Get.rawNat_cut width value hrest
      rw [Get.rawByte_apply hfirst, Option.bind_some]
      rcases hwidth with ⟨rfl, rfl⟩ | ⟨rfl, rfl⟩ | ⟨rfl, rfl⟩
      · exact hnone
      · by_cases hs : 4 ≤ size
        · simpa [hs] using hnone
        · simp [hs, Get.failure_apply]
      · by_cases hs : 8 ≤ size
        · simpa [hs] using hnone
        · simp [hs, Get.failure_apply]
  unfold natBytes at h
  split at h
  · rw [Codec.getNat, Get.bind_apply, Get.rawByte_cut h]
    rfl
  · split at h
    · exact htagged h (.inl ⟨rfl, rfl⟩)
    · split at h
      · exact htagged h (.inr (.inl ⟨rfl, rfl⟩))
      · exact htagged h (.inr (.inr ⟨rfl, rfl⟩))

/-- A field that claims its place first: nothing is read if what follows the claim reads nothing. -/
theorem claim_cut {n : Nat} {get : Get α} {cur : Cursor}
    (h : ∀ cur', cur.spend n = some cur' → get cur' = none) :
    (Get.claim n >>= fun _ => get) cur = none := by
  rw [Get.bind_apply, Get.claim_apply]
  cases hs : cur.spend n with
  | none => rfl
  | some cur' => exact h cur' hs

theorem number {size : Nat} (hs : size = 2 ∨ size = 4 ∨ size = 8) : (Law.number hs).Delimited :=
  fun value _ _ h => claim_cut fun _ hspend => getNat_cut size value (h.of_spend hspend)

theorem byte : Law.byte.Delimited :=
  fun _ _ _ h => claim_cut fun _ hspend => Get.rawByte_cut (h.of_spend hspend)

/-! ### Combinators -/

variable {l : Law c} {l' : Law d}

theorem restrict (hl : l.Delimited) {fits : α → Prop} {h : ∀ a, fits a → l.fits a} :
    (l.restrict fits h).Delimited := fun a cur ha hcut => hl a cur (h a ha) hcut

theorem imap (hl : l.Delimited) {view : β → α} {make : α → β} {h : ∀ b, make (view b) = b} :
    (l.imap view make h).Delimited := fun b cur hb hcut => by
  show (make <$> c.get) cur = none
  rw [Get.map_apply, hl (view b) cur hb hcut]
  rfl

theorem filter (hl : l.Delimited) {view : β → α} {make? : α → Option β}
    {h : ∀ b, make? (view b) = some b} : (l.filter view make? h).Delimited := fun b cur hb hcut => by
  show (c.get >>= fun a => (liftM (make? a) : Get β)) cur = none
  rw [Get.bind_apply, hl (view b) cur hb hcut]
  rfl

/-- One field and then whatever is read behind it. -/
theorem bind_cut (hl : l.Delimited) {a : α} (ha : l.fits a) {rest : List UInt8} {get : α → Get β}
    {cur : Cursor} (hcut : cur.Cut (l.image a ++ rest))
    (hrest : ∀ cur : Cursor, cur.Cut rest → get a cur = none) : (c.get >>= get) cur = none := by
  rw [Get.bind_apply]
  rcases hcut.append with hfirst | ⟨hfirst, hsecond⟩
  · rw [hl a cur ha hfirst]
    rfl
  · rw [l.get a cur ha hfirst]
    cases hs : cur.spend (l.claims a) with
    | none => rfl
    | some cur' =>
      have hcut' : (cur'.skip (l.image a).length).Cut rest := by
        obtain ⟨hdata, hpos⟩ := Cursor.of_spend hs
        unfold Cursor.Cut Cursor.skip at hsecond ⊢
        dsimp only at hsecond ⊢
        rw [hdata, hpos]
        exact hsecond
      exact hrest _ hcut'

theorem pair (hl : l.Delimited) (hl' : l'.Delimited) : (l.pair l').Delimited :=
  fun p _ hp hcut => hl.bind_cut hp.1 hcut fun cur hrest => by
    rw [Get.bind_apply, hl' p.2 cur hp.2 hrest]
    rfl

/-! ### Sequences -/

theorem getMany_cut (hl : l.Delimited) (as : List α) (h : ∀ a ∈ as, l.fits a) (read : Array α)
    {cur : Cursor} (hcut : cur.Cut (l.bytesAll as)) :
    Codec.getMany c as.length read cur = none := by
  induction as generalizing read cur with
  | nil => exact absurd hcut Cursor.not_cut_nil
  | cons a as ih =>
    have happend : cur.Cut (l.image a ++ l.bytesAll as) := hcut
    exact hl.bind_cut (h a List.mem_cons_self) happend fun cur hrest =>
      ih (fun b hb => h b (List.mem_cons_of_mem a hb)) (read.push a) hrest

theorem vector (hl : l.Delimited) (n : Nat) : (l.vector n).Delimited := fun v cur hv hcut => by
  have hmany := hl.getMany_cut v.toList hv #[] hcut
  rw [Vector.length_toList] at hmany
  show (Codec.getMany c n #[] >>= fun read =>
    if h : read.size = n then (Pure.pure ⟨read, h⟩ : Get (Vector α n)) else failure) cur = none
  rw [Get.bind_apply, hmany]
  rfl

theorem array (hl : l.Delimited) : l.array.Delimited := fun a _ ha hcut =>
  (number (.inr (.inr rfl))).bind_cut ha.1 hcut fun _ hrest => by
    have hmany := hl.getMany_cut a.toList ha.2 #[] hrest
    rwa [Array.length_toList] at hmany

theorem list (hl : l.Delimited) : l.list.Delimited := hl.array.imap

/-! ### Common fields -/

theorem option (hl : l.Delimited) : l.option.Delimited := fun o cur ho hcut => by
  cases o with
  | none =>
    show (Codec.byte.get >>= _) cur = none
    rw [Get.bind_apply, byte 0 cur trivial hcut]
    rfl
  | some a =>
    have happend : cur.Cut (Law.byte.image 1 ++ l.image a) := hcut
    exact byte.bind_cut (a := 1) trivial happend fun cur hrest => by
      show (some <$> c.get) cur = none
      rw [Get.map_apply, hl a cur (ho a rfl) hrest]
      rfl

theorem bool : Law.bool.Delimited := byte.filter

theorem nat32 : Law.nat32.Delimited := number _

theorem nat64 : Law.nat64.Delimited := number _

theorem word32 : Law.word32.Delimited := nat32.imap.restrict

theorem bytes : Law.bytes.Delimited := fun _ _ hb hcut =>
  nat64.bind_cut hb hcut fun _ hrest => claim_cut fun _ hspend =>
    Get.rawBytes_cut (hrest.of_spend hspend)

theorem text : Law.text.Delimited := bytes.filter

end Delimited

end Law

end Psx.Snapshot

namespace Psx

open Snapshot Law

/-! ### Sessions -/

theorem Cop0.delimited : Cop0.law.Delimited := (Delimited.word32.vector 32).imap

theorem CacheLine.delimited : CacheLine.law.Delimited :=
  (Delimited.word32.pair <| Delimited.word32.pair Delimited.bool).imap

theorem InstructionCache.delimited : InstructionCache.law.Delimited := CacheLine.delimited.array.imap

theorem DelayedLoad.delimited : DelayedLoad.law.Delimited :=
  (Delimited.byte.pair Delimited.word32).imap

theorem Cpu.delimited : Cpu.law.Delimited :=
  ((Delimited.word32.vector 32).pair <| Delimited.word32.pair <| Delimited.word32.pair <|
    Delimited.word32.pair <| Delimited.word32.pair <| Delimited.word32.pair <|
    Cop0.delimited.pair <| InstructionCache.delimited.pair <| DelayedLoad.delimited.option.pair <|
    Delimited.bool.pair <| Delimited.bool.pair Delimited.word32).imap

theorem Memory.delimited : Memory.law.Delimited :=
  (Delimited.bytes.pair <| Delimited.bytes.pair <| Delimited.bytes.pair Delimited.word32).imap

theorem Scheduler.Event.delimited : Scheduler.Event.law.Delimited :=
  (Delimited.text.pair Delimited.nat64.option).imap

theorem Scheduler.delimited : Scheduler.law.Delimited :=
  (Delimited.nat64.pair Scheduler.Event.delimited.array).imap

namespace Snapshot.Session

theorem delimited : law.Delimited :=
  (Delimited.nat32.pair <| Cpu.delimited.pair <| Memory.delimited.pair <| Scheduler.delimited.pair
    (Delimited.text.pair Delimited.bytes).list).imap

/-- A saved session of which something is missing at the end is malformed. -/
theorem decode_extract {s : Session} (h : law.fits s) {n : Nat} (hn : n < s.encode.size) :
    decode (s.encode.extract 0 n) = .error Board.malformed := by
  have hnone : codec.get.run? (s.encode.extract 0 n) (some allowance) = none :=
    delimited.run?_extract h hn _
  unfold decode
  rw [hnone]

/-- A session whose fields claim no more than the allowance is read back as it was, and not from
fewer bytes. What was saved of a chip of the core puts any board's chip into that state. -/
theorem codec_exact :
    (∀ s : Session, law.fits s → s.version = Snapshot.version → law.claims s ≤ allowance →
      decode s.encode = .ok s ∧
        ∀ n < s.encode.size, decode (s.encode.extract 0 n) = .error Board.malformed) ∧
    ∀ {δ : Type} [Device δ] (b b₀ : Board δ) {p : Part}, p ∈ Part.core → b₀.Fits p →
      b.load p (b₀.save p) = .ok (b.adopt b₀ p) := by
  refine ⟨fun s hfits hversion hclaims => ⟨?_, fun n hn => decode_extract hfits hn⟩, ?_⟩
  · rw [decode_encode hfits hversion, if_pos hclaims]
  · intro δ _ b b₀ p hp hfits
    exact b.load_save hp hfits

/-- The case of a session that has just been built. -/
theorem codec_exact_fresh :
    let m : Machine Empty := .fresh {}
    (decode m.capture.encode = .ok m.capture ∧
      ∀ n < m.capture.encode.size, decode (m.capture.encode.extract 0 n) = .error Board.malformed) ∧
      m.bus.board.load .gpu (m.bus.board.save .gpu) = .ok (m.bus.board.adopt m.bus.board .gpu) := by
  have hconfig : ({} : SessionConfig).Fits := ⟨by decide, by decide⟩
  have hfits := Machine.fits_powerOn hconfig (Machine.fresh_eq (δ := Empty) {})
  refine ⟨codec_exact.1 _ hfits.session rfl (Machine.claims_fresh hconfig), ?_⟩
  exact codec_exact.2 _ _ (by decide) (Board.fits_ofConfig hconfig _ (by decide))

end Snapshot.Session

end Psx
