import Mathlib.Algebra.Ring.Nat
import Mathlib.Tactic.SplitIfs
import Psx.Snapshot.Codec

/-!
# Round trips

A `Law` of a codec says which bytes a value is written as and what reading them does: the reader
spends what the field claims, yields the value, and stops behind the bytes. It speaks of the values
that fit, as a number is written in full only if the type of its field can hold it. The combinators
build the law of a structure from those of its fields, as they build its codec, so that the law of a
chip is a term of the shape of its codec.

Reading is stated as an equation also where the allowance does not suffice. A reader of a whole
session therefore either yields what was written or, for want of allowance alone, nothing
(`Law.run?_eq`).
-/

namespace Psx.Snapshot

/-! ### Readers -/

namespace Cursor

variable (c : Cursor)

/-- Takes what a field claims from the allowance. -/
def spend (n : Nat) : Option Cursor :=
  match c.allowance with
  | none => some c
  | some left => if n ≤ left then some { c with allowance := some (left - n) } else none

/-- Moves over so many bytes. -/
def skip (n : Nat) : Cursor := { c with pos := c.pos + n }

/-- The bytes that come next begin so. -/
def Reads (bytes : List UInt8) : Prop := bytes <+: c.data.data.toList.drop c.pos

@[simp] theorem skip_zero : c.skip 0 = c := rfl

@[simp] theorem skip_skip (m n : Nat) : (c.skip m).skip n = c.skip (m + n) := by
  simp [skip, Nat.add_assoc]

@[simp] theorem spend_zero : c.spend 0 = some c := by
  obtain ⟨data, pos, allowance⟩ := c
  cases allowance <;> simp [spend]

theorem spend_add (m n : Nat) : c.spend (m + n) = (c.spend m).bind (·.spend n) := by
  obtain ⟨data, pos, allowance⟩ := c
  cases allowance with
  | none => rfl
  | some left =>
    unfold spend
    by_cases hm : m ≤ left
    · by_cases hn : n ≤ left - m
      · simp [hm, hn, show m + n ≤ left by omega, Nat.sub_sub]
      · simp [hm, hn, show ¬m + n ≤ left by omega]
    · simp [hm, show ¬m + n ≤ left by omega]

theorem spend_skip (m n : Nat) : (c.skip m).spend n = (c.spend n).map (·.skip m) := by
  obtain ⟨data, pos, allowance⟩ := c
  cases allowance with
  | none => rfl
  | some left => unfold spend skip; dsimp only; split <;> rfl

variable {c}

theorem Reads.left {xs ys : List UInt8} (h : c.Reads (xs ++ ys)) : c.Reads xs :=
  (List.prefix_append xs ys).trans h

theorem Reads.right {xs ys : List UInt8} (h : c.Reads (xs ++ ys)) : (c.skip xs.length).Reads ys := by
  obtain ⟨rest, h⟩ := h
  refine ⟨rest, ?_⟩
  show ys ++ rest = c.data.data.toList.drop (c.pos + xs.length)
  rw [← List.drop_drop, ← h, List.append_assoc, List.drop_left]

theorem Reads.le {xs : List UInt8} (h : c.Reads xs) (hx : xs ≠ []) :
    c.pos + xs.length ≤ c.data.size := by
  have hl := h.length_le
  have hpos := List.length_pos_iff.2 hx
  have hd : c.data.data.toList.length = c.data.size := Array.length_toList
  rw [List.length_drop, hd] at hl
  omega

theorem of_spend {n : Nat} {c' : Cursor} (hs : c.spend n = some c') :
    c'.data = c.data ∧ c'.pos = c.pos := by
  unfold spend at hs
  split at hs
  · cases hs; exact ⟨rfl, rfl⟩
  · split at hs
    · cases hs; exact ⟨rfl, rfl⟩
    · cases hs

theorem Reads.of_spend {xs : List UInt8} (h : c.Reads xs) {n : Nat} {c' : Cursor}
    (hs : c.spend n = some c') : c'.Reads xs := by
  obtain ⟨hd, hp⟩ := Cursor.of_spend hs
  unfold Reads
  rw [hd, hp]; exact h

end Cursor

namespace Get

variable {α β : Type}

theorem bind_apply (x : Get α) (f : α → Get β) (c : Cursor) :
    (x >>= f) c = (x c).bind fun p => f p.1 p.2 := rfl

theorem map_apply (f : α → β) (x : Get α) (c : Cursor) :
    (f <$> x) c = (x c).map fun p => (f p.1, p.2) := by
  show (x c).bind _ = _
  cases x c <;> rfl

theorem pure_apply (a : α) (c : Cursor) : (pure a : Get α) c = some (a, c) := rfl

theorem claim_apply (n : Nat) (c : Cursor) : claim n c = (c.spend n).map ((), ·) := by
  obtain ⟨data, pos, allowance⟩ := c
  cases allowance with
  | none => rfl
  | some left => unfold claim Cursor.spend; dsimp only; split <;> rfl

theorem rawByte_apply {c : Cursor} {b : UInt8} (h : c.Reads [b]) :
    rawByte c = some (b, c.skip 1) := by
  obtain ⟨rest, h⟩ := h
  have hlt : c.pos < c.data.data.toList.length := by
    have := congrArg List.length h
    simp only [List.length_append, List.length_cons, List.length_nil, List.length_drop] at this
    omega
  have hb : c.data.data.toList[c.pos] = b := by
    rw [List.drop_eq_getElem_cons hlt] at h
    exact (List.cons.inj h).1.symm
  have hlt' : c.pos < c.data.size := by rw [Array.length_toList] at hlt; exact hlt
  unfold rawByte
  rw [dif_pos hlt']
  exact congrArg (fun b => some (b, c.skip 1)) hb

end Get

/-! ### Laws -/

/-- What is written for the values that fit, and that reading it gives them back. -/
structure Law {α : Type} (c : Codec α) where
  /-- The values that the field can hold. -/
  fits : α → Prop
  /-- What the field claims. -/
  claims : α → Nat
  image : α → List UInt8
  put : ∀ a out, fits a → (c.put a out).data.toList = out.data.toList ++ image a
  get : ∀ a cur, fits a → cur.Reads (image a) →
    c.get cur = (cur.spend (claims a)).map fun cur => (a, cur.skip (image a).length)

namespace Law

open Codec

variable {α β : Type} {c : Codec α} {d : Codec β}

theorem encode_eq (l : Law c) {a : α} (h : l.fits a) : (c.encode a).data.toList = l.image a :=
  (l.put a .empty h).trans (List.nil_append _)

/-- What was written is read back unless it claims too much. -/
theorem run?_eq (l : Law c) {a : α} (h : l.fits a) (allowance : Option Nat) :
    c.get.run? (c.encode a) allowance =
      if allowance.all (l.claims a ≤ ·) then some a else none := by
  have hr : ({ data := c.encode a, allowance } : Cursor).Reads (l.image a) := by
    refine ⟨[], ?_⟩
    rw [List.append_nil]
    exact (l.encode_eq h).symm
  unfold Get.run?
  rw [l.get a _ h hr]
  cases allowance with
  | none => rfl
  | some left =>
    unfold Cursor.spend
    by_cases hl : l.claims a ≤ left <;> simp [hl]

theorem decode?_encode (l : Law c) {a : α} (h : l.fits a) : c.decode? (c.encode a) = some a :=
  l.run?_eq h none

/-- A law for fewer values. -/
def restrict (l : Law c) (fits : α → Prop) (h : ∀ a, fits a → l.fits a) : Law c where
  fits := fits
  claims := l.claims
  image := l.image
  put a out ha := l.put a out (h a ha)
  get a cur ha := l.get a cur (h a ha)

/-! ### Numbers -/

/-- The low bytes of a number, the lowest first. -/
def rawBytes : Nat → Nat → List UInt8
  | 0, _ => []
  | n + 1, value => .ofNat value :: rawBytes n (value / 256)

theorem putRaw_eq (n value : Nat) (out : ByteArray) :
    (putRaw n value out).data.toList = out.data.toList ++ rawBytes n value := by
  induction n generalizing value out with
  | zero => simp [putRaw, rawBytes]
  | succ n ih =>
    rw [putRaw, ih, rawBytes, ByteArray.data_push, Array.toList_push, List.append_assoc]
    rfl

theorem rawBytes_length (n value : Nat) : (rawBytes n value).length = n := by
  induction n generalizing value with
  | zero => rfl
  | succ n ih => rw [rawBytes, List.length_cons, ih]

theorem rawNat_apply (n value : Nat) {cur : Cursor} (h : cur.Reads (rawBytes n value)) :
    Get.rawNat n cur = some (value % 256 ^ n, cur.skip n) := by
  induction n generalizing value cur with
  | zero => rw [Get.rawNat, Get.pure_apply, Nat.pow_zero, Nat.mod_one]; rfl
  | succ n ih =>
    have h' : cur.Reads ([.ofNat value] ++ rawBytes n (value / 256)) := h
    have hn := ih _ h'.right
    rw [List.length_singleton] at hn
    rw [Get.rawNat, Get.bind_apply, Get.rawByte_apply h'.left, Option.bind_some, Get.bind_apply, hn,
      Option.bind_some, Get.pure_apply, Cursor.skip_skip, Nat.add_comm 1 n]
    have hlow : (UInt8.ofNat value).toNat = value % 256 := UInt8.toNat_ofNat' ..
    have hmod : value % 256 ^ (n + 1) = value % 256 + 256 * (value / 256 % 256 ^ n) := by
      rw [Nat.pow_succ, Nat.mul_comm, Nat.mod_mul]
    rw [hlow, hmod]

/-- The bytes of a number. -/
def natBytes (value : Nat) : List UInt8 :=
  if value < 251 then [.ofNat value]
  else if value < 0x10000 then 251 :: rawBytes 2 value
  else if value < 0x100000000 then 252 :: rawBytes 4 value
  else 253 :: rawBytes 8 value

theorem putNat_eq (value : Nat) (out : ByteArray) :
    (putNat value out).data.toList = out.data.toList ++ natBytes value := by
  unfold putNat natBytes
  split_ifs <;> simp [putRaw_eq]

/-- A number behind the tag that says in how many bytes it stands. -/
theorem getNat_tagged {size width value : Nat} {tag : UInt8} {cur : Cursor}
    (hr : cur.Reads (tag :: rawBytes width value)) (hv : value < 256 ^ width)
    (hw : (tag = 251 ∧ width = 2) ∨ (tag = 252 ∧ width = 4 ∧ 4 ≤ size) ∨
      (tag = 253 ∧ width = 8 ∧ 8 ≤ size)) :
    getNat size cur = some (value, cur.skip (width + 1)) := by
  have hr' : cur.Reads ([tag] ++ rawBytes width value) := hr
  have hn := rawNat_apply width value hr'.right
  rw [List.length_singleton, Nat.mod_eq_of_lt hv, Cursor.skip_skip, Nat.add_comm] at hn
  rw [getNat, Get.bind_apply, Get.rawByte_apply hr'.left, Option.bind_some]
  rcases hw with ⟨rfl, rfl⟩ | ⟨rfl, rfl, hs⟩ | ⟨rfl, rfl, hs⟩
  · exact hn
  · simpa [hs] using hn
  · simpa [hs] using hn

theorem getNat_apply {size value : Nat} {cur : Cursor} (hs : size = 2 ∨ size = 4 ∨ size = 8)
    (hv : value < 256 ^ size) (hr : cur.Reads (natBytes value)) :
    getNat size cur = some (value, cur.skip (natBytes value).length) := by
  unfold natBytes at hr ⊢
  split_ifs at hr ⊢ with h1 h2 h4
  · rw [getNat, Get.bind_apply, Get.rawByte_apply hr, Option.bind_some]
    have hlow : (UInt8.ofNat value).toNat = value := by
      rw [UInt8.toNat_ofNat']; exact Nat.mod_eq_of_lt (by omega)
    have hlt : UInt8.ofNat value < 251 := by
      rw [UInt8.lt_iff_toNat_lt, hlow]; exact h1
    rw [if_pos hlt, hlow]
    rfl
  · rw [List.length_cons, rawBytes_length]
    exact getNat_tagged hr (by omega) (.inl ⟨rfl, rfl⟩)
  · rw [List.length_cons, rawBytes_length]
    refine getNat_tagged hr (by omega) (.inr (.inl ⟨rfl, rfl, ?_⟩))
    rcases hs with rfl | rfl | rfl <;> omega
  · rw [List.length_cons, rawBytes_length]
    refine getNat_tagged hr ?_ (.inr (.inr ⟨rfl, rfl, ?_⟩))
    · rcases hs with rfl | rfl | rfl <;> omega
    · rcases hs with rfl | rfl | rfl <;> omega

def number {size : Nat} (hs : size = 2 ∨ size = 4 ∨ size = 8) : Law (Codec.number size) where
  fits value := value < 256 ^ size
  claims _ := size
  image := natBytes
  put value out _ := putNat_eq value out
  get value cur hv hr := by
    show (Get.claim size >>= fun _ => getNat size) cur = _
    rw [Get.bind_apply, Get.claim_apply]
    cases hc : cur.spend size with
    | none => rfl
    | some cur' => exact getNat_apply hs hv (hr.of_spend hc)

def nat16 : Law nat16 := number (.inl rfl)

def nat32 : Law nat32 := number (.inr (.inl rfl))

def nat64 : Law nat64 := number (.inr (.inr rfl))

def byte : Law byte where
  fits _ := True
  claims _ := 1
  image b := [b]
  put b out _ := by simp [Codec.byte]
  get b cur _ hr := by
    show (Get.claim 1 >>= fun _ => Get.rawByte) cur = _
    rw [Get.bind_apply, Get.claim_apply]
    cases hc : cur.spend 1 with
    | none => rfl
    | some cur' => exact Get.rawByte_apply (hr.of_spend hc)

/-! ### Combinators -/

def imap (l : Law c) (view : β → α) (make : α → β) (h : ∀ b, make (view b) = b) :
    Law (c.imap view make) where
  fits b := l.fits (view b)
  claims b := l.claims (view b)
  image b := l.image (view b)
  put b out hb := l.put (view b) out hb
  get b cur hb hr := by
    show (make <$> c.get) cur = _
    rw [Get.map_apply, l.get (view b) cur hb hr, Option.map_map]
    congr 1
    funext cur'
    exact congrArg (·, cur'.skip _) (h b)

def filter (l : Law c) (view : β → α) (make? : α → Option β) (h : ∀ b, make? (view b) = some b) :
    Law (c.filter view make?) where
  fits b := l.fits (view b)
  claims b := l.claims (view b)
  image b := l.image (view b)
  put b out hb := l.put (view b) out hb
  get b cur hb hr := by
    show (c.get >>= fun a => (liftM (make? a) : Get β)) cur = _
    rw [Get.bind_apply, l.get (view b) cur hb hr]
    cases cur.spend (l.claims (view b)) with
    | none => rfl
    | some cur' =>
      show (liftM (make? (view b)) : Get β) (cur'.skip _) = _
      rw [h]; rfl

def pair (l : Law c) (l' : Law d) : Law (c.pair d) where
  fits p := l.fits p.1 ∧ l'.fits p.2
  claims p := l.claims p.1 + l'.claims p.2
  image p := l.image p.1 ++ l'.image p.2
  put p out h := by
    show (d.put p.2 (c.put p.1 out)).data.toList = _
    rw [l'.put _ _ h.2, l.put _ _ h.1, List.append_assoc]
  get p cur h hr := by
    show (c.get >>= fun a => d.get >>= fun b => pure (a, b)) cur = _
    rw [Get.bind_apply, l.get _ _ h.1 hr.left, Cursor.spend_add]
    cases hs : cur.spend (l.claims p.1) with
    | none => rfl
    | some cur' =>
      simp only [Option.map_some, Option.bind_some, Get.bind_apply]
      rw [l'.get _ _ h.2 (hr.of_spend hs).right, Cursor.spend_skip]
      cases cur'.spend (l'.claims p.2) with
      | none => rfl
      | some cur'' =>
        simp only [Option.map_some, Option.bind_some, Get.pure_apply, Cursor.skip_skip,
          List.length_append]

/-- A law for a choice, given what is written and read behind the number of the alternative. -/
def choice {number : α → Nat} {fields : α → ByteArray → ByteArray} {get : Nat → Get α}
    (fits : α → Prop) (claims : α → Nat) (image : α → List UInt8)
    (hn : ∀ a, number a < 256 ^ 4)
    (put : ∀ a out, fits a → (fields a out).data.toList = out.data.toList ++ image a)
    (hget : ∀ a cur, fits a → cur.Reads (image a) →
      get (number a) cur = (cur.spend (claims a)).map fun cur => (a, cur.skip (image a).length)) :
    Law (Codec.choice number fields get) where
  fits := fits
  claims a := 4 + claims a
  image a := natBytes (number a) ++ image a
  put a out ha := by
    show (fields a (Codec.nat32.put (number a) out)).data.toList = _
    rw [put a _ ha, Law.nat32.put _ _ (hn a), List.append_assoc]
    rfl
  get a cur ha hr := by
    have hget₀ := Law.nat32.get (number a) cur (hn a) hr.left
    show (Codec.nat32.get >>= get) cur = _
    rw [Get.bind_apply, hget₀, Cursor.spend_add]
    show ((cur.spend 4).map _).bind _ = _
    cases hs : cur.spend 4 with
    | none => rfl
    | some cur' =>
      simp only [Option.map_some, Option.bind_some]
      show get (number a) (cur'.skip (natBytes (number a)).length) = _
      rw [hget a _ ha (hr.of_spend hs).right, Cursor.spend_skip]
      cases cur'.spend (claims a) with
      | none => rfl
      | some cur'' =>
        simp only [Option.map_some, Cursor.skip_skip, List.length_append]

/-! ### Sequences -/

/-- What a row of fields claims. -/
def claimsAll (l : Law c) (as : List α) : Nat := (as.map l.claims).sum

def bytesAll (l : Law c) (as : List α) : List UInt8 := as.flatMap l.image

theorem putAll_eq (l : Law c) (as : List α) (h : ∀ a ∈ as, l.fits a) (out : ByteArray) :
    (as.foldl (fun out a => c.put a out) out).data.toList = out.data.toList ++ l.bytesAll as := by
  induction as generalizing out with
  | nil => simp [bytesAll]
  | cons a as ih =>
    rw [List.foldl_cons, ih fun b hb => h b (List.mem_cons_of_mem _ hb),
      l.put a out (h a List.mem_cons_self), List.append_assoc]
    rfl

theorem getMany_apply (l : Law c) (as : List α) (h : ∀ a ∈ as, l.fits a) (read : Array α)
    {cur : Cursor} (hr : cur.Reads (l.bytesAll as)) :
    getMany c as.length read cur = (cur.spend (l.claimsAll as)).map fun cur =>
      (read ++ as.toArray, cur.skip (l.bytesAll as).length) := by
  induction as generalizing read cur with
  | nil => simp [getMany, Get.pure_apply, claimsAll, bytesAll]
  | cons a as ih =>
    have hr' : cur.Reads (l.image a ++ l.bytesAll as) := hr
    show (c.get >>= fun a => getMany c as.length (read.push a)) cur = _
    rw [Get.bind_apply, l.get a cur (h a List.mem_cons_self) hr'.left,
      show l.claimsAll (a :: as) = l.claims a + l.claimsAll as from rfl, Cursor.spend_add]
    cases hs : cur.spend (l.claims a) with
    | none => rfl
    | some cur' =>
      simp only [Option.map_some, Option.bind_some]
      rw [ih (fun b hb => h b (List.mem_cons_of_mem _ hb)) _ (hr'.of_spend hs).right,
        Cursor.spend_skip]
      cases cur'.spend (l.claimsAll as) with
      | none => rfl
      | some cur'' =>
        simp only [Option.map_some, Cursor.skip_skip,
          show l.bytesAll (a :: as) = l.image a ++ l.bytesAll as from rfl, List.length_append]
        rw [show read.push a ++ as.toArray = read ++ (a :: as).toArray from
          Array.toList_inj.1 (by simp)]

def vector (n : Nat) (l : Law c) : Law (Codec.vector n c) where
  fits v := ∀ a ∈ v.toList, l.fits a
  claims v := l.claimsAll v.toList
  image v := l.bytesAll v.toList
  put v out h := by
    show (v.foldl (fun out a => c.put a out) out).data.toList = _
    rw [← l.putAll_eq _ h, Vector.foldl, ← Array.foldl_toList]
    rfl
  get v cur h hr := by
    have hm := l.getMany_apply v.toList h #[] hr
    rw [Vector.length_toList] at hm
    show (getMany c n #[] >>= fun read =>
      if h : read.size = n then (pure ⟨read, h⟩ : Get (Vector α n)) else failure) cur = _
    rw [Get.bind_apply, hm]
    cases cur.spend (l.claimsAll v.toList) with
    | none => rfl
    | some cur' =>
      have hv : #[] ++ v.toList.toArray = v.toArray := Array.toList_inj.1 (by simp [Vector.toList])
      simp only [Option.map_some, Option.bind_some, hv]
      rw [dif_pos v.size_toArray]
      rfl

def array (l : Law c) : Law (Codec.array c) where
  fits a := a.size < 256 ^ 8 ∧ ∀ x ∈ a.toList, l.fits x
  claims a := 8 + l.claimsAll a.toList
  image a := natBytes a.size ++ l.bytesAll a.toList
  put a out h := by
    show (a.foldl (fun out a => c.put a out) (Codec.nat64.put a.size out)).data.toList = _
    rw [← Array.foldl_toList, l.putAll_eq _ h.2, Law.nat64.put _ _ h.1, List.append_assoc]
    rfl
  get a cur h hr := by
    have hsize := Law.nat64.get a.size cur h.1 hr.left
    show (Codec.nat64.get >>= fun n => getMany c n #[]) cur = _
    rw [Get.bind_apply, hsize, Cursor.spend_add]
    show ((cur.spend 8).map _).bind _ = _
    cases hs : cur.spend 8 with
    | none => rfl
    | some cur' =>
      have hm := l.getMany_apply a.toList h.2 #[] (hr.of_spend hs).right
      simp only [Option.map_some, Option.bind_some]
      rw [Array.length_toList] at hm
      rw [show (cur'.skip (nat64.image a.size).length) = cur'.skip (natBytes a.size).length from rfl,
        hm, Cursor.spend_skip]
      cases cur'.spend (l.claimsAll a.toList) with
      | none => rfl
      | some cur'' =>
        simp only [Option.map_some, Cursor.skip_skip, List.length_append]
        simp

def list (l : Law c) : Law (Codec.list c) :=
  l.array.imap List.toArray Array.toList fun _ => rfl

/-! ### Common fields -/

def option (l : Law c) : Law c.option where
  fits o := ∀ a, o = some a → l.fits a
  claims o := 1 + o.elim 0 l.claims
  image o := o.elim [0] fun a => 1 :: l.image a
  put o out h := by
    cases o with
    | none => simp [Codec.option]
    | some a =>
      show (c.put a (out.push 1)).data.toList = _
      rw [l.put a _ (h a rfl), ByteArray.data_push, Array.toList_push, List.append_assoc]
      rfl
  get o cur h hr := by
    show (Codec.byte.get >>= fun present =>
      if present == 0 then pure none
      else if present == 1 then some <$> c.get
      else failure) cur = _
    cases o with
    | none =>
      rw [Get.bind_apply, Law.byte.get 0 cur trivial hr]
      show ((cur.spend 1).map _).bind _ = (cur.spend 1).map _
      cases cur.spend 1 <;> rfl
    | some a =>
      have hr' : cur.Reads ([1] ++ l.image a) := hr
      rw [Get.bind_apply, Law.byte.get 1 cur trivial hr'.left, Cursor.spend_add]
      show ((cur.spend 1).map _).bind _ = ((cur.spend 1).bind _).map _
      cases hs : cur.spend 1 with
      | none => rfl
      | some cur' =>
        simp only [Option.map_some, Option.bind_some]
        show (some <$> c.get) (cur'.skip [(1 : UInt8)].length) = _
        rw [Get.map_apply, l.get a _ (h a rfl) (hr'.of_spend hs).right, Cursor.spend_skip]
        show Option.map _ (Option.map _ (Option.map _ (cur'.spend (l.claims a)))) =
          Option.map _ (cur'.spend (l.claims a))
        cases cur'.spend (l.claims a) with
        | none => rfl
        | some cur'' =>
          simp only [Option.map_some, Option.elim_some, List.length_cons, Cursor.skip_skip]
          rw [Nat.add_comm]
          rfl

def bool : Law bool :=
  byte.filter _ _ fun b => by cases b <;> rfl

def word16 : Law word16 :=
  (nat16.imap UInt16.toNat UInt16.ofNat fun _ => UInt16.ofNat_toNat).restrict (fun _ => True)
    fun w _ => w.toNat_lt

def word32 : Law word32 :=
  (nat32.imap UInt32.toNat UInt32.ofNat fun _ => UInt32.ofNat_toNat).restrict (fun _ => True)
    fun w _ => w.toNat_lt

theorem rawBytes_apply (b : ByteArray) (cur : Cursor) (h : cur.Reads b.data.toList)
    (hp : cur.pos ≤ cur.data.size) : Get.rawBytes b.size cur = some (b, cur.skip b.size) := by
  have hsize : b.data.toList.length = b.size := Array.length_toList
  have hle : cur.pos + b.size ≤ cur.data.size := by
    have hl := h.length_le
    have hd : cur.data.data.toList.length = cur.data.size := Array.length_toList
    rw [List.length_drop, hsize, hd] at hl
    omega
  have hb : cur.data.extract cur.pos (cur.pos + b.size) = b := by
    apply ByteArray.ext
    apply Array.toList_inj.1
    obtain ⟨rest, h⟩ := h
    rw [ByteArray.data_extract, Array.toList_extract, List.extract_eq_take_drop, ← h,
      Nat.add_sub_cancel_left, ← hsize, List.take_left]
  unfold Get.rawBytes
  rw [if_pos hle, hb]
  rfl

theorem natBytes_ne_nil (value : Nat) : natBytes value ≠ [] := by
  unfold natBytes; split_ifs <;> simp

def bytes : Law Codec.bytes where
  fits b := b.size < 256 ^ 8
  claims b := 8 + b.size
  image b := natBytes b.size ++ b.data.toList
  put b out h := by
    show (Codec.nat64.put b.size out ++ b).data.toList = _
    rw [ByteArray.data_append, Array.toList_append, Law.nat64.put _ _ h, List.append_assoc]
    rfl
  get b cur h hr := by
    have hsize := Law.nat64.get b.size cur h hr.left
    show (Codec.nat64.get >>= fun n => Get.claim n >>= fun _ => Get.rawBytes n) cur = _
    rw [Get.bind_apply, hsize, Cursor.spend_add]
    show ((cur.spend 8).map _).bind _ = _
    cases hs : cur.spend 8 with
    | none => rfl
    | some cur' =>
      simp only [Option.map_some, Option.bind_some]
      rw [Get.bind_apply, Get.claim_apply, Cursor.spend_skip]
      cases hs' : cur'.spend b.size with
      | none => rfl
      | some cur'' =>
        have hpos : cur.pos + (natBytes b.size).length ≤ cur.data.size :=
          hr.left.le (natBytes_ne_nil _)
        have hread := rawBytes_apply b (cur''.skip (natBytes b.size).length)
          ((hr.of_spend hs).of_spend hs').right (by
            obtain ⟨hd, hp⟩ := Cursor.of_spend hs
            obtain ⟨hd', hp'⟩ := Cursor.of_spend hs'
            simpa [Cursor.skip, hd, hd', hp, hp'] using hpos)
        simp only [Option.map_some, Option.bind_some]
        rw [show nat64.image b.size = natBytes b.size from rfl, hread, Cursor.skip_skip,
          List.length_append]
        rfl

theorem fromUTF8?_toUTF8 (s : String) : String.fromUTF8? s.toUTF8 = some s :=
  dif_pos s.isValidUTF8

def text : Law Codec.text := bytes.filter _ _ fromUTF8?_toUTF8

end Law

end Psx.Snapshot
