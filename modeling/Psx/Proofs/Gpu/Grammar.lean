import Mathlib.Data.List.Induction
import Mathlib.Data.List.Infix
import Mathlib.Tactic.SplitIfs
import Psx.Gpu.Packet

/-!
# The grammar of drawing packets

A stream of words is cut into packets. A packet is a command word and as many parameters as its
opcode asks for (`parameters`); behind those of an image that comes to the port there are the words
of the image, and behind those of a polyline there are words up to the first terminator (`Whole`).
What is left of a stream is a packet that has begun (`Begun`), in which no packet is whole. A word
more goes on with it or ends it (`Cut.goOn`, `Cut.finish`), and no packet is the beginning of
another, so a stream is cut in one way only (`Cut.unique`).

The counts are said here in numbers and by the bits of an opcode; `packetLength_eq` and
`imageWords_eq` tie them to those that the port uses.
-/

namespace Psx.Gpu

/-! ### Counts -/

/-- The words that come behind a command word in any case. A vertex of a polygon is a point and, if
the polygon is textured, a texture coordinate; if it is shaded each vertex but the first has a
colour as well. -/
def parameters (opcode : UInt8) : Nat :=
  let op := opcode.toNat
  if op = 0x02 then 2
  else if op < 0x20 then 0
  else if op < 0x40 then
    let vertices := if op.testBit 3 then 4 else 3
    let points := if op.testBit 2 then 2 * vertices else vertices
    if op.testBit 4 then points + vertices - 1 else points
  else if op < 0x60 then if op.testBit 4 then 3 else 2
  else if op < 0x80 then
    1 + (if op.testBit 2 then 1 else 0) + (if op.testBit 3 || op.testBit 4 then 0 else 1)
  else if op < 0xA0 then 3
  else if op < 0xE0 then 2
  else 0

def isPolyline (opcode : UInt8) : Bool :=
  0x40 ≤ opcode.toNat && opcode.toNat < 0x60 && opcode.toNat.testBit 3

/-- A copy of an image from the host. -/
def isUpload (opcode : UInt8) : Bool := 0xA0 ≤ opcode.toNat && opcode.toNat < 0xC0

/-- A copy of an image to the host. -/
def isDownload (opcode : UInt8) : Bool := 0xC0 ≤ opcode.toNat && opcode.toNat < 0xE0

/-- A width or a height, where nothing stands for all there is. -/
def extent (all n : Nat) : Nat := if n % all = 0 then all else n % all

/-- The words of an image, given its size word. -/
def dataWords (size : UInt32) : Nat :=
  (extent 1024 (size.toNat % 0x10000) * extent 512 (size.toNat / 0x10000) + 1) / 2

theorem packetLength_eq (opcode : UInt8) : packetLength opcode = if isPolyline opcode then
    .polyline (parameters opcode) else .words (parameters opcode + 1) := by
  have h : ∀ n < 256, packetLength (.ofNat n) = if isPolyline (.ofNat n) then
      .polyline (parameters (.ofNat n)) else .words (parameters (.ofNat n) + 1) := by decide +kernel
  rw [← UInt8.ofNat_toNat (x := opcode)]
  exact h _ opcode.toNat_lt

/-- Taking one away first makes nothing wrap around to all there is. -/
theorem extent_eq (x : UInt32) {all : Nat} (h : all = 512 ∨ all = 1024) :
    ((x - 1) &&& .ofNat (all - 1)).toNat + 1 = extent all x.toNat := by
  have hx := x.toNat_lt
  have hmask : ∀ n : Nat, n &&& (UInt32.ofNat (all - 1)).toNat = n % all := by
    rcases h with rfl | rfl
    · exact fun n => Nat.and_two_pow_sub_one_eq_mod n 9
    · exact fun n => Nat.and_two_pow_sub_one_eq_mod n 10
  rw [UInt32.toNat_and, UInt32.toNat_sub, hmask]
  unfold extent
  rcases h with rfl | rfl <;> split_ifs <;> simp at * <;> omega

theorem imageWords_eq (size : UInt32) : imageWords size = dataWords size := by
  have hw : (size &&& 0xFFFF).toNat = size.toNat % 0x10000 := by
    rw [UInt32.toNat_and]; exact Nat.and_two_pow_sub_one_eq_mod _ 16
  have hh : (size >>> 16).toNat = size.toNat / 0x10000 := by
    rw [UInt32.toNat_shiftRight]; exact Nat.shiftRight_eq_div_pow _ _
  unfold imageWords dataWords
  rw [← hw, ← hh]
  exact congrArg (fun n => (n + 1) / 2) (congrArg₂ (· * ·)
    (extent_eq (size &&& 0xFFFF) (.inr rfl)) (extent_eq (size >>> 16) (.inl rfl)))

theorem extent_bounds (all n : Nat) (h : 0 < all) :
    1 ≤ extent all n ∧ extent all n ≤ all := by
  have := Nat.mod_lt n h
  unfold extent
  split_ifs <;> omega

/-- An image has a word at least, and fits in the memory of the chip. -/
theorem dataWords_bounds (size : UInt32) : 1 ≤ dataWords size ∧ dataWords size ≤ 262144 := by
  obtain ⟨hw, hw'⟩ := extent_bounds 1024 (size.toNat % 0x10000) (by decide)
  obtain ⟨hh, hh'⟩ := extent_bounds 512 (size.toNat / 0x10000) (by decide)
  have h := Nat.mul_le_mul hw hh
  have h' := Nat.mul_le_mul hw' hh'
  unfold dataWords
  omega

/-- An image has its place and its size as parameters, whichever way it is copied. -/
theorem parameters_image {opcode : UInt8} (h : isUpload opcode ∨ isDownload opcode) :
    parameters opcode = 2 ∧ isPolyline opcode = false := by
  unfold isUpload isDownload at h
  unfold parameters isPolyline
  simp only [Bool.and_eq_true, decide_eq_true_eq] at h
  constructor
  · dsimp only
    rw [if_neg (by omega), if_neg (by omega), if_neg (by omega), if_neg (by omega),
      if_neg (by omega), if_neg (by omega), if_pos (by omega)]
  · rw [decide_eq_false (p := opcode.toNat < 0x60) (by omega)]
    simp

/-! ### Packets -/

/-- The words are a packet from its command word to its last word. -/
inductive Whole : List UInt32 → Prop where
  | command (first : UInt32) (params : List UInt32)
      (hline : isPolyline (Packet.opcodeOf first) = false)
      (himage : isUpload (Packet.opcodeOf first) = false)
      (hparams : params.length = parameters (Packet.opcodeOf first)) : Whole (first :: params)
  | upload (first position size : UInt32) (data : List UInt32)
      (himage : isUpload (Packet.opcodeOf first) = true)
      (hdata : data.length = dataWords size) : Whole (first :: position :: size :: data)
  | polyline (first : UInt32) (params more : List UInt32) (last : UInt32)
      (hline : isPolyline (Packet.opcodeOf first) = true)
      (hparams : params.length = parameters (Packet.opcodeOf first))
      (hmore : ∀ word ∈ more, isTerminator word = false)
      (hlast : isTerminator last = true) : Whole (first :: (params ++ more ++ [last]))

/-- The words behind a command word that is not one of a polyline, as far as those that have come
tell. Of an image one word more is due than its place and size as long as the size has not come. -/
def due (first : UInt32) (params : List UInt32) : Nat :=
  if isUpload (Packet.opcodeOf first) then 2 + params[1]?.elim 1 dataWords
  else parameters (Packet.opcodeOf first)

/-- The words are nothing or the beginning of a packet that has not come to its end. -/
def Begun : List UInt32 → Prop
  | [] => True
  | first :: params =>
    if isPolyline (Packet.opcodeOf first) then
      ∀ word ∈ params.drop (parameters (Packet.opcodeOf first)), isTerminator word = false
    else params.length < due first params

section
variable {first word : UInt32} {params more l : List UInt32}

theorem not_whole_nil : ¬ Whole [] := nofun

theorem begun_cons (h : isPolyline (Packet.opcodeOf first) = false) :
    Begun (first :: params) ↔ params.length < due first params := by
  rw [Begun, if_neg (by simp [h])]

theorem begun_polyline (h : isPolyline (Packet.opcodeOf first) = true) :
    Begun (first :: params) ↔
      ∀ word ∈ params.drop (parameters (Packet.opcodeOf first)), isTerminator word = false := by
  rw [Begun, if_pos h]

theorem three_le_due (h : isUpload (Packet.opcodeOf first) = true) (params : List UInt32) :
    3 ≤ due first params := by
  unfold due
  rw [if_pos h]
  cases params[1]? with
  | none => exact Nat.le_refl 3
  | some size => exact Nat.add_le_add_left (dataWords_bounds size).1 2

/-- More words change what is due only where the size of an image comes with them. -/
theorem due_append (first : UInt32) (params more : List UInt32) :
    due first (params ++ more) = due first params ∨
      params.length < 2 ∧ due first params = 3 ∧ 3 ≤ due first (params ++ more) := by
  cases himage : isUpload (Packet.opcodeOf first) with
  | true =>
    have hmore := three_le_due himage (params ++ more)
    unfold due at hmore ⊢
    simp only [himage, if_true] at hmore ⊢
    by_cases h : 1 < params.length
    · exact .inl (by rw [List.getElem?_append_left h])
    · rw [List.getElem?_eq_none (l := params) (by omega)]
      exact .inr ⟨by omega, rfl, hmore⟩
  | false =>
    unfold due
    simp [himage]

theorem whole_cons (h : isPolyline (Packet.opcodeOf first) = false) :
    Whole (first :: params) ↔ params.length = due first params := by
  unfold due
  constructor
  · rintro (⟨_, _, _, himage, hparams⟩ | ⟨_, position, size, data, himage, hdata⟩ |
      ⟨_, _, _, _, hline, _, _, _⟩)
    · rw [if_neg (by simp [himage]), hparams]
    · rw [if_pos himage]
      simp [hdata]; omega
    · rw [h] at hline; cases hline
  · intro hlen
    split_ifs at hlen with himage
    · match params, hlen with
      | [], hlen => simp at hlen
      | [_], hlen => simp at hlen
      | position :: size :: data, hlen =>
        refine .upload first position size data himage ?_
        simp at hlen; omega
    · exact .command first params h (by simpa using himage) hlen

theorem whole_polyline (h : isPolyline (Packet.opcodeOf first) = true) :
    Whole (first :: params) ↔ ∃ more last, params.drop (parameters (Packet.opcodeOf first)) =
      more ++ [last] ∧ (∀ word ∈ more, isTerminator word = false) ∧ isTerminator last = true := by
  constructor
  · rintro (⟨_, _, hline, _, _⟩ | ⟨_, _, _, _, himage, _⟩ |
      ⟨_, params, more, last, _, hparams, hmore, hlast⟩)
    · rw [h] at hline; cases hline
    · rw [(parameters_image (.inl himage)).2] at h; cases h
    · refine ⟨more, last, ?_, hmore, hlast⟩
      rw [← hparams, List.append_assoc, List.drop_left]
  · rintro ⟨more, last, hdrop, hmore, hlast⟩
    have hlen := congrArg List.length hdrop
    rw [List.length_drop, List.length_append, List.length_singleton] at hlen
    rw [← List.take_append_drop (parameters (Packet.opcodeOf first)) params, hdrop,
      ← List.append_assoc]
    exact .polyline first _ more last h (by rw [List.length_take]; omega) hmore hlast

/-- A packet that has begun is not whole yet. -/
theorem Begun.not_whole (h : Begun l) : ¬ Whole l := by
  match l, h with
  | [], _ => exact not_whole_nil
  | first :: params, h =>
    cases hline : isPolyline (Packet.opcodeOf first) with
    | false =>
      rw [whole_cons hline]
      rw [begun_cons hline] at h
      omega
    | true =>
      rw [whole_polyline hline]
      rw [begun_polyline hline] at h
      rintro ⟨more, last, hdrop, -, hlast⟩
      rw [h last (by simp [hdrop])] at hlast
      cases hlast

theorem Begun.of_append (h : Begun (l ++ more)) : Begun l := by
  match l with
  | [] => trivial
  | first :: params =>
    cases hline : isPolyline (Packet.opcodeOf first) with
    | false =>
      rw [List.cons_append, begun_cons hline, List.length_append] at h
      rw [begun_cons hline]
      have := due_append first params more
      omega
    | true =>
      rw [List.cons_append, begun_polyline hline] at h
      rw [begun_polyline hline]
      intro word hw
      exact h word (by rw [List.drop_append]; exact List.mem_append_left _ hw)

theorem drop_concat (n : Nat) (params : List UInt32) (word : UInt32) :
    params.length < n ∧ (params ++ [word]).drop n = [] ∨
      n ≤ params.length ∧ (params ++ [word]).drop n = params.drop n ++ [word] := by
  rcases Nat.lt_or_ge params.length n with h | h
  · exact .inl ⟨h, List.drop_eq_nil_of_le (by simp; omega)⟩
  · exact .inr ⟨h, List.drop_append_of_le_length h⟩

/-- The next word goes on with a packet that has begun, or is its last. -/
theorem Begun.step (h : Begun l) (word : UInt32) : Begun (l ++ [word]) ∨ Whole (l ++ [word]) := by
  match l with
  | [] =>
    cases hline : isPolyline (Packet.opcodeOf word) with
    | false =>
      rw [List.nil_append, begun_cons hline, whole_cons hline, List.length_nil]
      omega
    | true => exact .inl ((begun_polyline hline).2 (by simp))
  | first :: params =>
    rw [List.cons_append]
    cases hline : isPolyline (Packet.opcodeOf first) with
    | false =>
      rw [begun_cons hline] at h
      rw [begun_cons hline, whole_cons hline, List.length_append, List.length_singleton]
      have := due_append first params [word]
      omega
    | true =>
      rw [begun_polyline hline] at h
      rw [begun_polyline hline, whole_polyline hline]
      rcases drop_concat (parameters (Packet.opcodeOf first)) params word with
        ⟨-, hdrop⟩ | ⟨-, hdrop⟩ <;> rw [hdrop]
      · exact .inl (by simp)
      · cases hlast : isTerminator word with
        | false =>
          refine .inl fun w hw => ?_
          rcases List.mem_append.1 hw with hw | hw
          · exact h w hw
          · rw [List.mem_singleton.1 hw, hlast]
        | true => exact .inr ⟨_, word, rfl, h, hlast⟩

/-- But for its last word a packet has only begun. -/
theorem Whole.begun (h : Whole (l ++ [word])) : Begun l := by
  match l with
  | [] => trivial
  | first :: params =>
    rw [List.cons_append] at h
    cases hline : isPolyline (Packet.opcodeOf first) with
    | false =>
      rw [whole_cons hline, List.length_append, List.length_singleton] at h
      rw [begun_cons hline]
      have := due_append first params [word]
      omega
    | true =>
      obtain ⟨more, last, heq, hmore, -⟩ := (whole_polyline hline).1 h
      rw [begun_polyline hline]
      rcases drop_concat (parameters (Packet.opcodeOf first)) params word with
        ⟨hlt, hdrop⟩ | ⟨-, hdrop⟩
      · rw [List.drop_eq_nil_of_le hlt.le]
        simp
      · rw [hdrop] at heq
        rw [(List.append_inj' heq rfl).1]
        exact hmore

end

/-- What has begun is what no packet is whole in. -/
theorem begun_iff {l : List UInt32} : Begun l ↔ ∀ p, p <+: l → ¬ Whole p := by
  constructor
  · rintro h p ⟨more, rfl⟩
    exact h.of_append.not_whole
  · intro h
    induction l using List.reverseRecOn with
    | nil => trivial
    | append_singleton l word ih =>
      have hl : Begun l := ih fun p hp => h p (hp.trans (List.prefix_append l [word]))
      exact (hl.step word).resolve_right (h _ List.prefix_rfl)

/-- Of two packets at the head of a stream neither is longer. -/
theorem Whole.eq_of_prefix {p q : List UInt32} (hp : Whole p) (hq : Whole q) (h : p <+: q) :
    p = q := by
  induction q using List.reverseRecOn with
  | nil => exact absurd hq not_whole_nil
  | append_singleton l word =>
    rcases List.prefix_concat_iff.1 h with heq | hpre
    · exact heq
    · exact absurd hp (begun_iff.1 hq.begun p hpre)

/-! ### Streams -/

/-- The stream is the packets one behind the other, and what is left of it, in which no packet is
whole. -/
structure Cut (words : List UInt32) (packets : List (List UInt32)) (rest : List UInt32) : Prop where
  joined : packets.flatten ++ rest = words
  whole : ∀ p ∈ packets, Whole p
  unfinished : ∀ p, p <+: rest → ¬ Whole p

namespace Cut

variable {words rest rest' : List UInt32} {packets : List (List UInt32)} {word : UInt32}

theorem nil : Cut [] [] [] := ⟨rfl, nofun, begun_iff.1 trivial⟩

theorem begun (h : Cut words packets rest) : Begun rest := begun_iff.2 h.unfinished

theorem goOn (h : Cut words packets rest) (hb : Begun (rest ++ [word])) :
    Cut (words ++ [word]) packets (rest ++ [word]) :=
  ⟨by rw [← h.joined, List.append_assoc], h.whole, begun_iff.1 hb⟩

theorem finish (h : Cut words packets rest) (hw : Whole (rest ++ [word])) :
    Cut (words ++ [word]) (packets ++ [rest ++ [word]]) [] where
  joined := by simp [← h.joined]
  whole p hp := by
    rcases List.mem_append.1 hp with hp | hp
    · exact h.whole p hp
    · rw [List.mem_singleton.1 hp]; exact hw
  unfinished := nil.unfinished

/-- Behind the first packet the rest of the stream is cut. -/
theorem tail {p : List UInt32} (h : Cut words (p :: packets) rest) :
    ∃ more, words = p ++ more ∧ Cut more packets rest :=
  ⟨packets.flatten ++ rest, by rw [← h.joined, List.flatten_cons, List.append_assoc],
    rfl, fun q hq => h.whole q (List.mem_cons_of_mem p hq), h.unfinished⟩

/-- A stream in which no packet is whole has no first packet. -/
theorem rest_of_nil {p : List UInt32} (h : Cut words [] rest)
    (h' : Cut words (p :: packets) rest') : False := by
  obtain ⟨more, rfl, -⟩ := h'.tail
  have hrest : rest = p ++ more := h.joined
  exact h.unfinished p ⟨more, hrest.symm⟩ (h'.whole p List.mem_cons_self)

theorem unique {packets' : List (List UInt32)} (h : Cut words packets rest)
    (h' : Cut words packets' rest') : packets' = packets ∧ rest' = rest := by
  induction packets generalizing words packets' with
  | nil =>
    cases packets' with
    | nil => exact ⟨rfl, h'.joined.trans h.joined.symm⟩
    | cons p packets' => exact (h.rest_of_nil h').elim
  | cons q packets ih =>
    cases packets' with
    | nil => exact (h'.rest_of_nil h).elim
    | cons p packets' =>
      have hq := h.whole q List.mem_cons_self
      have hp := h'.whole p List.mem_cons_self
      obtain ⟨more, rfl, hmore⟩ := h.tail
      obtain ⟨more', heq, hmore'⟩ := h'.tail
      have hpre : p <+: q ++ more := ⟨more', heq.symm⟩
      obtain rfl : p = q := by
        rcases List.prefix_or_prefix_of_prefix hpre (List.prefix_append q more) with hpq | hqp
        · exact hp.eq_of_prefix hq hpq
        · exact (hq.eq_of_prefix hp hqp).symm
      rw [List.append_cancel_left heq] at hmore
      obtain ⟨rfl, rfl⟩ := ih hmore hmore'
      exact ⟨rfl, rfl⟩

end Cut

end Psx.Gpu
