import Mathlib.Logic.Function.Iterate
import Psx.Proofs.Dma.Blocks
import Psx.Proofs.Memory.Bytes

/-!
# What a slice is going to do

The words that a slice reads, the places that it stores to and the registers that it leaves follow
from the registers of its channel and from RAM; no device has a say in it. `Channel.plan` is all of
that as data, and `Channel.touches` the words of RAM that it concerns: a plan does not depend on what
is elsewhere (`Channel.plan_congr`).

`Channel.Covers` is the range of a whole transfer: what is left of its blocks, the table, or all nodes
of its list. A slice stays within the range, and what it leaves has no other one
(`Channel.covers_of_touches`, `Channel.covers_of_after`).
-/

namespace Psx

/-- Two memories hold the same in the words at some places. -/
def Bytes.Agree (places : Nat → Prop) (a b : ByteArray) : Prop :=
  ∀ q, places q → ∀ k < 4, byteAt a (q + k) = byteAt b (q + k)

theorem Bytes.Agree.load {places : Nat → Prop} {a b : ByteArray} (h : Agree places a b) {q : Nat}
    (hq : places q) : Bytes.load a q .word = Bytes.load b q .word :=
  load_congr (h q hq)

theorem Bytes.Agree.mono {places places' : Nat → Prop} {a b : ByteArray} (h : Agree places a b)
    (hle : ∀ q, places' q → places q) : Agree places' a b := fun q hq => h q (hle q hq)

namespace Dma

/-! ### Places -/

/-- Where in RAM the word is that an address names. -/
def placeOf (address : UInt32) : Nat := (address &&& ramWordMask).toNat

theorem placeOf_eq (a : UInt32) : placeOf a = a.toNat % 0x200000 / 4 * 4 := by
  have hbits : a.toNat &&& (2 ^ 19 - 1) <<< 2 = (a.toNat % 2 ^ 21) >>> 2 <<< 2 := by
    apply Nat.eq_of_testBit_eq
    intro i
    rw [Nat.testBit_and, Nat.testBit_shiftLeft, Nat.testBit_shiftLeft, Nat.testBit_shiftRight,
      Nat.testBit_two_pow_sub_one, Nat.testBit_mod_two_pow]
    by_cases hi : 2 ≤ i
    · rw [show 2 + (i - 2) = i by omega, decide_eq_true hi, Bool.true_and, Bool.true_and,
        Bool.and_comm]
      congr 1
      exact decide_eq_decide.2 (by omega)
    · rw [decide_eq_false hi, Bool.false_and, Bool.false_and, Bool.and_false]
  unfold placeOf
  rw [UInt32.toNat_and, show ramWordMask.toNat = (2 ^ 19 - 1) <<< 2 from rfl, hbits,
    Nat.shiftLeft_eq, Nat.shiftRight_eq_div_pow]
  rfl

theorem placeOf_mod_four (a : UInt32) : placeOf a % 4 = 0 := by
  rw [placeOf_eq]
  omega

theorem placeOf_lt (a : UInt32) : placeOf a < Address.ramSize := by
  rw [placeOf_eq]
  unfold Address.ramSize
  omega

/-! ### Lists -/

section

variable (ram : ByteArray) (p : UInt32)

/-- The first word of the node that a pointer names. -/
def header : UInt32 := Bytes.load ram (placeOf p) .word

/-- How many words follow the header. -/
def nodeSize : Nat := (header ram p >>> 24).toNat

/-- Where a word of a node is, which may go on at the start of RAM. -/
def nodePlace (k : Nat) : Nat := (placeOf p + 4 * k) % Address.ramSize

/-- The words that follow the header. -/
def payload : List UInt32 :=
  (List.range' 1 (nodeSize ram p)).map fun k => Bytes.load ram (nodePlace p k) .word

def link : UInt32 := header ram p &&& addressMask

def ends : Bool := link ram p &&& endOfList != 0

/-- The first nodes of a list, up to the one that ends it. -/
def nodes (ram : ByteArray) : UInt32 → Nat → List UInt32
  | _, 0 => []
  | p, n + 1 => p :: if ends ram p then [] else nodes ram (link ram p) n

/-- The pointers come one after another, each read from the node of the one before it, and there are
none behind a node that ends the list. -/
theorem getElem?_nodes {n k : Nat} {x : UInt32} : (nodes ram p n)[k]? = some x ↔
    k < n ∧ (∀ j < k, ends ram ((link ram)^[j] p) = false) ∧ x = (link ram)^[k] p := by
  induction n generalizing p k with
  | zero => simp [nodes]
  | succ n ih =>
    rw [nodes]
    cases k with
    | zero =>
      rw [List.getElem?_cons_zero, Option.some.injEq]
      exact ⟨fun h => ⟨Nat.succ_pos n, fun j hj => absurd hj (Nat.not_lt_zero j), h.symm⟩,
        fun h => h.2.2.symm⟩
    | succ k =>
      rw [List.getElem?_cons_succ, Nat.add_lt_add_iff_right, Nat.forall_lt_succ_left]
      simp only [Function.iterate_succ_apply, Function.iterate_zero_apply]
      cases hends : ends ram p with
      | true => simp
      | false => simpa using ih (link ram p)

/-- A list that has come back to a pointer goes on for ever. -/
theorem ends_of_cycle {ram : ByteArray} {p : UInt32} {j k : Nat} (hjk : j < k)
    (hcycle : (link ram)^[j] p = (link ram)^[k] p)
    (h : ∀ m < k, ends ram ((link ram)^[m] p) = false) (m : Nat) :
    ends ram ((link ram)^[m] p) = false := by
  induction m using Nat.strongRecOn with
  | _ m ih =>
    by_cases hm : m < k
    · exact h m hm
    · -- one round of the cycle earlier
      have hearlier := ih (m - (k - j)) (by omega)
      rwa [show m - (k - j) = (m - k) + j by omega, Function.iterate_add_apply, hcycle,
        ← Function.iterate_add_apply, Nat.sub_add_cancel (Nat.le_of_not_lt hm)] at hearlier

/-- As long as no node ends the list, there are as many nodes as one asks for. -/
theorem nodes_endless {ram : ByteArray} {p : UInt32}
    (h : ∀ m, ends ram ((link ram)^[m] p) = false) (n : Nat) :
    (nodes ram p n).length = n ∧ ∀ q ∈ nodes ram p n, ends ram q = false := by
  have hlookup : ∀ k q, (nodes ram p n)[k]? = some q ↔ k < n ∧ q = (link ram)^[k] p := fun k q =>
    (getElem?_nodes ram p).trans (and_congr_right fun _ => and_iff_right fun j _ => h j)
  constructor
  · refine Nat.le_antisymm ?_ ?_
    · refine List.getElem?_eq_none_iff.1 (Option.eq_none_iff_forall_ne_some.2 fun q hq => ?_)
      exact Nat.lt_irrefl n ((hlookup n q).1 hq).1
    · by_contra hlt
      have hsome := (hlookup _ _).2 ⟨Nat.lt_of_not_le hlt, rfl⟩
      rw [List.getElem?_eq_none (Nat.le_refl _)] at hsome
      cases hsome
  · intro q hq
    obtain ⟨k, hk⟩ := List.mem_iff_getElem?.1 hq
    rw [((hlookup k q).1 hk).2]
    exact h k

theorem nodePlace_zero : nodePlace p 0 = placeOf p := Nat.mod_eq_of_lt (placeOf_lt p)

theorem nodePlace_mod_four (k : Nat) : nodePlace p k % 4 = 0 := by
  have := placeOf_mod_four p
  unfold nodePlace Address.ramSize
  omega

end

/-! ### Tables -/

/-- Where an entry of an ordering table is, counted from the first one that is cleared. -/
def tablePlace (address : UInt32) (k : Nat) : Nat := placeOf (address - UInt32.ofNat (4 * k))

/-- The links of a cleared ordering table of so many entries. -/
def tableLinks (address : UInt32) (n : Nat) : List UInt32 :=
  (List.range n).map fun k =>
    tableLink ((address - UInt32.ofNat (4 * k)) &&& ramWordMask) (k + 1 == n)

/-! ### Plans -/

/-- What a slice does: it hands words to the device that serves the channel or takes some from it,
stores at some places what it has taken and links of its own, and leaves the channel with other
registers. -/
structure Plan where
  consumed : List UInt32 := []
  produced : Nat := 0
  places : List Nat := []
  links : List UInt32 := []
  words : Nat
  completed : Bool
  channel : Channel

/-- The channel when the slice is over. -/
def Plan.after (q : Plan) : Channel := if q.completed then q.channel.finish else q.channel

namespace Channel

variable (c : Channel) (ram : ByteArray)

def plan : Progress → Plan
  | .blocks wordsLeft blocksLeft =>
    let n := c.chunk wordsLeft
    let places := (List.range' 0 n).map c.wordAt
    let r := (c.advanced n).afterChunk wordsLeft blocksLeft n
    match c.direction with
    | .fromRam =>
      { consumed := places.map (Bytes.load ram · .word), words := n, completed := r.2, channel := r.1 }
    | .toRam => { produced := n, places, words := n, completed := r.2, channel := r.1 }
  | .linkedList =>
    { consumed := payload ram c.address
      words := nodeSize ram c.address + 1
      completed := ends ram c.address
      channel := { c with address := link ram c.address } }
  | .orderingTable n =>
    { places := (List.range n).map (tablePlace c.address)
      links := tableLinks c.address n
      words := n
      completed := true
      channel := { c with address := (c.address - UInt32.ofNat (4 * n)) &&& ramWordMask } }

/-- The words of RAM that a slice reads or stores. -/
def touches : Progress → List Nat
  | .blocks wordsLeft _ => (List.range' 0 (c.chunk wordsLeft)).map c.wordAt
  | .linkedList => (List.range (nodeSize ram c.address + 1)).map (nodePlace c.address)
  | .orderingTable n => (List.range n).map (tablePlace c.address)

variable {c ram} {ram' : ByteArray} {p : Progress} {q : Nat}

theorem touches_mod_four (h : q ∈ c.touches ram p) : q % 4 = 0 := by
  cases p with
  | blocks | linkedList | orderingTable =>
    obtain ⟨k, -, rfl⟩ := List.mem_map.1 h
    first | exact placeOf_mod_four _ | exact nodePlace_mod_four ..

theorem mem_touches_of_places (h : q ∈ (c.plan ram p).places) : q ∈ c.touches ram p := by
  cases p with
  | blocks wordsLeft blocksLeft =>
    unfold plan at h
    dsimp only at h
    split at h
    · cases h
    · exact h
  | linkedList => cases h
  | orderingTable n => exact h

/-- A plan depends on nothing but the words that it touches. -/
theorem plan_congr (h : Bytes.Agree (· ∈ c.touches ram p) ram' ram) :
    c.plan ram' p = c.plan ram p ∧ c.touches ram' p = c.touches ram p := by
  cases p with
  | blocks wordsLeft blocksLeft =>
    have hwords : ((List.range' 0 (c.chunk wordsLeft)).map c.wordAt).map (Bytes.load ram' · .word) =
        ((List.range' 0 (c.chunk wordsLeft)).map c.wordAt).map (Bytes.load ram · .word) :=
      List.map_congr_left fun q hq => h.load hq
    refine ⟨?_, rfl⟩
    unfold plan
    dsimp only
    rw [hwords]
  | linkedList =>
    -- the header tells how many words there are
    have hplace : ∀ k < nodeSize ram c.address + 1,
        Bytes.load ram' (nodePlace c.address k) .word =
          Bytes.load ram (nodePlace c.address k) .word :=
      fun k hk => h.load (List.mem_map.2 ⟨k, List.mem_range.2 hk, rfl⟩)
    have hheader : header ram' c.address = header ram c.address := by
      have := hplace 0 (Nat.succ_pos _)
      rwa [nodePlace_zero] at this
    have hsize : nodeSize ram' c.address = nodeSize ram c.address := by
      unfold nodeSize
      rw [hheader]
    have hpayload : payload ram' c.address = payload ram c.address := by
      unfold payload
      rw [hsize]
      refine List.map_congr_left fun k hk => hplace k ?_
      have := (List.mem_range'_1.1 hk).2
      omega
    unfold plan touches ends link
    rw [hheader, hsize, hpayload]
    exact ⟨rfl, rfl⟩
  | orderingTable n => exact ⟨rfl, rfl⟩

/-! ### Ranges -/

/-- The words of RAM that what is left of a transfer reads or stores. -/
def Covers (c : Channel) (ram : ByteArray) (q : Nat) : Prop :=
  match c.progress with
  | none => False
  | some (.blocks wordsLeft blocksLeft) =>
    ∃ k < wordsLeft + (blocksLeft - 1) * c.blockSize, q = c.wordAt k
  | some .linkedList =>
    ∃ n, ∃ p ∈ nodes ram c.address n, ∃ k ≤ nodeSize ram p, q = nodePlace p k
  | some (.orderingTable n) => ∃ k < n, q = tablePlace c.address k

/-- A transfer along a list ends if one of its nodes does. -/
def Ends (c : Channel) (ram : ByteArray) : Prop :=
  c.progress = some .linkedList → ∃ n, ∃ p ∈ nodes ram c.address n, ends ram p = true

theorem covers_mod_four (h : c.Covers ram q) : q % 4 = 0 := by
  unfold Covers at h
  split at h
  · exact h.elim
  · obtain ⟨k, -, rfl⟩ := h
    exact placeOf_mod_four _
  · obtain ⟨n, p, -, k, -, rfl⟩ := h
    exact nodePlace_mod_four p k
  · obtain ⟨k, -, rfl⟩ := h
    exact placeOf_mod_four _

theorem covers_of_touches (hp : c.progress = some p) (h : q ∈ c.touches ram p) :
    c.Covers ram q := by
  unfold Covers
  rw [hp]
  cases p with
  | blocks wordsLeft blocksLeft =>
    obtain ⟨k, hk, rfl⟩ := List.mem_map.1 h
    have hlt := (List.mem_range'_1.1 hk).2
    have hle := c.chunk_le wordsLeft
    exact ⟨k, by omega, rfl⟩
  | linkedList =>
    obtain ⟨k, hk, rfl⟩ := List.mem_map.1 h
    exact ⟨1, c.address, List.mem_cons_self, k, Nat.le_of_lt_succ (List.mem_range.1 hk), rfl⟩
  | orderingTable n =>
    obtain ⟨k, hk, rfl⟩ := List.mem_map.1 h
    exact ⟨k, List.mem_range.1 hk, rfl⟩

/-- A chunk is the last one and all that was left, or it leaves the rest of the blocks. -/
theorem afterChunk_left (d : Channel) {wordsLeft blocksLeft chunk : Nat} (hb : 0 < blocksLeft)
    (hle : chunk ≤ wordsLeft) :
    let r := d.afterChunk wordsLeft blocksLeft chunk
    r.1.address = d.address ∧ r.1.control = d.control ∧ r.1.blockSize = d.blockSize ∧
      (r.2 = true ∧ chunk = wordsLeft + (blocksLeft - 1) * d.blockSize ∨
        r.2 = false ∧ ∃ wordsLeft' blocksLeft', r.1.progress = some (.blocks wordsLeft' blocksLeft') ∧
          (Progress.blocks wordsLeft' blocksLeft').Sound ∧
          chunk + (wordsLeft' + (blocksLeft' - 1) * d.blockSize) =
            wordsLeft + (blocksLeft - 1) * d.blockSize) := by
  have hcount : ∀ n, countOf (withCount d.blockControl n &&& 0xFFFF) = d.blockSize := fun n =>
    congrArg countOf (withCount_and ..)
  have hsize : ∀ n, ({ d with blockControl := withCount d.blockControl n } : Channel).blockSize =
      d.blockSize := hcount
  have hpos : 0 < d.blockSize := countOf_pos _
  dsimp only
  unfold afterChunk
  by_cases hmore : wordsLeft - chunk ≠ 0
  · -- within the block
    rw [if_pos hmore]
    exact ⟨rfl, rfl, rfl, .inr ⟨decide_eq_false (by omega), _, _, rfl, ⟨by omega, hb⟩, by omega⟩⟩
  · rw [if_neg hmore]
    dsimp only
    by_cases hlast : blocksLeft - 1 = 0
    · have hall : chunk = wordsLeft + (blocksLeft - 1) * d.blockSize := by
        rw [hlast, Nat.zero_mul]
        omega
      rw [if_pos hlast]
      refine ⟨?_, ?_, ?_, .inl ⟨rfl, hall⟩⟩ <;> split <;> first | rfl | exact hsize _
    · -- the next block is a whole one
      obtain ⟨k, hk⟩ := Nat.exists_eq_add_of_le (Nat.pos_of_ne_zero hlast)
      have hrest : (blocksLeft - 1) * d.blockSize =
          d.blockSize + (blocksLeft - 1 - 1) * d.blockSize := by
        rw [hk, Nat.add_sub_cancel_left, Nat.add_mul, Nat.one_mul]
      rw [if_neg hlast]
      split
      · refine ⟨rfl, rfl, hsize _, .inr ⟨rfl, _, _, rfl, ⟨?_, by omega⟩, ?_⟩⟩
        · exact (hsize _).symm ▸ hpos
        · rw [hsize]
          omega
      · exact ⟨rfl, rfl, rfl, .inr ⟨rfl, _, _, rfl, ⟨hpos, by omega⟩, by omega⟩⟩

/-- What a slice leaves of the blocks: nothing, if it is the last one, or fewer words, which are the
last ones. -/
theorem after_blocks (c : Channel) (ram : ByteArray) {wordsLeft blocksLeft : Nat}
    (hs : (Progress.blocks wordsLeft blocksLeft).Sound) :
    let q := c.plan ram (.blocks wordsLeft blocksLeft)
    (q.completed = true ∧ q.words = wordsLeft + (blocksLeft - 1) * c.blockSize ∧
        q.after.progress = none) ∨
      q.completed = false ∧ ∃ wordsLeft' blocksLeft',
        q.after.progress = some (.blocks wordsLeft' blocksLeft') ∧
        (Progress.blocks wordsLeft' blocksLeft').Sound ∧ 0 < q.words ∧
        q.words + (wordsLeft' + (blocksLeft' - 1) * q.after.blockSize) =
          wordsLeft + (blocksLeft - 1) * c.blockSize ∧
        ∀ k, q.after.wordAt k = c.wordAt (q.words + k) := by
  intro q
  let n := c.chunk wordsLeft
  obtain ⟨haddress, hcontrol, hsize, hleft⟩ :=
    (c.advanced n).afterChunk_left hs.2 (c.chunk_le wordsLeft)
  obtain ⟨hwords, hchannel, hcompleted⟩ : q.words = n ∧
      q.channel = ((c.advanced n).afterChunk wordsLeft blocksLeft n).1 ∧
        q.completed = ((c.advanced n).afterChunk wordsLeft blocksLeft n).2 := by
    show (c.plan ram _).words = _ ∧ (c.plan ram _).channel = _ ∧ (c.plan ram _).completed = _
    unfold plan
    cases c.direction <;> exact ⟨rfl, rfl, rfl⟩
  obtain ⟨hcontrol', hsize'⟩ : (c.advanced n).control = c.control ∧
      (c.advanced n).blockSize = c.blockSize := by
    rw [c.advanced_eq]
    exact ⟨rfl, rfl⟩
  rw [← hchannel, hcontrol'] at hcontrol
  rw [← hchannel] at haddress
  rw [← hchannel, hsize'] at hsize
  rw [← hchannel, ← hcompleted, hsize'] at hleft
  have hbackward : q.channel.isBackward = c.isBackward := by
    unfold isBackward
    rw [hcontrol]
  unfold Plan.after
  rcases hleft with ⟨hlast, hall⟩ | ⟨hmore, wordsLeft', blocksLeft', hp, hsound, hsum⟩
  · rw [if_pos hlast]
    exact .inl ⟨hlast, hwords.trans hall, rfl⟩
  · rw [if_neg (Bool.eq_false_iff.1 hmore), hsize, hwords]
    exact .inr ⟨hmore, wordsLeft', blocksLeft', hp, hsound, c.chunk_pos hs.1, hsum,
      fun k => wordAt_add hbackward haddress k⟩

/-- What a node leaves: the link, and a transfer that is over if the link ends the list. -/
theorem after_list (c : Channel) (ram : ByteArray) : (c.plan ram .linkedList).after =
    let d := { c with address := link ram c.address }
    if ends ram c.address then d.finish else d := rfl

/-- What a slice leaves has no other range. A list is where it was, as a slice of it does not store
anything. -/
theorem covers_of_after (hp : c.progress = some p) (hs : p.Sound)
    (hr : p = .linkedList → ram' = ram) (h : (c.plan ram p).after.Covers ram' q) :
    c.Covers ram q := by
  cases p with
  | blocks wordsLeft blocksLeft =>
    rcases c.after_blocks ram hs with
      ⟨-, -, hnone⟩ | ⟨-, wordsLeft', blocksLeft', hp', -, -, hsum, hword⟩
    · unfold Covers at h
      rw [hnone] at h
      exact h.elim
    · unfold Covers at h ⊢
      rw [hp'] at h
      rw [hp]
      obtain ⟨k, hk, rfl⟩ := h
      exact ⟨(c.plan ram (.blocks wordsLeft blocksLeft)).words + k, by omega, hword k⟩
  | linkedList =>
    rw [hr rfl, after_list] at h
    dsimp only at h
    cases hends : ends ram c.address with
    | true =>
      rw [hends, if_pos rfl] at h
      exact h.elim
    | false =>
      rw [hends, if_neg (by decide)] at h
      unfold Covers at h ⊢
      dsimp only at h
      rw [hp] at h ⊢
      obtain ⟨n, p, hmem, k, hk, rfl⟩ := h
      refine ⟨n + 1, p, ?_, k, hk, rfl⟩
      rw [nodes, hends]
      exact List.mem_cons_of_mem _ hmem
  | orderingTable n => exact h.elim

theorem sound_after (hp : c.progress = some p) (hs : p.Sound) : (c.plan ram p).after.Sound := by
  cases p with
  | blocks wordsLeft blocksLeft =>
    rcases c.after_blocks ram hs with ⟨-, -, hnone⟩ | ⟨-, wordsLeft', blocksLeft', hp', hs', -⟩
    · exact .of_none hnone
    · intro p hp
      rw [hp'] at hp
      cases hp
      exact hs'
  | linkedList =>
    rw [after_list]
    dsimp only
    split
    · exact finish_sound _
    · intro p hp'
      change c.progress = some p at hp'
      rw [hp] at hp'
      cases hp'
      trivial
  | orderingTable n => exact finish_sound _

end Channel

end Dma

end Psx
