import Psx.Proofs.Bus.Carry
import Psx.Proofs.Dma.Plans

/-!
# Carrying out a plan

A slice does what its plan says (`Bus.moveSlice_eq`): first all words go to the device or come from
it, then they and the links are stored. `Bus.serve` is the slice that a channel would have, if it were
the next one; the priorities only tell which it is (`Bus.runSlice_eq`). What it leaves in the
controller is the channel as it was planned and every other one as it was (`Bus.serve_plan`).
-/

namespace Psx

namespace Bus

variable {δ : Type} [Device δ] (b : Bus δ) (i : Fin 7)

/-! ### Lists and tables -/

theorem placeOf_add_four {a p : UInt32} {k : Nat} (h : a.toNat = Dma.nodePlace p k) :
    ((a + 4) &&& Dma.ramWordMask).toNat = Dma.nodePlace p (k + 1) := by
  have hnext : ((a + 4) &&& Dma.ramWordMask).toNat = _ := Dma.placeOf_eq (a + 4)
  have hfour := Dma.nodePlace_mod_four p k
  rw [hnext, UInt32.toNat_add, show (4 : UInt32).toNat = 4 from rfl]
  unfold Dma.nodePlace Address.ramSize at h hfour ⊢
  omega

theorem moveNode_eq (p : UInt32) {a : UInt32} {k : Nat} (h : a.toNat = Dma.nodePlace p k)
    (n : Nat) : b.moveNode i a n = b.consumeAll i ((List.range' (k + 1) n).map fun k =>
      Bytes.load b.memory.ram (Dma.nodePlace p k) .word) := by
  induction n generalizing b a k with
  | zero => rfl
  | succ n ih =>
    have hnext := placeOf_add_four h
    rw [moveNode_succ, ih _ hnext, dmaConsume_memory, hnext, List.range'_succ, List.map_cons]
    rfl

theorem sub_four_sub (a : UInt32) (k : Nat) :
    a - 4 - UInt32.ofNat (4 * k) = a - UInt32.ofNat (4 * (k + 1)) := by
  apply UInt32.toNat_inj.1
  rw [UInt32.toNat_sub, UInt32.toNat_sub, UInt32.toNat_sub, UInt32.toNat_ofNat',
    UInt32.toNat_ofNat', show (4 : UInt32).toNat = 4 from rfl]
  have := a.toNat_lt
  omega

/-- Going down from a word of RAM, the bits outside of the mask do not matter. -/
theorem masked_sub_four (a : UInt32) :
    ((a &&& Dma.ramWordMask) - 4) &&& Dma.ramWordMask = (a - 4) &&& Dma.ramWordMask := by
  apply UInt32.toNat_inj.1
  have hmasked : (a &&& Dma.ramWordMask).toNat = _ := Dma.placeOf_eq a
  have hleft : (((a &&& Dma.ramWordMask) - 4) &&& Dma.ramWordMask).toNat = _ := Dma.placeOf_eq _
  have hright : ((a - 4) &&& Dma.ramWordMask).toNat = _ := Dma.placeOf_eq _
  have := a.toNat_lt
  rw [hleft, hright, UInt32.toNat_sub, UInt32.toNat_sub, hmasked,
    show (4 : UInt32).toNat = 4 from rfl]
  omega

theorem clearTable_eq (a : UInt32) (n : Nat) : b.clearTable (a &&& Dma.ramWordMask) n =
    ((a - UInt32.ofNat (4 * n)) &&& Dma.ramWordMask, { b with
      memory.ram := Bytes.storeAll b.memory.ram ((List.range n).map (Dma.tablePlace a))
        (Dma.tableLinks a n) }) := by
  induction n generalizing b a with
  | zero =>
    rw [show a - UInt32.ofNat (4 * 0) = a from UInt32.sub_zero a]
    rfl
  | succ n ih =>
    have hplaces : (List.range (n + 1)).map (Dma.tablePlace a) =
        (a &&& Dma.ramWordMask).toNat :: (List.range n).map (Dma.tablePlace (a - 4)) := by
      rw [List.range_succ_eq_map, List.map_cons, List.map_map]
      refine congrArg₂ List.cons (congrArg Dma.placeOf (UInt32.sub_zero a)) ?_
      exact List.map_congr_left fun k _ => (congrArg Dma.placeOf (sub_four_sub a k)).symm
    have hlinks : Dma.tableLinks a (n + 1) =
        Dma.tableLink (a &&& Dma.ramWordMask) (n == 0) :: Dma.tableLinks (a - 4) n := by
      unfold Dma.tableLinks
      rw [List.range_succ_eq_map, List.map_cons, List.map_map]
      refine congrArg₂ List.cons (congrArg₂ Dma.tableLink ?_ ?_) ?_
      · exact congrArg (· &&& _) (UInt32.sub_zero a)
      · cases n <;> rfl
      · refine List.map_congr_left fun k _ => ?_
        rw [sub_four_sub]
        exact congrArg (Dma.tableLink _) (by simp)
    rw [clearTable_succ, masked_sub_four, ih, sub_four_sub, hplaces, hlinks, Bytes.storeAll_cons]

/-! ### Plans -/

end Bus

namespace Dma

/-- The controller when the slice of a channel is over, and whether it asks for attention. -/
def conclude (d : Dma) (i : Fin 7) (q : Plan) : Bool × Dma :=
  let d := d.modify i fun _ => q.channel
  if q.completed then d.complete i else (false, d)

variable (d : Dma) (i : Fin 7) (q : Plan)

variable {i q} in
theorem conclude_more (h : q.completed = false) : (d.conclude i q).1 = false :=
  congrArg Prod.fst (if_neg (Bool.eq_false_iff.1 h))

theorem control_conclude : (d.conclude i q).2.control = d.control := by
  unfold conclude
  dsimp only
  split
  · exact control_complete ..
  · rfl

theorem channel_conclude (j : Fin 7) :
    (d.conclude i q).2.channel j = if i = j then q.after else d.channel j := by
  unfold conclude Plan.after
  dsimp only
  split
  · rw [channel_complete, channel_modify, channel_modify, if_pos rfl]
    split <;> rfl
  · exact channel_modify ..

end Dma

namespace Bus

variable {δ : Type} [Device δ] (b : Bus δ) (i : Fin 7)

/-- Hands over the words of a plan, takes the words that it asks for and stores them with its links;
the answer is the words that were taken. -/
def execute (q : Dma.Plan) : List UInt32 × Bus δ :=
  let r := (b.consumeAll i q.consumed).produceAll i q.produced
  (r.1, { r.2 with
    memory.ram := Bytes.storeAll r.2.memory.ram q.places (r.1 ++ q.links) })

theorem moveSlice_eq (c : Dma.Channel) (p : Dma.Progress) : b.moveSlice i c p =
    let q := c.plan b.memory.ram p
    (q.words, q.completed, q.channel, (b.execute i q).2) := by
  cases p with
  | blocks wordsLeft blocksLeft =>
    unfold moveSlice Dma.Channel.plan execute
    dsimp only
    rw [moveWords_eq]
    unfold carry
    cases c.direction with
    | fromRam => rfl
    | toRam =>
      dsimp only
      rw [List.append_nil]
      rfl
  | linkedList =>
    have hnode := Dma.nodePlace_zero c.address
    unfold moveSlice
    dsimp only
    rw [read_masked]
    dsimp only
    rw [b.moveNode_eq i c.address (k := 0) hnode.symm]
    rfl
  | orderingTable n =>
    unfold moveSlice
    dsimp only
    rw [clearTable_eq]
    rfl

theorem execute_memory (q : Dma.Plan) : (b.execute i q).2.memory = { b.memory with
    ram := Bytes.storeAll b.memory.ram q.places ((b.execute i q).1 ++ q.links) } := by
  unfold execute
  dsimp only
  rw [produceAll_memory, consumeAll_memory]

/-! ### The slice of a channel -/

/-- What a channel would do if it were the next one; `none` if it has no transfer in flight. -/
def planned : Option Dma.Plan :=
  (b.board.dma.channel i).progress.map ((b.board.dma.channel i).plan b.memory.ram)

/-- The slice of a channel, as if it were the next one. -/
def serve : Option Dma.Slice × Bus δ :=
  let c := b.board.dma.channel i
  match c.progress with
  | none => (none, b)
  | some progress =>
    let (words, completed, c, b) := b.moveSlice i c progress
    let gap := c.chopGap?.getD b.board.dma.sliceGap
    let dma := b.board.dma.modify i fun _ => c
    let (asks, dma) := if completed then dma.complete i else (false, dma)
    (some { channel := i, words, gap, completed }, { b with board := b.board.withDma asks dma })

theorem runSlice_eq : b.runSlice = match b.board.dma.nextChannel? with
    | none => (none, b)
    | some i => b.serve i := rfl

variable {b i}

theorem runSlice_of_next (h : b.board.dma.nextChannel? = some i) : b.runSlice = b.serve i := by
  rw [runSlice_eq, h]

omit [Device δ] in
theorem planned_of_progress {p : Dma.Progress} (hp : (b.board.dma.channel i).progress = some p) :
    b.planned i = some ((b.board.dma.channel i).plan b.memory.ram p) := by
  unfold planned
  rw [hp]
  rfl

theorem serve_idle (h : b.planned i = none) : b.serve i = (none, b) := by
  unfold planned at h
  unfold serve
  dsimp only
  rw [Option.map_eq_none_iff.1 h]

theorem execute_dma (q : Dma.Plan) : (b.execute i q).2.board.dma = b.board.dma := by
  have h : b.withDma false b.board.dma = b := rfl
  have hc := b.consumeAll_withDma i b.board.dma q.consumed
  rw [h] at hc
  unfold execute
  dsimp only
  rw [hc, produceAll_withDma]
  rfl

/-- What a slice reports, and what it leaves of the bus. -/
theorem serve_eq {q : Dma.Plan} (h : b.planned i = some q) :
    b.serve i =
      let r := b.board.dma.conclude i q
      let gap := q.channel.chopGap?.getD b.board.dma.sliceGap
      (some { channel := i, words := q.words, gap, completed := q.completed },
        (b.execute i q).2.withDma r.1 r.2) := by
  obtain ⟨p, hp, rfl⟩ := Option.map_eq_some_iff.1 h
  generalize hq : (b.board.dma.channel i).plan b.memory.ram p = q
  have hdma := b.execute_dma (i := i) q
  unfold serve
  dsimp only
  rw [hp]
  dsimp only
  rw [moveSlice_eq, hq]
  dsimp only
  rw [hdma]
  rfl

/-- A slice carries out its plan. In the controller it leaves the channel as it was planned and the
others as they were. -/
theorem serve_plan {q : Dma.Plan} (h : b.planned i = some q) :
    ∃ gap asks dma,
      b.serve i = (some { channel := i, words := q.words, gap, completed := q.completed },
        (b.execute i q).2.withDma asks dma) ∧
      (q.completed = false → asks = false) ∧
      dma.control = b.board.dma.control ∧
      ∀ j, dma.channel j = if i = j then q.after else b.board.dma.channel j :=
  ⟨_, _, _, serve_eq h, b.board.dma.conclude_more (i := i), b.board.dma.control_conclude i q,
    b.board.dma.channel_conclude i q⟩

/-- The slice of a channel leaves every other one as it was, and the priorities. -/
theorem serve_others : (b.serve i).2.board.dma.control = b.board.dma.control ∧
    ∀ j, j ≠ i → (b.serve i).2.board.dma.channel j = b.board.dma.channel j := by
  cases hq : b.planned i with
  | none =>
    rw [serve_idle hq]
    exact ⟨rfl, fun j _ => rfl⟩
  | some q =>
    obtain ⟨gap, asks, dma, hserve, -, hcontrol, hchannel⟩ := serve_plan hq
    rw [hserve]
    exact ⟨hcontrol, fun j hj => (hchannel j).trans (if_neg hj.symm)⟩

/-- A slice that has been run is that of the next channel, as it was planned. -/
theorem runSlice_some {slice : Dma.Slice} {b' : Bus δ} (h : b.runSlice = (some slice, b')) :
    ∃ q, b.board.dma.nextChannel? = some slice.channel ∧ b.planned slice.channel = some q ∧
      slice.words = q.words ∧ slice.completed = q.completed ∧
      slice.gap = q.channel.chopGap?.getD b.board.dma.sliceGap ∧ b' = (b.serve slice.channel).2 := by
  rw [runSlice_eq] at h
  split at h
  · cases h
  · rename_i i hnext
    cases hq : b.planned i with
    | none =>
      rw [serve_idle hq] at h
      cases h
    | some q =>
      have hslice := congrArg Prod.fst h
      have hafter := congrArg Prod.snd h
      rw [serve_eq hq] at hslice
      cases hslice
      exact ⟨q, hnext, hq, rfl, rfl, rfl, hafter.symm⟩

/-- The next channel has a slice. -/
theorem runSlice_next (h : b.board.dma.nextChannel? = some i) :
    ∃ slice b', b.runSlice = (some slice, b') ∧ slice.channel = i := by
  have hrunnable := Dma.isRunnable_of_nextChannel? h
  unfold Dma.isRunnable Dma.Channel.isBusy at hrunnable
  rw [Bool.and_eq_true] at hrunnable
  obtain ⟨p, hp⟩ := Option.isSome_iff_exists.1 hrunnable.2
  exact ⟨_, _, (runSlice_of_next h).trans (serve_eq (planned_of_progress hp)), rfl⟩

theorem runSlice_others {slice : Dma.Slice} {b' : Bus δ} (h : b.runSlice = (some slice, b')) :
    b' = (b.serve slice.channel).2 ∧ b'.board.dma.control = b.board.dma.control ∧
      ∀ j, j ≠ slice.channel → b'.board.dma.channel j = b.board.dma.channel j := by
  obtain ⟨q, -, -, -, -, -, rfl⟩ := runSlice_some h
  exact ⟨rfl, serve_others⟩

end Bus

end Psx
