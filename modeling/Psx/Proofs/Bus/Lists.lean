import Psx.Proofs.Bus.Plans
import Psx.Proofs.Bus.Turns

/-!
# Along a list

A transfer along a list takes a turn for each node, and its address register is the cursor: a turn
delivers the words of the node that the register names and leaves there the link to the next one
(`Turn.Visits`). Nothing is stored, so what a node leads to does not depend on how the list was cut
into turns; only what else happens between the turns can change the list under the transfer.

The transfer completes at the first node whose link ends the list. The memory may hold any list: nodes
that overlap, pointers that are not aligned, words that go on at the start of RAM, and lists that
come back to themselves, along which a transfer goes on for ever (`Bus.follows_list`).
-/

namespace Psx

variable {δ : Type} [Device δ]

namespace Turn

/-- A turn delivers the words of the node that a pointer names and goes on to the next one. -/
structure Visits (x : Turn δ) (i : Fin 7) (p : UInt32) : Prop where
  words : x.slice.words = Dma.nodeSize x.before.memory.ram p + 1
  completed : x.slice.completed = Dma.ends x.before.memory.ram p
  delivered : ∃ asks dma, (x.slice.completed = false → asks = false) ∧
    x.after = (x.before.consumeAll i (Dma.payload x.before.memory.ram p)).withDma asks dma
  address : (x.after.board.dma.channel i).address = Dma.link x.before.memory.ram p
  memory : x.after.memory = x.before.memory

/-- The pointer that a list has led to after some turns. -/
def pointer (p : UInt32) (turns : List (Turn δ)) : UInt32 :=
  turns.foldl (fun p x => Dma.link x.before.memory.ram p) p

end Turn

/-- A channel that starts in linked-list mode is on a list, unless it is that of the tables. -/
theorem Dma.Channel.progress_start {i : Fin 7} {c : Dma.Channel} (hi : i.val < 6)
    (hid : c.id = UInt8.ofNat i) (hm : c.syncMode = .linkedList) :
    c.start.progress = some .linkedList := by
  have hid' : (c.id == 6) = false := beq_eq_false_iff_ne.2 (id_ne_six hi hid)
  unfold Dma.Channel.start
  rw [hid', hm]
  rfl

namespace Bus

variable {b b' : Bus δ} {i : Fin 7} {c : Dma.Channel} {slice : Dma.Slice}

/-- A channel that is next while it is on a list visits the node at its address. -/
theorem runSlice_list (hn : b.board.dma.nextChannel? = some i)
    (hp : (b.board.dma.channel i).progress = some .linkedList) :
    ∃ slice b', b.runSlice = (some slice, b') ∧ slice.channel = i ∧
      Turn.Visits ⟨b, slice, b'⟩ i (b.board.dma.channel i).address ∧
      b'.board.dma.control = b.board.dma.control ∧
      (∀ j, j ≠ i → b'.board.dma.channel j = b.board.dma.channel j) ∧
      b'.board.dma.channel i =
        let c := { b.board.dma.channel i with
          address := Dma.link b.memory.ram (b.board.dma.channel i).address }
        if slice.completed then c.finish else c := by
  obtain ⟨gap, asks, dma, hserve, hasks, hcontrol, hchannel⟩ := serve_plan (planned_of_progress hp)
  have hdelivered : (b.execute i ((b.board.dma.channel i).plan b.memory.ram .linkedList)).2 =
      b.consumeAll i (Dma.payload b.memory.ram (b.board.dma.channel i).address) := rfl
  rw [hdelivered] at hserve
  have hafter := (hchannel i).trans (if_pos rfl)
  refine ⟨_, _, (runSlice_of_next hn).trans hserve, rfl, ⟨rfl, rfl, ⟨asks, dma, hasks, rfl⟩, ?_, ?_⟩,
    hcontrol, fun j hj => (hchannel j).trans (if_neg hj.symm), hafter⟩
  · refine (congrArg Dma.Channel.address hafter).trans ?_
    unfold Dma.Plan.after
    split <;> rfl
  · exact consumeAll_memory ..

end Bus

/-! ### All turns -/

namespace Turns

variable {i : Fin 7} {c d d' : Dma.Channel} {turns : List (Turn δ)}

/-- A channel on a list visits one node after the other, and none behind the one that ends it. -/
theorem list (h : Turns i d turns d') (hd : d.progress = some .linkedList) :
    (∀ pre x post, turns = pre ++ x :: post →
      x.Visits i (Turn.pointer d.address pre) ∧ (x.slice.completed = true → post = [])) ∧
    d' =
      let e := { d with address := Turn.pointer d.address turns }
      if turns.any (·.slice.completed) then e.finish else e := by
  induction h with
  | none => exact ⟨fun pre x post h => by simp at h, rfl⟩
  | @next x turns d' hrun hi hrest ih =>
    have hnext := (Bus.nextChannel?_of_runSlice hrun).1
    rw [hi] at hnext
    obtain ⟨slice, after, hrun', -, hvisits, -, -, hafter⟩ := Bus.runSlice_list hnext hd
    rw [hrun] at hrun'
    cases hrun'
    cases hcompleted : x.slice.completed with
    | true =>
      rw [hcompleted] at hafter
      dsimp only at hafter
      rw [if_pos rfl] at hafter
      rw [hafter] at hrest
      obtain ⟨rfl, rfl⟩ := hrest.of_idle rfl
      refine ⟨fun pre y post he => ?_, ?_⟩
      · obtain ⟨rfl, rfl, rfl⟩ : pre = [] ∧ y = x ∧ post = [] := by
          rcases pre with _ | ⟨z, pre⟩ <;> simp_all
        exact ⟨hvisits, fun _ => rfl⟩
      · rw [List.any_cons, hcompleted]
        rfl
    | false =>
      rw [hcompleted] at hafter
      dsimp only at hafter
      rw [if_neg (by decide)] at hafter
      have hp : (x.after.board.dma.channel i).progress = some .linkedList := by
        rw [hafter]
        exact hd
      obtain ⟨hall, hleft⟩ := ih hp
      rw [hafter] at hall hleft
      refine ⟨fun pre y post he => ?_, ?_⟩
      · rcases pre with _ | ⟨z, pre⟩
        · obtain ⟨rfl, rfl⟩ := List.cons.inj he
          exact ⟨hvisits, fun h => by rw [hcompleted] at h; cases h⟩
        · obtain ⟨rfl, rfl⟩ := List.cons.inj he
          exact hall pre y post rfl
      · rw [List.any_cons, hcompleted, Bool.false_or]
        exact hleft

/-- After its turns a channel is at rest, or still on the list if none of them was the last. -/
theorem list_left (h : Turns i d turns d') (hd : d.progress = some .linkedList) :
    ((∃ x ∈ turns, x.slice.completed = true) ∧ d'.isBusy = false) ∨
      ((∀ x ∈ turns, x.slice.completed = false) ∧ d'.progress = some .linkedList) := by
  have hleft := (h.list hd).2
  cases hany : turns.any (·.slice.completed) with
  | true =>
    rw [hany] at hleft
    rw [List.any_eq_true] at hany
    refine .inl ⟨hany, ?_⟩
    rw [hleft]
    rfl
  | false =>
    rw [hany] at hleft
    rw [List.any_eq_false] at hany
    refine .inr ⟨fun x hx => Bool.eq_false_iff.2 (hany x hx), ?_⟩
    rw [hleft]
    exact hd

end Turns

/-! ### One turn right after the other -/

namespace Bus

variable {b b' : Bus δ} {i : Fin 7} {c : Dma.Channel} {slice : Dma.Slice}

theorem runSlices_idle (h : b.board.dma.hasPendingWork = false) (n : Nat) :
    b.runSlices n = ([], b) := by
  induction n with
  | zero => rfl
  | succ n ih =>
    rw [runSlices, runSlice_idle h]
    dsimp only
    rw [ih]
    rfl

theorem consumeAll_append (b : Bus δ) (channel : Nat) (words more : List UInt32) :
    b.consumeAll channel (words ++ more) = (b.consumeAll channel words).consumeAll channel more :=
  List.foldl_append ..

theorem runSlices_succ (h : b.runSlice = (some slice, b')) (n : Nat) :
    b.runSlices (n + 1) = (slice :: (b'.runSlices n).1, (b'.runSlices n).2) := by
  rw [runSlices, h]
  rfl

/-- A channel that alone may run visits the nodes of its list. -/
theorem runSlices_list (hp : (b.board.dma.channel i).progress = some .linkedList)
    (hi : b.board.dma.isEnabled i = true)
    (halone : ∀ j, j ≠ i → b.board.dma.isRunnable j = false) (n : Nat) :
    let ram := b.memory.ram
    let ps := Dma.nodes ram (b.board.dma.channel i).address n
    (b.runSlices n).1.map (fun s => (s.channel, s.words, s.completed)) =
        ps.map (fun p => (i, Dma.nodeSize ram p + 1, Dma.ends ram p)) ∧
      ∃ asks dma, (b.runSlices n).2 =
          (b.consumeAll i (ps.flatMap (Dma.payload ram))).withDma asks dma ∧
        (dma.channel i).address =
          (ps.getLast?.map (Dma.link ram)).getD (b.board.dma.channel i).address := by
  induction n generalizing b with
  | zero => exact ⟨rfl, false, b.board.dma, rfl, rfl⟩
  | succ n ih =>
    have hrunnable : b.board.dma.isRunnable i = true := by
      unfold Dma.isRunnable Dma.Channel.isBusy
      rw [hi, hp]
      rfl
    obtain ⟨slice, b', hrun, hchannel, hvisits, hcontrol, hothers, hafter⟩ :=
      runSlice_list (Dma.nextChannel?_alone hrunnable halone) hp
    have hwords := hvisits.words
    have hcompleted := hvisits.completed
    obtain ⟨asks, dma, hasks, hdelivered⟩ := hvisits.delivered
    dsimp only at hwords hcompleted hasks hdelivered
    have hmemory : b'.memory = b.memory := hvisits.memory
    have halone' : ∀ j, j ≠ i → b'.board.dma.isRunnable j = false := fun j hj =>
      (Dma.isRunnable_congr hcontrol (hothers j hj)).trans (halone j hj)
    intro ram ps
    have hps : ps = (b.board.dma.channel i).address ::
        if Dma.ends ram (b.board.dma.channel i).address then []
        else Dma.nodes ram (Dma.link ram (b.board.dma.channel i).address) n := rfl
    rw [runSlices_succ hrun, hps]
    -- the slice visits the first node; whether another follows is written in the link of that
    cases hends : Dma.ends ram (b.board.dma.channel i).address with
    | true =>
      rw [hcompleted, hends] at hafter
      have hidle : b'.board.dma.isRunnable i = false := by
        unfold Dma.isRunnable Dma.Channel.isBusy
        rw [hafter]
        exact Bool.and_false _
      rw [runSlices_idle (Dma.hasPendingWork_eq_false hidle halone'), if_pos rfl]
      refine ⟨?_, asks, dma, ?_, ?_⟩
      · dsimp only
        rw [List.map_cons, List.map_cons, hchannel, hwords, hcompleted]
        rfl
      · rw [List.flatMap_singleton]
        exact hdelivered
      · rw [hdelivered] at hafter
        exact congrArg Dma.Channel.address hafter
    | false =>
      rw [hcompleted, hends] at hafter
      dsimp only at hafter
      rw [if_neg (by decide)] at hafter
      have hp' : (b'.board.dma.channel i).progress = some .linkedList := by
        rw [hafter]
        exact hp
      have hi' : b'.board.dma.isEnabled i = true := (Dma.isEnabled_congr hcontrol i).trans hi
      have haddress : (b'.board.dma.channel i).address =
          Dma.link ram (b.board.dma.channel i).address := by rw [hafter]
      -- words go out only, so the rest of the list is found in the same RAM
      obtain ⟨hslices, asks', dma', hrest, hlast⟩ := ih hp' hi' halone'
      rw [hmemory, haddress] at hslices hrest hlast
      rw [if_neg (by decide)]
      refine ⟨?_, asks', dma', ?_, ?_⟩
      · dsimp only
        rw [List.map_cons, hslices, List.map_cons, hchannel, hwords, hcompleted]
      · have hfirst : asks = false := hasks (hcompleted.trans hends)
        dsimp only
        rw [hrest, hdelivered, hfirst, consumeAll_withDma, List.flatMap_cons, consumeAll_append]
        rfl
      · rw [hlast]
        cases hn : Dma.nodes ram (Dma.link ram (b.board.dma.channel i).address) n with
        | nil => rfl
        | cons q qs => rw [List.getLast?_cons_cons, List.getLast?_cons]; rfl

/-- A transfer along a list follows it exactly. Whatever goes on between its turns, a channel whose
registers are left alone delivers in each turn the words of the node that the last link named, and
the turn whose link ends the list completes the transfer, and no other does. Until then it is served
whenever it is next. One that alone may run visits the nodes that its memory held at the start, one a
slice, and changes no memory; on a list that comes back to a pointer it does so for ever. -/
theorem follows_list (hi : i.val < 6) (hid : c.id = UInt8.ofNat i)
    (hm : c.syncMode = .linkedList) :
    (∀ (turns : List (Turn δ)) d, Turns i c.start turns d →
      (∀ pre x post, turns = pre ++ x :: post →
        x.Visits i (Turn.pointer c.address pre) ∧ (x.slice.completed = true → post = [])) ∧
      (((∃ x ∈ turns, x.slice.completed = true) ∧ d.isBusy = false) ∨
        ((∀ x ∈ turns, x.slice.completed = false) ∧ ∀ b : Bus δ, b.board.dma.channel i = d →
          b.board.dma.nextChannel? = some i →
            ∃ slice b', b.runSlice = (some slice, b') ∧ slice.channel = i))) ∧
    ∀ b : Bus δ, b.board.dma.channel i = c.start → b.board.dma.isEnabled i = true →
      (∀ j, j ≠ i → b.board.dma.isRunnable j = false) →
      let ram := b.memory.ram
      (∀ n,
        let ps := Dma.nodes ram c.address n
        (b.runSlices n).1.map (fun s => (s.channel, s.words, s.completed)) =
            ps.map (fun p => (i, Dma.nodeSize ram p + 1, Dma.ends ram p)) ∧
          (∃ asks dma, (b.runSlices n).2 =
              (b.consumeAll i (ps.flatMap (Dma.payload ram))).withDma asks dma ∧
            (dma.channel i).address = (ps.getLast?.map (Dma.link ram)).getD c.address) ∧
          (b.runSlices n).2.memory = b.memory) ∧
      ∀ j k, j < k → (Dma.link ram)^[j] c.address = (Dma.link ram)^[k] c.address →
        (∀ m < k, Dma.ends ram ((Dma.link ram)^[m] c.address) = false) →
          ∀ n, (b.runSlices n).1.length = n ∧
            ∀ s ∈ (b.runSlices n).1, s.completed = false := by
  have hp := Dma.Channel.progress_start hi hid hm
  refine ⟨fun turns d h => ?_, fun b hb henabled halone => ?_⟩
  · refine ⟨(h.list hp).1, (h.list_left hp).imp_right ?_⟩
    rintro ⟨hmore, hd⟩
    refine ⟨hmore, fun b hb hnext => ?_⟩
    obtain ⟨slice, b', hrun, hchannel, -⟩ := runSlice_list hnext (hb ▸ hd)
    exact ⟨slice, b', hrun, hchannel⟩
  · have haddress : c.start.address = c.address := rfl
    have hlist := runSlices_list (hb ▸ hp) henabled halone
    rw [hb, haddress] at hlist
    constructor
    · intro n
      obtain ⟨hslices, asks, dma, hrest, hlast⟩ := hlist n
      refine ⟨hslices, ⟨asks, dma, hrest, hlast⟩, ?_⟩
      rw [hrest]
      exact consumeAll_memory ..
    · intro j k hjk hcycle hmore n
      obtain ⟨hlength, hnone⟩ := Dma.nodes_endless (Dma.ends_of_cycle hjk hcycle hmore) n
      have hslices := (hlist n).1
      constructor
      · have hlengths := congrArg List.length hslices
        rwa [List.length_map, List.length_map, hlength] at hlengths
      · intro s hs
        have hmem := List.mem_map_of_mem
          (f := fun s : Dma.Slice => (s.channel, s.words, s.completed)) hs
        rw [hslices] at hmem
        obtain ⟨p, hp, he⟩ := List.mem_map.1 hmem
        have hcompleted : Dma.ends b.memory.ram p = s.completed := congrArg (·.2.2) he
        rw [← hcompleted]
        exact hnone p hp

/-- A list of two nodes for the GPU, at address 0: a word that does nothing and a link to the second
node, which has no words and ends the list. -/
def listed : Bus Empty :=
  let board : Board Empty := .ofConfig {}
  let c := { Dma.Channel.initial 2 with control := 0x01000401 }
  { memory := { Memory.initial with
      ram := ⟨#[0x08, 0, 0, 0x01, 0, 0, 0, 0, 0xFF, 0xFF, 0xFF, 0x00]⟩ }
    board := { board with dma := { board.dma with
      channels := board.dma.channels.setIfInBounds 2 c.start
      control := 0x800 } }
    table := coreTable }

theorem follows_list_listed :
    (listed.runSlices 5).1.map (fun s => (s.channel, s.words, s.completed)) =
      [(2, 2, false), (2, 1, true)] := by
  have hnodes : Dma.nodes listed.memory.ram 0 5 = [0, 8] := by decide +kernel
  have hslices := ((@follows_list Empty _ 2 { Dma.Channel.initial 2 with control := 0x01000401 }
    (by decide) rfl (by decide)).2 listed rfl (by decide) (by decide)).1 5
  have hsizes : [0, 8].map (fun p => ((2 : Fin 7), Dma.nodeSize listed.memory.ram p + 1,
      Dma.ends listed.memory.ram p)) = [(2, 2, false), (2, 1, true)] := by decide +kernel
  have haddress : ({ Dma.Channel.initial 2 with control := 0x01000401 } : Dma.Channel).address = 0 :=
    rfl
  rw [haddress, hnodes] at hslices
  exact hslices.1.trans hsizes

end Bus

end Psx
