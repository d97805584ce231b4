import Mathlib.Data.List.Induction
import Psx.Proofs.Bus.Exchanges
import Psx.Proofs.Bus.Lists

/-!
# A cleared table is a list

An ordering table is cleared from its highest entry down, and each entry but the last is left with the
address of the one below it (`Dma.Table`). For the engine that follows lists such a word is a node of
no words, and the end mark in the last entry ends the list. So the nodes of the list that starts at the
first entry are the entries, in order, and no others (`Table.nodes_eq`), whether the channel that
follows it has its turns one right after the other or not (`Turns.table`).

A table has no more than 0x10000 entries and RAM has eight times as many words, so no entry is stored
over another one, also if the table goes on at the end of RAM (`Bytes.load_storeAll`,
`tablePlace_inj`).
-/

namespace Psx

/-- Words that are stored at different places are all loaded again. -/
theorem Bytes.load_storeAll {b : ByteArray} {n : Nat} {place : Nat → Nat} (word : Nat → UInt32)
    (hfour : ∀ k < n, place k % 4 = 0) (hsize : ∀ k < n, place k + 4 ≤ b.size)
    (hinj : ∀ j k, j < k → k < n → place j ≠ place k) {k : Nat} (hk : k < n) :
    load (storeAll b ((List.range n).map place) ((List.range n).map word)) (place k) .word =
      word k := by
  induction n with
  | zero => exact absurd hk (Nat.not_lt_zero k)
  | succ n ih =>
    have hsnoc : storeAll b ((List.range (n + 1)).map place) ((List.range (n + 1)).map word) =
        store (storeAll b ((List.range n).map place) ((List.range n).map word)) (place n) .word
          (word n) := by
      unfold storeAll
      rw [List.range_succ, List.map_append, List.map_append, List.zip_append (by simp),
        List.foldl_append]
      simp only [List.map_cons, List.map_nil, List.zip_cons_cons, List.zip_nil_left,
        List.foldl_cons, List.foldl_nil]
    rw [hsnoc]
    rcases Nat.lt_succ_iff_lt_or_eq.1 hk with hlt | rfl
    · -- the last store is apart from this place
      have hne := hinj k n hlt (Nat.lt_succ_self n)
      have hk4 := hfour k hk
      have hn4 := hfour n (Nat.lt_succ_self n)
      rw [load_store_disjoint _ (by show place k + 4 ≤ place n ∨ place n + 4 ≤ place k; omega)]
      exact ih (fun k hk => hfour k (by omega)) (fun k hk => hsize k (by omega))
        (fun j k hjk hk => hinj j k hjk (by omega)) hlt
    · rw [load_store _ (by rw [storeAll_size]; exact hsize k hk)]
      exact UInt32.and_neg_one

namespace Dma

/-! ### The entries -/

/-- The address of an entry of a table, counted from the first one that is cleared. -/
def entry (address : UInt32) (k : Nat) : UInt32 :=
  (address - UInt32.ofNat (4 * k)) &&& ramWordMask

/-- RAM holds a cleared table of so many entries. -/
def Table (ram : ByteArray) (address : UInt32) (n : Nat) : Prop :=
  ∀ k < n, Bytes.load ram (tablePlace address k) .word = tableLink (entry address k) (k + 1 == n)

theorem masked_masked (a : UInt32) : (a &&& ramWordMask) &&& ramWordMask = a &&& ramWordMask := by
  rw [UInt32.and_assoc, UInt32.and_self]

theorem placeOf_entry (address : UInt32) (k : Nat) :
    placeOf (entry address k) = tablePlace address k :=
  congrArg UInt32.toNat (masked_masked _)

theorem entry_zero (address : UInt32) : entry address 0 = address &&& ramWordMask :=
  congrArg (· &&& ramWordMask) (UInt32.sub_zero address)

theorem tablePlace_eq (address : UInt32) (k : Nat) : (tablePlace address k : Int) =
    (address.toNat - 4 * k : Int) % 0x200000 / 4 * 4 := by
  have hlt := address.toNat_lt
  unfold tablePlace
  rw [placeOf_eq, UInt32.toNat_sub, UInt32.toNat_ofNat']
  omega

/-- The entries of a table that is no larger than RAM are all different. -/
theorem tablePlace_inj (address : UInt32) {j k : Nat} (hjk : j < k) (hk : k < 0x80000) :
    tablePlace address j ≠ tablePlace address k := by
  have hj := tablePlace_eq address j
  have hk' := tablePlace_eq address k
  omega

/-- The entry below another one, as its link names it. -/
theorem tableLink_entry (address : UInt32) (k : Nat) :
    tableLink (entry address k) false = entry address (k + 1) := by
  show (entry address k - 4) &&& ramWordMask = entry address (k + 1)
  unfold entry
  apply UInt32.toNat_inj.1
  have hmasked : ((address - UInt32.ofNat (4 * k)) &&& ramWordMask).toNat = _ := placeOf_eq _
  have hleft : ((((address - UInt32.ofNat (4 * k)) &&& ramWordMask) - 4) &&& ramWordMask).toNat =
    _ := placeOf_eq _
  have hright : ((address - UInt32.ofNat (4 * (k + 1))) &&& ramWordMask).toNat = _ := placeOf_eq _
  have hlt := address.toNat_lt
  rw [hleft, hright, UInt32.toNat_sub, hmasked, UInt32.toNat_sub, UInt32.toNat_sub,
    UInt32.toNat_ofNat', UInt32.toNat_ofNat', show (4 : UInt32).toNat = 4 from rfl]
  omega

namespace Table

variable {ram ram' : ByteArray} {address : UInt32} {n k : Nat}

theorem congr (h : Table ram address n)
    (ha : Bytes.Agree (fun q => ∃ k < n, q = tablePlace address k) ram' ram) :
    Table ram' address n := by
  intro k hk
  rw [ha.load ⟨k, hk, rfl⟩]
  exact h k hk

theorem header_eq (h : Table ram address n) (hk : k < n) :
    header ram (entry address k) = tableLink (entry address k) (k + 1 == n) := by
  unfold header
  rw [placeOf_entry]
  exact h k hk

/-- The links of a table have an empty top byte and no end mark, but for the last. -/
theorem tableLink_fields (a : UInt32) : (tableLink a false >>> 24).toNat = 0 ∧
    tableLink a false &&& addressMask = tableLink a false ∧
    (tableLink a false &&& addressMask) &&& endOfList = 0 := by
  have hmask : tableLink a false = (a - 4) &&& ramWordMask := rfl
  have hlt := placeOf_lt (a - 4)
  refine ⟨?_, ?_, ?_⟩
  · rw [hmask, UInt32.toNat_shiftRight, Nat.shiftRight_eq_div_pow]
    exact Nat.div_eq_of_lt (Nat.lt_trans hlt (by decide))
  · rw [hmask, UInt32.and_assoc]
    rfl
  · rw [hmask, UInt32.and_assoc, UInt32.and_assoc]
    exact UInt32.and_zero

/-- For the engine that follows lists an entry is a node of no words, and the last one ends the
list. -/
theorem node (h : Table ram address n) (hk : k < n) :
    nodeSize ram (entry address k) = 0 ∧
      link ram (entry address k) = (if k + 1 = n then 0x00FFFFFF else entry address (k + 1)) ∧
      ends ram (entry address k) = decide (k + 1 = n) := by
  have hheader := h.header_eq hk
  unfold nodeSize ends link
  rw [hheader]
  by_cases hlast : k + 1 = n
  · have hmark : tableLink (entry address k) true = 0x00FFFFFF := if_pos rfl
    rw [beq_iff_eq.2 hlast, if_pos hlast, decide_eq_true hlast, hmark]
    decide
  · obtain ⟨hsize, haddress, hmark⟩ := tableLink_fields (entry address k)
    rw [beq_eq_false_iff_ne.2 hlast, if_neg hlast, decide_eq_false hlast]
    refine ⟨hsize, haddress.trans (tableLink_entry address k), ?_⟩
    rw [hmark]
    rfl

theorem payload_eq (h : Table ram address n) (hk : k < n) :
    payload ram (entry address k) = [] := by
  unfold payload
  rw [(h.node hk).1]
  rfl

/-- The nodes of the list that starts at an entry are this one and those below it. -/
theorem nodes_eq (h : Table ram address n) (hk : k < n) {m : Nat} (hm : n ≤ k + m) :
    nodes ram (entry address k) m = (List.range' k (n - k)).map (entry address) := by
  induction m generalizing k with
  | zero => omega
  | succ m ih =>
    obtain ⟨-, hlink, hends⟩ := h.node hk
    rw [nodes, hends, hlink, show n - k = (n - (k + 1)) + 1 by omega, List.range'_succ,
      List.map_cons]
    by_cases hlast : k + 1 = n
    · rw [if_pos (decide_eq_true hlast), show n - (k + 1) = 0 by omega]
      rfl
    · rw [if_neg (by simpa using hlast), if_neg hlast, ih (by omega) (by omega)]

end Table

/-! ### Clearing it -/

/-- The count register as a number of entries. -/
theorem Channel.blockSize_eq {c : Channel} {n : Nat} (hpos : 1 ≤ n) (hle : n ≤ 0x10000)
    (h : c.blockControl &&& 0xFFFF = UInt32.ofNat n &&& 0xFFFF) : c.blockSize = n := by
  have hlow : (c.blockControl &&& 0xFFFF).toNat = n % 2 ^ 16 := by
    rw [h, UInt32.toNat_and, show (0xFFFF : UInt32).toNat = 2 ^ 16 - 1 from rfl,
      Nat.and_two_pow_sub_one_eq_mod, UInt32.toNat_ofNat']
    omega
  unfold blockSize countOf
  split
  · rename_i hzero
    rw [eq_of_beq hzero, show (0 : UInt32).toNat = 0 from rfl] at hlow
    omega
  · rename_i hne
    rw [beq_iff_eq, ← UInt32.toNat_inj, hlow, show (0 : UInt32).toNat = 0 from rfl] at hne
    omega

/-- The links that clear a table are stored, so RAM holds one. -/
theorem table_storeAll {ram : ByteArray} (hs : ram.size = Address.ramSize) (address : UInt32)
    {n : Nat} (hn : n ≤ 0x80000) : Table (Bytes.storeAll ram
      ((List.range n).map (tablePlace address)) (tableLinks address n)) address n := by
  intro k hk
  refine Bytes.load_storeAll (fun k => tableLink (entry address k) (k + 1 == n))
    (fun k _ => placeOf_mod_four _) (fun k _ => ?_)
    (fun j k hjk hk => tablePlace_inj address hjk (by omega)) hk
  have hlt := placeOf_lt (address - UInt32.ofNat (4 * k))
  have hfour := placeOf_mod_four (address - UInt32.ofNat (4 * k))
  rw [hs]
  unfold Address.ramSize at hlt ⊢
  omega

end Dma

variable {δ : Type} [Device δ]

/-! ### Following it -/

omit [Device δ] in
theorem Turn.pointer_concat (p : UInt32) (turns : List (Turn δ)) (x : Turn δ) :
    pointer p (turns ++ [x]) = Dma.link x.before.memory.ram (pointer p turns) := by
  unfold pointer
  rw [List.foldl_append]
  rfl

namespace Turns

variable {i : Fin 7} {c d : Dma.Channel} {turns : List (Turn δ)} {address : UInt32} {n : Nat}

/-- In each turn the pointer is the next entry, as long as the table stands. -/
theorem table_pointer (h : Turns i c turns d) (hc : c.progress = some .linkedList)
    (ha : c.address = address &&& Dma.ramWordMask) (hn : 0 < n)
    (ht : ∀ x ∈ turns, Dma.Table x.before.memory.ram address n) {pre : List (Turn δ)} {x : Turn δ}
    {post : List (Turn δ)} (he : turns = pre ++ x :: post) :
    pre.length < n ∧ Turn.pointer c.address pre = Dma.entry address pre.length := by
  induction pre using List.reverseRecOn generalizing x post with
  | nil => exact ⟨hn, ha.trans (Dma.entry_zero address).symm⟩
  | append_singleton pre y ih =>
    have he' : turns = pre ++ y :: (x :: post) := by rw [he, List.append_assoc]; rfl
    obtain ⟨hlt, hpointer⟩ := ih he'
    obtain ⟨hvisits, hlast⟩ := (h.list hc).1 pre y (x :: post) he'
    obtain ⟨-, hlink, hends⟩ := (ht y (by simp [he'])).node hlt
    have hcompleted := hvisits.completed
    rw [hpointer, hends] at hcompleted
    have hmore : pre.length + 1 ≠ n := by
      intro hn'
      rw [decide_eq_true hn'] at hcompleted
      cases hlast hcompleted
    rw [Turn.pointer_concat, hpointer, hlink, if_neg hmore, List.length_append, List.length_singleton]
    exact ⟨by omega, rfl⟩

/-- A channel that follows a table visits an entry a turn and hands no word to its device. -/
theorem table_turn (h : Turns i c turns d) (hc : c.progress = some .linkedList)
    (ha : c.address = address &&& Dma.ramWordMask) (hn : 0 < n)
    (ht : ∀ x ∈ turns, Dma.Table x.before.memory.ram address n) {pre : List (Turn δ)} {x : Turn δ}
    {post : List (Turn δ)} (he : turns = pre ++ x :: post) :
    pre.length < n ∧ x.Visits i (Dma.entry address pre.length) ∧ x.slice.words = 1 ∧
      x.slice.completed = decide (pre.length + 1 = n) ∧
      (∃ asks dma, x.after = x.before.withDma asks dma) ∧
      (x.slice.completed = true → post = []) := by
  obtain ⟨hlt, hpointer⟩ := h.table_pointer hc ha hn ht he
  obtain ⟨hvisits, hlast⟩ := (h.list hc).1 pre x post he
  have hx := ht x (by simp [he])
  obtain ⟨hsize, -, hends⟩ := hx.node hlt
  rw [hpointer] at hvisits
  obtain ⟨asks, dma, -, hafter⟩ := hvisits.delivered
  rw [hx.payload_eq hlt] at hafter
  refine ⟨hlt, hvisits, ?_, ?_, ⟨asks, dma, hafter⟩, hlast⟩
  · rw [hvisits.words, hsize]
  · rw [hvisits.completed, hends]

/-- After as many turns as there are entries the transfer is over, and before that it is not. -/
theorem table_left (h : Turns i c turns d) (hc : c.progress = some .linkedList)
    (ha : c.address = address &&& Dma.ramWordMask) (hn : 0 < n)
    (ht : ∀ x ∈ turns, Dma.Table x.before.memory.ram address n) :
    (turns.length = n ∧ d.isBusy = false ∧ d.address = 0x00FFFFFF) ∨
      (turns.length < n ∧ d.progress = some .linkedList) := by
  have haddress : d.address = Turn.pointer c.address turns := by
    rw [(h.list hc).2]
    dsimp only
    split <;> rfl
  have hlast : ∀ x ∈ turns, x.slice.completed = true → turns.length = n := by
    intro x hx hdone
    obtain ⟨pre, post, he⟩ := List.append_of_mem hx
    obtain ⟨-, -, -, hcompleted, -, hend⟩ := h.table_turn hc ha hn ht he
    rw [hdone, eq_comm, decide_eq_true_eq] at hcompleted
    rw [he, hend hdone, List.length_append, List.length_singleton]
    exact hcompleted
  rcases h.list_left hc with ⟨⟨x, hx, hdone⟩, hidle⟩ | ⟨hmore, hprogress⟩
  · obtain ⟨pre, post, he⟩ := List.append_of_mem hx
    obtain ⟨hlt, hpointer⟩ := h.table_pointer hc ha hn ht he
    have hlength := hlast x hx hdone
    obtain ⟨-, -, -, -, -, hend⟩ := h.table_turn hc ha hn ht he
    obtain ⟨-, hlink, -⟩ := (ht x hx).node hlt
    rw [hend hdone] at he
    rw [he, List.length_append, List.length_singleton] at hlength
    refine .inl ⟨hlast x hx hdone, hidle, ?_⟩
    rw [haddress, he, Turn.pointer_concat, hpointer, hlink, if_pos hlength]
  · refine .inr ⟨?_, hprogress⟩
    rcases List.eq_nil_or_concat turns with rfl | ⟨pre, x, he⟩
    · exact hn
    · rw [List.concat_eq_append] at he
      obtain ⟨hlt, -, -, hcompleted, -⟩ := h.table_turn hc ha hn ht he
      rw [hmore x (by simp [he]), eq_comm, decide_eq_false_iff_not] at hcompleted
      rw [he, List.length_append, List.length_singleton]
      omega

end Turns

namespace Bus

variable {i : Fin 7} {c : Dma.Channel} {b : Bus δ} {n : Nat}

/-- The channel of the tables clears a whole table in one slice. -/
theorem runSlice_table (hid : c.id = 6) (hstart : b.board.dma.channel 6 = c.start)
    (hnext : b.board.dma.nextChannel? = some 6) :
    ∃ slice b', b.runSlice = (some slice, b') ∧ slice.channel = 6 ∧ slice.words = c.blockSize ∧
      slice.completed = true ∧ (b'.board.dma.channel 6).isBusy = false ∧
      b'.memory.ram = Bytes.storeAll b.memory.ram
        ((List.range c.blockSize).map (Dma.tablePlace c.address))
        (Dma.tableLinks c.address c.blockSize) := by
  have hid' : (c.id == 6) = true := beq_iff_eq.2 hid
  have hp : (b.board.dma.channel 6).progress = some (.orderingTable c.blockSize) := by
    rw [hstart]
    unfold Dma.Channel.start
    rw [hid']
    rfl
  have hq := planned_of_progress hp
  have hlinks : (b.execute 6 ((b.board.dma.channel 6).plan b.memory.ram
      (.orderingTable c.blockSize))).1 = [] := rfl
  have haddress : (b.board.dma.channel 6).address = c.address := by
    rw [hstart]
    rfl
  refine ⟨_, _, (runSlice_of_next hnext).trans (serve_eq hq), rfl, rfl, rfl, ?_, ?_⟩
  · exact congrArg Dma.Channel.isBusy
      ((b.board.dma.channel_conclude 6 _ 6).trans (if_pos rfl))
  · show (b.execute 6 _).2.memory.ram = _
    rw [execute_memory, hlinks, List.nil_append]
    unfold Dma.Channel.plan
    dsimp only
    rw [haddress]

/-- A channel that alone may run visits the entries, one a slice. -/
theorem runSlices_entries {address : UInt32} (hp : (b.board.dma.channel i).progress = some .linkedList)
    (ha : (b.board.dma.channel i).address = address &&& Dma.ramWordMask)
    (hi : b.board.dma.isEnabled i = true)
    (halone : ∀ j, j ≠ i → b.board.dma.isRunnable j = false) (hn : 0 < n)
    (ht : Dma.Table b.memory.ram address n) {m : Nat} (hm : n ≤ m) :
    Dma.nodes b.memory.ram (b.board.dma.channel i).address m =
        (List.range n).map (Dma.entry address) ∧
      (b.runSlices m).1.map (fun s => (s.channel, s.words, s.completed)) =
        (List.range n).map (fun k => (i, 1, decide (k + 1 = n))) ∧
      ∃ asks dma, (b.runSlices m).2 = b.withDma asks dma ∧
        (dma.channel i).address = 0x00FFFFFF := by
  have hnodes : Dma.nodes b.memory.ram (b.board.dma.channel i).address m =
      (List.range n).map (Dma.entry address) := by
    rw [ha, ← Dma.entry_zero, ht.nodes_eq hn (by omega), Nat.sub_zero, ← List.range_eq_range']
  obtain ⟨hslices, asks, dma, hrest, hlast⟩ := runSlices_list hp hi halone m
  rw [hnodes] at hslices hrest hlast
  refine ⟨hnodes, ?_, asks, dma, ?_, ?_⟩
  · rw [hslices, List.map_map]
    refine List.map_congr_left fun k hk => ?_
    obtain ⟨hsize, -, hends⟩ := ht.node (List.mem_range.1 hk)
    rw [Function.comp_apply, hsize, hends]
  · have hnone : ((List.range n).map (Dma.entry address)).flatMap (Dma.payload b.memory.ram) =
        [] := by
      rw [List.flatMap_eq_nil_iff]
      intro p hp
      obtain ⟨k, hk, rfl⟩ := List.mem_map.1 hp
      exact ht.payload_eq (List.mem_range.1 hk)
    rw [hrest, hnone]
    rfl
  · obtain ⟨k, rfl⟩ := Nat.exists_eq_add_of_lt hn
    obtain ⟨-, hlink, -⟩ := ht.node (Nat.lt_succ_self (0 + k))
    rw [List.range_succ, List.map_append, List.map_singleton, List.getLast?_concat] at hlast
    rw [hlast]
    exact hlink.trans (if_pos rfl)

/-- Clearing an ordering table changes the words of its entries alone, and what it leaves there is a
list that has the entries for its nodes. A transfer along it that starts at the first entry, while
these words stand, has a slice of one word for each entry, in order, and none that hands anything to
its device; the slice of the last entry completes it, with the end mark for an address, and no other
does. -/
theorem cleared_table_is_list (hn : 1 ≤ n) (hle : n ≤ 0x10000) (hid : c.id = 6)
    (hcount : c.blockControl &&& 0xFFFF = UInt32.ofNat n &&& 0xFFFF)
    (hs : b.memory.hasSizes = true) (hstart : b.board.dma.channel 6 = c.start)
    (hnext : b.board.dma.nextChannel? = some 6) :
    ∃ slice b', b.runSlice = (some slice, b') ∧ slice.channel = 6 ∧ slice.words = n ∧
      slice.completed = true ∧ (b'.board.dma.channel 6).isBusy = false ∧
      (∀ j, (∀ k < n, j < Dma.tablePlace c.address k ∨ Dma.tablePlace c.address k + 4 ≤ j) →
        Bytes.byteAt b'.memory.ram j = Bytes.byteAt b.memory.ram j) ∧
      ∀ (i : Fin 7) (d : Dma.Channel), i.val < 6 → d.id = UInt8.ofNat i →
        d.syncMode = .linkedList → d.address = c.address &&& Dma.ramWordMask →
        let stands (a : Bus δ) : Prop := Bytes.Agree
          (fun q => ∃ k < n, q = Dma.tablePlace c.address k) a.memory.ram b'.memory.ram
        (∀ (turns : List (Turn δ)) e, Turns i d.start turns e → (∀ x ∈ turns, stands x.before) →
          (∀ pre x post, turns = pre ++ x :: post → pre.length < n ∧
            x.Visits i (Dma.entry c.address pre.length) ∧ x.slice.words = 1 ∧
            x.slice.completed = decide (pre.length + 1 = n) ∧
            ∃ asks dma, x.after = x.before.withDma asks dma) ∧
          ((turns.length = n ∧ e.isBusy = false ∧ e.address = 0x00FFFFFF) ∨
            (turns.length < n ∧ e.progress = some .linkedList))) ∧
        ∀ a : Bus δ, stands a → a.board.dma.channel i = d.start →
          a.board.dma.isEnabled i = true → (∀ j, j ≠ i → a.board.dma.isRunnable j = false) →
          ∀ m ≥ n,
            Dma.nodes a.memory.ram d.address m = (List.range n).map (Dma.entry c.address) ∧
            (a.runSlices m).1.map (fun s => (s.channel, s.words, s.completed)) =
              (List.range n).map (fun k => (i, 1, decide (k + 1 = n))) ∧
            ∃ asks dma, (a.runSlices m).2 = a.withDma asks dma ∧
              (dma.channel i).address = 0x00FFFFFF := by
  have hsize := Dma.Channel.blockSize_eq hn hle hcount
  obtain ⟨slice, b', hrun, hchannel, hwords, hcompleted, hidle, hram⟩ :=
    runSlice_table hid hstart hnext
  rw [hsize] at hwords hram
  have hfull : b.memory.ram.size = Address.ramSize := (Memory.hasSizes_iff.1 hs).1.1
  have htable : Dma.Table b'.memory.ram c.address n := by
    rw [hram]
    exact Dma.table_storeAll hfull c.address (by omega)
  refine ⟨slice, b', hrun, hchannel, hwords, hcompleted, hidle, fun j hj => ?_, ?_⟩
  · rw [hram]
    refine Bytes.byteAt_storeAll fun q hq => ?_
    obtain ⟨k, hk, rfl⟩ := List.mem_map.1 hq
    exact hj k (List.mem_range.1 hk)
  · intro i d hi hid hm ha stands
    have hp := Dma.Channel.progress_start hi hid hm
    refine ⟨fun turns e h hstands => ?_, fun a hstands hd henabled halone m hmn => ?_⟩
    · have ht : ∀ x ∈ turns, Dma.Table x.before.memory.ram c.address n :=
        fun x hx => htable.congr (hstands x hx)
      refine ⟨fun pre x post he => ?_, h.table_left hp ha hn ht⟩
      obtain ⟨hlt, hvisits, hone, hdone, hnothing, -⟩ := h.table_turn hp ha hn ht he
      exact ⟨hlt, hvisits, hone, hdone, hnothing⟩
    · have haddress : (a.board.dma.channel i).address = d.address := by
        rw [hd]
        rfl
      have hentries := runSlices_entries (hd ▸ hp) (haddress.trans ha) henabled halone hn
        (htable.congr hstands) hmn
      rwa [haddress] at hentries

/-- A table of four entries at 0x100C. -/
def tabled : Dma.Channel :=
  { Dma.Channel.initial 6 with address := 0x100C, blockControl := 4, control := 0x11000002 }

/-- A list for the GPU that starts there. -/
def walked : Dma.Channel :=
  { Dma.Channel.initial 2 with address := 0x100C, control := 0x01000401 }

/-- The controller with a channel started and enabled, and no other one. -/
def serving (i : Nat) (c : Dma.Channel) (enables : UInt32) : Dma :=
  { Dma.initial 1 with
    channels := (Dma.initial 1).channels.setIfInBounds i c.start
    control := enables }

def clearing : Bus Empty :=
  { board := { (Board.ofConfig {} : Board Empty) with dma := serving 6 tabled 0x08000000 }
    table := coreTable }

/-- The table is cleared, and then the GPU is sent along it. -/
theorem cleared_table_is_list_tabled : ∃ slice b', clearing.runSlice = (some slice, b') ∧
    slice.words = 4 ∧
    ((b'.withDma false (serving 2 walked 0x800)).runSlices 4).1.map
        (fun s => (s.channel, s.words, s.completed)) =
      [(2, 1, false), (2, 1, false), (2, 1, false), (2, 1, true)] := by
  obtain ⟨slice, b', hrun, -, hwords, -, -, -, hlist⟩ :=
    @cleared_table_is_list Empty _ tabled clearing 4 (by decide) (by decide) rfl (by decide)
      Memory.hasSizes_initial (by decide) (by decide)
  have henabled : (serving 2 walked 0x800).isEnabled 2 = true := by decide
  have halone : ∀ j, j ≠ 2 → (serving 2 walked 0x800).isRunnable j = false := by decide
  obtain ⟨-, hslices⟩ := hlist 2 walked (by decide) rfl (by decide) (by decide)
  obtain ⟨-, hsame, -⟩ := hslices (b'.withDma false (serving 2 walked 0x800)) (fun _ _ _ _ => rfl)
    rfl henabled halone 4 (Nat.le_refl 4)
  exact ⟨slice, b', hrun, hwords, hsame⟩

end Bus

end Psx
