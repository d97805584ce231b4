import Psx.Proofs.Bus.Plans

/-!
# What a transfer sees

All that a slice sees of a session is the registers of its channel, the words of RAM that it touches
and the state of the device that serves it. Buses that have these in common (`Bus.Near`) exchange the
same words with the device, and still have them in common afterwards (`Near.serve`). A slice of
another channel goes by unseen if it touches other words and is served by another device
(`Near.serve_other`).

`Bus.exchanges` are the words that a slice hands to its device or takes from it, in order; that the
device is given these words and gives those is `Bus.serve_exchanges`.
-/

namespace Psx

/-! ### Stores -/

namespace Bytes

variable {a b : ByteArray}

theorem byteAt_setByte_congr (hs : a.size = b.size) {j : Nat} (h : byteAt a j = byteAt b j)
    (i : Nat) (v : UInt8) : byteAt (setByte a i v) j = byteAt (setByte b i v) j := by
  rw [byteAt_setByte, byteAt_setByte, hs, h]

/-- What a byte holds after some stores depends on what it held before. -/
theorem byteAt_storeAll_congr (hs : a.size = b.size) {j : Nat} (h : byteAt a j = byteAt b j)
    (places : List Nat) (words : List UInt32) :
    byteAt (storeAll a places words) j = byteAt (storeAll b places words) j := by
  unfold storeAll
  induction places.zip words generalizing a b with
  | nil => exact h
  | cons s rest ih =>
    rw [List.foldl_cons, List.foldl_cons]
    refine ih ?_ ?_
    · rw [store_size, store_size, hs]
    · simp only [store]
      iterate 4
        refine byteAt_setByte_congr (by simp only [setByte_size, hs]) ?_ _ _
      exact h

theorem storeAll_size (places : List Nat) (words : List UInt32) :
    (storeAll a places words).size = a.size := by
  unfold storeAll
  induction places.zip words generalizing a with
  | nil => rfl
  | cons s rest ih => rw [List.foldl_cons, ih, store_size]

end Bytes

/-! ### Devices -/

namespace Board

variable {δ : Type}

/-- The state of a part that may serve a transfer. -/
def stateOf (b : Board δ) : Part → Option Gpu × Option (External δ)
  | .gpu => (some b.gpu, none)
  | .external i => (none, b.externals[i]?)
  | _ => (none, none)

variable [Device δ] {a b : Board δ} {p q : Part}

omit [Device δ] in
theorem stateOf_withExternal {i : Nat} {e : External δ} (h : b.externals[i]? = some e)
    (signals : List Signal) (device : δ) (q : Part) :
    (b.withExternal i e signals device).stateOf q =
      if q = .external i then (none, some { e with device }) else b.stateOf q := by
  have hi := (Array.getElem?_eq_some_iff.1 h).1
  cases q with
  | «external» j =>
    show (none, (b.externals.setIfInBounds i { e with device })[j]?) = _
    rw [Array.getElem?_setIfInBounds]
    by_cases hij : i = j
    · subst hij
      rw [if_pos rfl, if_pos hi, if_pos rfl]
    · rw [if_neg hij, if_neg fun h => hij (Part.external.inj h).symm]
      rfl
  | _ => rfl

theorem stateOf_consume (h : a.stateOf p = b.stateOf p) (channel : Nat) (word : UInt32) :
    (a.consume p channel word).stateOf p = (b.consume p channel word).stateOf p := by
  cases p with
  | gpu =>
    have hgpu : a.gpu = b.gpu := Option.some.inj (congrArg Prod.fst h)
    show (some (a.gpu.writeGp0 word).2, none) = (some (b.gpu.writeGp0 word).2, none)
    rw [hgpu]
  | «external» i =>
    have hi : a.externals[i]? = b.externals[i]? := congrArg Prod.snd h
    unfold consume
    dsimp only
    rw [hi]
    cases he : b.externals[i]? with
    | none => exact h
    | some e =>
      dsimp only
      rw [stateOf_withExternal (hi.trans he), stateOf_withExternal he, if_pos rfl, if_pos rfl]
  | _ => rfl

theorem stateOf_consume_of_ne (h : q ≠ p) (channel : Nat) (word : UInt32) :
    (b.consume p channel word).stateOf q = b.stateOf q := by
  cases p with
  | gpu =>
    cases q with
    | gpu => exact absurd rfl h
    | _ => rfl
  | «external» i =>
    unfold consume
    dsimp only
    split
    · rfl
    · rename_i e he
      rw [stateOf_withExternal he, if_neg h]
  | _ => rfl

theorem stateOf_produce (h : a.stateOf p = b.stateOf p) (channel : Nat) :
    (a.produce p channel).1 = (b.produce p channel).1 ∧
      (a.produce p channel).2.stateOf p = (b.produce p channel).2.stateOf p := by
  cases p with
  | gpu =>
    have hgpu : a.gpu = b.gpu := Option.some.inj (congrArg Prod.fst h)
    refine ⟨?_, ?_⟩
    · show a.gpu.readLatch.1 = b.gpu.readLatch.1
      rw [hgpu]
    · show (some a.gpu.readLatch.2, none) = (some b.gpu.readLatch.2, none)
      rw [hgpu]
  | «external» i =>
    have hi : a.externals[i]? = b.externals[i]? := congrArg Prod.snd h
    unfold produce
    dsimp only
    rw [hi]
    cases he : b.externals[i]? with
    | none => exact ⟨rfl, h⟩
    | some e =>
      dsimp only
      rw [stateOf_withExternal (hi.trans he), stateOf_withExternal he, if_pos rfl, if_pos rfl]
      exact ⟨rfl, rfl⟩
  | _ => exact ⟨rfl, rfl⟩

theorem stateOf_produce_of_ne (h : q ≠ p) (channel : Nat) :
    (b.produce p channel).2.stateOf q = b.stateOf q := by
  cases p with
  | gpu =>
    cases q with
    | gpu => exact absurd rfl h
    | _ => rfl
  | «external» i =>
    unfold produce
    dsimp only
    split
    · rfl
    · rename_i e he
      dsimp only
      rw [stateOf_withExternal he, if_neg h]
  | _ => rfl

end Board

/-! ### The device of a channel -/

/-- A word that passed between RAM and a device. -/
inductive Exchange where
  | consumed (word : UInt32)
  | produced (word : UInt32)
deriving DecidableEq, Repr

namespace Bus

variable {δ : Type} [Device δ] {a b : Bus δ} {channel : Nat}

/-- The state of the device that serves a channel. -/
def deviceOf (b : Bus δ) (channel : Nat) : Option (Option Gpu × Option (External δ)) :=
  (b.table.served? channel).map b.board.stateOf

/-- Two buses have a device in common that serves a channel. -/
structure SameDevice (channel : Nat) (a b : Bus δ) : Prop where
  table : a.table = b.table
  openBus : a.openBus = b.openBus
  device : a.deviceOf channel = b.deviceOf channel

/-- No device serves both of two channels. -/
def Distinct (b : Bus δ) (i j : Nat) : Prop :=
  ∀ p, b.table.served? i = some p → b.table.served? j ≠ some p

namespace SameDevice

omit [Device δ] in
theorem refl (channel : Nat) (b : Bus δ) : SameDevice channel b b := ⟨rfl, rfl, rfl⟩

omit [Device δ] in
theorem trans {c : Bus δ} (h : SameDevice channel a b) (h' : SameDevice channel b c) :
    SameDevice channel a c :=
  ⟨h.table.trans h'.table, h.openBus.trans h'.openBus, h.device.trans h'.device⟩

omit [Device δ] in
theorem stateOf (h : SameDevice channel a b) {p : Part} (hp : b.table.served? channel = some p) :
    a.board.stateOf p = b.board.stateOf p := by
  have hd := h.device
  unfold deviceOf at hd
  rw [h.table, hp] at hd
  exact Option.some.inj hd

omit [Device δ] in
theorem of_board {board board' : Board δ} (h : SameDevice channel a b)
    (hs : ∀ p, b.table.served? channel = some p → board.stateOf p = board'.stateOf p) :
    SameDevice channel { a with board } { b with board := board' } := by
  refine ⟨h.table, h.openBus, ?_⟩
  unfold deviceOf
  dsimp only
  rw [h.table]
  cases hp : b.table.served? channel with
  | none => rfl
  | some p => exact congrArg some (hs p hp)

theorem dmaConsume (h : SameDevice channel a b) (word : UInt32) :
    SameDevice channel (a.dmaConsume channel word) (b.dmaConsume channel word) := by
  have hserved : a.table.served? channel = b.table.served? channel := by rw [h.table]
  unfold Bus.dmaConsume
  rw [hserved]
  cases hp : b.table.served? channel with
  | none => exact h
  | some p =>
    refine h.of_board fun p' hp' => ?_
    cases hp.symm.trans hp'
    exact Board.stateOf_consume (h.stateOf hp) ..

theorem dmaProduce (h : SameDevice channel a b) :
    (a.dmaProduce channel).1 = (b.dmaProduce channel).1 ∧
      SameDevice channel (a.dmaProduce channel).2 (b.dmaProduce channel).2 := by
  have hserved : a.table.served? channel = b.table.served? channel := by rw [h.table]
  unfold Bus.dmaProduce
  rw [hserved]
  cases hp : b.table.served? channel with
  | none => exact ⟨h.openBus, h⟩
  | some p =>
    obtain ⟨hvalue, hstate⟩ := Board.stateOf_produce (h.stateOf hp) channel
    refine ⟨hvalue, h.of_board fun p' hp' => ?_⟩
    cases hp.symm.trans hp'
    exact hstate

theorem consumeAll (h : SameDevice channel a b) (words : List UInt32) :
    SameDevice channel (a.consumeAll channel words) (b.consumeAll channel words) := by
  unfold Bus.consumeAll
  induction words generalizing a b with
  | nil => exact h
  | cons word words ih => exact ih (h.dmaConsume word)

theorem produceAll (h : SameDevice channel a b) (n : Nat) :
    (a.produceAll channel n).1 = (b.produceAll channel n).1 ∧
      SameDevice channel (a.produceAll channel n).2 (b.produceAll channel n).2 := by
  induction n generalizing a b with
  | zero => exact ⟨rfl, h⟩
  | succ n ih =>
    obtain ⟨hvalue, hnext⟩ := h.dmaProduce
    obtain ⟨hvalues, hrest⟩ := ih hnext
    exact ⟨congrArg₂ List.cons hvalue hvalues, hrest⟩

/-! What another channel exchanges with its device is not seen. -/

variable {i : Nat}

theorem consume_other (hd : b.Distinct i channel) (word : UInt32) :
    SameDevice channel (b.dmaConsume i word) b := by
  unfold Bus.dmaConsume
  cases hp : b.table.served? i with
  | none => exact refl channel b
  | some p =>
    refine (refl channel b).of_board fun q hq => Board.stateOf_consume_of_ne ?_ ..
    rintro rfl
    exact hd q hp hq

theorem produce_other (hd : b.Distinct i channel) : SameDevice channel (b.dmaProduce i).2 b := by
  unfold Bus.dmaProduce
  cases hp : b.table.served? i with
  | none => exact refl channel b
  | some p =>
    refine (refl channel b).of_board fun q hq => Board.stateOf_produce_of_ne ?_ _
    rintro rfl
    exact hd q hp hq

omit [Device δ] in
theorem distinct (h : SameDevice channel a b) (hd : b.Distinct i channel) : a.Distinct i channel := by
  unfold Distinct
  rw [h.table]
  exact hd

theorem consumeAll_other (hd : b.Distinct i channel) (words : List UInt32) :
    SameDevice channel (b.consumeAll i words) b := by
  unfold Bus.consumeAll
  induction words generalizing b with
  | nil => exact refl channel b
  | cons word words ih =>
    have hfirst := consume_other hd word
    exact (ih (hfirst.distinct hd)).trans hfirst

theorem produceAll_other (hd : b.Distinct i channel) (n : Nat) :
    SameDevice channel (b.produceAll i n).2 b := by
  induction n generalizing b with
  | zero => exact refl channel b
  | succ n ih =>
    have hfirst := produce_other hd
    exact (ih (hfirst.distinct hd)).trans hfirst

end SameDevice

/-! ### The words of a slice -/

variable (b) (i : Fin 7)

/-- The words that the slice of a channel hands to its device or takes from it, in order. -/
def exchanges : List Exchange :=
  match b.planned i with
  | none => []
  | some q => q.consumed.map .consumed ++ (b.execute i q).1.map .produced

/-- The words of RAM that the slice of a channel reads or stores. -/
def touched : List Nat :=
  match (b.board.dma.channel i).progress with
  | none => []
  | some p => (b.board.dma.channel i).touches b.memory.ram p

variable {b i} in
omit [Device δ] in
theorem touched_mod_four {q : Nat} (h : q ∈ b.touched i) : q % 4 = 0 := by
  unfold touched at h
  split at h
  · cases h
  · exact Dma.Channel.touches_mod_four h

/-- Words pass between a bus and the device that serves a channel: the device takes each word that is
handed to it, and each word that is taken is the one that the device gives then. -/
inductive Passes (channel : Nat) : Bus δ → List Exchange → Bus δ → Prop
  | none {b : Bus δ} : Passes channel b [] b
  | consumed {b b' : Bus δ} {word : UInt32} {es : List Exchange} :
    Passes channel (b.dmaConsume channel word) es b' → Passes channel b (.consumed word :: es) b'
  | produced {b b' : Bus δ} {es : List Exchange} : Passes channel (b.dmaProduce channel).2 es b' →
    Passes channel b (.produced (b.dmaProduce channel).1 :: es) b'

theorem passes_produceAll (channel n : Nat) : Passes channel b
    ((b.produceAll channel n).1.map .produced) (b.produceAll channel n).2 := by
  induction n generalizing b with
  | zero => exact .none
  | succ n ih => exact .produced (ih _)

theorem passes_consumeAll (channel n : Nat) (words : List UInt32) : Passes channel b
    (words.map .consumed ++ ((b.consumeAll channel words).produceAll channel n).1.map .produced)
    ((b.consumeAll channel words).produceAll channel n).2 := by
  induction words generalizing b with
  | nil => exact b.passes_produceAll channel n
  | cons word words ih => exact .consumed (ih _)

variable {b i}

/-- A slice has its words pass, and apart from that it changes RAM and the controller alone. -/
theorem serve_exchanges : ∃ b', Passes i b (b.exchanges i) b' ∧
    ∃ ram asks dma, (b.serve i).2 = ({ b' with memory.ram := ram } : Bus δ).withDma asks dma := by
  unfold exchanges
  cases hq : b.planned i with
  | none =>
    rw [serve_idle hq]
    exact ⟨b, .none, b.memory.ram, false, b.board.dma, rfl⟩
  | some q =>
    obtain ⟨gap, asks, dma, hserve, -⟩ := serve_plan hq
    rw [hserve]
    exact ⟨_, b.passes_consumeAll i q.produced q.consumed, _, asks, dma, rfl⟩

theorem execute_table (q : Dma.Plan) : (b.execute i q).2.table = b.table := by
  have hconsumed : ∀ (words : List UInt32) (b : Bus δ), Frame b (b.consumeAll i words) := by
    intro words
    induction words with
    | nil => exact .refl
    | cons word words ih => exact fun b => (b.frame_dmaConsume i word).trans (ih _)
  have hproduced : ∀ (n : Nat) (b : Bus δ), Frame b (b.produceAll i n).2 := by
    intro n
    induction n with
    | zero => exact .refl
    | succ n ih => exact fun b => (b.frame_dmaProduce i).trans (ih _)
  exact ((hconsumed q.consumed b).trans (hproduced q.produced _)).table

/-- A slice changes RAM nowhere but in the words that it touches, and no other memory. -/
theorem serve_memory : (b.serve i).2.table = b.table ∧
    (∃ ram, (b.serve i).2.memory = { b.memory with ram } ∧ ram.size = b.memory.ram.size) ∧
    ∀ j, (∀ q ∈ b.touched i, j < q ∨ q + 4 ≤ j) →
      Bytes.byteAt (b.serve i).2.memory.ram j = Bytes.byteAt b.memory.ram j := by
  cases hq : b.planned i with
  | none =>
    rw [serve_idle hq]
    exact ⟨rfl, ⟨_, rfl, rfl⟩, fun _ _ => rfl⟩
  | some q =>
    obtain ⟨p, hp, rfl⟩ := Option.map_eq_some_iff.1 hq
    obtain ⟨gap, asks, dma, hserve, -⟩ := serve_plan hq
    have hmemory : (b.serve i).2.memory = _ :=
      (congrArg (·.2.memory) hserve).trans (execute_memory b i _)
    refine ⟨?_, ⟨_, hmemory, Bytes.storeAll_size ..⟩, fun j hj => ?_⟩
    · rw [hserve]
      exact execute_table _
    · rw [hmemory]
      refine Bytes.byteAt_storeAll fun place hmem => hj place ?_
      unfold touched
      rw [hp]
      exact Dma.Channel.mem_touches_of_places hmem

/-- The slice of a channel leaves the device of another one as it was. -/
theorem SameDevice.serve_other {j : Fin 7} (hd : b.Distinct i j) : SameDevice j (b.serve i).2 b := by
  cases hq : b.planned i with
  | none =>
    rw [serve_idle hq]
    exact .refl j b
  | some q =>
    obtain ⟨gap, asks, dma, hserve, -⟩ := serve_plan hq
    have hconsumed := SameDevice.consumeAll_other hd q.consumed
    have hproduced := (SameDevice.produceAll_other (hconsumed.distinct hd) q.produced).trans hconsumed
    rw [hserve]
    exact ⟨hproduced.table, hproduced.openBus, hproduced.device⟩

/-! ### Buses that a transfer cannot tell apart -/

/-- Two buses have in common what a transfer sees that stays within some words of RAM. -/
structure Near (i : Fin 7) (places : Nat → Prop) (a b : Bus δ) : Prop where
  same : SameDevice i a b
  channel : a.board.dma.channel i = b.board.dma.channel i
  size : a.memory.ram.size = b.memory.ram.size
  ram : Bytes.Agree places a.memory.ram b.memory.ram

namespace Near

variable {places : Nat → Prop}

omit [Device δ] in
theorem planned (h : Near i places a b) (hr : ∀ q ∈ b.touched i, places q) :
    a.planned i = b.planned i ∧ a.touched i = b.touched i := by
  unfold Bus.planned touched
  unfold touched at hr
  rw [h.channel]
  cases hp : (b.board.dma.channel i).progress with
  | none => exact ⟨rfl, rfl⟩
  | some p =>
    rw [hp] at hr
    obtain ⟨hplan, htouches⟩ := Dma.Channel.plan_congr (h.ram.mono hr)
    exact ⟨congrArg some hplan, htouches⟩

theorem execute (h : Near i places a b) (q : Dma.Plan) :
    (a.execute i q).1 = (b.execute i q).1 ∧ SameDevice i (a.execute i q).2 (b.execute i q).2 := by
  obtain ⟨hwords, hdevice⟩ := (h.same.consumeAll q.consumed).produceAll q.produced
  exact ⟨hwords, hdevice.table, hdevice.openBus, hdevice.device⟩

/-- A transfer that stays within its words goes on alike. -/
theorem serve (h : Near i places a b) (hr : ∀ q ∈ b.touched i, places q) :
    a.exchanges i = b.exchanges i ∧ Near i places (a.serve i).2 (b.serve i).2 := by
  have hplanned := (h.planned hr).1
  unfold exchanges
  rw [hplanned]
  cases hq : b.planned i with
  | none =>
    rw [serve_idle hq, serve_idle (hplanned.trans hq)]
    exact ⟨rfl, h⟩
  | some q =>
    obtain ⟨hwords, hdevice⟩ := h.execute q
    obtain ⟨gap, asks, dma, hserve, -, -, hchannel⟩ := serve_plan (hplanned.trans hq)
    obtain ⟨gap', asks', dma', hserve', -, -, hchannel'⟩ := serve_plan hq
    have hafter := (hchannel i).trans (if_pos rfl)
    have hafter' := (hchannel' i).trans (if_pos rfl)
    rw [hserve, hserve']
    refine ⟨by dsimp only; rw [hwords], ⟨hdevice.table, hdevice.openBus, hdevice.device⟩,
      hafter.trans hafter'.symm, ?_, ?_⟩
    · show (a.execute i q).2.memory.ram.size = (b.execute i q).2.memory.ram.size
      rw [execute_memory, execute_memory, Bytes.storeAll_size, Bytes.storeAll_size]
      exact h.size
    · show Bytes.Agree places (a.execute i q).2.memory.ram (b.execute i q).2.memory.ram
      rw [execute_memory, execute_memory, hwords]
      exact fun r hr k hk => Bytes.byteAt_storeAll_congr h.size (h.ram r hr k hk) _ _

/-- A transfer does not see the slice of another channel that has another device and touches other
words. -/
theorem serve_other {j : Fin 7} (h : Near j places a b) (hij : i ≠ j) (hd : a.Distinct i j)
    (hr : ∀ q ∈ a.touched i, ¬places q) (hfour : ∀ q, places q → q % 4 = 0) :
    Near j places (a.serve i).2 b := by
  obtain ⟨-, ⟨ram, hmemory, hsize⟩, hbytes⟩ := a.serve_memory (i := i)
  refine ⟨(SameDevice.serve_other hd).trans h.same, (serve_others.2 j hij.symm).trans h.channel, ?_,
    fun r hplace k hk => (hbytes _ fun q htouched => ?_).trans (h.ram r hplace k hk)⟩
  · rw [hmemory]
    exact hsize.trans h.size
  · -- both are the first bytes of words, and of different ones
    have hne : q ≠ r := fun e => hr q htouched (e ▸ hplace)
    have hq := touched_mod_four htouched
    have hplaceFour := hfour r hplace
    omega

end Near

end Bus

end Psx
