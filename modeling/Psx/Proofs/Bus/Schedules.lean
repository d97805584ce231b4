import Mathlib.Algebra.Order.BigOperators.Group.Finset
import Psx.Proofs.Bus.Alone
import Psx.Proofs.Bus.Turns

/-!
# Transfers side by side

Transfers that have their own words of RAM and their own devices do not disturb each other
(`Bus.schedules_agree`): the priorities tell in which order their slices come, and nothing else.

The invariant is `Bus.Shares`. Whatever the order, each channel stands where it would stand if it had
had as many turns by itself, its device and its words of RAM do too, and everything else is as it was.
A transfer has as many turns as it takes by itself, so in the end nothing is left of the order.
-/

namespace Psx

theorem Bytes.ext_byteAt {a b : ByteArray} (hs : a.size = b.size)
    (h : ∀ j, byteAt a j = byteAt b j) : a = b := by
  refine ByteArray.ext (Array.ext hs fun j ha hb => ?_)
  have hj := h j
  rwa [byteAt_eq, byteAt_eq, Array.getElem?_eq_getElem ha, Array.getElem?_eq_getElem hb] at hj

theorem writeLane_word (register : UInt32) {offset : UInt32} (h : offset &&& 3 = 0)
    (value : UInt32) : writeLane register offset .word value = value := by
  have hmask : value &&& Width.word.mask = value := UInt32.and_neg_one
  have hall : ~~~Width.word.mask = 0 := by decide
  have hshift : laneShift offset = 0 := by
    unfold laneShift
    rw [h]
    rfl
  unfold writeLane
  dsimp only
  rw [hshift, UInt32.shiftLeft_zero, UInt32.shiftLeft_zero, hall, hmask, UInt32.and_zero,
    UInt32.zero_or]

namespace Bus

variable {δ : Type}

/-! ### Schedules -/

/-- The bus with other priorities. -/
def prioritized (b : Bus δ) (control : UInt32) : Bus δ :=
  b.withDma false { b.board.dma with control }

/-- Priorities under which the same transfers may go on. -/
def Enabling (b : Bus δ) (control : UInt32) : Prop :=
  ∀ i, (b.prioritized control).board.dma.isRunnable i = b.board.dma.isRunnable i

variable [Device δ]

/-- The processor sets the priorities. -/
theorem write_prioritized {b : Bus δ} (h : b.table = coreTable) (control : UInt32) :
    b.write 0x1F8010F0 .word control = b.prioritized control := by
  have hlookup : b.table.lookup? (Address.translate (Width.word.align 0x1F8010F0)) =
      some (.dma, 0x70) := by
    rw [h]
    decide
  have hmask : control &&& Width.word.mask = control := UInt32.and_neg_one
  have hdma : b.board.dma.write 0x70 .word control = (false, { b.board.dma with control }) := by
    have hchannel : Dma.channelAt? 0x70 = none := by decide
    unfold Dma.write
    rw [hchannel, writeLane_word _ (by decide)]
    rfl
  show b.writeDevice _ .word (control &&& Width.word.mask) = _
  unfold writeDevice
  rw [hlookup, hmask]
  unfold Board.write
  dsimp only
  rw [hdma]
  rfl

/-- Runs slices one after another, each under its own priorities. The answer is the channels that were
served, with the words that passed. -/
def runUnder (b : Bus δ) (priorities : Nat → UInt32) :
    Nat → List (Fin 7 × List Exchange) × Bus δ
  | 0 => ([], b)
  | n + 1 =>
    let r := b.runUnder priorities n
    let a := r.2.prioritized (priorities n)
    let s := a.runSlice
    (r.1 ++ (s.1.map fun slice => (slice.channel, a.exchanges slice.channel)).toList, s.2)

/-- The words that passed between RAM and a device. -/
def heardAt (b : Bus δ) (p : Part) (log : List (Fin 7 × List Exchange)) : List Exchange :=
  log.flatMap fun x => if b.table.served? x.1 = some p then x.2 else []

/-! ### The turns of each channel -/

section

variable (log : List (Fin 7 × List Exchange)) (i : Fin 7)

def turnsOf : Nat := (log.map (·.1)).count i

def wordsOf : List Exchange := log.flatMap fun x => if x.1 = i then x.2 else []

theorem turnsOf_append (j : Fin 7) (words : List Exchange) :
    turnsOf (log ++ [(j, words)]) i = if j = i then turnsOf log i + 1 else turnsOf log i := by
  unfold turnsOf
  rw [List.map_append, List.count_append, List.map_singleton, List.count_singleton]
  by_cases h : j = i
  · simp [h]
  · simp [h]

theorem wordsOf_append (j : Fin 7) (words : List Exchange) :
    wordsOf (log ++ [(j, words)]) i = if j = i then wordsOf log i ++ words else wordsOf log i := by
  unfold wordsOf
  rw [List.flatMap_append, List.flatMap_singleton]
  by_cases h : j = i
  · simp [h]
  · simp [h]

/-- Each turn is that of some channel. -/
theorem sum_turnsOf : ∑ i, turnsOf log i = log.length := by
  simpa [turnsOf] using Multiset.sum_count_eq_card (s := Finset.univ)
    (m := (log.map (·.1) : Multiset (Fin 7))) fun _ _ => Finset.mem_univ _

end

/-! ### Transfers that have nothing in common -/

/-- The transfers that may go on have an end, and no two of them have a word of RAM or a device in
common. -/
structure Independent (b : Bus δ) : Prop where
  sound : ∀ i, b.board.dma.isRunnable i = true → (b.board.dma.channel i).Sound
  ends : ∀ i, b.board.dma.isRunnable i = true → (b.board.dma.channel i).Ends b.memory.ram
  ranges : ∀ i j, b.board.dma.isRunnable i = true → b.board.dma.isRunnable j = true → i ≠ j →
    ∀ q, (b.board.dma.channel i).Covers b.memory.ram q →
      ¬(b.board.dma.channel j).Covers b.memory.ram q
  devices : ∀ i j, b.board.dma.isRunnable i = true → b.board.dma.isRunnable j = true → i ≠ j →
    b.Distinct i j

/-- Each transfer stands where it would stand after its turns by itself. -/
structure Shares (b : Bus δ) (log : List (Fin 7 × List Exchange)) (a : Bus δ) : Prop where
  table : a.table = b.table
  memory : ∃ ram, a.memory = { b.memory with ram } ∧ ram.size = b.memory.ram.size
  rest : ∀ j, (∀ i, b.board.dma.isRunnable i = true →
      ∀ q, (b.board.dma.channel i).Covers b.memory.ram q → j < q ∨ q + 4 ≤ j) →
    Bytes.byteAt a.memory.ram j = Bytes.byteAt b.memory.ram j
  enabled : ∀ i, (b.board.dma.channel i).isBusy = true →
    a.board.dma.isEnabled i = b.board.dma.isEnabled i
  others : ∀ i, b.board.dma.isRunnable i = false →
    a.board.dma.channel i = b.board.dma.channel i
  members : ∀ x ∈ log, b.board.dma.isRunnable x.1 = true
  near : ∀ i, b.board.dma.isRunnable i = true →
    Near i ((b.board.dma.channel i).Covers b.memory.ram) a (b.alone i (turnsOf log i))
  words : ∀ i, b.board.dma.isRunnable i = true →
    wordsOf log i = b.aloneExchanges i (turnsOf log i)
  busy : ∀ i, b.board.dma.isRunnable i = true →
    ∀ k < turnsOf log i, ((b.alone i k).board.dma.channel i).isBusy = true

namespace Shares

variable {a b : Bus δ} {log : List (Fin 7 × List Exchange)} {i : Fin 7}

theorem start (b : Bus δ) : Shares b [] b where
  table := rfl
  memory := ⟨_, rfl, rfl⟩
  rest _ _ := rfl
  enabled _ _ := rfl
  others _ _ := rfl
  members x hx := by cases hx
  near i _ := ⟨.refl i b, rfl, rfl, fun _ _ _ _ => rfl⟩
  words _ _ := rfl
  busy _ _ k hk := absurd hk (Nat.not_lt_zero k)

/-- A transfer may go on if it does not stand at its end. -/
theorem isRunnable_iff (h : Shares b log a) : a.board.dma.isRunnable i = true ↔
    b.board.dma.isRunnable i = true ∧
      ((b.alone i (turnsOf log i)).board.dma.channel i).isBusy = true := by
  unfold Dma.isRunnable
  simp only [Bool.and_eq_true]
  cases hb : b.board.dma.isRunnable i with
  | true =>
    have hready := hb
    unfold Dma.isRunnable at hready
    rw [Bool.and_eq_true] at hready
    rw [h.enabled i hready.2, (h.near i hb).channel]
    exact and_congr_left' (iff_of_true hready.1 hready)
  | false =>
    have hidle := hb
    unfold Dma.isRunnable at hidle
    rw [Bool.and_eq_false_iff] at hidle
    rw [h.others i hb]
    constructor
    · rintro ⟨henabled, hbusy⟩
      rw [h.enabled i hbusy] at henabled
      simp_all
    · rintro ⟨⟨henabled, hbusy⟩, -⟩
      simp_all

theorem prioritized (h : Shares b log a) {control : UInt32} (hc : b.Enabling control) :
    Shares b log (a.prioritized control) where
  table := h.table
  memory := h.memory
  rest := h.rest
  enabled i hbusy := by
    have henabled := hc i
    unfold Dma.isRunnable at henabled
    rw [show (b.prioritized control).board.dma.channel i = b.board.dma.channel i from rfl, hbusy,
      Bool.and_true, Bool.and_true] at henabled
    exact (Dma.isEnabled_congr rfl i).trans henabled
  others := h.others
  members := h.members
  near i hi :=
    have hnear := h.near i hi
    ⟨⟨hnear.same.table, hnear.same.openBus, hnear.same.device⟩, hnear.channel, hnear.size,
      hnear.ram⟩
  words := h.words
  busy := h.busy

/-! ### A slice of one of them -/

section serve

variable (h : Shares b log a) (hb : b.Independent) (hi : a.board.dma.isRunnable i = true)

include h hb hi

theorem stays_alone : (b.alone i (turnsOf log i)).Stays i
    ((b.board.dma.channel i).Covers b.memory.ram) :=
  Stays.alone ⟨hb.sound i (h.isRunnable_iff.1 hi).1, fun _ hq => hq⟩ _

/-- A slice touches what it would touch alone, so it stays in the range of its transfer. -/
theorem covers_touched : ∀ q ∈ a.touched i, (b.board.dma.channel i).Covers b.memory.ram q := by
  have hstays := h.stays_alone hb hi
  rw [((h.near i (h.isRunnable_iff.1 hi).1).planned hstays.touched).2]
  exact hstays.touched

theorem near_serve (words : List Exchange) {j : Fin 7} (hj : b.board.dma.isRunnable j = true) :
    Near j ((b.board.dma.channel j).Covers b.memory.ram) (a.serve i).2
      (b.alone j (turnsOf (log ++ [(i, words)]) j)) := by
  have hready := (h.isRunnable_iff.1 hi).1
  rw [turnsOf_append]
  by_cases hij : i = j
  · subst hij
    rw [if_pos rfl, alone_succ]
    exact ((h.near i hready).serve (h.stays_alone hb hi).touched).2
  · -- independence: the slice reaches neither the device nor the range of another transfer
    rw [if_neg hij]
    refine (h.near j hj).serve_other hij ?_ (fun q hq => ?_) fun q => Dma.Channel.covers_mod_four
    · have hdevices := hb.devices i j hready hj hij
      unfold Distinct
      rw [h.table]
      exact hdevices
    · exact hb.ranges i j hready hj hij q (h.covers_touched hb hi q hq)

theorem words_serve {j : Fin 7} (hj : b.board.dma.isRunnable j = true) :
    wordsOf (log ++ [(i, a.exchanges i)]) j =
      b.aloneExchanges j (turnsOf (log ++ [(i, a.exchanges i)]) j) := by
  rw [turnsOf_append, wordsOf_append]
  by_cases hij : i = j
  · subst hij
    rw [if_pos rfl, if_pos rfl, aloneExchanges_succ, h.words i hj,
      ((h.near i hj).serve (h.stays_alone hb hi).touched).1]
  · rw [if_neg hij, if_neg hij]
    exact h.words j hj

omit hb in
theorem busy_serve (words : List Exchange) {j : Fin 7} (hj : b.board.dma.isRunnable j = true) :
    ∀ k < turnsOf (log ++ [(i, words)]) j,
      ((b.alone j k).board.dma.channel j).isBusy = true := by
  intro k hk
  rw [turnsOf_append] at hk
  by_cases hij : i = j
  · subst hij
    rw [if_pos rfl] at hk
    rcases Nat.lt_succ_iff_lt_or_eq.1 hk with hk | rfl
    · exact h.busy i hj k hk
    · exact (h.isRunnable_iff.1 hi).2
  · rw [if_neg hij] at hk
    exact h.busy j hj k hk

/-- The transfers stand so after a slice of one of them. -/
theorem serve : Shares b (log ++ [(i, a.exchanges i)]) (a.serve i).2 := by
  have hready := (h.isRunnable_iff.1 hi).1
  obtain ⟨htable, ⟨ram, hmemory, hsize⟩, hbytes⟩ := a.serve_memory (i := i)
  obtain ⟨hcontrol, hchannels⟩ := a.serve_others (i := i)
  constructor
  case table => exact htable.trans h.table
  case memory =>
    obtain ⟨ram', hmemory', hsize'⟩ := h.memory
    refine ⟨ram, ?_, ?_⟩
    · rw [hmemory, hmemory']
    · rw [hsize, hmemory', hsize']
  case rest =>
    exact fun j hj => (hbytes j fun q hq => hj i hready q (h.covers_touched hb hi q hq)).trans
      (h.rest j hj)
  case enabled => exact fun j hj => (Dma.isEnabled_congr hcontrol j).trans (h.enabled j hj)
  case others =>
    intro j hj
    have hne : j ≠ i := by
      rintro rfl
      rw [hready] at hj
      cases hj
    exact (hchannels j hne).trans (h.others j hj)
  case members =>
    intro x hx
    rcases List.mem_append.1 hx with hx | hx
    · exact h.members x hx
    · rw [List.mem_singleton.1 hx]
      exact hready
  case near => exact fun _ hj => h.near_serve hb hi _ hj
  case words => exact fun _ hj => h.words_serve hb hi hj
  case busy => exact fun _ hj => h.busy_serve hi _ hj

end serve

theorem runSlice (h : Shares b log a) (hb : b.Independent) :
    Shares b (log ++ (a.runSlice.1.map fun slice =>
      (slice.channel, a.exchanges slice.channel)).toList) a.runSlice.2 := by
  rcases hrun : a.runSlice with ⟨slice?, a'⟩
  cases slice? with
  | none =>
    obtain ⟨rfl, -⟩ := runSlice_none hrun
    exact (List.append_nil log).symm ▸ h
  | some slice =>
    rw [(runSlice_others hrun).1]
    exact h.serve hb (Dma.isRunnable_of_nextChannel? (nextChannel?_of_runSlice hrun).1)

theorem runUnder (hb : b.Independent) {priorities : Nat → UInt32}
    (hp : ∀ n, b.Enabling (priorities n)) (n : Nat) :
    Shares b (b.runUnder priorities n).1 (b.runUnder priorities n).2 := by
  induction n with
  | zero => exact start b
  | succ n ih => exact (ih.prioritized (hp n)).runSlice hb

end Shares

/-! ### How many turns there are -/

/-- The number of turns that each transfer takes. -/
structure Takes (b : Bus δ) (turns : Fin 7 → Nat) : Prop where
  busy : ∀ i, b.board.dma.isRunnable i = true →
    ∀ k < turns i, ((b.alone i k).board.dma.channel i).isBusy = true
  idle : ∀ i, b.board.dma.isRunnable i = true →
    ((b.alone i (turns i)).board.dma.channel i).isBusy = false
  others : ∀ i, b.board.dma.isRunnable i = false → turns i = 0

theorem Independent.exists_takes {b : Bus δ} (h : b.Independent) : ∃ turns, b.Takes turns := by
  have hturns : ∀ i, ∃ n, (b.board.dma.isRunnable i = true →
      (∀ k < n, ((b.alone i k).board.dma.channel i).isBusy = true) ∧
        ((b.alone i n).board.dma.channel i).isBusy = false) ∧
      (b.board.dma.isRunnable i = false → n = 0) := by
    intro i
    cases hi : b.board.dma.isRunnable i with
    | true =>
      obtain ⟨n, hn⟩ := exists_turns (h.sound i hi) (h.ends i hi)
      exact ⟨n, fun _ => hn, fun hidle => by cases hidle⟩
    | false => exact ⟨0, fun hready => absurd hready Bool.false_ne_true, fun _ => rfl⟩
  choose turns hturns using hturns
  exact ⟨turns, fun i hi => ((hturns i).1 hi).1, fun i hi => ((hturns i).1 hi).2,
    fun i => (hturns i).2⟩

namespace Shares

variable {a b : Bus δ} {log : List (Fin 7 × List Exchange)} {turns : Fin 7 → Nat}

theorem turnsOf_le (h : Shares b log a) (ht : b.Takes turns) (i : Fin 7) :
    turnsOf log i ≤ turns i := by
  cases hi : b.board.dma.isRunnable i with
  | true =>
    by_contra hlt
    have hbusy := h.busy i hi (turns i) (Nat.lt_of_not_le hlt)
    rw [ht.idle i hi] at hbusy
    cases hbusy
  | false =>
    refine (List.count_eq_zero.2 fun hmem => ?_).le.trans (Nat.zero_le _)
    obtain ⟨x, hx, rfl⟩ := List.mem_map.1 hmem
    rw [h.members x hx] at hi
    cases hi

theorem isRunnable_iff_lt (h : Shares b log a) (ht : b.Takes turns) {i : Fin 7} :
    a.board.dma.isRunnable i = true ↔ turnsOf log i < turns i := by
  rw [h.isRunnable_iff]
  cases hi : b.board.dma.isRunnable i with
  | true =>
    refine ⟨fun hbusy => Nat.lt_of_le_of_ne (h.turnsOf_le ht i) fun he => ?_,
      fun hlt => ⟨rfl, ht.busy i hi _ hlt⟩⟩
    rw [he, ht.idle i hi] at hbusy
    cases hbusy.2
  | false =>
    rw [ht.others i hi]
    exact ⟨fun h => absurd h.1 Bool.false_ne_true, fun h => absurd h (Nat.not_lt_zero _)⟩

theorem hasPendingWork_iff (h : Shares b log a) (ht : b.Takes turns) :
    a.board.dma.hasPendingWork = true ↔ log.length < ∑ i, turns i := by
  rw [Dma.hasPendingWork_iff, ← sum_turnsOf]
  simp only [h.isRunnable_iff_lt ht]
  constructor
  · rintro ⟨i, hi⟩
    exact Finset.sum_lt_sum (fun i _ => h.turnsOf_le ht i) ⟨i, Finset.mem_univ i, hi⟩
  · intro hlt
    obtain ⟨i, -, hi⟩ := Finset.exists_lt_of_sum_lt hlt
    exact ⟨i, hi⟩

/-- When nothing is pending, each transfer has had its turns. -/
theorem turnsOf_eq (h : Shares b log a) (ht : b.Takes turns)
    (hidle : a.board.dma.hasPendingWork = false) (i : Fin 7) : turnsOf log i = turns i := by
  refine Nat.le_antisymm (h.turnsOf_le ht i) (Nat.le_of_not_lt fun hlt => ?_)
  have hpending := a.board.dma.hasPendingWork_iff.2 ⟨i, (h.isRunnable_iff_lt ht).2 hlt⟩
  rw [hidle] at hpending
  cases hpending

end Shares

theorem length_runUnder {b : Bus δ} (hb : b.Independent) {turns : Fin 7 → Nat} (ht : b.Takes turns)
    {priorities : Nat → UInt32} (hp : ∀ n, b.Enabling (priorities n)) (n : Nat) :
    (b.runUnder priorities n).1.length = min n (∑ i, turns i) := by
  induction n with
  | zero => exact (Nat.zero_min _).symm
  | succ n ih =>
    have hshares := (Shares.runUnder hb hp n).prioritized (hp n)
    have hpending := hshares.hasPendingWork_iff ht
    have hnext := (Shares.runUnder hb hp (n + 1)).hasPendingWork_iff ht
    unfold Bus.runUnder
    dsimp only
    rw [List.length_append, ih]
    rw [ih] at hpending
    rcases hrun : ((b.runUnder priorities n).2.prioritized (priorities n)).runSlice with ⟨slice?, a'⟩
    cases slice? with
    | none =>
      rw [(runSlice_none hrun).2] at hpending
      simp at hpending ⊢
      omega
    | some slice =>
      have hrunnable := Dma.isRunnable_of_nextChannel? (nextChannel?_of_runSlice hrun).1
      have hlt := hpending.1 ((Dma.hasPendingWork_iff _).2 ⟨_, hrunnable⟩)
      simp
      omega

/-! ### The end -/

namespace Shares

variable {a a' b : Bus δ} {log log' : List (Fin 7 × List Exchange)}

/-- What a device has heard are the words of the transfer that it serves. -/
theorem heardAt_eq (h : Shares b log a) (hb : b.Independent) {i : Fin 7} {p : Part}
    (hi : b.board.dma.isRunnable i = true) (hp : b.table.served? i = some p) :
    b.heardAt p log = wordsOf log i := by
  unfold heardAt wordsOf
  refine List.flatMap_congr fun x hx => ?_
  by_cases hxi : x.1 = i
  · rw [hxi, if_pos hp, if_pos rfl]
  · rw [if_neg hxi, if_neg (hb.devices i x.1 hi (h.members x hx) (Ne.symm hxi) p hp)]

/-- Transfers that have had equally many turns stand where they stand in the other order. -/
theorem agree (h : Shares b log a) (h' : Shares b log' a') (hb : b.Independent)
    (ht : ∀ i, turnsOf log i = turnsOf log' i) :
    a.memory = a'.memory ∧ (∀ p, b.heardAt p log = b.heardAt p log') ∧
      (∀ i, a.board.dma.channel i = a'.board.dma.channel i) ∧
      ∀ i, b.board.dma.isRunnable i = true → a.deviceOf i = a'.deviceOf i := by
  have hnear : ∀ i, b.board.dma.isRunnable i = true →
      Near i ((b.board.dma.channel i).Covers b.memory.ram) a' (b.alone i (turnsOf log i)) := by
    intro i hi
    rw [ht i]
    exact h'.near i hi
  refine ⟨?_, fun p => ?_, fun i => ?_, fun i hi => ?_⟩
  · obtain ⟨ram, hmemory, hsize⟩ := h.memory
    obtain ⟨ram', hmemory', hsize'⟩ := h'.memory
    have hram : a.memory.ram = a'.memory.ram := by
      refine Bytes.ext_byteAt ?_ fun j => ?_
      · rw [hmemory, hmemory', hsize, hsize']
      by_cases hj : ∀ i, b.board.dma.isRunnable i = true →
          ∀ q, (b.board.dma.channel i).Covers b.memory.ram q → j < q ∨ q + 4 ≤ j
      · exact (h.rest j hj).trans (h'.rest j hj).symm
      · push Not at hj
        obtain ⟨i, hi, q, hq, hle, hlt⟩ := hj
        obtain ⟨k, rfl⟩ := Nat.exists_eq_add_of_le hle
        have hk : k < 4 := by omega
        exact ((h.near i hi).ram q hq k hk).trans ((hnear i hi).ram q hq k hk).symm
    rw [hmemory, hmemory'] at hram ⊢
    exact congrArg (fun ram => { b.memory with ram }) hram
  · by_cases hp : ∃ i, b.board.dma.isRunnable i = true ∧ b.table.served? i = some p
    · obtain ⟨i, hi, hserved⟩ := hp
      rw [h.heardAt_eq hb hi hserved, h'.heardAt_eq hb hi hserved, h.words i hi, h'.words i hi, ht i]
    · have hnone : ∀ {log} {a : Bus δ}, Shares b log a → b.heardAt p log = [] := by
        intro log a h
        refine List.flatMap_eq_nil_iff.2 fun x hx => if_neg fun hserved => hp ⟨x.1, ?_, hserved⟩
        exact h.members x hx
      rw [hnone h, hnone h']
  · cases hi : b.board.dma.isRunnable i with
    | true => exact (h.near i hi).channel.trans (hnear i hi).channel.symm
    | false => exact (h.others i hi).trans (h'.others i hi).symm
  · exact (h.near i hi).same.device.trans (hnear i hi).same.device.symm

end Shares

/-- Transfers with their own ranges of RAM and their own devices do not disturb each other. They take
so many slices whatever the priorities are, and when nothing is pending any more then RAM, the words
that passed at each device and the registers of each channel are the same for any two schedules. A
slice has its words pass and changes the registers of the channel that it serves alone. -/
theorem schedules_agree {b : Bus δ} (h : b.Independent) :
    (∃ turns, ∀ priorities : Nat → UInt32, (∀ n, b.Enabling (priorities n)) →
      ∀ n, (b.runUnder priorities n).2.board.dma.hasPendingWork = true ↔ n < turns) ∧
    (∀ priorities priorities' : Nat → UInt32,
      (∀ n, b.Enabling (priorities n)) → (∀ n, b.Enabling (priorities' n)) → ∀ n n',
        let r := b.runUnder priorities n
        let r' := b.runUnder priorities' n'
        r.2.board.dma.hasPendingWork = false → r'.2.board.dma.hasPendingWork = false →
          r.2.memory = r'.2.memory ∧ (∀ p, b.heardAt p r.1 = b.heardAt p r'.1) ∧
          (∀ i, r.2.board.dma.channel i = r'.2.board.dma.channel i) ∧
          ∀ i, b.board.dma.isRunnable i = true → r.2.deviceOf i = r'.2.deviceOf i) ∧
    ∀ (a a' : Bus δ) (slice : Dma.Slice), a.runSlice = (some slice, a') →
      (∃ c, Passes slice.channel a (a.exchanges slice.channel) c ∧
        ∃ ram asks dma, a' = ({ c with memory.ram := ram } : Bus δ).withDma asks dma) ∧
      a'.board.dma.control = a.board.dma.control ∧
      ∀ j, j ≠ slice.channel → a'.board.dma.channel j = a.board.dma.channel j := by
  obtain ⟨turns, ht⟩ := h.exists_takes
  refine ⟨⟨∑ i, turns i, fun priorities hp n => ?_⟩, fun priorities priorities' hp hp' n n' => ?_,
    fun a a' slice hrun => ?_⟩
  · rw [(Shares.runUnder h hp n).hasPendingWork_iff ht, length_runUnder h ht hp]
    omega
  · intro r r' hidle hidle'
    have hshares := Shares.runUnder h hp n
    have hshares' := Shares.runUnder h hp' n'
    exact hshares.agree hshares' h fun i =>
      (hshares.turnsOf_eq ht hidle i).trans (hshares'.turnsOf_eq ht hidle' i).symm
  · obtain ⟨hserve, hothers⟩ := runSlice_others hrun
    rw [hserve] at hothers ⊢
    exact ⟨serve_exchanges, hothers⟩

/-- Three transfers: a list of two nodes for the GPU, at address 0; an ordering table of two entries,
from 0x14 downwards; and three words to 0x20, two of them in a slice, on a channel without a device. -/
def sharing : Bus Empty :=
  let board : Board Empty := .ofConfig {}
  let list := { Dma.Channel.initial 2 with control := 0x01000401 }
  let block := { Dma.Channel.initial 4 with
    address := 0x20, blockControl := 0x00010003, control := 0x01010300 }
  let table := { Dma.Channel.initial 6 with
    address := 0x14, blockControl := 2, control := 0x11000002 }
  { memory := { Memory.initial with
      ram := ⟨#[0x08, 0, 0, 0x01, 0, 0, 0, 0, 0xFF, 0xFF, 0xFF, 0x00, 0, 0, 0, 0,
        0, 0, 0, 0, 0, 0, 0, 0, 0, 0, 0, 0, 0, 0, 0, 0, 0, 0, 0, 0, 0, 0, 0, 0, 0, 0, 0, 0]⟩ }
    board := { board with dma := { board.dma with
      channels := ((board.dma.channels.setIfInBounds 2 list.start).setIfInBounds 4
        block.start).setIfInBounds 6 table.start
      control := 0x08080800 } }
    table := coreTable }

theorem covers_sharing {i : Fin 7} {q : Nat}
    (h : (sharing.board.dma.channel i).Covers sharing.memory.ram q) :
    i = 2 ∧ q < 0x10 ∨ i = 6 ∧ 0x10 ≤ q ∧ q < 0x20 ∨ i = 4 ∧ 0x20 ≤ q := by
  have hbusy : ∀ i, (sharing.board.dma.channel i).progress ≠ none → i = 2 ∨ i = 4 ∨ i = 6 := by
    decide +kernel
  have hi := hbusy i fun hnone => by
    unfold Dma.Channel.Covers at h
    rw [hnone] at h
    exact h
  rcases hi with rfl | rfl | rfl
  · obtain ⟨n, p, hmem, k, hk, rfl⟩ := h
    have hfirst : ∀ k < Dma.nodeSize sharing.memory.ram 0 + 1, Dma.nodePlace 0 k < 0x10 := by
      decide +kernel
    have hlast : ∀ k < Dma.nodeSize sharing.memory.ram 8 + 1, Dma.nodePlace 8 k < 0x10 := by
      decide +kernel
    have hp : p = 0 ∨ p = 8 := by
      rcases n with _ | _ | n
      · cases hmem
      · exact .inl (List.mem_singleton.1 hmem)
      · exact (List.mem_cons.1 hmem).imp_right List.mem_singleton.1
    refine .inl ⟨rfl, ?_⟩
    rcases hp with rfl | rfl
    · exact hfirst k (Nat.lt_succ_of_le hk)
    · exact hlast k (Nat.lt_succ_of_le hk)
  · obtain ⟨k, hk, rfl⟩ := h
    have hplaces : ∀ k < 3, 0x20 ≤ (sharing.board.dma.channel 4).wordAt k := by decide +kernel
    exact .inr (.inr ⟨rfl, hplaces k hk⟩)
  · obtain ⟨k, hk, rfl⟩ := h
    have hplaces : ∀ k < 2, 0x10 ≤ Dma.tablePlace 0x14 k ∧ Dma.tablePlace 0x14 k < 0x20 := by
      decide +kernel
    exact .inr (.inl ⟨rfl, hplaces k hk⟩)

theorem independent_sharing : sharing.Independent := by
  have hready : ∀ i, sharing.board.dma.isRunnable i = true → i = 2 ∨ i = 4 ∨ i = 6 := by
    decide +kernel
  have hserved : ∀ i : Fin 7, i ≠ 2 → sharing.table.served? i = none := by decide +kernel
  refine ⟨fun i hi p hp => ?_, fun i hi hp => ?_, fun i j _ _ hij q hq hq' => ?_,
    fun i j _ _ hij p hp hp' => ?_⟩
  · rcases hready i hi with rfl | rfl | rfl <;> exact Dma.Channel.start_sound _ p hp
  · rcases hready i hi with rfl | rfl | rfl
    · exact ⟨2, 8, by decide +kernel, by decide +kernel⟩
    · exact absurd hp (by decide +kernel)
    · exact absurd hp (by decide +kernel)
  · have := covers_sharing hq
    have := covers_sharing hq'
    omega
  · by_cases hi : i = 2
    · rw [hserved j (hi ▸ hij.symm)] at hp'
      cases hp'
    · rw [hserved i hi] at hp
      cases hp

theorem schedules_agree_sharing :
    (sharing.runUnder (fun _ => 0x0A090800) 5).1.map (·.1) = [2, 2, 4, 4, 6] ∧
    (sharing.runUnder (fun _ => 0x08090A00) 5).1.map (·.1) = [6, 4, 4, 2, 2] ∧
    (sharing.runUnder (fun _ => 0x0A090800) 5).2.memory =
      (sharing.runUnder (fun _ => 0x08090A00) 5).2.memory := by
  have henabling : sharing.Enabling 0x0A090800 ∧ sharing.Enabling 0x08090A00 := by
    unfold Enabling
    decide +kernel
  have hagree := (schedules_agree independent_sharing).2.1 (fun _ => 0x0A090800)
    (fun _ => 0x08090A00) (fun _ => henabling.1) (fun _ => henabling.2) 5 5 (by decide +kernel)
    (by decide +kernel)
  exact ⟨by decide +kernel, by decide +kernel, hagree.1⟩

end Bus

end Psx
