import Mathlib.Data.List.Basic
import Psx.Proofs.Snapshot.Admission

/-!
# Going on after a restore

Two buses are twins (`Bus.Twin`) when they hold the chips of the core in the same states, and the
same memories. They may differ in devices that are not registered and in what the boot program has
printed: no chip looks at either, so twins answer alike and stay twins (`Bus.Twin.lockstep`).

A session that has taken a snapshot over is the twin of the session that the snapshot was taken of,
with the same processor and the same scheduler. So the two go on alike for any number of steps,
whatever either of them has been through before (`Machine.resume`).
-/

namespace Psx

open Snapshot

variable {δ : Type} [Device δ]

/-! ### Twins -/

/-- The same chips; the attached devices and what was printed may differ. -/
def Board.Twin (a b : Board δ) : Prop :=
  ∃ externals console, b = { a with externals, console }

namespace Board.Twin

variable {a b : Board δ} {p : Part}

theorem read (h : Twin a b) (hp : p ∈ Part.core) (offset : UInt32) (w : Width) :
    (a.read p offset w).1 = (b.read p offset w).1 ∧
      Twin (a.read p offset w).2 (b.read p offset w).2 := by
  obtain ⟨externals, console, rfl⟩ := h
  cases p with
  | «external» i => simp [Part.core] at hp
  | _ => exact ⟨rfl, externals, console, rfl⟩

theorem write (h : Twin a b) (hp : p ∈ Part.core) (offset : UInt32) (w : Width) (value : UInt32) :
    Twin (a.write p offset w value) (b.write p offset w value) := by
  obtain ⟨externals, console, rfl⟩ := h
  cases p with
  | «external» i => simp [Part.core] at hp
  -- a line that the boot program ends goes to each console
  | expansion => exact ⟨externals, _, rfl⟩
  | _ => exact ⟨externals, console, rfl⟩

theorem consume (h : Twin a b) (hp : p ∈ Part.core) (channel : Nat) (word : UInt32) :
    Twin (a.consume p channel word) (b.consume p channel word) := by
  obtain ⟨externals, console, rfl⟩ := h
  cases p with
  | «external» i => simp [Part.core] at hp
  | _ => exact ⟨externals, console, rfl⟩

theorem produce (h : Twin a b) (hp : p ∈ Part.core) (channel : Nat) :
    (a.produce p channel).1 = (b.produce p channel).1 ∧
      Twin (a.produce p channel).2 (b.produce p channel).2 := by
  obtain ⟨externals, console, rfl⟩ := h
  cases p with
  | «external» i => simp [Part.core] at hp
  | _ => exact ⟨rfl, externals, console, rfl⟩

theorem advance (h : Twin a b) (hp : p ∈ Part.core) (cycles : Nat) :
    Twin (a.advance cycles p) (b.advance cycles p) := by
  obtain ⟨externals, console, rfl⟩ := h
  cases p with
  | «external» i => simp [Part.core] at hp
  | _ => exact ⟨externals, console, rfl⟩

theorem untilEvent (h : Twin a b) (hp : p ∈ Part.core) : a.untilEvent p = b.untilEvent p := by
  obtain ⟨externals, console, rfl⟩ := h
  cases p with
  | «external» i => simp [Part.core] at hp
  | _ => rfl

end Board.Twin

namespace Bus

/-- The same chips of the core, and nothing else, at the same addresses, with the same memories. -/
def Twin (a b : Bus δ) : Prop :=
  (∀ p ∈ a.parts, p ∈ Part.core) ∧ ∃ board, a.board.Twin board ∧ b = { a with board }

namespace Twin

variable {a b : Bus δ}

theorem readDevice (h : Twin a b) (physical : UInt32) (w : Width) :
    (a.readDevice physical w).1 = (b.readDevice physical w).1 ∧
      Twin (a.readDevice physical w).2 (b.readDevice physical w).2 := by
  obtain ⟨hp, board, hb, rfl⟩ := h
  unfold Bus.readDevice
  dsimp only
  split
  · exact ⟨rfl, hp, board, hb, rfl⟩
  · rename_i part offset hl
    obtain ⟨he, hb⟩ := hb.read (hp part (mem_parts_of_lookup? hl)) offset w
    exact ⟨congrArg (· &&& w.mask) he, hp, _, hb, rfl⟩

theorem writeDevice (h : Twin a b) (physical : UInt32) (w : Width) (value : UInt32) :
    Twin (a.writeDevice physical w value) (b.writeDevice physical w value) := by
  obtain ⟨hp, board, hb, rfl⟩ := h
  unfold Bus.writeDevice
  dsimp only
  split
  · exact ⟨hp, board, hb, rfl⟩
  · rename_i part offset hl
    exact ⟨hp, _, hb.write (hp part (mem_parts_of_lookup? hl)) .., rfl⟩

theorem read (h : Twin a b) (address : UInt32) (w : Width) :
    (a.read address w).1 = (b.read address w).1 ∧
      Twin (a.read address w).2 (b.read address w).2 := by
  have hd := h.readDevice (Address.translate (w.align address)) w
  obtain ⟨hp, board, hb, rfl⟩ := h
  unfold Bus.read
  dsimp only
  split <;> first | exact hd | exact ⟨rfl, hp, board, hb, rfl⟩

theorem write (h : Twin a b) (address : UInt32) (w : Width) (value : UInt32) :
    Twin (a.write address w value) (b.write address w value) := by
  have hd := h.writeDevice (Address.translate (w.align address)) w (value &&& w.mask)
  obtain ⟨hp, board, hb, rfl⟩ := h
  unfold Bus.write
  dsimp only
  split <;> first | exact hd | exact ⟨hp, board, hb, rfl⟩

theorem advance (h : Twin a b) (cycles : Nat) : Twin (a.advance cycles) (b.advance cycles) := by
  obtain ⟨hp, board, hb, rfl⟩ := h
  unfold Bus.advance
  split
  · exact ⟨hp, board, hb, rfl⟩
  · rw [eachPart_eq, eachPart_eq]
    refine ⟨hp, _, ?_, rfl⟩
    show Board.Twin (a.parts.foldl _ a.board) (a.parts.foldl _ board)
    revert hp hb
    generalize a.board = x
    generalize a.parts = ps
    intro hp hb
    induction ps generalizing x board with
    | nil => exact hb
    | cons p ps ih =>
      exact ih _ _ (fun q hq => hp q (List.mem_cons_of_mem p hq))
        (hb.advance (hp p List.mem_cons_self) cycles)

theorem untilEvent (h : Twin a b) : a.untilEvent = b.untilEvent := by
  obtain ⟨hp, board, hb, rfl⟩ := h
  rw [untilEvent_eq, untilEvent_eq]
  refine List.foldl_ext _ _ _ fun soonest p h => ?_
  exact congrArg (sooner soonest) (hb.untilEvent (hp p h))

theorem dmaConsume (h : Twin a b) (channel : Nat) (word : UInt32) :
    Twin (a.dmaConsume channel word) (b.dmaConsume channel word) := by
  obtain ⟨hp, board, hb, rfl⟩ := h
  unfold Bus.dmaConsume
  dsimp only
  split
  · exact ⟨hp, board, hb, rfl⟩
  · rename_i part hl
    exact ⟨hp, _, hb.consume (hp part (mem_parts_of_served? hl)) .., rfl⟩

theorem dmaProduce (h : Twin a b) (channel : Nat) :
    (a.dmaProduce channel).1 = (b.dmaProduce channel).1 ∧
      Twin (a.dmaProduce channel).2 (b.dmaProduce channel).2 := by
  obtain ⟨hp, board, hb, rfl⟩ := h
  unfold Bus.dmaProduce
  dsimp only
  split
  · exact ⟨rfl, hp, board, hb, rfl⟩
  · rename_i part hl
    obtain ⟨he, hb⟩ := hb.produce (hp part (mem_parts_of_served? hl)) channel
    exact ⟨he, hp, _, hb, rfl⟩

omit [Device δ] in
theorem dma (h : Twin a b) : a.board.dma = b.board.dma := by
  obtain ⟨hp, board, ⟨externals, console, rfl⟩, rfl⟩ := h
  rfl

theorem mover : Mover (Twin (δ := δ)) where
  timing := fun ⟨_, _, _, e⟩ => by rw [e]
  cacheControl := fun ⟨_, _, _, e⟩ => by rw [e]
  pending := fun ⟨_, _, ⟨_, _, e'⟩, e⟩ => by rw [e, e']
  read h := h.read
  write h := h.write
  consume h := h.dmaConsume
  produce h := h.dmaProduce

/-- Twins stay twins in all that happens in a step. -/
theorem lockstep : Lockstep (Twin (δ := δ)) where
  toSimulation := mover.toSimulation
  advance h := h.advance
  untilEvent h := h.untilEvent
  runSlice h := mover.runSlice h h.dma (fun h => h.dma) fun {a b} h asks dma => by
    obtain ⟨hp, board, ⟨externals, console, rfl⟩, rfl⟩ := h
    exact ⟨hp, _, ⟨externals, console, by cases asks <;> rfl⟩, rfl⟩
  pendingWork h := by rw [h.dma]

end Twin

end Bus

/-! ### Going on -/

namespace Machine

/-- The next steps of a session: what each of them took, and the session afterwards. -/
def run (m : Machine δ) : Nat → List Nat × Machine δ
  | 0 => ([], m)
  | k + 1 =>
    let (cycles, m) := m.step
    let (costs, m) := m.run k
    (cycles :: costs, m)

/-- Sessions in the same state: the processor, the memories with the cache control register, the
chips and the scheduler. -/
structure Same (m m' : Machine δ) : Prop where
  cpu : m.cpu = m'.cpu
  memory : m.bus.memory = m'.bus.memory
  interrupts : m.bus.board.lines.interrupts = m'.bus.board.lines.interrupts
  timers : m.bus.board.lines.timers = m'.bus.board.lines.timers
  dma : m.bus.board.dma = m'.bus.board.dma
  gpu : m.bus.board.gpu = m'.bus.board.gpu
  memoryControl : m.bus.board.memoryControl = m'.bus.board.memoryControl
  expansion : m.bus.board.expansion = m'.bus.board.expansion
  scheduler : m.scheduler = m'.scheduler

variable {s : Surroundings δ} {a b b' : Machine δ}

omit [Device δ] in
theorem Like.same (h : Like Bus.Twin a b) : a.Same b := by
  obtain ⟨hp, board, ⟨externals, console, hb⟩, e⟩ := h.bus
  have hboard : b.bus.board = { a.bus.board with externals, console } := by rw [e, hb]
  exact ⟨h.cpu, by rw [e], by rw [hboard], by rw [hboard], by rw [hboard], by rw [hboard],
    by rw [hboard], by rw [hboard], h.scheduler⟩

theorem Like.run {R : Bus δ → Bus δ → Prop} (l : Bus.Lockstep R) (h : Like R a b) (k : Nat) :
    (a.run k).1 = (b.run k).1 ∧ Like R (a.run k).2 (b.run k).2 := by
  induction k generalizing a b with
  | zero => exact ⟨rfl, h⟩
  | succ k ih =>
    obtain ⟨hc, hl⟩ := h.step l
    obtain ⟨hcs, hl'⟩ := ih hl
    exact ⟨congrArg₂ List.cons hc hcs, hl'⟩

omit [Device δ] in
/-- A session that has taken over all of a snapshot is the twin of the session it was taken of. -/
theorem adopt_like (hp : ∀ p ∈ a.bus.parts, p ∈ Part.core) (ht : b.bus.table = a.bus.table)
    (hm : b.bus.timing = a.bus.timing) (ho : b.bus.openBus = a.bus.openBus) :
    Like Bus.Twin a (b.adopt a) := by
  refine ⟨rfl, rfl, hp, _, ⟨b.bus.board.externals, b.bus.board.console, rfl⟩, ?_⟩
  unfold adopt
  rw [← ht, ← hm, ← ho]

/-- A session of the core that has restored a snapshot goes on as the session the snapshot was taken
of: however many steps follow, each takes the same number of cycles in both, and both end in the
same state. -/
theorem resume (hs : ∀ device, ¬s.attaches device) (ha : a.Reachable s) (hb : b.Reachable s)
    (hr : b.restore a.snapshot = (none, b')) (k : Nat) :
    (a.run k).1 = (b'.run k).1 ∧ (a.run k).2.Same (b'.run k).2 := by
  have hta := ha.laid.bare hs
  have htb := hb.laid.bare hs
  have hpa : a.bus.parts = Part.core := Bus.parts_of_table hta
  have ht : a.bus.table = b.bus.table := hta.trans htb.symm
  rw [restore_snapshot ha.fits (ha.inStep (.inr hs)) ht hpa ha.laid.sizes
    (ha.laid.events.trans hb.laid.events.symm)] at hr
  split at hr
  · cases hr
    have hl : Like Bus.Twin a (b.adopt a) := adopt_like (fun p hp => by rwa [hpa] at hp) ht.symm
      (hb.laid.timing.trans ha.laid.timing.symm) (hb.laid.openBus.trans ha.laid.openBus.symm)
    obtain ⟨hc, hl'⟩ := hl.run Bus.Twin.lockstep k
    exact ⟨hc, hl'.same⟩
  · cases hr

/-- Two sessions that were built alike; the one restores the snapshot of the other. -/
theorem resume_fresh :
    ((fresh {} : Machine Empty).Reachable { config := {} } ∧
      (fresh {} : Machine Empty).restore (fresh {} : Machine Empty).snapshot =
        (none, (fresh {} : Machine Empty).adopt (fresh {}))) ∧
    ((fresh {} : Machine Empty).run 1000).1 =
        (((fresh {} : Machine Empty).adopt (fresh {})).run 1000).1 ∧
      ((fresh {} : Machine Empty).run 1000).2.Same
        (((fresh {} : Machine Empty).adopt (fresh {})).run 1000).2 := by
  have hf : ({} : SessionConfig).Fits := ⟨by decide, by decide⟩
  have hr : (fresh {} : Machine Empty).Reachable { config := {} } := reachable_fresh hf
  exact ⟨⟨hr, restore_fresh hf⟩, resume (fun _ h => h) hr hr (restore_fresh hf) 1000⟩

end Machine

end Psx
