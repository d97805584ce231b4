import Psx.Proofs.Machine.Lockstep
import Psx.Proofs.Scheduling
import Psx.Proofs.Snapshot.Restore

/-!
# Sessions that can be reached

A session begins at power on. What is around it then lets it step, accesses its bus, resets it,
traces it, attaches devices, takes snapshots and restores them (`Machine.Reachable`). How much is
allowed is a parameter: which devices may be attached, and which states from elsewhere may be
restored besides snapshots of sessions of the same kind.

Every session that is reached is laid out as it was built (`Machine.Laid`): the chips of the core
come first and the attached devices after them, each once, the memories have their sizes, and there
are two events.
-/

namespace Psx

/-- What is around a session. -/
structure Surroundings (δ : Type) where
  config : SessionConfig
  attaches : δ → Prop := fun _ => False
  /-- The states from elsewhere that a session may be given. -/
  offers : Machine δ → ByteArray → Prop := fun _ _ => False

/-- What is done with a session from outside, besides attaching devices and restoring. -/
inductive Move where
  | step
  | read (address : UInt32) (w : Width)
  | write (address : UInt32) (w : Width) (value : UInt32)
  | storeBytes (address : UInt32) (data : List UInt8)
  | loadBios (image : ByteArray)
  | reset
  | enableTracing (sink : Trace.Sink) (limit : Option Nat)
  | disableTracing

namespace Machine

variable {δ : Type} [Device δ]

def perform (m : Machine δ) : Move → Machine δ
  | .step => m.step.2
  | .read address w => { m with bus := (m.bus.read address w).2 }
  | .write address w value => { m with bus := m.bus.write address w value }
  | .storeBytes address data => { m with bus := m.bus.storeBytes address data }
  | .loadBios image =>
    match m.bus.loadBios image with
    | .ok bus => { m with bus }
    | .error _ => m
  | .reset => m.reset
  | .enableTracing sink limit => m.enableTracing sink limit
  | .disableTracing => m.disableTracing.2

theorem perform_loadBios (m : Machine δ) (image : ByteArray) :
    ∃ memory, m.perform (.loadBios image) = { m with bus := { m.bus with memory } } := by
  cases h : m.bus.memory.loadBios image with
  | ok memory => exact ⟨memory, by simp only [perform, Bus.loadBios, h]; rfl⟩
  | error e => exact ⟨m.bus.memory, by simp only [perform, Bus.loadBios, h]; rfl⟩

def plug (m : Machine δ) (slot : Slot) (device : δ) : Except Error (Nat × Machine δ) :=
  let (part, board) := m.bus.board.plug device
  { m with bus := { m.bus with board } }.attach slot part

/-- The sessions that surroundings can bring about. As long as one runs, its numbers lie in the
ranges of their types. -/
inductive Reachable (s : Surroundings δ) : Machine δ → Prop
  | powerOn {m file} : ofConfig s.config file = .ok m → m.Fits → Reachable s m
  | perform {m} (move : Move) : Reachable s m → (m.perform move).Fits → Reachable s (m.perform move)
  | attach {m device} (slot : Slot) {i m'} : Reachable s m → s.attaches device →
    m.plug slot device = .ok (i, m') → m'.Fits → Reachable s m'
  | rewind {m m₀} : Reachable s m → Reachable s m₀ → (m.restore m₀.snapshot).2.Fits →
    Reachable s (m.restore m₀.snapshot).2
  | restore {m data} : Reachable s m → s.offers m data → (m.restore data).2.Fits →
    Reachable s (m.restore data).2

variable {s : Surroundings δ} {m m' : Machine δ}

theorem Reachable.fits (h : m.Reachable s) : m.Fits := by cases h <;> assumption

/-! ### Layout -/

/-- The session is laid out as it was built. -/
structure Laid (s : Surroundings δ) (m : Machine δ) : Prop where
  timing : m.bus.timing = s.config.timing
  openBus : m.bus.openBus = s.config.openBusValue
  events : m.scheduler.events.size = 2
  sizes : m.bus.memory.hasSizes = true
  parts : m.bus.parts = Part.core ++ (List.range m.bus.board.externals.size).map Part.external
  /-- Where nothing is attached the decode table is that of the core. -/
  bare : (∀ device, ¬s.attaches device) → m.bus.table = coreTable

omit [Device δ] in
theorem Laid.of_frame (h : m.Laid s) (hb : m.bus.Frame m'.bus)
    (he : m'.scheduler.events.size = m.scheduler.events.size) : m'.Laid s where
  timing := hb.timing.trans h.timing
  openBus := hb.openBus.trans h.openBus
  events := he.trans h.events
  sizes := hb.sizes h.sizes
  parts := by rw [hb.parts, hb.places]; exact h.parts
  bare ha := hb.table.trans (h.bare ha)

/-! ### Steps -/

/-- What the pieces of a wait keep is kept by the wait. -/
theorem catchUp_keeps {P : Machine δ → Prop} (elapse : ∀ m target, P m → P (m.elapse target).2)
    (slice : ∀ m, P m → P m.runDmaSlice.2) (h : P m) (slices target stolen : Nat) :
    P (m.catchUp slices target stolen).2 := by
  induction m, slices, target, stolen using catchUp_induct with
  | out m target stolen hdue =>
    rw [catchUp_due_zero stolen hdue]; exact elapse m target h
  | last m slices target stolen hdue hlast =>
    rw [catchUp_due_succ stolen hdue, if_pos hlast]; exact slice _ (elapse m target h)
  | slice m slices target stolen hdue hmore ih =>
    rw [catchUp_due_succ stolen hdue, if_neg hmore]; exact ih (slice _ (elapse m target h))
  | more m slices target stolen hidle hmore ih =>
    rw [catchUp_idle stolen hidle, if_pos hmore]; exact ih (elapse m target h)
  | done m slices target stolen hidle hdone =>
    rw [catchUp_idle stolen hidle, if_neg hdone]; exact elapse m target h

theorem step_scheduler {P : Scheduler → Prop} (schedule : ∀ s i n, P s → P (s.schedule i n))
    (deactivate : ∀ s i, P s → P (s.deactivate i))
    (take : ∀ s c, P s → P (s.advanceTo c).takeDue.2) (h : P m.scheduler) :
    P m.step.2.scheduler := by
  have hrefresh : ∀ m : Machine δ, P m.scheduler → P m.refreshDeviceEvent.scheduler := by
    intro m h
    unfold refreshDeviceEvent
    cases m.bus.untilEvent with
    | none => exact deactivate _ _ h
    | some cycles => exact schedule _ _ _ h
  have hwake : ∀ (m : Machine δ) cost, P m.scheduler → P (m.wakeDma cost).scheduler := by
    intro m cost h
    unfold wakeDma
    split
    · exact schedule _ _ _ h
    · exact h
  have htrace : ∀ m : Machine δ, m.trace.scheduler = m.scheduler := fun m => by
    unfold trace; split <;> rfl
  unfold step
  refine catchUp_keeps (P := fun m => P m.scheduler) (fun m target h => ?_) (fun m h => ?_)
    (hwake _ _ (by rw [htrace]; exact h)) _ _ _
  · exact take _ _ (hrefresh m h)
  · unfold runDmaSlice
    dsimp only
    split
    · exact h
    · dsimp only
      split
      · exact schedule _ _ _ h
      · exact h

theorem step_bus {P : Bus δ → Prop} (l : Bus.Lockstep fun a b : Bus δ => a = b ∧ P a)
    (h : P m.bus) : P m.step.2.bus := ((Like.self h).step l).2.bus.2

theorem frame_step (m : Machine δ) : m.bus.Frame m.step.2.bus :=
  step_bus (.of_kept (fun b h a w => h.trans (b.frame_read a w))
    (fun b h a w v => h.trans (b.frame_write a w v)) (fun b h n => h.trans (b.frame_advance n))
    fun b h => h.trans b.frame_runSlice) (.refl _)

theorem events_step (m : Machine δ) :
    m.step.2.scheduler.events.size = m.scheduler.events.size :=
  step_scheduler (P := fun s => s.events.size = m.scheduler.events.size)
    (fun s i n h => (s.schedule_size i n).trans h) (fun s i h => (s.deactivate_size i).trans h)
    (fun s c h => (s.advanceTo c).takeDue_size.trans h) rfl

/-! ### Moves -/

theorem frame_perform (m : Machine δ) (move : Move) : m.bus.Frame (m.perform move).bus := by
  cases move with
  | step => exact frame_step m
  | read address w => exact m.bus.frame_read ..
  | write address w value => exact m.bus.frame_write ..
  | storeBytes address data => exact .of_memory fun h => Memory.hasSizes_storeBytes h ..
  | loadBios image =>
    simp only [perform]
    cases h : m.bus.loadBios image with
    | ok bus => exact Bus.frame_loadBios h
    | error e => exact .refl _
  | reset => exact m.bus.frame_reset
  | enableTracing | disableTracing => exact .refl _

theorem events_perform (m : Machine δ) (move : Move) :
    (m.perform move).scheduler.events.size = m.scheduler.events.size := by
  cases move with
  | step => exact events_step m
  | loadBios image => simp only [perform]; cases m.bus.loadBios image <;> rfl
  | reset => exact m.scheduler.deactivateAll_size
  | _ => rfl

/-- What the parts keep of the board is kept by every move but a reset, if a slice keeps it. -/
theorem perform_board {parts : Part → Prop} {P : Board δ → Prop} (inv : Board.Invariant parts P)
    (slice : ∀ b : Bus δ, b.Within parts P → b.runSlice.2.Within parts P)
    (reset : P m.reset.bus.board) (h : m.bus.Within parts P) (move : Move) :
    P (m.perform move).bus.board := by
  cases move with
  | step =>
    have hl := Bus.Lockstep.of_kept (P := Bus.Within parts P) (fun _ h => h.read inv)
      (fun _ h => h.write inv) (fun _ h => h.advance inv) slice
    exact (step_bus hl h).board
  | read address w => exact (h.read inv address w).board
  | write address w value => exact (h.write inv address w value).board
  | loadBios image =>
    obtain ⟨memory, e⟩ := m.perform_loadBios image
    rw [e]
    exact h.board
  | reset => exact reset
  | storeBytes | enableTracing | disableTracing => exact h.board

theorem reset_board {parts : Part → Prop} {P : Board δ → Prop}
    (reset : ∀ {b : Board δ}, P b → ∀ p, P (b.reset p)) (h : m.bus.Within parts P) :
    P m.reset.bus.board := by
  have hw : ({ m.bus with memory := m.bus.memory.reset } : Bus δ).Within parts P := h.of_eq rfl rfl
  exact (hw.eachPart fun _ p hb _ => reset hb p).board

/-! ### Power on -/

def bus₀ (config : SessionConfig) : Bus δ :=
  ({ Bus.ofConfig config with table := coreTable } : Bus δ).connectAll

theorem build_eq (config : SessionConfig) :
    build (δ := δ) config = .ok { bus := bus₀ config, scheduler := scheduler₀, config } := by
  unfold build
  rw [Bus.registerCore_eq _ rfl]
  rfl

/-- A boot image changes nothing but the memories. -/
theorem ofConfig_eq {config : SessionConfig} {file : Option Bus.BiosFile}
    (h : ofConfig config file = .ok m) :
    ∃ memory, memory.hasSizes = true ∧
      m = { bus := { bus₀ config with memory }, scheduler := scheduler₀, config } := by
  unfold ofConfig at h
  rw [build_eq] at h
  cases file with
  | none => cases h; exact ⟨_, Memory.hasSizes_initial, rfl⟩
  | some file =>
    change loadBios { bus := bus₀ config, scheduler := scheduler₀, config } file = .ok m at h
    unfold loadBios at h
    cases file with
    | missing path => cases h
    | unreadable reason => cases h
    | image data =>
      unfold Bus.loadBiosFile Bus.loadBios at h
      cases hl : (bus₀ config : Bus δ).memory.loadBios data with
      | error e => simp only [hl] at h; cases h
      | ok memory =>
        simp only [hl] at h
        cases h
        exact ⟨memory, Memory.hasSizes_loadBios Memory.hasSizes_initial hl, rfl⟩

theorem laid_powerOn {file : Option Bus.BiosFile} (h : ofConfig s.config file = .ok m) :
    m.Laid s := by
  obtain ⟨memory, hs, rfl⟩ := ofConfig_eq h
  exact ⟨rfl, rfl, rfl, hs, rfl, fun _ => rfl⟩

/-! ### Attaching -/

omit [Device δ] in
theorem routeDma_frame {b b' : Bus δ} {channel device : Nat}
    (h : b.routeDma channel device = .ok b') :
    b'.parts = b.parts ∧ b' = { b with table := b'.table } := by
  unfold Bus.routeDma at h
  cases hr : b.table.route channel device with
  | error e => rw [hr] at h; cases h
  | ok table =>
    rw [hr] at h
    cases h
    refine ⟨?_, rfl⟩
    unfold DecodeTable.route at hr
    split at hr
    · split at hr
      · cases hr; rfl
      · cases hr
    · cases hr

omit [Device δ] in
theorem routeAll_frame {b b' : Bus δ} {device : Nat} {channels : List Nat}
    (h : channels.foldlM (fun (bus : Bus δ) channel => bus.routeDma channel device) b = .ok b') :
    b'.parts = b.parts ∧ b' = { b with table := b'.table } := by
  induction channels generalizing b with
  | nil => cases h; exact ⟨rfl, rfl⟩
  | cons channel channels ih =>
    rw [List.foldlM_cons] at h
    cases hr : b.routeDma channel device with
    | error e => rw [hr] at h; cases h
    | ok b₁ =>
      rw [hr] at h
      obtain ⟨hp, he⟩ := ih h
      obtain ⟨hp', he'⟩ := routeDma_frame hr
      exact ⟨hp.trans hp', by rw [he, he']⟩

theorem register_parts {b b' : Bus δ} {part : Part} {start size : UInt32} {i : Nat}
    (h : b.register part start size = .ok (i, b')) :
    b'.parts = b.parts ++ [part] ∧ b' = { b with table := b'.table } := by
  unfold Bus.register DecodeTable.register at h
  cases hi : b.table.insertWindow b.table.entries.size (b.board.nameOf part) start size with
  | error e => simp only [hi] at h; cases h
  | ok table =>
    simp only [hi] at h
    cases h
    refine ⟨?_, rfl⟩
    have ht : table.entries = b.table.entries := by
      unfold DecodeTable.insertWindow at hi
      dsimp only at hi
      split at hi
      · cases hi
      · split at hi
        · cases hi
        · split at hi
          · cases hi
          · cases hi; rfl
    show ((table.entries.push _).toList.map _) = _
    rw [Array.toList_push, List.map_append, ht]
    rfl

/-- Attaching adds the device behind all others. -/
theorem plug_eq {slot : Slot} {device : δ} {i : Nat} (h : m.plug slot device = .ok (i, m')) :
    m'.bus.parts = m.bus.parts ++ [.external m.bus.board.externals.size] ∧
      m' = { m with bus := { m.bus with
        table := m'.bus.table
        board := { m.bus.board with
          externals := m.bus.board.externals.push { device, wired := true } } } } := by
  let b₁ : Bus δ := { m.bus with board := { m.bus.board with
    externals := m.bus.board.externals.push { device } } }
  have hwired : (m.bus.board.externals.push { device }).modify m.bus.board.externals.size
      (fun e => { e with wired := true }) =
        m.bus.board.externals.push { device, wired := true } := by
    apply Array.ext_getElem?
    intro j
    rw [Array.getElem?_modify, Array.getElem?_push, Array.getElem?_push]
    by_cases hj : j = m.bus.board.externals.size
    · simp [hj]
    · simp [hj, Ne.symm hj]
  change (b₁.register (.external m.bus.board.externals.size) slot.base slot.span >>= fun r =>
    slot.channels.foldlM (fun (bus : Bus δ) channel => bus.routeDma channel r.1) r.2 >>= fun bus =>
      pure (r.1, { m with bus := { bus with
        board := bus.board.connect (.external m.bus.board.externals.size) } })) = .ok (i, m') at h
  cases hr : b₁.register (.external m.bus.board.externals.size) slot.base slot.span with
  | error e => rw [hr] at h; cases h
  | ok r =>
    obtain ⟨j, b₂⟩ := r
    rw [hr] at h
    change (slot.channels.foldlM (fun (bus : Bus δ) channel => bus.routeDma channel j) b₂ >>= fun bus =>
      pure (j, { m with bus := { bus with
        board := bus.board.connect (.external m.bus.board.externals.size) } })) = .ok (i, m') at h
    cases hf : slot.channels.foldlM (fun (bus : Bus δ) channel => bus.routeDma channel j) b₂ with
    | error e => rw [hf] at h; cases h
    | ok b₃ =>
      rw [hf] at h
      cases h
      obtain ⟨hp₂, he₂⟩ := register_parts hr
      obtain ⟨hp₃, he₃⟩ := routeAll_frame hf
      refine ⟨hp₃.trans hp₂, ?_⟩
      rw [he₃, he₂]
      simp only [Board.connect, b₁, hwired]

theorem Laid.plug (h : m.Laid s) {device : δ} (hd : s.attaches device) {slot : Slot} {i : Nat}
    (hp : m.plug slot device = .ok (i, m')) : m'.Laid s := by
  obtain ⟨hparts, he⟩ := plug_eq hp
  have hsize : m'.bus.board.externals.size = m.bus.board.externals.size + 1 := by
    rw [he]; exact Array.size_push ..
  exact {
    timing := by rw [he]; exact h.timing
    openBus := by rw [he]; exact h.openBus
    events := by rw [he]; exact h.events
    sizes := by rw [he]; exact h.sizes
    parts := by
      rw [hparts, hsize, h.parts, List.range_succ, List.map_append, List.append_assoc]; rfl
    bare := fun ha => absurd hd (ha device) }

theorem Reachable.laid (h : m.Reachable s) : m.Laid s := by
  induction h with
  | powerOn h _ => exact laid_powerOn h
  | perform move _ _ ih => exact ih.of_frame (frame_perform _ move) (events_perform _ move)
  | attach slot _ hd hp _ ih => exact ih.plug hd hp
  | rewind _ _ _ ih _ =>
    obtain ⟨hf, he⟩ := frame_restore _ ih.sizes _
    exact ih.of_frame hf he
  | restore _ _ _ ih =>
    obtain ⟨hf, he⟩ := frame_restore _ ih.sizes _
    exact ih.of_frame hf he

end Machine

end Psx
