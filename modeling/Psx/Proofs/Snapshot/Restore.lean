import Psx.Proofs.Bus.Frame
import Psx.Proofs.Snapshot.Session

/-!
# Restoring

The three ways in which restoring can go (`Machine.restore_cases`): the bytes are refused before
anything is touched; or they are taken whole; or a device refuses its state, and then what was
captured beforehand is applied.

A snapshot of a session that holds the chips of the core alone is taken whole by any other such
session, unless it claims too much (`Machine.restore_snapshot`). The session then is the other one
but for what no snapshot holds: devices that are not registered, the tracer, and the lines that the
boot program has printed.
-/

namespace Psx

open Snapshot

/-! ### Loading device after device -/

namespace Bus

variable {δ : Type} [Device δ]

theorem loadEach_append (b : Board δ) {ss ss' : List SavedDevice} {ps ps' : List Part}
    (h : ss.length = ps.length) :
    loadEach b (ss ++ ss') (ps ++ ps') =
      match loadEach b ss ps with
      | (none, b) => loadEach b ss' ps'
      | r => r := by
  induction ps generalizing b ss with
  | nil => rw [List.length_eq_zero_iff.1 h]; rfl
  | cons p ps ih =>
    obtain ⟨s, ss, rfl⟩ := List.exists_cons_of_length_eq_add_one h
    simp only [List.cons_append, loadEach]
    cases b.load p s.2 with
    | error e => rfl
    | ok b' => exact ih b' (Nat.succ.inj h)

theorem loadDevices_eq {b : Bus δ} {states : List SavedDevice}
    (h : b.validateDevices states = .ok ()) :
    b.loadDevices states = ((loadEach b.board states b.parts).1,
      { b with board := (loadEach b.board states b.parts).2 }) := by
  unfold loadDevices
  rw [h]

/-- What loading a part brings about holds at the end if the parts behind it keep it. -/
theorem loadEach_ok {Q : Board δ → Prop} {b b' : Board δ} (ss : List SavedDevice) (ps : List Part)
    {ss' : List SavedDevice} {ps' : List Part} {name : String} {data : ByteArray} {q : Part}
    (hl : ss.length = ps.length)
    (h : loadEach b (ss ++ (name, data) :: ss') (ps ++ q :: ps') = (none, b'))
    (hit : ∀ b b' : Board δ, b.load q data = .ok b' → Q b')
    (miss : ∀ p ∈ ps', ∀ (b b' : Board δ) data, Q b → b.load p data = .ok b' → Q b') : Q b' := by
  rw [loadEach_append b hl] at h
  revert h
  rcases loadEach b ss ps with ⟨_ | e, b₁⟩ <;> intro h
  · simp only [loadEach] at h
    cases hq : b₁.load q data with
    | error e => rw [hq] at h; cases h
    | ok b₂ =>
      rw [hq] at h
      have h₂ := hit _ _ hq
      clear hq
      dsimp only at h
      induction ps' generalizing b₂ ss' with
      | nil => cases ss' <;> cases h <;> exact h₂
      | cons p ps' ih =>
        cases ss' with
        | nil => cases h; exact h₂
        | cons s ss' =>
          simp only [loadEach] at h
          cases hp : b₂.load p s.2 with
          | error e => rw [hp] at h; cases h
          | ok b₃ =>
            rw [hp] at h
            exact ih (fun p hp => miss p (List.mem_cons_of_mem _ hp)) b₃ h
              (miss p List.mem_cons_self _ _ _ h₂ hp)
  · cases h

end Bus

namespace Board

variable {δ : Type} [Device δ] {b b' : Board δ} {data : ByteArray}

theorem load_dma (h : b.load .dma data = .ok b') :
    ∃ dma, Dma.codec.decode? data = some dma ∧ b' = { b with dma } := decode_eq_ok h

theorem load_gpu (h : b.load .gpu data = .ok b') :
    ∃ gpu, Gpu.codec.decode? data = some gpu ∧ b' = b.withGpu gpu.dotClock gpu := decode_eq_ok h

/-- Loading a device from outside is nobody else's affair. -/
theorem load_external {i : Nat} (h : b.load (.external i) data = .ok b') :
    b' = { b with externals := b'.externals } := by
  unfold load at h
  dsimp only at h
  split at h
  · cases h; rfl
  · rename_i e _
    cases hl : Device.load e.device data with
    | error err => rw [hl] at h; cases h
    | ok device =>
      rw [hl] at h
      cases h
      unfold withExternal
      split <;> rfl

/-- The video port drives its dot clock once it is loaded. -/
theorem InStep.of_load_gpu (h : b.load .gpu data = .ok b') : b'.InStep := by
  obtain ⟨gpu, -, rfl⟩ := load_gpu h
  exact Gpu.deliver_dotClock gpu b.lines

end Board

namespace Bus

variable {δ : Type} [Device δ]

/-- The states of the chips of the core come first. -/
theorem core_states {ss : List SavedDevice} {ext : List Part}
    (h : ss.length = (Part.core ++ ext).length) :
    ∃ s₀ s₁ s₂ s₃ s₄ s₅ rest, ss = [s₀, s₁, s₂, s₃, s₄, s₅] ++ rest ∧ rest.length = ext.length := by
  rw [List.length_append, show Part.core.length = 6 from rfl] at h
  match ss, h with
  | s₀ :: s₁ :: s₂ :: s₃ :: s₄ :: s₅ :: rest, h =>
    exact ⟨s₀, s₁, s₂, s₃, s₄, s₅, rest, rfl, by simp only [List.length_cons] at h; omega⟩
  | [], h | [_], h | [_, _], h | [_, _, _], h | [_, _, _, _], h | [_, _, _, _, _], h =>
    simp only [List.length_cons, List.length_nil] at h; omega

/-- What the board holds after loading: the controller and the video port that were saved, and a dot
clock in step. -/
theorem loadEach_core {b b' : Board δ} {s₀ s₁ s₂ s₃ s₄ s₅ : SavedDevice} {rest : List SavedDevice}
    {ext : List Part} (hext : ∀ p ∈ ext, ∃ i, p = .external i)
    (h : loadEach b ([s₀, s₁, s₂, s₃, s₄, s₅] ++ rest) (Part.core ++ ext) = (none, b')) :
    Dma.codec.decode? s₂.2 = some b'.dma ∧ Gpu.codec.decode? s₅.2 = some b'.gpu ∧ b'.InStep := by
  refine ⟨?_, ?_⟩
  · refine loadEach_ok (Q := fun b => Dma.codec.decode? s₂.2 = some b.dma) [s₀, s₁]
      [.interrupts, .timers] (q := .dma) rfl h ?_ ?_
    · intro b b' h
      obtain ⟨dma, hd, rfl⟩ := Board.load_dma h
      exact hd
    · intro p hp b b' data hb h
      rcases List.mem_append.1 (show p ∈ [.memoryControl, .expansion, .gpu] ++ ext from hp)
        with hp | hp
      · simp only [List.mem_cons, List.not_mem_nil, or_false] at hp
        rcases hp with rfl | rfl | rfl <;> obtain ⟨a, -, rfl⟩ := Board.decode_eq_ok h <;> exact hb
      · obtain ⟨i, rfl⟩ := hext p hp
        rw [Board.load_external h]; exact hb
  · refine loadEach_ok (Q := fun b => Gpu.codec.decode? s₅.2 = some b.gpu ∧ b.InStep)
      [s₀, s₁, s₂, s₃, s₄] [.interrupts, .timers, .dma, .memoryControl, .expansion] (q := .gpu)
      rfl h ?_ ?_
    · intro b b' h
      refine ⟨?_, Board.InStep.of_load_gpu h⟩
      obtain ⟨gpu, hg, rfl⟩ := Board.load_gpu h
      exact hg
    · intro p hp b b' data hb h
      obtain ⟨i, rfl⟩ := hext p hp
      rw [Board.load_external h]; exact hb

end Bus

namespace Machine

variable {δ : Type} [Device δ]

/-- The bytes are a state that fits the session, as far as that is looked at beforehand. -/
structure Admits (m : Machine δ) (data : ByteArray) (t : Session) : Prop where
  decode : Session.decode data = .ok t
  validate : m.validate t = .ok ()

variable {m : Machine δ} {data : ByteArray} {t : Session}

omit [Device δ] in
theorem validate_iff : m.validate t = .ok () ↔ t.memory.hasSizes = true ∧
    m.bus.validateDevices t.devices = .ok () ∧
    t.scheduler.events.size = m.scheduler.events.size := by
  unfold validate
  cases hm : t.memory.hasSizes with
  | false => exact ⟨fun h => (by cases h), fun h => (by cases h.1)⟩
  | true =>
    cases hd : m.bus.validateDevices t.devices with
    | error e => exact ⟨fun h => (by cases h), fun h => (by cases h.2.1)⟩
    | ok u =>
      by_cases he : t.scheduler.events.size = m.scheduler.events.size
      · exact ⟨fun _ => ⟨rfl, rfl, he⟩, fun _ => by
          simp only [he, ne_eq, not_true_eq_false, if_false]; rfl⟩
      · refine ⟨fun h => ?_, fun h => absurd h.2.2 he⟩
        simp only [ne_eq, he, not_false_eq_true, if_true] at h
        cases h

/-- A state of fitting sizes is taken whole unless a device refuses it. -/
theorem apply_eq (hs : t.memory.hasSizes = true) :
    m.apply t =
      match m.bus.loadDevices t.devices with
      | (some e, bus) => (some e, { m with bus })
      | (none, bus) => (none, { m with
          bus := { bus with memory := t.memory }, cpu := t.cpu, scheduler := t.scheduler }) := by
  unfold apply
  obtain ⟨error, bus⟩ := m.bus.loadDevices t.devices
  cases error with
  | some e => rfl
  | none => simp only [Bus.loadMemory, Memory.replace, hs, if_true]; rfl

theorem restore_cases (m : Machine δ) (data : ByteArray) :
    ((∀ t, ¬m.Admits data t) ∧ ∃ e, m.restore data = (some e, m)) ∨
    (∃ t m', m.Admits data t ∧ m.apply t = (none, m') ∧ m.restore data = (none, m')) ∨
    ∃ t e m', m.Admits data t ∧ m.apply t = (some e, m') ∧
      m.restore data = (some e, (m'.apply m.capture).2) := by
  unfold restore
  cases hd : Session.decode data with
  | error e => exact .inl ⟨fun t h => (by rw [h.decode] at hd; cases hd), e, rfl⟩
  | ok t =>
    dsimp only
    cases hv : m.validate t with
    | error e =>
      refine .inl ⟨fun t' h => ?_, e, rfl⟩
      cases hd.symm.trans h.decode
      rw [h.validate] at hv; cases hv
    | ok u =>
      dsimp only
      rcases ha : m.apply t with ⟨_ | e, m'⟩
      · exact .inr (.inl ⟨t, m', ⟨hd, hv⟩, ha, rfl⟩)
      · exact .inr (.inr ⟨t, e, m', ⟨hd, hv⟩, ha, rfl⟩)

/-- A restore that succeeds has taken the state whole. -/
theorem restore_ok {m' : Machine δ} (h : m.restore data = (none, m')) :
    ∃ t, m.Admits data t ∧ m.apply t = (none, m') := by
  rcases m.restore_cases data with ⟨-, e, he⟩ | ⟨t, m'', ha, hap, he⟩ | ⟨t, e, m'', -, -, he⟩
  · rw [h] at he; cases he
  · rw [h] at he; cases he; exact ⟨t, ha, hap⟩
  · rw [h] at he; cases he

/-- Of a validated state only what a device makes of its bytes is open. -/
theorem apply_validated (hv : m.validate t = .ok ()) : m.apply t =
    match Bus.loadEach m.bus.board t.devices m.bus.parts with
    | (some e, board) => (some e, { m with bus := { m.bus with board } })
    | (none, board) => (none, { m with
        bus := { m.bus with board, memory := t.memory }, cpu := t.cpu, scheduler := t.scheduler }) := by
  obtain ⟨hs, hd, -⟩ := validate_iff.1 hv
  rw [apply_eq hs, Bus.loadDevices_eq hd]
  rcases Bus.loadEach m.bus.board t.devices m.bus.parts with ⟨_ | e, board⟩ <;> rfl

theorem apply_ok {m' : Machine δ} (hv : m.validate t = .ok ()) (h : m.apply t = (none, m')) :
    ∃ board, Bus.loadEach m.bus.board t.devices m.bus.parts = (none, board) ∧ m' = { m with
      bus := { m.bus with board, memory := t.memory }, cpu := t.cpu, scheduler := t.scheduler } := by
  rw [apply_validated hv] at h
  revert h
  rcases Bus.loadEach m.bus.board t.devices m.bus.parts with ⟨_ | e, board⟩ <;> intro h
  · cases h; exact ⟨board, rfl, rfl⟩
  · cases h

theorem apply_error {m' : Machine δ} {e : Error} (hv : m.validate t = .ok ())
    (h : m.apply t = (some e, m')) :
    ∃ board, Bus.loadEach m.bus.board t.devices m.bus.parts = (some e, board) ∧
      m' = { m with bus := { m.bus with board } } := by
  rw [apply_validated hv] at h
  revert h
  rcases Bus.loadEach m.bus.board t.devices m.bus.parts with ⟨_ | e, board⟩ <;> intro h
  · cases h
  · cases h; exact ⟨board, rfl, rfl⟩

/-! ### What restoring leaves alone -/

theorem frame_apply (m : Machine δ) (ht : t.memory.hasSizes = true) :
    m.bus.Frame (m.apply t).2.bus := by
  have hd := m.bus.frame_loadDevices t.devices
  rw [apply_eq ht]
  revert hd
  rcases m.bus.loadDevices t.devices with ⟨_ | e, bus⟩ <;> intro hd
  · exact hd.trans (.of_memory fun _ => ht)
  · exact hd

theorem events_apply (m : Machine δ) (ht : t.memory.hasSizes = true)
    (he : t.scheduler.events.size = m.scheduler.events.size) :
    (m.apply t).2.scheduler.events.size = m.scheduler.events.size := by
  rw [apply_eq ht]
  rcases m.bus.loadDevices t.devices with ⟨_ | e, bus⟩
  · exact he
  · rfl

theorem frame_restore (m : Machine δ) (hm : m.bus.memory.hasSizes = true) (data : ByteArray) :
    m.bus.Frame (m.restore data).2.bus ∧
      (m.restore data).2.scheduler.events.size = m.scheduler.events.size := by
  rcases m.restore_cases data with ⟨-, e, he⟩ | ⟨t, m', ha, hap, he⟩ | ⟨t, e, m', ha, hap, he⟩
  · rw [he]; exact ⟨.refl _, rfl⟩
  all_goals
    obtain ⟨hs, -, hev⟩ := validate_iff.1 ha.validate
    have hf := frame_apply m hs
    have hev' := events_apply m hs hev
    rw [hap] at hf hev'
    rw [he]
  · exact ⟨hf, hev'⟩
  · exact ⟨hf.trans (frame_apply m' (t := m.capture) hm),
      (events_apply m' (t := m.capture) hm hev'.symm).trans hev'⟩

/-! ### Restoring snapshots -/

/-- Takes over all that a snapshot holds. -/
def adopt (m from_ : Machine δ) : Machine δ :=
  { m with
    cpu := from_.cpu
    scheduler := from_.scheduler
    bus := { m.bus with
      memory := from_.bus.memory
      board := { from_.bus.board with
        externals := m.bus.board.externals
        console := m.bus.board.console } } }

theorem admits_snapshot {m₀ : Machine δ} (hf : m₀.Fits)
    (hc : Session.law.claims m₀.capture ≤ allowance) (ht : m₀.bus.table = m.bus.table)
    (hs : m₀.bus.memory.hasSizes = true)
    (he : m₀.scheduler.events.size = m.scheduler.events.size) :
    m.Admits m₀.snapshot m₀.capture where
  decode := by
    unfold snapshot
    rw [Session.decode_encode hf.session rfl, if_pos hc]
  validate := validate_iff.2 ⟨hs, Bus.validateDevices_saved ht, he⟩

theorem apply_capture {m₀ : Machine δ} (hf : m₀.Fits) (hi : m₀.bus.board.InStep)
    (ht : m₀.bus.table = m.bus.table) (hp : m₀.bus.parts = Part.core)
    (hs : m₀.bus.memory.hasSizes = true) : m.apply m₀.capture = (none, m.adopt m₀) := by
  have hp' : m.bus.parts = Part.core := by
    unfold Bus.parts at hp ⊢
    rw [← ht]; exact hp
  have hn : m₀.bus.names.length = Part.core.length := by
    rw [← hp]; unfold Bus.names Bus.parts; rw [List.length_map, List.length_map]
  have hl := Bus.loadEach_saved m₀.bus.board (fun p h => h)
    (fun p h => hf.chips p (by rw [hp]; exact h)) hn m.bus.board
  rw [Bus.foldl_adopt_core, Board.synced_eq_iff.2 hi] at hl
  have hd : m.bus.loadDevices m₀.capture.devices = (none, { m.bus with
      board := { m₀.bus.board with
        externals := m.bus.board.externals, console := m.bus.board.console } }) := by
    have hv : m.bus.validateDevices m₀.capture.devices = .ok () := Bus.validateDevices_saved ht
    rw [Bus.loadDevices_eq hv, show m₀.capture.devices = m₀.bus.saveDevices from rfl,
      Bus.saveDevices_eq, hp, hp', hl]
  rw [apply_eq (t := m₀.capture) hs, hd]
  rfl

/-- A session of the core takes over a snapshot of another one, or it has none of it. -/
theorem restore_snapshot {m₀ : Machine δ} (hf : m₀.Fits) (hi : m₀.bus.board.InStep)
    (ht : m₀.bus.table = m.bus.table) (hp : m₀.bus.parts = Part.core)
    (hs : m₀.bus.memory.hasSizes = true)
    (he : m₀.scheduler.events.size = m.scheduler.events.size) :
    m.restore m₀.snapshot =
      if Session.law.claims m₀.capture ≤ allowance then (none, m.adopt m₀)
      else (some Board.malformed, m) := by
  split
  · rename_i hc
    have ha := admits_snapshot hf hc ht hs he
    unfold restore
    rw [ha.decode]
    dsimp only
    rw [ha.validate]
    dsimp only
    rw [apply_capture hf hi ht hp hs]
  · rename_i hc
    unfold restore snapshot
    rw [Session.decode_encode hf.session rfl, if_neg hc]

end Machine

end Psx
