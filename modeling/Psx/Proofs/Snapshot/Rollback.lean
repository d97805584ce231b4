import Psx.Proofs.Snapshot.Allowance

/-!
# Restoring that fails

When a device refuses its state, what was captured of the session is loaded over what is left of it.
The memories, the processor and the scheduler have not been touched by then. The chips of the core
take back what was captured of them, and so do the attached devices as far as one can ask
(`Device.Recoverable`): the loading stops again at the device that refused, but those behind it
never got anything (`Bus.loadExternals_back`).

What is left is a session that is the old one but for one field: loading the video port drives its
dot clock, also where the timers had not been in step with it (`Machine.restore_refused`). So a
session is back where it was exactly if it was in step, and it was if no attached device ever drives
the dot clock (`Machine.Reachable.inStep`).
-/

namespace Psx

open Snapshot

/-! ### Attached devices -/

namespace Device

variable {δ : Type} [Device δ]

/-- What is left of a device that was given a state. -/
def given (d : δ) (data : ByteArray) : δ :=
  match Device.load d data with
  | .ok d' => d'
  | .error _ => Device.spoil d data

/-- The device takes back its own state: from any state it has accepted, and from what is left of it
where it refused one unless it is unchanged then. -/
structure Recoverable (δ : Type) [Device δ] : Prop where
  accepted : ∀ {d d' : δ} {data}, load d data = .ok d' → load d' (save d) = .ok d
  refused : ∀ {d : δ} {data e}, load d data = .error e → given (spoil d data) (save d) = d
  own : ∀ d : δ, given d (save d) = d

/-- A device that takes back its own state in whatever state it is. -/
theorem Recoverable.of_load_save (h : ∀ d d' : δ, load d' (save d) = .ok d) : Recoverable δ where
  accepted _ := h ..
  refused _ := by unfold given; rw [h]
  own d := by unfold given; rw [h]

/-- A device that refuses every state and is unchanged then. -/
theorem Recoverable.of_refuses
    (h : ∀ (d : δ) data, (∃ e, load d data = .error e) ∧ spoil d data = d) : Recoverable δ where
  accepted {d d' data} hl := by
    obtain ⟨⟨e, he⟩, -⟩ := h d data
    rw [he] at hl; cases hl
  refused {d data _} _ := by
    rw [(h d data).2]
    obtain ⟨⟨e, he⟩, hs⟩ := h d (save d)
    unfold given; rw [he]; exact hs
  own d := by
    obtain ⟨⟨e, he⟩, hs⟩ := h d (save d)
    unfold given; rw [he]; exact hs

end Device

namespace Bus

variable {δ : Type} [Device δ]

/-- Gives attached devices their states one by one until one is refused. -/
def loadExternals : List (External δ) → List SavedDevice → Option Error × List (External δ)
  | e :: es, (_, data) :: ss =>
    match Device.load e.device data with
    | .ok device =>
      let (error, es) := loadExternals es ss
      (error, { e with device } :: es)
    | .error error => (some error, { e with device := Device.spoil e.device data } :: es)
  | es, _ => (none, es)

theorem loadExternals_length (es : List (External δ)) (ss : List SavedDevice) :
    (loadExternals es ss).2.length = es.length := by
  induction es generalizing ss with
  | nil => cases ss <;> rfl
  | cons e es ih =>
    cases ss with
    | nil => rfl
    | cons s ss =>
      rw [loadExternals]
      cases Device.load e.device s.2 with
      | ok device => exact congrArg (· + 1) (ih ss)
      | error error => rfl

def SavedOf (es : List (External δ)) (ss : List SavedDevice) : Prop :=
  ss.map (·.2) = es.map fun e => Device.save e.device

theorem SavedOf.cons {e : External δ} {es : List (External δ)} {ss : List SavedDevice}
    (h : SavedOf (e :: es) ss) :
    ∃ name ss', ss = (name, Device.save e.device) :: ss' ∧ SavedOf es ss' := by
  cases ss with
  | nil => cases h
  | cons s ss =>
    obtain ⟨name, data⟩ := s
    obtain ⟨hd, ht⟩ := List.cons.inj (show data :: ss.map (·.2) = _ from h)
    cases hd
    exact ⟨name, ss, rfl, ht⟩

/-- A state is given to the first device; those behind it are as before, whether they were given
theirs or not. -/
theorem loadExternals_cons {e : External δ} {es : List (External δ)} {ss : List SavedDevice}
    {name : String} {data : ByteArray} (h : (loadExternals es ss).2 = es) :
    (loadExternals (e :: es) ((name, data) :: ss)).2 =
      { e with device := Device.given e.device data } :: es := by
  unfold loadExternals Device.given
  cases Device.load e.device data with
  | ok device => exact congrArg (_ :: ·) h
  | error error => rfl

theorem loadExternals_own (hr : Device.Recoverable δ) {es : List (External δ)}
    {ss : List SavedDevice} (h : SavedOf es ss) : (loadExternals es ss).2 = es := by
  induction es generalizing ss with
  | nil => cases ss <;> rfl
  | cons e es ih =>
    obtain ⟨name, ss, rfl, hs⟩ := h.cons
    rw [loadExternals_cons (ih hs), hr.own]

/-- Whatever the devices have been given, and wherever that ended, their own states bring them
back. -/
theorem loadExternals_back (hr : Device.Recoverable δ) {es : List (External δ)}
    {own : List SavedDevice} (h : SavedOf es own) (ss : List SavedDevice) :
    (loadExternals (loadExternals es ss).2 own).2 = es := by
  induction es generalizing own ss with
  | nil => cases ss <;> cases own <;> rfl
  | cons e es ih =>
    cases ss with
    | nil => exact loadExternals_own hr h
    | cons s ss =>
      obtain ⟨name, own, rfl, hs⟩ := h.cons
      rw [loadExternals]
      cases hl : Device.load e.device s.2 with
      | ok device =>
        dsimp only
        rw [loadExternals, hr.accepted hl]
        dsimp only
        rw [ih hs]
      | error error =>
        -- those behind have not been given anything
        dsimp only
        rw [loadExternals_cons (loadExternals_own hr hs)]
        dsimp only
        rw [hr.refused hl]

theorem loadEach_externalsFrom (b : Board δ) (pre es : List (External δ)) (ss : List SavedDevice)
    (hb : b.externals.toList = pre ++ es) :
    loadEach b ss ((List.range' pre.length es.length).map .external) =
      ((loadExternals es ss).1,
        { b with externals := (pre ++ (loadExternals es ss).2).toArray }) := by
  -- `pre` are the devices that have their states already
  induction es generalizing b pre ss with
  | nil =>
    have he : b.externals = (pre ++ []).toArray := by rw [← hb, Array.toArray_toList]
    cases ss <;> exact congrArg (none, { b with externals := · }) he
  | cons e es ih =>
    cases ss with
    | nil =>
      have he : b.externals = (pre ++ e :: es).toArray := by rw [← hb, Array.toArray_toList]
      exact congrArg (none, { b with externals := · }) he
    | cons s ss =>
      have hget : b.externals[pre.length]? = some e := by
        rw [← Array.getElem?_toList, hb, List.getElem?_append_right (Nat.le_refl _), Nat.sub_self]
        rfl
      have hput : ∀ device, b.withExternal pre.length e [] device =
          { b with externals := ((pre ++ [{ e with device }]) ++ es).toArray } := by
        intro device
        have hset : b.externals.setIfInBounds pre.length { e with device } =
            ((pre ++ [{ e with device }]) ++ es).toArray := by
          apply Array.toList_inj.1
          rw [Array.toList_setIfInBounds, hb, List.set_append_right _ _ (Nat.le_refl _),
            Nat.sub_self, List.set_cons_zero, List.append_assoc]
          rfl
        unfold Board.withExternal
        rw [hset]
        cases e.wired <;> rfl
      rw [List.length_cons, List.range'_succ, List.map_cons]
      unfold loadEach loadExternals Board.load Board.spoil
      dsimp only
      rw [hget]
      dsimp only
      cases Device.load e.device s.2 with
      | error error =>
        show (some error, b.withExternal pre.length e [] _) = _
        rw [hput, List.append_assoc]
        rfl
      | ok device =>
        show loadEach (b.withExternal pre.length e [] device) ss _ = _
        rw [hput]
        have := ih { b with externals := ((pre ++ [{ e with device }]) ++ es).toArray }
          (pre ++ [{ e with device }]) ss rfl
        rw [List.length_append] at this
        rw [show pre.length + 1 = pre.length + [{ e with device }].length from rfl, this]
        dsimp only
        rw [List.append_assoc]
        rfl

/-- Loading attached devices reaches nothing else. -/
theorem loadEach_externals (b : Board δ) (ss : List SavedDevice) :
    loadEach b ss ((List.range b.externals.size).map .external) =
      ((loadExternals b.externals.toList ss).1,
        { b with externals := (loadExternals b.externals.toList ss).2.toArray }) := by
  have h := loadEach_externalsFrom b [] b.externals.toList ss rfl
  rw [Array.length_toList] at h
  rw [List.range_eq_range']
  exact h

/-- Loading the chips of the core leaves what is outside and what was printed. -/
theorem loadEach_core_keeps (b : Board δ) (ss : List SavedDevice) {ps : List Part}
    (hp : ∀ p ∈ ps, p ∈ Part.core) : (loadEach b ss ps).2.externals = b.externals ∧
      (loadEach b ss ps).2.console = b.console := by
  induction ps generalizing b ss with
  | nil => cases ss <;> exact ⟨rfl, rfl⟩
  | cons p ps ih =>
    cases ss with
    | nil => exact ⟨rfl, rfl⟩
    | cons s ss =>
      have hkeeps : (∀ b', b.load p s.2 = .ok b' →
          b'.externals = b.externals ∧ b'.console = b.console) ∧ b.spoil p s.2 = b := by
        have hc := hp p List.mem_cons_self
        cases p with
        | «external» i => simp [Part.core] at hc
        | _ =>
          refine ⟨fun b' h => ?_, rfl⟩
          obtain ⟨a, -, rfl⟩ := Board.decode_eq_ok h
          exact ⟨rfl, rfl⟩
      unfold loadEach
      cases hl : b.load p s.2 with
      | error e => rw [show b.spoil p s.2 = b from hkeeps.2]; exact ⟨rfl, rfl⟩
      | ok b' =>
        obtain ⟨he, hc⟩ := hkeeps.1 b' hl
        obtain ⟨he', hc'⟩ := ih b' ss fun q hq => hp q (List.mem_cons_of_mem p hq)
        exact ⟨he'.trans he, hc'.trans hc⟩

/-- Loading ends at a chip of the core, before the attached devices are given anything, or it is up
to them. Nothing is printed. -/
theorem loadEach_cases (b : Board δ) {ss : List SavedDevice}
    (hl : ss.length = (Part.core ++ (List.range b.externals.size).map Part.external).length) :
    (∃ e b', loadEach b ss (Part.core ++ (List.range b.externals.size).map .external) =
        (some e, b') ∧ b'.externals = b.externals ∧ b'.console = b.console) ∨
      ∃ rest b', rest.length = b.externals.size ∧
        loadEach b ss (Part.core ++ (List.range b.externals.size).map .external) =
          ((loadExternals b.externals.toList rest).1, b') ∧
        b'.externals = (loadExternals b.externals.toList rest).2.toArray ∧
        b'.console = b.console := by
  obtain ⟨s₀, s₁, s₂, s₃, s₄, s₅, rest, rfl, hr⟩ := core_states hl
  rw [List.length_map, List.length_range] at hr
  rw [loadEach_append b (show [s₀, s₁, s₂, s₃, s₄, s₅].length = Part.core.length from rfl)]
  have hk := loadEach_core_keeps b [s₀, s₁, s₂, s₃, s₄, s₅] fun p (h : p ∈ Part.core) => h
  revert hk
  rcases loadEach b [s₀, s₁, s₂, s₃, s₄, s₅] Part.core with ⟨_ | e, b'⟩
  · rintro ⟨he, hc⟩
    dsimp only at he hc ⊢
    have h := loadEach_externals b' rest
    rw [he] at h
    exact .inr ⟨rest, _, hr, h, rfl, hc⟩
  · exact fun h => .inl ⟨e, b', rfl, h⟩

/-- What is captured of a session with attached devices: first the states of the chips, then those of
the devices. -/
theorem saveDevices_split {b : Bus δ}
    (hp : b.parts = Part.core ++ (List.range b.board.externals.size).map Part.external) :
    ∃ (names : List String) (rest : List SavedDevice),
      names.length = Part.core.length ∧ SavedOf b.board.externals.toList rest ∧
      b.saveDevices = names.zip (Part.core.map b.board.save) ++ rest := by
  have hlen : b.names.length = Part.core.length + b.board.externals.size := by
    have h : b.names.length = b.parts.length := by
      unfold names parts; rw [List.length_map, List.length_map]
    rw [h, hp, List.length_append, List.length_map, List.length_range]
  have hsaved : ((List.range b.board.externals.size).map Part.external).map b.board.save =
      b.board.externals.toList.map fun e => Device.save e.device := by
    apply List.ext_getElem
    · simp
    · intro i h₁ h₂
      have hi : i < b.board.externals.size := by simpa using h₂
      simp [Board.save, hi]
  refine ⟨b.names.take Part.core.length, (b.names.drop Part.core.length).zip
    (((List.range b.board.externals.size).map Part.external).map b.board.save), ?_, ?_, ?_⟩
  · rw [List.length_take, hlen]; omega
  · refine (List.map_snd_zip ?_).trans hsaved
    rw [List.length_map, List.length_map, List.length_range, List.length_drop, hlen]
    omega
  · rw [saveDevices_eq, hp, List.map_append, ← List.zip_append, List.take_append_drop]
    rw [List.length_take, List.length_map, hlen]; omega

end Bus

/-! ### Putting a session back -/

namespace Machine

variable {δ : Type} [Device δ] {s : Surroundings δ} {m m' : Machine δ} {data : ByteArray}
  {e : Error}

def synced (m : Machine δ) : Machine δ := { m with bus.board := m.bus.board.synced }

omit [Device δ] in
theorem synced_eq_iff : m.synced = m ↔ m.bus.board.InStep := by
  rw [← Board.synced_eq_iff]
  constructor
  · intro h; exact congrArg (·.bus.board) h
  · intro h; unfold synced; rw [h]

/-- What was captured of a session brings it back from wherever loading has ended, but for the dot
clock and what the attached devices make of their own states. -/
theorem apply_back (hm : m.Laid s) (hf : m.Fits) (board : Board δ)
    (he : board.externals.size = m.bus.board.externals.size)
    (hc : board.console = m.bus.board.console) :
    ∃ rest, Bus.SavedOf m.bus.board.externals.toList rest ∧
      (({ m with bus := { m.bus with board } } : Machine δ).apply m.capture).2 =
        { m with bus := { m.bus with board := { m.bus.board.synced with
          externals := (Bus.loadExternals board.externals.toList rest).2.toArray } } } := by
  obtain ⟨names, rest, hn, hrest, hsaved⟩ := Bus.saveDevices_split hm.parts
  refine ⟨rest, hrest, ?_⟩
  have hcore := Bus.loadEach_saved m.bus.board (fun p (h : p ∈ Part.core) => h)
    (fun p h => hf.chips p (by rw [hm.parts]; exact List.mem_append_left _ h)) hn board
  rw [Bus.foldl_adopt_core] at hcore
  have hload : Bus.loadEach board m.bus.saveDevices m.bus.parts =
      ((Bus.loadExternals board.externals.toList rest).1, { m.bus.board.synced with
        externals := (Bus.loadExternals board.externals.toList rest).2.toArray }) := by
    rw [hsaved, hm.parts, Bus.loadEach_append _ (by
      rw [List.length_zip, List.length_map, hn, Nat.min_self]), hcore]
    dsimp only
    rw [← he, Bus.loadEach_externals]
    dsimp only
    rw [hc]
    rfl
  have hd : ({ m.bus with board } : Bus δ).loadDevices m.capture.devices =
      ((Bus.loadExternals board.externals.toList rest).1, { m.bus with
        board := { m.bus.board.synced with
          externals := (Bus.loadExternals board.externals.toList rest).2.toArray } }) := by
    have hv : ({ m.bus with board } : Bus δ).validateDevices m.bus.saveDevices = .ok () :=
      Bus.validateDevices_saved rfl
    rw [show m.capture.devices = m.bus.saveDevices from rfl, Bus.loadDevices_eq hv]
    show ((Bus.loadEach board m.bus.saveDevices m.bus.parts).1, { m.bus with
      board := (Bus.loadEach board m.bus.saveDevices m.bus.parts).2 }) = _
    rw [hload]
  rw [apply_eq (t := m.capture) hm.sizes, hd]
  cases (Bus.loadExternals board.externals.toList rest).1 <;> rfl

/-- What is left of a session that a device has refused a state for. -/
theorem restore_refused (hm : m.Laid s) (hf : m.Fits) {t : Session} (ha : m.Admits data t)
    (hap : m.apply t = (some e, m')) :
    ∃ ss rest, Bus.SavedOf m.bus.board.externals.toList rest ∧ (m'.apply m.capture).2 =
      { m with bus := { m.bus with board := { m.bus.board.synced with
        externals := (Bus.loadExternals
          (Bus.loadExternals m.bus.board.externals.toList ss).2 rest).2.toArray } } } := by
  obtain ⟨board, hl, rfl⟩ := apply_error ha.validate hap
  have hlen := Bus.length_of_validateDevices (validate_iff.1 ha.validate).2.1
  rw [hm.parts] at hl hlen
  have hnone : (Bus.loadExternals m.bus.board.externals.toList []).2 =
      m.bus.board.externals.toList := by cases m.bus.board.externals.toList <;> rfl
  obtain ⟨ss, he, hc⟩ : ∃ ss, board.externals =
      (Bus.loadExternals m.bus.board.externals.toList ss).2.toArray ∧
        board.console = m.bus.board.console := by
    rcases Bus.loadEach_cases m.bus.board hlen with ⟨e', b', h, he, hc⟩ | ⟨ss, b', -, h, he, hc⟩
    · cases hl.symm.trans h
      exact ⟨[], by rw [hnone, he, Array.toArray_toList], hc⟩
    · have hb : board = b' := congrArg Prod.snd (hl.symm.trans h)
      exact ⟨ss, hb ▸ he, hb ▸ hc⟩
  obtain ⟨rest, hrest, hback⟩ := apply_back hm hf board (by
    rw [he, List.size_toArray, Bus.loadExternals_length, Array.length_toList]) hc
  rw [he] at hback
  exact ⟨ss, rest, hrest, hback⟩

/-- A session that was given a state which it would try is put back with its timers in step. -/
theorem restore_refused_of_recoverable (hr : Device.Recoverable δ) (hm : m.Laid s) (hf : m.Fits)
    {t : Session} (ha : m.Admits data t) (hap : m.apply t = (some e, m')) :
    (m'.apply m.capture).2 = m.synced := by
  obtain ⟨ss, rest, hrest, h⟩ := restore_refused hm hf ha hap
  rw [h, Bus.loadExternals_back hr hrest]
  rfl

/-! ### Sessions in step -/

theorem Laid.discreet (hm : m.Laid s) (hd : Device.Discreet δ ∨ ∀ device, ¬s.attaches device) :
    ∀ p ∈ m.bus.parts, p.Discreet δ := by
  intro p hp
  rcases hd with hd | hd
  · exact hd.part p
  · rw [Bus.parts_of_table (hm.bare hd)] at hp
    exact Part.discreet_core p hp

theorem inStep_powerOn {config : SessionConfig} {file : Option Bus.BiosFile}
    (h : ofConfig config file = .ok m) : m.bus.board.InStep := by
  obtain ⟨memory, -, rfl⟩ := ofConfig_eq h
  exact Gpu.deliver_dotClock _ _

theorem inStep_reset (hm : m.Laid s) : m.reset.bus.board.InStep := by
  show (({ m.bus with memory := m.bus.memory.reset } : Bus δ).eachPart Board.reset).board.InStep
  rw [Bus.eachPart_eq, show ({ m.bus with memory := m.bus.memory.reset } : Bus δ).parts =
    m.bus.parts from rfl, hm.parts]
  show (List.foldl Board.reset m.bus.board _).InStep
  rw [List.foldl_append]
  have h := Board.inStep_reset_core m.bus.board
  revert h
  generalize Part.core.foldl Board.reset m.bus.board = board
  generalize List.range m.bus.board.externals.size = places
  intro h
  induction places generalizing board with
  | nil => exact h
  | cons i places ih => exact ih _ (h.reset_external i)

theorem inStep_perform (h : m.bus.board.InStep) (hm : m.Laid s)
    (hd : Device.Discreet δ ∨ ∀ device, ¬s.attaches device) (move : Move) :
    (m.perform move).bus.board.InStep :=
  perform_board Board.inStep_invariant
    (fun _ h => h.runSlice Board.inStep_invariant fun _ h => h.withDma) (inStep_reset hm)
    ⟨hm.discreet hd, h⟩ move

theorem inStep_restore (h : m.bus.board.InStep) (hm : m.Laid s) (hf : m.Fits) (data : ByteArray) :
    (m.restore data).2.bus.board.InStep := by
  rcases m.restore_cases data with ⟨-, e, he⟩ | ⟨t, m', ha, hap, he⟩ | ⟨t, e, m', ha, hap, he⟩
  · rw [he]; exact h
  · rw [he]
    obtain ⟨board, hl, rfl⟩ := apply_ok ha.validate hap
    have hlen := Bus.length_of_validateDevices (validate_iff.1 ha.validate).2.1
    rw [hm.parts] at hl hlen
    obtain ⟨s₀, s₁, s₂, s₃, s₄, s₅, rest, hss, -⟩ := Bus.core_states hlen
    rw [hss] at hl
    refine (Bus.loadEach_core (fun p hp => ?_) hl).2.2
    obtain ⟨i, -, h⟩ := List.mem_map.1 hp
    exact ⟨i, h.symm⟩
  · rw [he]
    obtain ⟨ss, rest, -, hback⟩ := restore_refused hm hf ha hap
    rw [hback]
    exact m.bus.board.inStep_synced

theorem inStep_plug (h : m.bus.board.InStep) {slot : Slot} {device : δ} {i : Nat}
    (hp : m.plug slot device = .ok (i, m')) : m'.bus.board.InStep := by
  obtain ⟨-, he⟩ := plug_eq hp
  rw [he]; exact h

/-- A session whose attached devices never drive the dot clock is in step. -/
theorem Reachable.inStep (h : m.Reachable s)
    (hd : Device.Discreet δ ∨ ∀ device, ¬s.attaches device) : m.bus.board.InStep := by
  induction h with
  | powerOn h _ => exact inStep_powerOn h
  | perform move h _ ih => exact inStep_perform ih h.laid hd move
  | attach slot _ _ hp _ ih => exact inStep_plug ih hp
  | rewind h _ _ ih _ => exact inStep_restore ih h.laid h.fits _
  | restore h _ _ ih => exact inStep_restore ih h.laid h.fits _

/-! ### Restoring that fails -/

/-- A session that does not try a state is left alone, and one that tries it and fails has its timers
brought in step. So the session is as before if and only if the state was not tried or the timers
were in step. -/
theorem restore_failed (hr : Device.Recoverable δ) (h : m.Reachable s)
    (hf : m.restore data = (some e, m')) :
    (((∀ t, ¬m.Admits data t) ∧ m' = m) ∨ ((∃ t, m.Admits data t) ∧ m' = m.synced)) ∧
      (m' = m ↔ (∀ t, ¬m.Admits data t) ∨ m.bus.board.InStep) := by
  have hcases : ((∀ t, ¬m.Admits data t) ∧ m' = m) ∨ ((∃ t, m.Admits data t) ∧ m' = m.synced) := by
    rcases m.restore_cases data with ⟨hn, e, he⟩ | ⟨t, m'', -, -, he⟩ | ⟨t, e, m'', ha, hap, he⟩
    · rw [hf] at he; cases he; exact .inl ⟨hn, rfl⟩
    · rw [hf] at he; cases he
    · rw [hf] at he
      cases he
      exact .inr ⟨⟨t, ha⟩, restore_refused_of_recoverable hr h.laid h.fits ha hap⟩
  refine ⟨hcases, ?_⟩
  rcases hcases with ⟨hn, rfl⟩ | ⟨⟨t, ha⟩, rfl⟩
  · exact ⟨fun _ => .inl hn, fun _ => rfl⟩
  · rw [synced_eq_iff]
    exact ⟨.inr, fun h => h.resolve_left fun hn => hn t ha⟩

/-- Where no attached device drives the dot clock, restoring that fails changes nothing. -/
theorem restore_failed_of_discreet (hr : Device.Recoverable δ)
    (hd : Device.Discreet δ ∨ ∀ device, ¬s.attaches device) (h : m.Reachable s)
    (hf : m.restore data = (some e, m')) : m' = m := by
  rcases m.restore_cases data with ⟨-, e, he⟩ | ⟨t, m'', -, -, he⟩ | ⟨t, e, m'', ha, hap, he⟩
  · rw [hf] at he; cases he; rfl
  · rw [hf] at he; cases he
  · rw [hf] at he
    cases he
    exact (restore_refused_of_recoverable hr h.laid h.fits ha hap).trans
      (synced_eq_iff.2 (h.inStep hd))

/-- With a device among the attached ones that never takes a state, restoring always fails. -/
theorem restore_error {data : ByteArray} (hm : m.Laid s)
    (hn : ∀ rest : List Bus.SavedDevice, rest.length = m.bus.board.externals.size →
      (Bus.loadExternals m.bus.board.externals.toList rest).1 ≠ none) :
    ∃ e m', m.restore data = (some e, m') := by
  rcases m.restore_cases data with ⟨-, e, he⟩ | ⟨t, m', ha, hap, he⟩ | ⟨t, e, m', -, -, he⟩
  · exact ⟨e, m, he⟩
  · obtain ⟨board, hl, -⟩ := apply_ok ha.validate hap
    have hlen := Bus.length_of_validateDevices (validate_iff.1 ha.validate).2.1
    rw [hm.parts] at hl hlen
    rcases Bus.loadEach_cases m.bus.board hlen with ⟨e, b', h, -⟩ | ⟨rest, b', hr, h, -⟩
    · cases hl.symm.trans h
    · exact absurd (congrArg Prod.fst (hl.symm.trans h)).symm (hn rest hr)
  · exact ⟨e, _, he⟩

end Machine

/-! ### A device that drives a dot clock of its own -/

/-- A device that sets the dot clock when it is written to, and takes no state. -/
structure Metronome where

instance : Device Metronome where
  read d _ _ := (0, d)
  write d _ _ _ := ([.dotClock 3], d)
  load _ _ := .error (.config "the metronome holds no state")

theorem Metronome.recoverable : Device.Recoverable Metronome :=
  .of_refuses fun _ _ => ⟨⟨_, rfl⟩, rfl⟩

namespace Machine

/-- Any device may be attached and any bytes may be restored. -/
def unrestricted : Surroundings Metronome where
  config := {}
  attaches _ := True
  offers _ _ := True

def metronomic : Machine Metronome :=
  (((fresh {} : Machine Metronome).plug .pad {}).toOption.map (·.2)).getD (fresh {})

/-- The same session after a write to the metronome. -/
def offbeat : Machine Metronome := metronomic.perform (.write 0x1F801040 .word 0)

theorem metronomic_eq : (fresh {} : Machine Metronome).plug .pad {} = .ok (6, metronomic) := rfl

/-- Both sessions are the one that was built, but for the metronome and what the timers take for the
length of a dot. -/
structure Metronomic (m : Machine Metronome) : Prop where
  cpu : m.cpu = .initial
  memory : m.bus.memory = .initial
  scheduler : m.scheduler = scheduler₀
  entries : m.bus.table.entries =
    coreTable.entries.push { name := "Unknown Device", base := 0x1F801040, part := .external 0 }
  board : ∃ divider, m.bus.board = { (fresh {} : Machine Metronome).bus.board with
    externals := #[⟨{}, true⟩]
    lines.timers := (fresh {} : Machine Metronome).bus.board.lines.timers.setDotDivider divider }

theorem metronomic_metronomic : Metronomic metronomic := ⟨rfl, rfl, rfl, rfl, 10, rfl⟩

theorem offbeat_metronomic : Metronomic offbeat := ⟨rfl, rfl, rfl, rfl, 3, rfl⟩

namespace Metronomic

variable {m : Machine Metronome} (h : Metronomic m)

include h

theorem chips (p : Part) : m.bus.board.Fits p := by
  have hf : ({} : SessionConfig).Fits := ⟨by decide, by decide⟩
  have hcore := Board.fits_ofConfig (δ := Metronome) hf
  obtain ⟨divider, hb⟩ := h.board
  rw [hb]
  cases p with
  | interrupts => exact hcore .interrupts (by decide)
  | timers => exact ⟨(hcore .timers (by decide)).1, trivial⟩
  | dma => exact hcore .dma (by decide)
  | memoryControl => exact hcore .memoryControl (by decide)
  | expansion => exact hcore .expansion (by decide)
  | gpu => exact hcore .gpu (by decide)
  | «external» i => trivial

theorem saved_size_le : ∀ x ∈ m.bus.saveDevices, x.1.toUTF8.size + x.2.size ≤ 576 := by
  intro x hx
  obtain ⟨e, he, rfl⟩ := List.mem_map.1 hx
  obtain ⟨divider, hb⟩ := h.board
  rw [h.entries, Array.toList_push, List.mem_append] at he
  rcases he with he | he
  · obtain ⟨hn, hp⟩ := coreTable_names e he
    have := m.bus.board.save_size_le hp (h.chips e.part)
    rw [show m.bus.board.gpu.queue.words.size = 0 by rw [hb]; rfl,
      show m.bus.board.expansion.line.toUTF8.size = 0 by rw [hb]; rfl] at this
    dsimp only
    omega
  · cases List.mem_singleton.1 he
    rw [hb]
    show "Unknown Device".toUTF8.size + ByteArray.empty.size ≤ 576
    decide

theorem saved_length : m.bus.saveDevices.length = 7 := by
  unfold Bus.saveDevices
  rw [h.entries]
  rfl

theorem fits : m.Fits := by
  refine fits_of (by rw [h.cpu]; exact Cpu.sound_initial.lines)
    (by rw [h.memory]; exact Memory.hasSizes_initial) (by rw [h.scheduler]; exact scheduler₀_fits)
    (fun p _ => h.chips p) (by rw [h.saved_length]; decide) fun x hx => ?_
  exact Nat.lt_of_le_of_lt (h.saved_size_le x hx) (by decide)

theorem claims_le : Session.law.claims m.capture ≤ allowance := by
  have hc := claims_le_of (by rw [h.memory]; exact Memory.hasSizes_initial)
    (by rw [h.cpu]; exact Cpu.sound_initial.lines) h.saved_size_le
  have hs : Scheduler.law.claims m.scheduler ≤ 1048576 := by rw [h.scheduler]; decide +kernel
  rw [h.saved_length] at hc
  unfold allowance
  omega

end Metronomic

theorem reachable_offbeat : offbeat.Reachable unrestricted :=
  .perform _ (.attach .pad (reachable_fresh (s := unrestricted) ⟨by decide, by decide⟩) trivial
    metronomic_eq metronomic_metronomic.fits) offbeat_metronomic.fits

theorem offbeat_refuses : ∃ e m', offbeat.restore offbeat.snapshot = (some e, m') := by
  refine restore_error reachable_offbeat.laid fun rest hr => ?_
  obtain ⟨divider, hb⟩ := offbeat_metronomic.board
  rw [hb] at hr ⊢
  obtain ⟨x, rfl⟩ := List.length_eq_one_iff.1 hr
  intro h; cases h

theorem restore_failed_offbeat :
    Device.Recoverable Metronome ∧ offbeat.Reachable unrestricted ∧
      ∃ e m', offbeat.restore offbeat.snapshot = (some e, m') ∧
        (m' = offbeat ↔ (∀ t, ¬offbeat.Admits offbeat.snapshot t) ∨ offbeat.bus.board.InStep) := by
  obtain ⟨e, m', hr⟩ := offbeat_refuses
  exact ⟨Metronome.recoverable, reachable_offbeat, e, m', hr,
    (restore_failed Metronome.recoverable reachable_offbeat hr).2⟩

/-- A session is given its own snapshot, in which the metronome refuses its state; the timers have
then lost the length of a dot that the metronome had told them. -/
theorem restore_changes_dotDivider :
    ∃ e m', offbeat.restore offbeat.snapshot = (some e, m') ∧
      offbeat.bus.board.lines.timers.dotDivider = 3 ∧
      m'.bus.board.lines.timers.dotDivider = 10 := by
  obtain ⟨e, m', hr⟩ := offbeat_refuses
  have hadmits : offbeat.Admits offbeat.snapshot offbeat.capture :=
    admits_snapshot offbeat_metronomic.fits offbeat_metronomic.claims_le rfl
      reachable_offbeat.laid.sizes rfl
  refine ⟨e, m', hr, rfl, ?_⟩
  rcases offbeat.restore_cases offbeat.snapshot with ⟨hn, -⟩ | ⟨t, m'', -, -, he⟩ |
    ⟨t, e', m'', ha, hap, he⟩
  · exact absurd hadmits (hn _)
  · cases hr.symm.trans he
  · have hback : m' = offbeat.synced :=
      (congrArg Prod.snd (hr.symm.trans he)).trans (restore_refused_of_recoverable
        Metronome.recoverable reachable_offbeat.laid reachable_offbeat.fits ha hap)
    rw [hback]
    rfl

end Machine

end Psx
