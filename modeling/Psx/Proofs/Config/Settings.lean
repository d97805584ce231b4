import Psx.Proofs.Config.Accepted
import Psx.Proofs.Toml.Tables

/-!
# Documents that list some settings

`SessionConfig.Setting` are the settings of a configuration, each with its path of keys. A document
lists some of them if it has the value of each at the end of its path and nothing that leads
elsewhere (`SessionConfig.Lists`), in whatever order and in whatever kind of tables. Such a document
describes the configuration that has these settings, and all others as usual
(`SessionConfig.ofEntries?_of_lists`), unless it gives one cost of a region without the other: a
region has no usual costs that the other one could be left at.
-/

namespace Psx

open Toml (Value Entries)

instance (a : AccessCost) : Decidable a.InRange :=
  decidable_of_iff (a.read < 2 ^ 32 ∧ a.write < 2 ^ 32)
    ⟨fun ⟨hr, hw⟩ => ⟨hr, hw⟩, fun h => ⟨h.read, h.write⟩⟩

instance (t : BusTiming) : Decidable t.InRange :=
  decidable_of_iff (t.instructionCycles < 2 ^ 32 ∧ t.ram.InRange ∧ t.scratchpad.InRange ∧
      t.bios.InRange ∧ t.io.InRange ∧ t.expansion.InRange)
    ⟨fun ⟨hi, hr, hs, hb, ho, he⟩ => ⟨hi, hr, hs, hb, ho, he⟩,
      fun h => ⟨h.instructionCycles, h.ram, h.scratchpad, h.bios, h.io, h.expansion⟩⟩

instance (c : SessionConfig) : Decidable c.Fits :=
  decidable_of_iff (c.dma.sliceGapCycles < 256 ^ 4 ∧ c.gpuFifoCapacity < 256 ^ 8)
    ⟨fun ⟨hg, hc⟩ => ⟨hg, hc⟩, fun h => ⟨h.sliceGap, h.capacity⟩⟩

namespace SessionConfig

/-- The regions whose costs are set apart. -/
inductive Area where
  | ram
  | scratchpad
  | bios
  | io
  | expansion
deriving DecidableEq, Repr

namespace Area

def all : List Area := [ram, scratchpad, bios, io, expansion]

def name : Area → String
  | ram => "ram"
  | scratchpad => "scratchpad"
  | bios => "bios"
  | io => "io"
  | expansion => "expansion"

def cost (t : BusTiming) : Area → AccessCost
  | ram => t.ram
  | scratchpad => t.scratchpad
  | bios => t.bios
  | io => t.io
  | expansion => t.expansion

end Area

inductive Setting where
  | biosPath
  | video
  | openBusValue
  | gpuFifoCapacity
  | instructionCycles
  | read (area : Area)
  | write (area : Area)
  | sliceGapCycles
deriving DecidableEq, Repr

namespace Setting

/-- The keys of the tables around a setting. -/
def header : Setting → List String
  | biosPath | video | openBusValue | gpuFifoCapacity => []
  | instructionCycles => ["timing"]
  | read area | write area => ["timing", area.name]
  | sliceGapCycles => ["dma"]

def name : Setting → String
  | biosPath => "bios_path"
  | video => "video"
  | openBusValue => "open_bus_value"
  | gpuFifoCapacity => "gpu_fifo_capacity"
  | instructionCycles => "instruction_cycles"
  | read _ => "read"
  | write _ => "write"
  | sliceGapCycles => "slice_gap_cycles"

def path (k : Setting) : List String := k.header ++ [k.name]

/-- The value of a setting. Only a boot image may be missing, and then there is none. -/
def value? (c : SessionConfig) : Setting → Option Value
  | biosPath => c.biosPath.map .string
  | video => some (.string (nameOf c.video))
  | openBusValue => some (.integer c.openBusValue.toNat)
  | gpuFifoCapacity => some (.integer c.gpuFifoCapacity)
  | instructionCycles => some (.integer c.timing.instructionCycles)
  | read area => some (.integer (area.cost c.timing).read)
  | write area => some (.integer (area.cost c.timing).write)
  | sliceGapCycles => some (.integer c.dma.sliceGapCycles)

end Setting

variable {c : SessionConfig} {S : Setting → Bool} {root : Entries}

/-- The configuration that has some settings in common with `c` and the others as usual. -/
def restrict (c : SessionConfig) (S : Setting → Bool) : SessionConfig :=
  let usual : SessionConfig := {}
  let cost (area : Area) : AccessCost := {
    read := ((if S (.read area) then c else usual).timing |> area.cost).read
    write := ((if S (.write area) then c else usual).timing |> area.cost).write }
  { biosPath := (if S .biosPath then c else usual).biosPath
    video := (if S .video then c else usual).video
    openBusValue := (if S .openBusValue then c else usual).openBusValue
    gpuFifoCapacity := (if S .gpuFifoCapacity then c else usual).gpuFifoCapacity
    timing := {
      instructionCycles := (if S .instructionCycles then c else usual).timing.instructionCycles
      ram := cost .ram
      scratchpad := cost .scratchpad
      bios := cost .bios
      io := cost .io
      expansion := cost .expansion }
    dma.sliceGapCycles := (if S .sliceGapCycles then c else usual).dma.sliceGapCycles }

/-- What a document has at the end of a path. -/
def at? (path : List String) (root : Entries) : Option Value := (Value.table .header root).at? path

/-- A document has the value of each setting in `S`, and all that it has leads to one of them. -/
structure Lists (c : SessionConfig) (S : Setting → Bool) (root : Entries) : Prop where
  value : ∀ k, S k = true → at? k.path root = k.value? c
  only : ∀ path v, path ≠ [] → at? path root = some v →
    ∃ k, S k = true ∧ (k.value? c).isSome = true ∧ path <+: k.path

/-- Either both costs of a region are among some settings or neither is. -/
def Paired (S : Setting → Bool) : Prop := ∀ area, S (.read area) = S (.write area)

instance (S : Setting → Bool) : Decidable (Paired S) :=
  decidable_of_iff (∀ area ∈ Area.all, S (.read area) = S (.write area))
    ⟨fun h area => h area (by cases area <;> decide), fun h area _ => h area⟩

theorem paired_iff : Paired S ↔
    S (.read .ram) = S (.write .ram) ∧ S (.read .scratchpad) = S (.write .scratchpad) ∧
      S (.read .bios) = S (.write .bios) ∧ S (.read .io) = S (.write .io) ∧
      S (.read .expansion) = S (.write .expansion) :=
  ⟨fun h => ⟨h _, h _, h _, h _, h _⟩, fun ⟨hram, hscratchpad, hbios, hio, hexpansion⟩ area => by
    cases area with
    | ram => exact hram
    | scratchpad => exact hscratchpad
    | bios => exact hbios
    | io => exact hio
    | expansion => exact hexpansion⟩

theorem cost_restrict (c : SessionConfig) (S : Setting → Bool) (area : Area) :
    area.cost (c.restrict S).timing = {
      read := (area.cost (if S (.read area) then c else {}).timing).read
      write := (area.cost (if S (.write area) then c else {}).timing).write } := by
  cases area <;> rfl

/-! ### Paths -/

theorem Area.name_inj {a b : Area} (h : a.name = b.name) : a = b := by
  cases a <;> cases b <;> first | rfl | exact absurd h (by decide)

theorem Area.cost_inRange {t : BusTiming} (h : t.InRange) (area : Area) : (area.cost t).InRange := by
  cases area with
  | ram => exact h.ram
  | scratchpad => exact h.scratchpad
  | bios => exact h.bios
  | io => exact h.io
  | expansion => exact h.expansion

theorem Area.name_ne (area : Area) : "instruction_cycles" ≠ area.name := by
  cases area <;> decide

theorem Setting.eq_of_prefix {k k' : Setting} (h : k.path <+: k'.path) : k = k' := by
  have hlength := h.length_le
  cases k <;> cases k' <;> first
    | rfl
    | simp [path, header, name, Area.name_ne] at h hlength
  all_goals rw [Area.name_inj h]

theorem Setting.eq_of_area {k : Setting} {area : Area}
    (h : ["timing", area.name] <+: k.path) : k = .read area ∨ k = .write area := by
  cases k with
  | read area' =>
    simp only [path, header, List.cons_append, List.cons_prefix_cons, true_and] at h
    exact .inl (by rw [Area.name_inj h.1])
  | write area' =>
    simp only [path, header, List.cons_append, List.cons_prefix_cons, true_and] at h
    exact .inr (by rw [Area.name_inj h.1])
  | instructionCycles => simp [path, header, name, Area.name_ne, eq_comm] at h
  | _ => simp [path, header, name] at h

/-- The keys of the table of costs. -/
theorem Setting.mem_timing {k : Setting} {key : String} (h : ["timing", key] <+: k.path) :
    key ∈ ["instruction_cycles", "ram", "scratchpad", "bios", "io", "expansion"] := by
  cases k with
  | instructionCycles =>
    obtain rfl : key = "instruction_cycles" := by simpa [path, header, name] using h
    decide
  | read area | write area =>
    obtain rfl : key = area.name := by simpa [path, header, name] using h
    cases area <;> decide
  | _ => simp [path, header, name] at h

theorem at?_append (path path' : List String) (root : Entries) :
    at? (path ++ path') root = (at? path root).bind (Value.at? path') :=
  Value.at?_append path path' _

/-- What a table has at a key, told from the table's own path. -/
theorem lookup_of_at? {path : List String} {form : Toml.Form} {entries : Entries}
    (h : at? path root = some (.table form entries)) (key : String) :
    entries.lookup key = at? (path ++ [key]) root := by
  rw [at?_append, h, Option.bind_some, Value.at?]
  cases entries.lookup key <;> rfl

namespace Lists

theorem at?_setting (h : Lists c S root) (k : Setting) :
    at? k.path root = if S k then k.value? c else none := by
  split_ifs with hk
  · exact h.value k hk
  · by_contra hne
    obtain ⟨v, hv⟩ := Option.ne_none_iff_exists'.1 hne
    obtain ⟨k', hk', -, hprefix⟩ := h.only _ v (by simp [Setting.path]) hv
    rw [Setting.eq_of_prefix hprefix] at hk
    exact hk hk'

/-- There is a table on the way to each setting that is listed. -/
theorem table_of_prefix (h : Lists c S root) {k : Setting} (hk : S k = true)
    (hv : (k.value? c).isSome = true) {path : List String} {key : String} {rest : List String}
    (hpath : k.path = path ++ key :: rest) :
    ∃ form entries, at? path root = some (.table form entries) := by
  have hvalue := h.value k hk
  rw [hpath, at?_append] at hvalue
  rw [← hvalue] at hv
  obtain ⟨v, hv⟩ := Option.isSome_iff_exists.1 hv
  obtain ⟨u, hu, hrest⟩ := Option.bind_eq_some_iff.1 hv
  cases u with
  | table form entries => exact ⟨form, entries, hu⟩
  | _ => cases hrest

theorem not_listed (h : Lists c S root) {k : Setting} (hv : (k.value? c).isSome = true)
    {path : List String} (rest : List String) (hpath : k.path = path ++ rest) (hnone : at? path root = none) :
    S k = false := by
  have hk := h.at?_setting k
  rw [hpath, at?_append, hnone, Option.bind_none] at hk
  refine Bool.eq_false_iff.2 fun hS => ?_
  rw [if_pos hS] at hk
  rw [← hk] at hv
  cases hv

/-- A table without other keys than `names` has only known settings. -/
theorem known?_eq (h : Lists c S root) {path : List String} {form : Toml.Form} {entries : Entries}
    (ht : at? path root = some (.table form entries)) {names : List String}
    (hnames : ∀ (k : Setting) (key : String), path ++ [key] <+: k.path → key ∈ names) :
    known? names entries = some entries := by
  have hnone : ∀ e ∈ entries, ¬(!names.contains e.1) = true := by
    rintro ⟨key, v⟩ hmem
    have hsome := Entries.lookup_isSome_of_mem hmem
    rw [lookup_of_at? ht] at hsome
    obtain ⟨u, hu⟩ := Option.isSome_iff_exists.1 hsome
    obtain ⟨k, -, -, hprefix⟩ := h.only _ u (by simp) hu
    simpa using hnames k key hprefix
  unfold known?
  rw [List.filter_eq_nil_iff.2 hnone]
  rfl

end Lists

/-! ### Reading settings -/

theorem bind_ite {α β : Type} {p : Prop} [Decidable p] (a : α) (f : α → Option β) :
    (if p then some a else none).bind f = if p then f a else none := by split_ifs <;> rfl

theorem natBelow?_integer {n limit : Nat} (h : n < limit) :
    natBelow? limit (.integer n) = some n := by
  rw [natBelow?, if_pos ⟨by omega, by omega⟩, Int.toNat_natCast]

theorem cycles?_integer {n : Nat} (h : n < 2 ^ 32) : cycles? (.integer n) = some n :=
  natBelow?_integer h

theorem standardOfName?_nameOf (v : VideoStandard) : standardOfName? (nameOf v) = some v := by
  cases v <;> rfl

namespace Lists

/-- A setting that is read alone. -/
theorem setting?_eq {α : Type} (h : Lists c S root) {path : List String} {form : Toml.Form}
    {entries : Entries} (ht : at? path root = some (.table form entries)) {k : Setting}
    (hpath : path ++ [k.name] = k.path) {read : Value → Option α} (get : SessionConfig → α)
    (hread : ∀ v, k.value? c = some v → read v = some (get c))
    (hnone : k.value? c = none → get {} = get c) :
    setting? entries k.name (get {}) read = some (get (if S k then c else {})) := by
  unfold setting?
  rw [lookup_of_at? ht, hpath, h.at?_setting]
  split_ifs with hk
  · cases hv : k.value? c with
    | none => rw [hnone hv]
    | some v => exact hread v hv
  · rfl

/-- The value that stands on the way to a listed setting is a table. -/
theorem exists_table (h : Lists c S root) {path : List String} (hpath : path ≠ []) {v : Value}
    (hv : at? path root = some v) (hsetting : ∀ k : Setting, k.path ≠ path) :
    ∃ form entries, v = .table form entries := by
  obtain ⟨k, hk, hsome, rest, hrest⟩ := h.only path v hpath hv
  cases rest with
  | nil => exact absurd (by rw [← hrest, List.append_nil]) (hsetting k)
  | cons key rest =>
    obtain ⟨form, entries, ht⟩ := h.table_of_prefix hk hsome hrest.symm
    exact ⟨form, entries, Option.some.inj (hv.symm.trans ht)⟩

theorem accessCost?_eq (h : Lists c S root) (hc : c.timing.InRange) (area : Area) {v : Value}
    (hv : at? ["timing", area.name] root = some v) :
    accessCost? v =
      if S (.read area) && S (.write area) then some (area.cost c.timing) else none := by
  obtain ⟨form, entries, rfl⟩ := h.exists_table (by simp) hv fun k => by
    cases k <;> simp [Setting.path, Setting.header, Setting.name, Area.name_ne]
  have hknown : known? ["read", "write"] entries = some entries := h.known?_eq hv fun k key hk => by
    cases k <;> simp_all [Setting.path, Setting.header, Setting.name]
  have hread : entries.lookup "read" = if S (.read area) then some _ else none :=
    (lookup_of_at? hv "read").trans (h.at?_setting (.read area))
  have hwrite : entries.lookup "write" = if S (.write area) then some _ else none :=
    (lookup_of_at? hv "write").trans (h.at?_setting (.write area))
  have hcost := Area.cost_inRange hc area
  have hgroup : group? ["read", "write"] (.table form entries) = some entries := hknown
  have hr := cycles?_integer hcost.read
  have hw := cycles?_integer hcost.write
  rw [accessCost?, hgroup]
  dsimp only [Option.bind_eq_bind, Option.bind_some]
  rw [hread, hwrite]
  cases S (.read area) <;> cases S (.write area)
  · rfl
  · rfl
  · rw [if_pos rfl, if_neg Bool.false_ne_true, Option.bind_some, hr]
    rfl
  · -- `dsimp` would have the two costs compared
    rw [if_pos rfl, if_pos rfl, Option.bind_some, hr, Option.bind_some, Option.bind_some, hw]
    rfl

/-- The costs of a region, in the table of all costs. -/
theorem setting?_area (h : Lists c S root) (hc : c.timing.InRange) {form : Toml.Form}
    {entries : Entries} (ht : at? ["timing"] root = some (.table form entries)) (area : Area) :
    setting? entries area.name (area.cost {}) accessCost? =
      if S (.read area) = S (.write area) then some (area.cost (c.restrict S).timing)
      else none := by
  have hlookup : entries.lookup area.name = at? ["timing", area.name] root := lookup_of_at? ht _
  have hrestrict := cost_restrict c S area
  unfold setting?
  rw [hlookup]
  cases hv : at? ["timing", area.name] root with
  | none =>
    have hr : S (.read area) = false := h.not_listed rfl ["read"] rfl hv
    have hw : S (.write area) = false := h.not_listed rfl ["write"] rfl hv
    rw [hr, hw] at hrestrict ⊢
    rw [hrestrict]
    rfl
  | some v =>
    dsimp only
    rw [h.accessCost?_eq hc area hv]
    cases hr : S (.read area) <;> cases hw : S (.write area)
    · -- a table stands there only if one of the two is listed
      obtain ⟨k, hk, -, hprefix⟩ := h.only _ v (by simp) hv
      obtain rfl | rfl := Setting.eq_of_area hprefix
      · rw [hr] at hk
        cases hk
      · rw [hw] at hk
        cases hk
    · rfl
    · rfl
    · rw [hrestrict, hr, hw]
      rfl

theorem timing?_eq (h : Lists c S root) (hc : c.timing.InRange) :
    setting? root "timing" {} timing? =
      if Paired S then some (c.restrict S).timing else none := by
  have hroot : at? [] root = some (.table .header root) := rfl
  unfold setting?
  rw [lookup_of_at? hroot, List.nil_append]
  cases hv : at? ["timing"] root with
  | none =>
    have hcycles : S .instructionCycles = false :=
      h.not_listed rfl ["instruction_cycles"] rfl hv
    have hread : ∀ area : Area, S (.read area) = false := fun area =>
      h.not_listed rfl [area.name, "read"] rfl hv
    have hwrite : ∀ area : Area, S (.write area) = false := fun area =>
      h.not_listed rfl [area.name, "write"] rfl hv
    have hpaired : Paired S := fun area => (hread area).trans (hwrite area).symm
    rw [if_pos hpaired]
    simp [restrict, hcycles, hread, hwrite, Area.cost]
  | some v =>
    obtain ⟨form, entries, rfl⟩ := h.exists_table (by simp) hv fun k => by
      cases k <;> simp [Setting.path, Setting.header, Setting.name]
    have hgroup : group? ["instruction_cycles", "ram", "scratchpad", "bios", "io", "expansion"]
        (.table form entries) = some entries := h.known?_eq hv fun _ _ => Setting.mem_timing
    have hcycles : setting? entries "instruction_cycles" ({} : BusTiming).instructionCycles cycles? =
        some (c.restrict S).timing.instructionCycles :=
      h.setting?_eq hv (k := .instructionCycles) rfl (·.timing.instructionCycles)
        (fun v hv => by cases hv; exact cycles?_integer hc.instructionCycles) nofun
    have step : ∀ (area : Area) {q : Prop} [Decidable q] {t : BusTiming}
        {f : AccessCost → Option BusTiming},
        f (area.cost (c.restrict S).timing) = (if q then some t else none) →
        (setting? entries area.name (area.cost {}) accessCost?).bind f =
          if S (.read area) = S (.write area) ∧ q then some t else none := by
      intro area q _ t f hrest
      rw [h.setting?_area hc hv, bind_ite, ite_and, hrest]
    show timing? _ = _
    rw [timing?, hgroup, Option.bind_eq_bind, Option.bind_some]
    show (setting? entries "instruction_cycles" ({} : BusTiming).instructionCycles cycles?).bind _ = _
    rw [hcycles, Option.bind_some]
    refine Eq.trans ?_ (if_congr paired_iff rfl rfl).symm
    refine step .ram (step .scratchpad (step .bios (step .io ?_)))
    show (setting? entries (Area.expansion).name (Area.expansion.cost {}) accessCost?).bind _ = _
    rw [h.setting?_area hc hv, bind_ite]
    rfl

theorem dmaTiming?_eq (h : Lists c S root) (hf : c.Fits) :
    setting? root "dma" {} dmaTiming? = some (c.restrict S).dma := by
  have hroot : at? [] root = some (.table .header root) := rfl
  unfold setting?
  rw [lookup_of_at? hroot, List.nil_append]
  cases hv : at? ["dma"] root with
  | none =>
    have hgap : S .sliceGapCycles = false := h.not_listed rfl ["slice_gap_cycles"] rfl hv
    simp [restrict, hgap]
  | some v =>
    obtain ⟨form, entries, rfl⟩ := h.exists_table (by simp) hv fun k => by
      cases k <;> simp [Setting.path, Setting.header, Setting.name]
    have hgroup : group? ["slice_gap_cycles"] (.table form entries) = some entries :=
      h.known?_eq hv fun k key hk => by
        cases k <;> simp_all [Setting.path, Setting.header, Setting.name]
    have hgap : setting? entries "slice_gap_cycles" ({} : DmaTiming).sliceGapCycles cycles? =
        some (c.restrict S).dma.sliceGapCycles :=
      h.setting?_eq hv (k := .sliceGapCycles) rfl (·.dma.sliceGapCycles)
        (fun v hv => by cases hv; exact cycles?_integer hf.sliceGap) nofun
    show dmaTiming? _ = _
    rw [dmaTiming?, hgroup, Option.bind_eq_bind, Option.bind_some]
    show (setting? entries "slice_gap_cycles" ({} : DmaTiming).sliceGapCycles cycles?).bind _ = _
    rw [hgap]
    rfl

end Lists

/-- What a document describes that lists some settings. -/
theorem ofEntries?_of_lists (h : Lists c S root) (hc : c.timing.InRange) (hf : c.Fits) :
    ofEntries? root = if Paired S then some (c.restrict S) else none := by
  have hroot : at? [] root = some (.table .header root) := rfl
  have hknown : known? ["bios_path", "video", "open_bus_value", "gpu_fifo_capacity", "timing", "dma"]
      root = some root := h.known?_eq hroot fun k key hk => by
    cases k <;> simp_all [Setting.path, Setting.header, Setting.name]
  have hpath : setting? root "bios_path" none path? = some (c.restrict S).biosPath :=
    h.setting?_eq hroot (k := .biosPath) rfl (·.biosPath)
      (fun v hv => by
        obtain ⟨s, hs, rfl⟩ := Option.map_eq_some_iff.1 hv
        exact congrArg some hs.symm)
      fun hv => (Option.map_eq_none_iff.1 hv).symm
  have hvideo : setting? root "video" .ntsc video? = some (c.restrict S).video :=
    h.setting?_eq hroot (k := .video) rfl (·.video)
      (fun v hv => by cases hv; exact standardOfName?_nameOf c.video) nofun
  have hword : setting? root "open_bus_value" 0xFFFFFFFF
      (fun v => (cycles? v).map (·.toUInt32)) = some (c.restrict S).openBusValue :=
    h.setting?_eq hroot (k := .openBusValue) rfl (·.openBusValue)
      (fun v hv => by
        cases hv
        show (cycles? (.integer _)).map _ = _
        rw [cycles?_integer c.openBusValue.toNat_lt]
        exact congrArg some UInt32.ofNat_toNat) nofun
  have hcapacity : setting? root "gpu_fifo_capacity" 4096 (natBelow? 0x10000000000000000) =
      some (c.restrict S).gpuFifoCapacity :=
    h.setting?_eq hroot (k := .gpuFifoCapacity) rfl (·.gpuFifoCapacity)
      (fun v hv => by cases hv; exact natBelow?_integer hf.capacity) nofun
  have htiming := h.timing?_eq hc
  have hdma := h.dmaTiming?_eq hf
  -- one setting or group is read after the other
  rw [ofEntries?, hknown, Option.bind_eq_bind, Option.bind_some]
  show (setting? root "bios_path" none path?).bind _ = _
  rw [hpath, Option.bind_some]
  show (setting? root "video" .ntsc video?).bind _ = _
  rw [hvideo, Option.bind_some]
  show (setting? root "open_bus_value" 0xFFFFFFFF fun v => (cycles? v).map (·.toUInt32)).bind _ = _
  rw [hword, Option.bind_some]
  show (setting? root "gpu_fifo_capacity" 4096 (natBelow? 0x10000000000000000)).bind _ = _
  rw [hcapacity, Option.bind_some]
  show (setting? root "timing" {} timing?).bind _ = _
  rw [htiming, bind_ite]
  refine if_congr Iff.rfl ?_ rfl
  show (setting? root "dma" {} dmaTiming?).bind _ = _
  rw [hdma]
  rfl

end SessionConfig

end Psx
