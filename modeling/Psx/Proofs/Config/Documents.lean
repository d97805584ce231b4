import Psx.Proofs.Config.Settings
import Psx.Proofs.Toml.Written

/-!
# Configurations come back from their documents

`SessionConfig.document` writes some settings of a configuration, in the order and in the form in
which `SessionConfig.toToml` writes all of them. What it writes is a document that lists these
settings (`SessionConfig.describes_document`). So a configuration that is written out comes back as
it was (`SessionConfig.ofToml_toToml`), and a document with some settings is accepted unless it gives
one cost of a region without the other (`SessionConfig.ofToml_of_describes`).
-/

namespace Psx

open Toml (Value Entries Line Statement)
open Toml.Entries (Focus)

namespace SessionConfig

variable {c : SessionConfig} {S : Setting → Bool}

/-! ### Writing some settings -/

/-- The line of a setting, if it has a value. -/
def Setting.line? (c : SessionConfig) : Setting → Option Line
  | biosPath => c.biosPath.map (.text "bios_path")
  | video => some (.text "video" (nameOf c.video))
  | openBusValue => some (.number "open_bus_value" c.openBusValue.toNat)
  | gpuFifoCapacity => some (.number "gpu_fifo_capacity" c.gpuFifoCapacity)
  | instructionCycles => some (.number "instruction_cycles" c.timing.instructionCycles)
  | read area => some (.number "read" (area.cost c.timing).read)
  | write area => some (.number "write" (area.cost c.timing).write)
  | sliceGapCycles => some (.number "slice_gap_cycles" c.dma.sliceGapCycles)

/-- The lines of the settings in `S` among some of them. -/
def lines (c : SessionConfig) (S : Setting → Bool) (ks : List Setting) : List Line :=
  (ks.filter S).filterMap (·.line? c)

/-- The lines of a table, which has a header unless it is empty. -/
def headed (path : List String) (key : String) (lines : List Line) : List Line :=
  if lines.isEmpty then [] else .header path key :: lines

def topSettings : List Setting := [.biosPath, .video, .openBusValue, .gpuFifoCapacity]

def Area.settings (area : Area) : List Setting := [.read area, .write area]

/-- The lines of a document with the settings in `S`. -/
def documentLines (c : SessionConfig) (S : Setting → Bool) : List Line :=
  lines c S topSettings ++ headed [] "timing" (lines c S [.instructionCycles]) ++
    Area.all.flatMap (fun area => headed ["timing"] area.name (lines c S area.settings)) ++
    headed [] "dma" (lines c S [.sliceGapCycles])

/-- The document that lists the settings in `S`. -/
def document (c : SessionConfig) (S : Setting → Bool) : String :=
  String.ofList ((documentLines c S).flatMap Line.write)

theorem write_number (key : String) (n : Nat) :
    (Line.number key n).write = (numberLine key n).toList := by
  simp [numberLine, Line.write]

theorem write_costTable (name : String) (cost : AccessCost) :
    [Line.header ["timing"] name, .number "read" cost.read, .number "write" cost.write].flatMap
      Line.write = (costTable name cost).toList := by
  have hheader : (Line.header ["timing"] name).write = ("\n[timing." ++ name ++ "]\n").toList := by
    simp [Line.write, Line.dotted]
  simp only [List.flatMap_cons, List.flatMap_nil, List.append_nil, write_number, hheader, costTable,
    String.toList_append, List.append_assoc]

theorem write_path (path : String) :
    (Line.text "bios_path" path).write =
      ("bios_path = " ++ String.ofList (Toml.Quoted.write path.toList) ++ "\n").toList := by
  simp [Line.write]

theorem write_video (v : VideoStandard) :
    (Line.text "video" (nameOf v)).write = ("video = \"" ++ nameOf v ++ "\"\n").toList := by
  cases v <;> decide

theorem document_all (c : SessionConfig) : c.document (fun _ => true) = c.toToml := by
  have hlines : documentLines c (fun _ => true) =
      (c.biosPath.map (Line.text "bios_path")).toList ++
        [.text "video" (nameOf c.video), .number "open_bus_value" c.openBusValue.toNat,
          .number "gpu_fifo_capacity" c.gpuFifoCapacity, .header [] "timing",
          .number "instruction_cycles" c.timing.instructionCycles] ++
        Area.all.flatMap (fun area => [.header ["timing"] area.name,
          .number "read" (area.cost c.timing).read, .number "write" (area.cost c.timing).write]) ++
        [.header [] "dma", .number "slice_gap_cycles" c.dma.sliceGapCycles] := by
    cases hpath : c.biosPath <;>
      simp [documentLines, lines, headed, topSettings, Area.settings, Setting.line?, hpath]
  have hpath : ((c.biosPath.map (Line.text "bios_path")).toList.flatMap Line.write) =
      (c.biosPath.elim "" fun path =>
        "bios_path = " ++ String.ofList (Toml.Quoted.write path.toList) ++ "\n").toList := by
    cases c.biosPath with
    | none => rfl
    | some path => simpa using write_path path
  have htables : (Area.all.flatMap fun area => [Line.header ["timing"] area.name,
        .number "read" (area.cost c.timing).read,
        .number "write" (area.cost c.timing).write]).flatMap Line.write =
      Area.all.flatMap fun area => (costTable area.name (area.cost c.timing)).toList := by
    rw [List.flatMap_assoc]
    exact congrArg (List.flatMap · Area.all) (funext fun area => write_costTable _ _)
  have htiming : (Line.header [] "timing").write = "\n[timing]\n".toList := by decide
  have hdma : (Line.header [] "dma").write = "\n[dma]\n".toList := by decide
  rw [← String.toList_inj, document, hlines, String.toList_ofList, List.flatMap_append,
    List.flatMap_append, List.flatMap_append, hpath, htables]
  cases hb : c.biosPath <;> simp only [hb, Option.elim, List.flatMap_cons, List.flatMap_nil,
    write_video, write_number, htiming, hdma, Area.all, Area.name, Area.cost, toToml,
    String.toList_append, List.append_assoc, List.append_nil]

/-! ### Reading them back -/

theorem Setting.proper_line {k : Setting} {l : Line} (h : k.line? c = some l)
    (hc : c.timing.InRange) (hf : c.Fits) : l.Proper := by
  have hcost : ∀ area : Area, (area.cost c.timing).InRange := Area.cost_inRange hc
  cases k with
  | biosPath =>
    obtain ⟨path, -, rfl⟩ := Option.map_eq_some_iff.1 h
    exact (by decide : Toml.IsBare "bios_path")
  | video =>
    cases h
    exact (by decide : Toml.IsBare "video")
  | openBusValue =>
    cases h
    exact ⟨by decide, c.openBusValue.toNat_lt.trans (by decide)⟩
  | gpuFifoCapacity =>
    cases h
    exact ⟨by decide, hf.capacity.trans (by decide)⟩
  | instructionCycles =>
    cases h
    exact ⟨by decide, hc.instructionCycles.trans (by decide)⟩
  | read area =>
    cases h
    exact ⟨by decide, (hcost area).read.trans (by decide)⟩
  | write area =>
    cases h
    exact ⟨by decide, (hcost area).write.trans (by decide)⟩
  | sliceGapCycles =>
    cases h
    exact ⟨by decide, hf.sliceGap.trans (by decide)⟩

theorem proper_documentLines (hc : c.timing.InRange) (hf : c.Fits) :
    ∀ l ∈ documentLines c S, l.Proper := by
  have hlines : ∀ ks, ∀ l ∈ lines c S ks, l.Proper := by
    intro ks l hl
    obtain ⟨k, -, hk⟩ := List.mem_filterMap.1 hl
    exact Setting.proper_line hk hc hf
  have hheaded : ∀ path key ks, (Line.header path key).Proper →
      ∀ l ∈ headed path key (lines c S ks), l.Proper := by
    intro path key ks hp l hl
    unfold headed at hl
    split at hl
    · cases hl
    · rcases List.mem_cons.1 hl with rfl | hl
      · exact hp
      · exact hlines ks l hl
  intro l hl
  simp only [documentLines, List.mem_append, List.mem_flatMap] at hl
  rcases hl with ((hl | hl) | ⟨area, -, hl⟩) | hl
  · exact hlines _ l hl
  · exact hheaded _ _ _ ⟨by decide, by decide⟩ l hl
  · refine hheaded _ _ _ ?_ l hl
    cases area <;> exact ⟨by decide, by decide⟩
  · exact hheaded _ _ _ ⟨by decide, by decide⟩ l hl

/-! ### What the lines do -/

/-- The entries of the settings in `S` among some of them. -/
def leaves (c : SessionConfig) (S : Setting → Bool) (ks : List Setting) : Entries :=
  (ks.filter S).filterMap fun k => (k.value? c).map (k.name, ·)

/-- A table, unless it is empty. -/
def tableOf (key : String) (form : Toml.Form) (entries : Entries) : Entries :=
  if entries.isEmpty then [] else [(key, .table form entries)]

def areaEntries (c : SessionConfig) (S : Setting → Bool) (area : Area) : Entries :=
  tableOf area.name .header (leaves c S area.settings)

/-- The table of costs has no header of its own if it has no setting of its own. -/
def timingForm (c : SessionConfig) (S : Setting → Bool) : Toml.Form :=
  if (leaves c S [.instructionCycles]).isEmpty then .implied else .header

def documentEntries (c : SessionConfig) (S : Setting → Bool) : Entries :=
  leaves c S topSettings ++
    tableOf "timing" (timingForm c S)
      (leaves c S [.instructionCycles] ++ Area.all.flatMap (areaEntries c S)) ++
    tableOf "dma" .header (leaves c S [.sliceGapCycles])

/-- Whatever header is open, the lines change the document so. -/
def Yields (root : Entries) (ls : List Line) (root' : Entries) : Prop :=
  ∀ header, ∃ header',
    (ls.map Line.statement).foldlM Toml.Document.execute? (header, root) = some (header', root')

theorem Yields.append {root root' root'' : Entries} {ls ls' : List Line} (h : Yields root ls root')
    (h' : Yields root' ls' root'') : Yields root (ls ++ ls') root'' := by
  intro header
  obtain ⟨header', hls⟩ := h header
  obtain ⟨header'', hls'⟩ := h' header'
  refine ⟨header'', ?_⟩
  rw [List.map_append, List.foldlM_append, hls]
  exact hls'

theorem Yields.nil (root : Entries) : Yields root [] root := fun header => ⟨header, rfl⟩

/-- The assignments that some lines are. -/
def Assigns (ls : List Line) (entries : Entries) : Prop :=
  ls.map Line.statement = entries.map fun (key, v) => .assignment [] key v

theorem Setting.statement_line (c : SessionConfig) (k : Setting) :
    (k.line? c).map Line.statement = (k.value? c).map (Statement.assignment [] k.name) := by
  cases k with
  | biosPath => cases h : c.biosPath <;> simp [line?, value?, h, Line.statement, name]
  | _ => rfl

theorem assigns_lines (c : SessionConfig) (S : Setting → Bool) (ks : List Setting) :
    Assigns (lines c S ks) (leaves c S ks) := by
  unfold Assigns lines leaves
  rw [List.map_filterMap, List.map_filterMap]
  refine List.filterMap_congr fun k _ => ?_
  rw [Setting.statement_line, Option.map_map]
  rfl

namespace Assigns

variable {ls : List Line} {entries before inner : Entries} {key name : String}
  {header : List String} {form : Toml.Form} {around : Entries → Entries}

theorem isEmpty_eq (h : Assigns ls entries) : ls.isEmpty = entries.isEmpty := by
  cases ls <;> cases entries <;> first | rfl | cases h

/-- Lines behind their own header. -/
theorem yields_headed (h : Assigns ls entries) (hn : (Toml.Entries.keys entries).Nodup)
    (hfocus : Focus header form around) (hkey : key ∉ Toml.Entries.keys inner) :
    Yields (around inner) (headed header key ls) (around (inner ++ tableOf key .header entries)) := by
  unfold headed tableOf
  rw [h.isEmpty_eq]
  split_ifs with hempty
  · rw [List.append_nil]
    exact Yields.nil _
  · intro header₀
    have hinner : Focus (header ++ [key]) .header
        fun entries => around (inner ++ [(key, .table .header entries)]) :=
      hfocus.last hkey (by decide)
    refine ⟨header ++ [key], ?_⟩
    rw [List.map_cons, List.foldlM_cons, Line.statement, Toml.Document.execute?,
      hfocus.openTable hkey, h]
    exact hinner.assign_all (by decide) hn

/-- Lines behind their own header inside a table that may be missing so far. -/
theorem yields_inner (h : Assigns ls entries) (hn : (Toml.Entries.keys entries).Nodup)
    (hname : name ∉ Toml.Entries.keys before) (hkey : key ∉ Toml.Entries.keys inner)
    (hform : form ≠ .closed) (hempty : inner = [] → form = .implied) :
    Yields (before ++ tableOf name form inner) (headed [name] key ls)
      (before ++ tableOf name form (inner ++ tableOf key .header entries)) := by
  cases inner with
  | nil =>
    rw [hempty rfl]
    unfold headed
    rw [h.isEmpty_eq]
    split_ifs with hentries
    · have hnone : tableOf key .header entries = [] := if_pos hentries
      rw [hnone]
      exact Yields.nil _
    · intro header₀
      have hopen : Toml.Entries.openTable [name] key before =
          some (before ++ [(name, .table .implied [(key, .table .header [])])]) :=
        Focus.root.openTable_implied hname key
      have houter : Focus [name] .implied fun inner => before ++ [(name, .table .implied inner)] :=
        Focus.root.last hname (by decide)
      have hinner : Focus [name, key] .header fun entries =>
          before ++ [(name, .table .implied ([] ++ [(key, .table .header entries)]))] :=
        houter.last List.not_mem_nil (by decide)
      refine ⟨[name, key], ?_⟩
      rw [List.map_cons, List.foldlM_cons, Line.statement, Toml.Document.execute?]
      simp only [tableOf, List.isEmpty_nil, if_true, List.append_nil, List.nil_append, hentries, hopen]
      rw [h]
      exact hinner.assign_all (by decide) hn
  | cons e inner =>
    have hfocus : Focus [name] form fun inner => before ++ [(name, .table form inner)] :=
      Focus.root.last hname hform
    exact h.yields_headed hn hfocus hkey

end Assigns

theorem keys_leaves (c : SessionConfig) (S : Setting → Bool) (ks : List Setting) :
    (Toml.Entries.keys (leaves c S ks)).Sublist (ks.map (·.name)) := by
  induction ks with
  | nil => exact List.Sublist.refl _
  | cons k ks ih =>
    unfold leaves at ih ⊢
    rw [List.filter_cons]
    split_ifs
    · rw [List.filterMap_cons]
      cases k.value? c with
      | none => exact ih.cons _
      | some v => exact ih.cons_cons _
    · exact ih.cons _

theorem keys_tableOf (key : String) (form : Toml.Form) (entries : Entries) :
    (Toml.Entries.keys (tableOf key form entries)).Sublist [key] := by
  unfold tableOf
  split_ifs
  · exact List.nil_sublist _
  · exact List.Sublist.refl _

theorem keys_areas (areas : List Area) :
    (Toml.Entries.keys (areas.flatMap (areaEntries c S))).Sublist (areas.map (·.name)) := by
  induction areas with
  | nil => exact List.Sublist.refl _
  | cons area areas ih =>
    rw [List.flatMap_cons, Toml.Entries.keys, List.map_append]
    exact (keys_tableOf ..).append ih

theorem nodup_leaves_area (area : Area) :
    (Toml.Entries.keys (leaves c S area.settings)).Nodup :=
  (keys_leaves c S area.settings).nodup (by simp [Area.settings, Setting.name])

/-- The tables of some regions, one after the other. -/
theorem yields_areas {before inner : Entries} {form : Toml.Form} {areas : List Area}
    (hname : "timing" ∉ Toml.Entries.keys before)
    (hn : (Toml.Entries.keys inner ++ areas.map (·.name)).Nodup)
    (hform : form ≠ .closed) (hempty : inner = [] → form = .implied) :
    Yields (before ++ tableOf "timing" form inner)
      (areas.flatMap fun area => headed ["timing"] area.name (lines c S area.settings))
      (before ++ tableOf "timing" form (inner ++ areas.flatMap (areaEntries c S))) := by
  induction areas generalizing inner with
  | nil =>
    rw [List.flatMap_nil, List.flatMap_nil, List.append_nil]
    exact Yields.nil _
  | cons area areas ih =>
    have hkey : area.name ∉ Toml.Entries.keys inner := fun hm =>
      (List.nodup_append.1 hn).2.2 _ hm _ List.mem_cons_self rfl
    have hn' : (Toml.Entries.keys (inner ++ areaEntries c S area) ++ areas.map (·.name)).Nodup := by
      refine List.Sublist.nodup ?_ hn
      rw [Toml.Entries.keys, List.map_append, List.append_assoc]
      exact (List.Sublist.refl _).append ((keys_tableOf ..).append (List.Sublist.refl _))
    rw [List.flatMap_cons, List.flatMap_cons, ← List.append_assoc]
    refine Yields.append ((assigns_lines c S area.settings).yields_inner (nodup_leaves_area area)
      hname hkey hform hempty) (ih hn' fun h => hempty (List.append_eq_nil_iff.1 h).1)

theorem tableOf_timingForm (c : SessionConfig) (S : Setting → Bool) :
    tableOf "timing" .header (leaves c S [.instructionCycles]) =
      tableOf "timing" (timingForm c S) (leaves c S [.instructionCycles]) := by
  unfold tableOf timingForm
  split_ifs <;> rfl

theorem nodup_leaves_top (c : SessionConfig) (S : Setting → Bool) :
    (Toml.Entries.keys (leaves c S topSettings)).Nodup :=
  (keys_leaves c S topSettings).nodup (by decide)

/-- The settings that stand alone in their table. -/
theorem nodup_leaves_one (k : Setting) : (Toml.Entries.keys (leaves c S [k])).Nodup :=
  (keys_leaves c S [k]).nodup (List.nodup_singleton _)

theorem notMem_leaves_top (c : SessionConfig) (S : Setting → Bool) {key : String}
    (h : key ∉ topSettings.map (·.name)) :
    key ∉ Toml.Entries.keys (leaves c S topSettings) := fun hm =>
  h ((keys_leaves c S topSettings).subset hm)

theorem nodup_areas (c : SessionConfig) (S : Setting → Bool) :
    (Toml.Entries.keys (leaves c S [.instructionCycles]) ++ Area.all.map (·.name)).Nodup :=
  ((keys_leaves c S [.instructionCycles]).append (List.Sublist.refl _)).nodup (by decide)

/-- Carrying out the lines of a document makes its entries. -/
theorem parse?_document (hc : c.timing.InRange) (hf : c.Fits) (S : Setting → Bool) :
    Toml.Document.parse? (c.document S) = some (documentEntries c S) := by
  have htop : ((lines c S topSettings).map Line.statement).foldlM Toml.Document.execute? ([], []) =
      some ([], leaves c S topSettings) := by
    rw [assigns_lines c S topSettings]
    exact Focus.root.assign_all (by decide) (nodup_leaves_top c S)
  have htiming : Yields (leaves c S topSettings)
      (headed [] "timing" (lines c S [.instructionCycles])) _ :=
    (assigns_lines c S [.instructionCycles]).yields_headed (nodup_leaves_one _) Focus.root
      (notMem_leaves_top c S (by decide))
  rw [tableOf_timingForm] at htiming
  have hform : timingForm c S ≠ .closed := by
    unfold timingForm
    split_ifs <;> decide
  have hareas := yields_areas (c := c) (S := S) (notMem_leaves_top c S (by decide)) (nodup_areas c S)
    hform fun h => by rw [timingForm, h]; rfl
  have hkey : "dma" ∉ Toml.Entries.keys (leaves c S topSettings ++ tableOf "timing" (timingForm c S)
      (leaves c S [.instructionCycles] ++ Area.all.flatMap (areaEntries c S))) := by
    rw [Toml.Entries.keys, List.map_append, List.mem_append, not_or]
    refine ⟨notMem_leaves_top c S (by decide), fun hm => ?_⟩
    exact absurd (List.mem_singleton.1 ((keys_tableOf ..).subset hm)) (by decide)
  have hdma : Yields _ (headed [] "dma" (lines c S [.sliceGapCycles])) _ :=
    (assigns_lines c S [.sliceGapCycles]).yields_headed (nodup_leaves_one _) Focus.root hkey
  obtain ⟨header, hrest⟩ := ((htiming.append hareas).append hdma) []
  unfold Toml.Document.parse?
  rw [document, String.toList_ofList, Toml.Document.statements?_write (proper_documentLines hc hf),
    Option.bind_eq_bind, Option.bind_some, Toml.Document.ofStatements?]
  have hall : documentLines c S = lines c S topSettings ++
      (headed [] "timing" (lines c S [.instructionCycles]) ++
        Area.all.flatMap (fun area => headed ["timing"] area.name (lines c S area.settings)) ++
        headed [] "dma" (lines c S [.sliceGapCycles])) := by
    simp only [documentLines, List.append_assoc]
  rw [hall, List.map_append, List.foldlM_append, htop]
  exact congrArg (Option.map (·.2)) hrest

/-! ### What the document lists -/

theorem mem_leaves {ks : List Setting} {key : String} {v : Value} :
    (key, v) ∈ leaves c S ks ↔ ∃ k ∈ ks, S k = true ∧ k.value? c = some v ∧ k.name = key := by
  simp [leaves, List.mem_filterMap, List.mem_filter, and_assoc]

theorem mem_tableOf {key name : String} {form : Toml.Form} {entries : Entries} {v : Value} :
    (key, v) ∈ tableOf name form entries ↔
      entries ≠ [] ∧ key = name ∧ v = .table form entries := by
  cases entries <;> simp [tableOf]

/-- No setting has a table as its value. -/
theorem Setting.at?_value {k : Setting} {v : Value} (h : k.value? c = some v) (key : String)
    (path : List String) : v.at? (key :: path) = none := by
  cases k with
  | biosPath =>
    obtain ⟨s, -, rfl⟩ := Option.map_eq_some_iff.1 h
    rfl
  | _ =>
    cases h
    rfl

variable {entries entries' : Entries} {header : List String} {key name : String} {form : Toml.Form}
  {v : Value}

/-- Whatever some entries under a header have leads to a setting in `S`. -/
def Leads (c : SessionConfig) (S : Setting → Bool) (header : List String) (entries : Entries) :
    Prop :=
  ∀ path v, path ≠ [] → at? path entries = some v →
    ∃ k, S k = true ∧ (k.value? c).isSome = true ∧ header ++ path <+: k.path

namespace Leads

theorem leaves {ks : List Setting} (h : ∀ k ∈ ks, k.header = header) :
    Leads c S header (leaves c S ks) := by
  intro path v hpath hat
  obtain ⟨key, rest, rfl⟩ := List.exists_cons_of_ne_nil hpath
  obtain ⟨u, hu, hrest⟩ := Option.bind_eq_some_iff.1 hat
  obtain ⟨k, hk, hS, hvalue, rfl⟩ := mem_leaves.1 (Toml.Entries.mem_of_lookup hu)
  cases rest with
  | nil =>
    have hpath : header ++ [k.name] = k.path := by rw [Setting.path, h k hk]
    exact ⟨k, hS, by rw [hvalue]; rfl, hpath ▸ List.prefix_rfl⟩
  | cons key rest =>
    rw [Setting.at?_value hvalue] at hrest
    cases hrest

theorem append (h : Leads c S header entries) (h' : Leads c S header entries') :
    Leads c S header (entries ++ entries') := by
  intro path v hpath hat
  obtain ⟨key, rest, rfl⟩ := List.exists_cons_of_ne_nil hpath
  obtain ⟨u, hu, hrest⟩ := Option.bind_eq_some_iff.1 hat
  rw [List.lookup_append] at hu
  obtain hu | ⟨-, hu⟩ := Option.or_eq_some_iff.1 hu
  · exact h _ v hpath (Option.bind_eq_some_iff.2 ⟨u, hu, hrest⟩)
  · exact h' _ v hpath (Option.bind_eq_some_iff.2 ⟨u, hu, hrest⟩)

theorem flatMap {α : Type} {f : α → Entries} (h : ∀ a, Leads c S header (f a)) (as : List α) :
    Leads c S header (as.flatMap f) := by
  induction as with
  | nil =>
    intro path v hpath hat
    obtain ⟨key, rest, rfl⟩ := List.exists_cons_of_ne_nil hpath
    cases hat
  | cons a as ih => exact (h a).append ih

theorem tableOf (h : Leads c S (header ++ [name]) entries) (form : Toml.Form) :
    Leads c S header (tableOf name form entries) := by
  intro path v hpath hat
  obtain ⟨key, rest, rfl⟩ := List.exists_cons_of_ne_nil hpath
  obtain ⟨u, hu, hrest⟩ := Option.bind_eq_some_iff.1 hat
  obtain ⟨hne, rfl, rfl⟩ := mem_tableOf.1 (Toml.Entries.mem_of_lookup hu)
  cases rest with
  | nil =>
    -- the table is not empty, so that its first key leads on
    obtain ⟨⟨key', u'⟩, entries, rfl⟩ := List.exists_cons_of_ne_nil hne
    have hfirst : at? [key'] ((key', u') :: entries) = some u' := by
      simp [at?, Value.at?]
    obtain ⟨k, hS, hvalue, hprefix⟩ := h _ _ (by simp) hfirst
    exact ⟨k, hS, hvalue, (List.prefix_append _ _).trans hprefix⟩
  | cons key' rest =>
    obtain ⟨k, hS, hvalue, hprefix⟩ := h (key' :: rest) v (by simp) hrest
    refine ⟨k, hS, hvalue, ?_⟩
    rwa [List.append_assoc] at hprefix

end Leads

theorem leads_documentEntries (c : SessionConfig) (S : Setting → Bool) :
    Leads c S [] (documentEntries c S) := by
  have hareas : ∀ area, Leads c S ["timing"] (areaEntries c S area) := fun area =>
    Leads.tableOf (Leads.leaves (by simp [Area.settings, Setting.header])) _
  have htiming : Leads c S ["timing"]
      (leaves c S [.instructionCycles] ++ Area.all.flatMap (areaEntries c S)) :=
    (Leads.leaves (by simp [Setting.header])).append (Leads.flatMap hareas _)
  exact ((Leads.leaves (by simp [topSettings, Setting.header])).append
    (Leads.tableOf htiming _)).append (Leads.tableOf (Leads.leaves (by simp [Setting.header])) _)

theorem at?_cons (hn : (Toml.Entries.keys entries).Nodup) {u : Value} (hu : (key, u) ∈ entries)
    (path : List String) : at? (key :: path) entries = u.at? path := by
  rw [at?, Value.at?, (Toml.Entries.lookup_eq_some_iff hn).2 hu, Option.bind_some]

theorem nodup_timing (c : SessionConfig) (S : Setting → Bool) :
    (Toml.Entries.keys
      (leaves c S [.instructionCycles] ++ Area.all.flatMap (areaEntries c S))).Nodup := by
  rw [Toml.Entries.keys, List.map_append]
  exact ((keys_leaves c S [.instructionCycles]).append (keys_areas Area.all)).nodup (by decide)

theorem nodup_documentEntries (c : SessionConfig) (S : Setting → Bool) :
    (Toml.Entries.keys (documentEntries c S)).Nodup := by
  unfold documentEntries
  rw [Toml.Entries.keys, List.map_append, List.map_append]
  exact (((keys_leaves c S topSettings).append (keys_tableOf ..)).append (keys_tableOf ..)).nodup
    (by decide)

/-- Each setting in `S` is found at the end of its path. -/
theorem at?_documentEntries {k : Setting} (hS : S k = true) (hv : k.value? c = some v) :
    at? k.path (documentEntries c S) = some v := by
  have hleaf : ∀ {ks : List Setting}, k ∈ ks → (k.name, v) ∈ leaves c S ks := fun hk =>
    mem_leaves.2 ⟨k, hk, hS, hv, rfl⟩
  have htop : k ∈ topSettings → at? [k.name] (documentEntries c S) = some v := fun hk =>
    at?_cons (nodup_documentEntries c S)
      (List.mem_append_left _ (List.mem_append_left _ (hleaf hk))) []
  have htiming : ∀ {key : String} {u : Value} (path : List String),
      (key, u) ∈ leaves c S [.instructionCycles] ++ Area.all.flatMap (areaEntries c S) →
      at? ("timing" :: key :: path) (documentEntries c S) = u.at? path := by
    intro key u path hmem
    have htable := at?_cons (nodup_documentEntries c S) (List.mem_append_left _
      (List.mem_append_right _ (mem_tableOf.2 ⟨List.ne_nil_of_mem hmem, rfl, rfl⟩))) (key :: path)
    exact htable.trans (at?_cons (nodup_timing c S) hmem path)
  have harea : ∀ area : Area, k ∈ area.settings →
      at? ["timing", area.name, k.name] (documentEntries c S) = some v := by
    intro area hk
    have hmem : (area.name, Value.table .header (leaves c S area.settings)) ∈
        Area.all.flatMap (areaEntries c S) :=
      List.mem_flatMap.2 ⟨area, by cases area <;> decide,
        mem_tableOf.2 ⟨List.ne_nil_of_mem (hleaf hk), rfl, rfl⟩⟩
    exact (htiming _ (List.mem_append_right _ hmem)).trans
      (at?_cons (nodup_leaves_area area) (hleaf hk) [])
  cases k with
  | biosPath | video | openBusValue | gpuFifoCapacity => exact htop (by decide)
  | instructionCycles =>
    exact htiming [] (List.mem_append_left _ (hleaf List.mem_cons_self))
  | read area => exact harea area List.mem_cons_self
  | write area => exact harea area (List.mem_cons_of_mem _ List.mem_cons_self)
  | sliceGapCycles =>
    have hmem : (_, v) ∈ leaves c S [.sliceGapCycles] := hleaf List.mem_cons_self
    have htable := at?_cons (nodup_documentEntries c S) (List.mem_append_right _
      (mem_tableOf.2 ⟨List.ne_nil_of_mem hmem, rfl, rfl⟩)) ["slice_gap_cycles"]
    exact htable.trans (at?_cons (nodup_leaves_one _) hmem [])

theorem lists_documentEntries (c : SessionConfig) (S : Setting → Bool) :
    Lists c S (documentEntries c S) := by
  refine ⟨fun k hS => ?_, leads_documentEntries c S⟩
  cases hv : k.value? c with
  | some v => exact at?_documentEntries hS hv
  | none =>
    by_contra hne
    obtain ⟨v, hat⟩ := Option.ne_none_iff_exists'.1 hne
    obtain ⟨k', -, hsome, hprefix⟩ := leads_documentEntries c S _ v (by simp [Setting.path]) hat
    rw [← Setting.eq_of_prefix hprefix, hv] at hsome
    cases hsome

/-! ### Documents and configurations -/

/-- A document that lists the settings in `S`, each with its value in `c`, and nothing else. -/
def Describes (text : String) (S : Setting → Bool) (c : SessionConfig) : Prop :=
  ∃ root, Toml.Document.parse? text = some root ∧ Lists c S root

theorem describes_document (hc : c.timing.InRange) (hf : c.Fits) (S : Setting → Bool) :
    Describes (c.document S) S c :=
  ⟨_, parse?_document hc hf S, lists_documentEntries c S⟩

theorem ofToml_of_describes {text : String} (h : Describes text S c) (hc : c.timing.InRange)
    (hf : c.Fits) :
    ofToml text = if Paired S then .ok (c.restrict S) else .error notDescribed := by
  obtain ⟨root, hroot, hlists⟩ := h
  unfold ofToml ofToml?
  rw [hroot, Option.bind_eq_bind, Option.bind_some, ofEntries?_of_lists hlists hc hf]
  split_ifs <;> rfl

theorem restrict_all (c : SessionConfig) : c.restrict (fun _ => true) = c := rfl

/-- A configuration that is written out is read back as it was. -/
theorem ofToml_toToml (hc : c.timing.InRange) (hf : c.Fits) : ofToml c.toToml = .ok c := by
  have h := ofToml_of_describes (describes_document hc hf fun _ => true) hc hf
  have hpaired : Paired fun _ => true := fun _ => rfl
  rw [document_all, if_pos hpaired, restrict_all] at h
  exact h

/-- A path in which there are quotes of both kinds, backslashes, controls and ends of lines. -/
theorem ofToml_toToml_path :
    let c : SessionConfig := {
      biosPath := some "\"\"\"a\\b\x01\n\r\n\x27\x27\x27c\t\x7f"
      gpuFifoCapacity := 2 ^ 64 - 1 }
    c.timing.InRange ∧ c.Fits ∧ ofToml c.toToml = .ok c := by
  intro c
  have hc : c.timing.InRange := by decide
  have hf : c.Fits := by decide
  exact ⟨hc, hf, ofToml_toToml hc hf⟩

/-- A capacity past all integers of 64 bits with a sign is written into the document, and read
again. -/
theorem toToml_large :
    let c : SessionConfig := { gpuFifoCapacity := 2 ^ 63 }
    Setting.gpuFifoCapacity.value? c = some (.integer 9223372036854775808) ∧
      Describes c.toToml (fun _ => true) c ∧ ofToml c.toToml = .ok c := by
  intro c
  have hc : c.timing.InRange := by decide
  have hf : c.Fits := by decide
  have hdescribes : Describes c.toToml (fun _ => true) c :=
    document_all c ▸ describes_document hc hf _
  have hread := ofToml_of_describes hdescribes hc hf
  rw [restrict_all] at hread
  exact ⟨rfl, hdescribes, hread.trans (if_pos fun _ => rfl)⟩

/-- The document that lists some settings of a configuration is accepted, as is any other document
that does, and then describes the configuration that has these settings and all others as usual;
unless it gives one cost of a region without the other, for then it is refused. -/
theorem ofToml_listing (hc : c.timing.InRange) (hf : c.Fits) (S : Setting → Bool) :
    Describes (c.document S) S c ∧ ∀ text, Describes text S c →
      ofToml text = if Paired S then .ok (c.restrict S) else .error notDescribed :=
  ⟨describes_document hc hf S, fun _ h => ofToml_of_describes h hc hf⟩

/-- A document that changes nothing but what a load from RAM costs. -/
theorem ofToml_listing_read :
    let c : SessionConfig := { timing.ram := ⟨5, 1⟩ }
    let S : Setting → Bool := fun k => k = .read .ram
    Describes (c.document S) S c ∧ ¬Paired S ∧
      ofToml (c.document S) = .error notDescribed ∧ c.restrict S = c := by
  intro c S
  have hc : c.timing.InRange := by decide
  have hf : c.Fits := by decide
  have hdescribes := describes_document hc hf S
  have hpaired : ¬Paired S := by decide
  exact ⟨hdescribes, hpaired, (ofToml_of_describes hdescribes hc hf).trans (if_neg hpaired), rfl⟩

/-- A document that changes the video standard and both costs of the boot image. -/
theorem ofToml_listing_pal :
    let c : SessionConfig := { video := .pal, timing.bios := ⟨24, 0⟩ }
    let S : Setting → Bool := fun k => k ∈ [.video, .read .bios, .write .bios]
    c.timing.InRange ∧ c.Fits ∧ Paired S ∧ ofToml (c.document S) = .ok c := by
  intro c S
  have hc : c.timing.InRange := by decide
  have hf : c.Fits := by decide
  have hpaired : Paired S := by decide
  obtain ⟨hdescribes, hread⟩ := ofToml_listing hc hf S
  exact ⟨hc, hf, hpaired, (hread _ hdescribes).trans (if_pos hpaired)⟩

end SessionConfig

end Psx
