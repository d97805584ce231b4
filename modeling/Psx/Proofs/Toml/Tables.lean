import Mathlib.Data.List.Nodup
import Psx.Toml.Document

/-!
# Tables of a document

`Toml.Value.at?` is what a document has at the end of a path of keys, however its tables came about.
What a statement does is told here for the entries of the table that the document is at
(`Toml.Entries.Focus`): an assignment adds its key behind them, and a header adds a table, in either
case if the key is not there yet.
-/

namespace Psx.Toml

/-- The value at the end of a path of keys. -/
def Value.at? : List String → Value → Option Value
  | [], v => some v
  | key :: path, .table _ entries => (entries.lookup key).bind (at? path)
  | _ :: _, _ => none

theorem Value.at?_append (path path' : List String) (v : Value) :
    v.at? (path ++ path') = (v.at? path).bind (at? path') := by
  induction path generalizing v with
  | nil => rfl
  | cons key path ih =>
    cases v with
    | table form entries =>
      rw [List.cons_append, at?, at?, Option.bind_assoc]
      exact congrArg _ (funext ih)
    | _ => rfl

namespace Entries

variable {key : String} {entries before inner : Entries}

/-- The keys of a table. -/
def keys (entries : Entries) : List String := entries.map (·.1)

theorem lookup_eq_some_iff (h : (keys entries).Nodup) {v : Value} :
    entries.lookup key = some v ↔ (key, v) ∈ entries := by
  induction entries with
  | nil => simp
  | cons e entries ih =>
    obtain ⟨k, u⟩ := e
    obtain ⟨hk, hn⟩ := List.nodup_cons.1 h
    rw [List.lookup_cons, List.mem_cons]
    by_cases hkey : key = k
    · subst hkey
      have hmem : (key, v) ∉ entries := fun hm => hk (List.mem_map_of_mem (f := (·.1)) hm)
      simp [hmem, eq_comm]
    · have hne : (key, v) ≠ (k, u) := fun he => hkey (congrArg Prod.fst he)
      rw [beq_false_of_ne hkey]
      simp [hne, ih hn]

theorem mem_of_lookup {v : Value} (h : entries.lookup key = some v) : (key, v) ∈ entries := by
  induction entries with
  | nil => cases h
  | cons e entries ih =>
    obtain ⟨k, u⟩ := e
    rw [List.lookup_cons] at h
    split at h
    · next hk =>
      cases h
      rw [beq_iff_eq.1 hk]
      exact List.mem_cons_self
    · exact List.mem_cons_of_mem _ (ih h)

theorem lookup_isSome_of_mem {v : Value} (h : (key, v) ∈ entries) :
    (entries.lookup key).isSome = true := by
  induction entries with
  | nil => cases h
  | cons e entries ih =>
    obtain ⟨k, u⟩ := e
    rw [List.lookup_cons]
    split
    · rfl
    · next hk =>
      rcases List.mem_cons.1 h with h | h
      · cases h
        simp at hk
      · exact ih h

/-! ### Changes -/

theorem alter_of_notMem (h : key ∉ keys entries) (f : Option Value → Option Value) :
    alter key f entries = (f none).map fun v => entries ++ [(key, v)] := by
  induction entries with
  | nil => rfl
  | cons e entries ih =>
    obtain ⟨k, u⟩ := e
    rw [keys, List.map_cons, List.mem_cons, not_or] at h
    rw [alter, if_neg (Ne.symm h.1), ih h.2, Option.map_map]
    rfl

theorem alter_last (h : key ∉ keys before) (v : Value) (f : Option Value → Option Value) :
    alter key f (before ++ [(key, v)]) = (f (some v)).map fun v => before ++ [(key, v)] := by
  induction before with
  | nil => exact if_pos rfl
  | cons e before ih =>
    obtain ⟨k, u⟩ := e
    rw [keys, List.map_cons, List.mem_cons, not_or] at h
    rw [List.cons_append, alter, if_neg (Ne.symm h.1), ih h.2, Option.map_map]
    rfl

theorem within_append (missing : Form) (f : Form → Entries → Option Entries)
    (path path' : List String) (form : Form) (entries : Entries) :
    within missing f (path ++ path') form entries =
      within missing (within missing f path') path form entries := by
  induction path generalizing form entries with
  | nil => rfl
  | cons key path ih =>
    have hpath : within missing f (path ++ path') = within missing (within missing f path') path :=
      funext fun form => funext fun entries => ih form entries
    simp only [List.cons_append, within, hpath]

/-- The header leads to a table with a form, around whose entries the document has the rest. -/
structure Focus (header : List String) (form : Form) (around : Entries → Entries) : Prop where
  within : ∀ f inner, Entries.within .implied f header .header (around inner) =
    (f form inner).map around

variable {header : List String} {form form' : Form} {around : Entries → Entries}

theorem Focus.root : Focus [] .header id := ⟨fun f inner => by simp [Entries.within]⟩

namespace Focus

theorem last (h : Focus header form around) (hkey : key ∉ keys before) (hform : form' ≠ .closed) :
    Focus (header ++ [key]) form' fun inner => around (before ++ [(key, .table form' inner)]) := by
  refine ⟨fun f inner => ?_⟩
  rw [within_append, h.within, Entries.within, alter_last hkey]
  cases form' with
  | closed => exact absurd rfl hform
  | header | implied | dotted =>
    simp only [Entries.within, Option.map_map]
    cases f _ inner <;> rfl

theorem assign (h : Focus header form around) (hform : form ≠ .dotted) (hkey : key ∉ keys inner)
    (v : Value) :
    assignUnder header [] key v (around inner) = some (around (inner ++ [(key, v)])) := by
  unfold assignUnder
  rw [h.within]
  simp [Entries.assign, Entries.within, hform, add, alter_of_notMem hkey]

theorem openTable (h : Focus header form around) (hkey : key ∉ keys inner) :
    Entries.openTable header key (around inner) =
      some (around (inner ++ [(key, .table .header [])])) := by
  unfold Entries.openTable
  rw [h.within, alter_of_notMem hkey]
  rfl

/-- Also the table around the one that a header opens may be missing. -/
theorem openTable_implied (h : Focus header form around) {name : String}
    (hname : name ∉ keys inner) (key : String) :
    Entries.openTable (header ++ [name]) key (around inner) =
      some (around (inner ++ [(name, .table .implied [(key, .table .header [])])])) := by
  unfold Entries.openTable
  rw [within_append, h.within, Entries.within, alter_of_notMem hname]
  rfl

/-- What assignments under one header add. -/
theorem assign_all (h : Focus header form around) (hform : form ≠ .dotted) {added : Entries}
    (hkeys : (keys (inner ++ added)).Nodup) :
    (added.map fun (key, v) => Statement.assignment [] key v).foldlM Document.execute?
        (header, around inner) =
      some (header, around (inner ++ added)) := by
  induction added generalizing inner with
  | nil => simp
  | cons e added ih =>
    obtain ⟨key, v⟩ := e
    have hkey : key ∉ keys inner := by
      rw [keys, List.map_append, List.map_cons] at hkeys
      exact fun hm => (List.nodup_append.1 hkeys).2.2 _ hm _ List.mem_cons_self rfl
    have hsplit : inner ++ (key, v) :: added = inner ++ [(key, v)] ++ added := by simp
    rw [List.map_cons, List.foldlM_cons, Document.execute?, h.assign hform hkey]
    rw [hsplit] at hkeys ⊢
    exact ih hkeys

end Focus

end Entries

end Psx.Toml
