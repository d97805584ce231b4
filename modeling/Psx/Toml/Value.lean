/-!
# Tables of configuration documents

A document is a table of values. How a table came about decides who may add to it later: a header
may complete a table that was only implied by deeper headers, a dotted key may add to tables made by
dotted keys, and inline tables and static arrays are closed. `Entries.within` walks a path of keys,
making the tables that are missing, and `Entries.assign`, `Entries.openTable` and
`Entries.openElement` are the three things a document can do at the end of a path.
-/

namespace Psx.Toml

inductive Form where
  /-- Written between braces. -/
  | closed
  /-- Opened by a header of its own. -/
  | header
  /-- Implied by the header of a table inside it. -/
  | implied
  /-- Made by a dotted key. -/
  | dotted
deriving DecidableEq, Repr

/-- A value. Floating-point numbers and dates are checked for their form and not kept, because no
setting has such a value. -/
inductive Value where
  | string (s : String)
  | integer (n : Int)
  | float
  /-- A number without digits, with a wrong digit, or past what any type holds. A document may have
  one where nobody looks at it. -/
  | unreadable
  | boolean (b : Bool)
  | datetime
  | array (elements : List Value)
  | table (form : Form) (entries : List (String × Value))
  /-- An array that headers in double brackets add tables to. -/
  | tables (elements : List (List (String × Value)))

/-- The keys of a table with their values, in the order in which they were added. -/
abbrev Entries := List (String × Value)

mutual

/-- All numbers in a value can be read. -/
def Value.isReadable : Value → Bool
  | .unreadable => false
  | .array elements => Value.areReadable elements
  | .table _ entries => Entries.isReadable entries
  | .tables elements => Entries.areReadable elements
  | _ => true

def Value.areReadable : List Value → Bool
  | [] => true
  | v :: rest => v.isReadable && Value.areReadable rest

def Entries.isReadable : List (String × Value) → Bool
  | [] => true
  | (_, v) :: rest => v.isReadable && Entries.isReadable rest

def Entries.areReadable : List (List (String × Value)) → Bool
  | [] => true
  | entries :: rest => Entries.isReadable entries && Entries.areReadable rest

end

namespace Entries

/-- Changes the value of a key, or adds one; `f` is given the present value. -/
def alter (key : String) (f : Option Value → Option Value) : Entries → Option Entries
  | [] => (f none).map fun v => [(key, v)]
  | (k, v) :: rest =>
    if k = key then (f (some v)).map fun v => (k, v) :: rest
    else (alter key f rest).map ((k, v) :: ·)

def alterLast (f : Entries → Option Entries) : List Entries → Option (List Entries)
  | [] => none
  | [last] => (f last).map ([·])
  | first :: rest => (alterLast f rest).map (first :: ·)

/-- Changes the table at the end of a path, given its form and its entries; tables on the way that
are missing get a form. A path goes through the last table of an array of tables. A dotted key does
not go through a table that has a header of its own. -/
def within (missing : Form) (f : Form → Entries → Option Entries) :
    List String → Form → Entries → Option Entries
  | [], form, entries => f form entries
  | key :: path, _, entries =>
    alter key (fun
      | none => (within missing f path missing []).map (.table missing)
      | some (.table .closed _) => none
      | some (.table form inner) =>
        if missing = .dotted ∧ form = .header then none
        else (within missing f path form inner).map (.table form)
      | some (.tables elements) =>
        (alterLast (within missing f path .header) elements).map .tables
      | some _ => none) entries

/-- Adds a key that is not there yet. -/
def add (key : String) (v : Value) : Entries → Option Entries :=
  alter key fun
    | none => some v
    | some _ => none

/-- Gives a value to a key in the table at the end of a path of dotted keys. A table that was made
otherwise than by dotted keys cannot be added to in this way, nor one made by them in another. -/
def assign (path : List String) (key : String) (v : Value) : Form → Entries → Option Entries :=
  within .dotted
    (fun form entries => if (form = .dotted) ↔ path = [] then none else add key v entries) path

/-- Opens the table of a header. It must be new or have been implied only. -/
def openTable (path : List String) (key : String) (root : Entries) : Option Entries :=
  within .implied
    (fun _ entries => alter key (fun
      | none => some (.table .header [])
      | some (.table .implied inner) => some (.table .header inner)
      | some _ => none) entries)
    path .header root

/-- Opens the next table of an array of tables. -/
def openElement (path : List String) (key : String) (root : Entries) : Option Entries :=
  within .implied
    (fun _ entries => alter key (fun
      | none => some (.tables [[]])
      | some (.tables elements) => some (.tables (elements ++ [[]]))
      | some _ => none) entries)
    path .header root

/-- Gives a value to a dotted key under the table of a header. -/
def assignUnder (header path : List String) (key : String) (v : Value) (root : Entries) :
    Option Entries :=
  within .implied (fun form entries => assign path key v form entries) header .header root

end Entries

end Psx.Toml
