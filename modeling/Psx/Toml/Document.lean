import Psx.Toml.Quoted

/-!
# Configuration documents

A document is a sequence of statements, one to a line: a header opens a table, a header in double
brackets the next table of an array, and an assignment gives a key of the open table a value.
`Document.statements?` reads them and `Document.ofStatements?` carries them out. A document with one
wrong statement is refused as a whole.
-/

namespace Psx.Toml

/-- One line of a document. A path is given as its last key and those before it. -/
inductive Statement where
  | table (path : List String) (key : String)
  | element (path : List String) (key : String)
  | assignment (path : List String) (key : String) (value : Value)

namespace Document

/-! ### Blanks and comments -/

def skipBlanks (s : List Char) : List Char := s.dropWhile Quoted.isBlank

/-- The text behind a comment, if there is one; it ends with its line. -/
def skipComment? : List Char → Option (List Char)
  | '#' :: rest =>
    let rest := rest.dropWhile Quoted.isPlain
    if rest.isEmpty || Quoted.atNewline rest then some rest else none
  | rest => some rest

/-- The text behind a line that has nothing more to say. -/
def endLine? (s : List Char) : Option (List Char) := do
  let rest ← skipComment? (skipBlanks s)
  guard (rest.isEmpty || Quoted.atNewline rest)
  pure (Quoted.dropNewline rest)

/-- The text behind blanks, ends of lines and comments. The flag says whether it begins in one of the
latter. -/
def skipFrom? : Bool → List Char → Option (List Char)
  | _, [] => some []
  | _, '\n' :: rest => skipFrom? false rest
  | _, '\r' :: '\n' :: rest => skipFrom? false rest
  | true, c :: rest => if Quoted.isPlain c then skipFrom? true rest else none
  | false, '#' :: rest => skipFrom? true rest
  | false, c :: rest => if Quoted.isBlank c then skipFrom? false rest else some (c :: rest)

def skipSpace? (s : List Char) : Option (List Char) := skipFrom? false s

/-! ### Keys -/

def isBareKeyChar (c : Char) : Bool :=
  Scalar.isDigit c || ('a' ≤ c && c ≤ 'z') || ('A' ≤ c && c ≤ 'Z') || c = '-' || c = '_'

/-- A key is bare or quoted on one line. -/
def key? (s : List Char) : Option (String × List Char) :=
  let bare := s.takeWhile isBareKeyChar
  if bare.isEmpty then (Quoted.single? s).map fun (key, rest) => (String.ofList key, rest)
  else some (String.ofList bare, s.drop bare.length)

/-- At most so many keys with dots between them, as the last and those before it. -/
def dotted? : Nat → List Char → Option (List String × String × List Char)
  | 0, _ => none
  | n + 1, s => do
    let (first, rest) ← key? (skipBlanks s)
    match skipBlanks rest with
    | '.' :: rest => do
      let (path, last, rest) ← dotted? n rest
      pure (first :: path, last, rest)
    | rest => pure ([], first, rest)

/-- How deep tables and arrays may be nested, by brackets or by the parts of a key. -/
def maxDepth : Nat := 80

/-- A key with its parts, of which there may be `maxDepth`. -/
def keys? (s : List Char) : Option (List String × String × List Char) := dotted? maxDepth s

/-! ### Values -/

/-- Characters that end a scalar without quotes. -/
def endsScalar (c : Char) : Bool := ['\r', '\n', '#', '=', ',', '[', ']', '{', '}'].contains c

def atQuote (s : List Char) : Bool := s.head? = some '"' || s.head? = some '\''

/-- The text of a scalar without quotes. Blanks belong to it where another word follows them. -/
def scalarText : List Char → List Char
  | [] => []
  | c :: rest =>
    if endsScalar c then []
    else if Quoted.isBlank c then
      match scalarText rest with
      | [] => []
      | text => if atQuote rest then [] else c :: text
    else c :: scalarText rest

def scalar? (s : List Char) : Option (Value × List Char) :=
  let word := scalarText s
  (Scalar.decode? word).map fun v => (v, s.drop word.length)

mutual

/-- Reads a value. Arrays and inline tables may be nested `depth` deep. -/
def value? (depth : Nat) : Nat → List Char → Option (Value × List Char)
  | 0, _ => none
  | fuel + 1, s =>
    match s, depth with
    | '[' :: rest, depth + 1 => do
      let (elements, rest) ← elements? depth fuel (← skipSpace? rest)
      pure (.array elements, rest)
    | '{' :: rest, depth + 1 => do
      let (entries, rest) ← members? depth fuel [] (← skipSpace? rest)
      pure (.table .closed entries, rest)
    | '[' :: _, 0 | '{' :: _, 0 => none
    | s, _ =>
      if atQuote s then
        (Quoted.read? s).map fun (text, rest) => (.string (String.ofList text), rest)
      else scalar? s

/-- Reads the elements of an array to its closing bracket. A comma may follow the last. -/
def elements? (depth : Nat) : Nat → List Char → Option (List Value × List Char)
  | 0, _ => none
  | _, ']' :: rest => some ([], rest)
  | fuel + 1, s => do
    let (v, rest) ← value? depth fuel s
    match ← skipSpace? rest with
    | ']' :: rest => pure ([v], rest)
    | ',' :: rest =>
      let (vs, rest) ← elements? depth fuel (← skipSpace? rest)
      pure (v :: vs, rest)
    | _ => none

/-- Reads the assignments of an inline table to its closing brace, into the entries so far. They may
be written over several lines, and a comma may follow the last. -/
def members? (depth : Nat) : Nat → Entries → List Char → Option (Entries × List Char)
  | 0, _, _ => none
  | _, entries, '}' :: rest => some (entries, rest)
  | fuel + 1, entries, s => do
    let (path, key, rest) ← keys? s
    match ← skipSpace? rest with
    | '=' :: rest =>
      let (v, rest) ← value? depth fuel (← skipSpace? rest)
      let entries ← Entries.assign path key v .closed entries
      match ← skipSpace? rest with
      | '}' :: rest => pure (entries, rest)
      | ',' :: rest => members? depth fuel entries (← skipSpace? rest)
      | _ => none
    | _ => none

end

/-! ### Statements -/

/-- Reads a statement up to the end of its line; `fuel` bounds the steps to read its value. -/
def statement? (fuel : Nat) : List Char → Option (Statement × List Char)
  | '[' :: '[' :: rest => do
    let (path, key, rest) ← keys? rest
    match rest with
    | ']' :: ']' :: rest => pure (.element path key, rest)
    | _ => none
  | '[' :: rest => do
    let (path, key, rest) ← keys? rest
    match rest with
    | ']' :: rest => pure (.table path key, rest)
    | _ => none
  | s => do
    let (path, key, rest) ← keys? s
    match rest with
    | '=' :: rest =>
      let (v, rest) ← value? maxDepth fuel (skipBlanks rest)
      pure (.assignment path key v, rest)
    | _ => none

/-- Reads the statements of a document; `fuel` bounds their number and the steps to read a value. -/
def statementsFrom? : Nat → List Char → Option (List Statement)
  | 0, _ => some []
  | fuel + 1, s => do
    match ← skipSpace? s with
    | [] => pure []
    | s =>
      let (first, rest) ← statement? fuel s
      let others ← statementsFrom? fuel (← endLine? rest)
      pure (first :: others)

/-- The text without the mark that may stand in front of it to show its encoding. -/
def dropMark : List Char → List Char
  | '\ufeff' :: rest => rest
  | rest => rest

/-- A step reads a character or goes one level deeper, which takes a bracket. -/
def statements? (s : List Char) : Option (List Statement) :=
  statementsFrom? (2 * s.length + 2) (dropMark s)

/-- Carries out one statement on the header that is open and the entries of the document. -/
def execute? : List String × Entries → Statement → Option (List String × Entries)
  | (_, root), .table path key => (Entries.openTable path key root).map (path ++ [key], ·)
  | (_, root), .element path key => (Entries.openElement path key root).map (path ++ [key], ·)
  | (header, root), .assignment path key v =>
    (Entries.assignUnder header path key v root).map (header, ·)

def ofStatements? (statements : List Statement) : Option Entries :=
  (statements.foldlM execute? ([], [])).map (·.2)

/-- The entries of a document. -/
def parse? (text : String) : Option Entries := do
  ofStatements? (← statements? text.toList)

end Document

end Psx.Toml
