import Psx.Toml.Scalar

/-!
# Quoted strings

Four ways to write a string: between double quotes with escapes or single quotes without, each on
one line or, tripled, over several. A reader is given the text after the opening quotes and answers
with the string and the text after the closing ones; `write` chooses the plainest way in which a
string can be written and needs escapes only when no way without does.
-/

namespace Psx.Toml.Quoted

/-- Characters that may stand for themselves: all but controls, of which only the tab may. -/
def isPlain (c : Char) : Bool := c = '\t' || (' ' ≤ c && c ≠ '\x7f')

/-- The character of a code point given by hexadecimal digits, if it is one. -/
def codePoint? (digits : List Char) : Option Char :=
  let n := Scalar.number 16 digits
  if digits.all Scalar.isHexDigit && n.isValidChar then some (Char.ofNat n) else none

/-- The character that an escape of one letter stands for. -/
def escape? : Char → Option Char
  | 'b' => some '\x08'
  | 't' => some '\t'
  | 'n' => some '\n'
  | 'f' => some '\x0c'
  | 'r' => some '\r'
  | 'e' => some '\x1b'
  | '"' => some '"'
  | '\\' => some '\\'
  | _ => none

/-- A character in front of a string that was read. -/
def prepend (c : Option Char) (rest : Option (List Char × List Char)) :
    Option (List Char × List Char) := do
  let c ← c
  let (s, rest) ← rest
  pure (c :: s, rest)

/-! ### Reading -/

def basic? : List Char → Option (List Char × List Char)
  | [] => none
  | '"' :: rest => some ([], rest)
  | '\\' :: 'x' :: a :: b :: rest => prepend (codePoint? [a, b]) (basic? rest)
  | '\\' :: 'u' :: a :: b :: c :: d :: rest => prepend (codePoint? [a, b, c, d]) (basic? rest)
  | '\\' :: 'U' :: a :: b :: c :: d :: e :: f :: g :: h :: rest =>
    prepend (codePoint? [a, b, c, d, e, f, g, h]) (basic? rest)
  | '\\' :: c :: rest => prepend (escape? c) (basic? rest)
  | c :: rest => if isPlain c then prepend (some c) (basic? rest) else none

def literal? : List Char → Option (List Char × List Char)
  | [] => none
  | '\'' :: rest => some ([], rest)
  | c :: rest => if isPlain c then prepend (some c) (literal? rest) else none

def isBlank (c : Char) : Bool := c = ' ' || c = '\t'

def atNewline : List Char → Bool
  | '\n' :: _ => true
  | '\r' :: '\n' :: _ => true
  | _ => false

def dropNewline : List Char → List Char
  | '\n' :: rest => rest
  | '\r' :: '\n' :: rest => rest
  | rest => rest

/-- Reads over several lines. Up to two quotes may stand before the closing ones. While `skipping`,
blanks and ends of lines are passed over, as after a backslash at the end of a line. -/
def multiBasic? : Bool → List Char → Option (List Char × List Char)
  | _, [] => none
  | _, '"' :: '"' :: '"' :: '"' :: '"' :: rest => some (['"', '"'], rest)
  | _, '"' :: '"' :: '"' :: '"' :: rest => some (['"'], rest)
  | _, '"' :: '"' :: '"' :: rest => some ([], rest)
  | _, '\\' :: 'x' :: a :: b :: rest => prepend (codePoint? [a, b]) (multiBasic? false rest)
  | _, '\\' :: 'u' :: a :: b :: c :: d :: rest =>
    prepend (codePoint? [a, b, c, d]) (multiBasic? false rest)
  | _, '\\' :: 'U' :: a :: b :: c :: d :: e :: f :: g :: h :: rest =>
    prepend (codePoint? [a, b, c, d, e, f, g, h]) (multiBasic? false rest)
  | _, '\\' :: c :: rest =>
    if atNewline ((c :: rest).dropWhile isBlank) then multiBasic? true (c :: rest)
    else prepend (escape? c) (multiBasic? false rest)
  | skipping, '\r' :: '\n' :: rest =>
    if skipping then multiBasic? true rest
    else prepend (some '\r') (prepend (some '\n') (multiBasic? false rest))
  | skipping, c :: rest =>
    if skipping && (isBlank c || c = '\n') then multiBasic? true rest
    else if isPlain c || c = '\n' then prepend (some c) (multiBasic? false rest)
    else none

def multiLiteral? : List Char → Option (List Char × List Char)
  | [] => none
  | '\'' :: '\'' :: '\'' :: '\'' :: '\'' :: rest => some (['\'', '\''], rest)
  | '\'' :: '\'' :: '\'' :: '\'' :: rest => some (['\''], rest)
  | '\'' :: '\'' :: '\'' :: rest => some ([], rest)
  | '\r' :: '\n' :: rest => prepend (some '\r') (prepend (some '\n') (multiLiteral? rest))
  | c :: rest =>
    if isPlain c || c = '\n' then prepend (some c) (multiLiteral? rest) else none

def single? : List Char → Option (List Char × List Char)
  | '"' :: rest => basic? rest
  | '\'' :: rest => literal? rest
  | _ => none

/-- Reads a quoted string. An end of line right after tripled quotes is no part of it. -/
def read? : List Char → Option (List Char × List Char)
  | '"' :: '"' :: '"' :: rest => multiBasic? false (dropNewline rest)
  | '\'' :: '\'' :: '\'' :: rest => multiLiteral? (dropNewline rest)
  | s => single? s

/-! ### Writing -/

/-- The length of the longest run of a character; `run` is that of the one at hand. -/
def longestRun (c : Char) : Nat → List Char → Nat
  | run, [] => run
  | run, d :: rest =>
    if d = c then longestRun c (run + 1) rest else max run (longestRun c 0 rest)

/-- Controls that cannot stand for themselves in any way of writing. -/
def isControl (c : Char) : Bool := (c < ' ' && c ≠ '\t' && c ≠ '\n') || c = '\x7f'

def controlText (c : Char) : List Char :=
  ['\\', 'u', '0', '0', if c.toNat / 16 = 0 then '0' else if c.toNat / 16 = 1 then '1' else '7',
    Char.ofNat (if c.toNat % 16 < 10 then 0x30 + c.toNat % 16 else 0x37 + c.toNat % 16)]

/-- A character between double quotes. Of a run of quotes, those past the first `quotes` are
escaped; `run` is the length of the run at hand. -/
def escapeFrom (multi : Bool) (quotes : Nat) : Nat → List Char → List Char
  | _, [] => []
  | run, '"' :: rest =>
    if run < quotes then '"' :: escapeFrom multi quotes (run + 1) rest
    else '\\' :: '"' :: escapeFrom multi quotes 0 rest
  | _, '\\' :: rest => '\\' :: '\\' :: escapeFrom multi quotes 0 rest
  | _, '\x08' :: rest => '\\' :: 'b' :: escapeFrom multi quotes 0 rest
  | _, '\t' :: rest => '\\' :: 't' :: escapeFrom multi quotes 0 rest
  | _, '\n' :: rest =>
    if multi then '\n' :: escapeFrom multi quotes 0 rest
    else '\\' :: 'n' :: escapeFrom multi quotes 0 rest
  | _, '\x0c' :: rest => '\\' :: 'f' :: escapeFrom multi quotes 0 rest
  | _, '\r' :: rest => '\\' :: 'r' :: escapeFrom multi quotes 0 rest
  | _, c :: rest =>
    if isControl c then controlText c ++ escapeFrom multi quotes 0 rest
    else c :: escapeFrom multi quotes 0 rest

inductive Style where
  | basic
  | literal
  | multiBasic
  | multiLiteral
deriving DecidableEq, Repr

/-- The plainest way: without escapes if that is possible, on one line if that is. -/
def style (s : List Char) : Style :=
  let controls := s.any isControl
  let backslash := s.contains '\\'
  let newline := s.contains '\n'
  let double := longestRun '"' 0 s
  let single := longestRun '\'' 0 s
  if !controls && !backslash && double = 0 && !newline then .basic
  else if !controls && single = 0 && !newline then .literal
  else if !controls && !backslash && double ≤ 2 then .multiBasic
  else if !controls && single ≤ 2 then .multiLiteral
  else if newline then .multiBasic
  else .basic

/-- An end of line after tripled quotes, if the string has one itself. -/
def opening (s : List Char) : List Char := if s.contains '\n' then ['\n'] else []

def write (s : List Char) : List Char :=
  match style s with
  | .basic => ['"'] ++ escapeFrom false 0 0 s ++ ['"']
  | .literal => ['\''] ++ s ++ ['\'']
  | .multiBasic => ['"', '"', '"'] ++ opening s ++ escapeFrom true 2 0 s ++ ['"', '"', '"']
  | .multiLiteral => ['\'', '\'', '\''] ++ opening s ++ s ++ ['\'', '\'', '\'']

end Psx.Toml.Quoted
