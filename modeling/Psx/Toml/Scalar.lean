import Psx.Toml.Value

/-!
# Numbers, dates and truth values

Scalars that are not quoted. What kind of scalar a text is shows in its first characters, and a text
that shows none is refused, as is a date that does not exist. A text that shows a number but does
not make one that some type holds, such as an integer of more than 128 bits or a floating-point
number past the largest, is an unreadable number.
-/

namespace Psx.Toml.Scalar

def isDigit (c : Char) : Bool := '0' ≤ c && c ≤ '9'

def isHexDigit (c : Char) : Bool :=
  isDigit c || ('a' ≤ c && c ≤ 'f') || ('A' ≤ c && c ≤ 'F')

def isOctalDigit (c : Char) : Bool := '0' ≤ c && c ≤ '7'

def isBinaryDigit (c : Char) : Bool := c = '0' || c = '1'

def digitValue (c : Char) : Nat :=
  if isDigit c then c.toNat - 0x30
  else if 'a' ≤ c then c.toNat - 0x57
  else c.toNat - 0x37

def number (base : Nat) (digits : List Char) : Nat :=
  digits.foldl (fun n c => n * base + digitValue c) 0

/-! ### Underscores and signs -/

/-- Every underscore in the rest of a number stands between two digits. The flag says whether the
rest itself stands behind one. -/
def areBetween (digit : Char → Bool) : Bool → List Char → Bool
  | _, [] => true
  | behindDigit, '_' :: rest =>
    behindDigit && rest.head?.any digit && areBetween digit false rest
  | _, c :: rest => areBetween digit (digit c) rest

/-- Every underscore of a number stands between two digits. -/
def areInPlace (digit : Char → Bool) (s : List Char) : Bool := areBetween digit false s

def dropUnderscores (s : List Char) : List Char := s.filter (· ≠ '_')

/-- A decimal number that has a zero in front of its first digit. -/
def hasLeadingZero (s : List Char) : Bool := s.head? = some '0' && s.length ≠ 1

def splitSign : List Char → Bool × List Char
  | '+' :: rest => (false, rest)
  | '-' :: rest => (true, rest)
  | rest => (false, rest)

/-! ### Integers -/

def integer (digit : Char → Bool) (base : Nat) (negative : Bool) (digits : List Char) : Value :=
  let n := number base digits
  if digits.isEmpty || !digits.all digit then .unreadable
  else if negative then if n ≤ 1 <<< 127 then .integer (-n) else .unreadable
  else if n < 1 <<< 128 then .integer n else .unreadable

/-- An integer behind the mark of its base. -/
def radixed? (digit : Char → Bool) (base : Nat) (s : List Char) : Option Value :=
  if s.all (fun c => digit c || c = '_') && areInPlace isHexDigit s then
    some (integer digit base false (dropUnderscores s))
  else none

/-- A decimal integer. Behind an underscore it may go on with anything, and is then unreadable. -/
def decimal? (s : List Char) : Option Value :=
  let (negative, digits) := splitSign s
  if digits.isEmpty || hasLeadingZero digits || !areInPlace isHexDigit s then none
  else some (integer isDigit 10 negative (dropUnderscores digits))

/-! ### Floating-point numbers -/

/-- The digits of `mantissa` with a decimal exponent make a number that rounds past the largest of
64 bits. -/
def overflows (mantissa : List Char) (exponent : Int) : Bool :=
  let m := number 10 mantissa
  let limit := (1 <<< 1024) - (1 <<< 970)
  let magnitude : Int := mantissa.length + exponent
  if m = 0 || magnitude < 300 then false
  else if exponent > 310 then true
  else if exponent ≥ 0 then m * Nat.pow 10 exponent.toNat ≥ limit
  else m ≥ limit * Nat.pow 10 (-exponent).toNat

def isExponentMark (c : Char) : Bool := c = 'e' || c = 'E'

/-- Digits with underscores among them, and the rest. -/
def run? (s : List Char) : Option (List Char × List Char) :=
  let run := s.takeWhile fun c => isDigit c || c = '_'
  if run.any isDigit then some (run, s.drop run.length) else none

/-- The exponent at the end of a floating-point number, if there is one. -/
def exponent? : List Char → Option Int
  | [] => some 0
  | c :: rest => do
    guard (isExponentMark c)
    let (negative, rest) := splitSign rest
    let (run, rest) ← run? rest
    guard rest.isEmpty
    let n := number 10 (dropUnderscores run)
    pure (if negative then -n else n)

/-- A floating-point number: decimal digits, a fraction, an exponent, of which one of the latter may
be missing. -/
def float? (s : List Char) : Option Value := do
  let (whole, rest) ← run? (splitSign s).2
  let (fraction, rest) ← match rest with
    | '.' :: rest => run? rest
    | _ => pure ([], rest)
  let exponent ← exponent? rest
  guard (!hasLeadingZero whole && areInPlace isDigit s)
  let places := (dropUnderscores fraction).length
  pure (if overflows (dropUnderscores (whole ++ fraction)) (exponent - places) then .unreadable
    else .float)

/-! ### Dates and times -/

def fixed? (n : Nat) (s : List Char) : Option (Nat × List Char) :=
  let digits := s.take n
  if digits.length = n && digits.all isDigit then some (number 10 digits, s.drop n) else none

def char? (c : Char) : List Char → Option (List Char)
  | d :: rest => if c = d then some rest else none
  | [] => none

def isLeap (year : Nat) : Bool := (year % 4 = 0 && year % 100 ≠ 0) || year % 400 = 0

def daysIn (year month : Nat) : Nat :=
  if month = 2 then if isLeap year then 29 else 28
  else if [4, 6, 9, 11].contains month then 30
  else 31

def date? (s : List Char) : Option (List Char) := do
  let (year, s) ← fixed? 4 s
  let s ← char? '-' s
  let (month, s) ← fixed? 2 s
  let s ← char? '-' s
  let (day, s) ← fixed? 2 s
  guard (1 ≤ month ∧ month ≤ 12 ∧ 1 ≤ day ∧ day ≤ daysIn year month)
  pure s

/-- Seconds may be left out, and may have a fraction. -/
def seconds? (s : List Char) : Option (List Char) :=
  match s with
  | ':' :: s => do
    let (second, s) ← fixed? 2 s
    guard (second ≤ 60)
    match s with
    | '.' :: s =>
      let fraction := s.takeWhile isDigit
      if fraction.isEmpty then none else some (s.drop fraction.length)
    | _ => pure s
  | _ => some s

def time? (s : List Char) : Option (List Char) := do
  let (hour, s) ← fixed? 2 s
  let s ← char? ':' s
  let (minute, s) ← fixed? 2 s
  guard (hour ≤ 23 ∧ minute ≤ 59)
  seconds? s

def isOffset (s : List Char) : Bool :=
  match s with
  | [] => true
  | ['Z'] | ['z'] => true
  | c :: s =>
    (c = '+' || c = '-') && (do
      let (hour, s) ← fixed? 2 s
      let s ← char? ':' s
      let (minute, s) ← fixed? 2 s
      guard (hour ≤ 23 ∧ minute ≤ 59 ∧ s.isEmpty)).isSome

def isTimeMark (c : Char) : Bool := c = 'T' || c = 't' || c = ' '

/-- A date, a time, or both with an offset. -/
def datetime? (s : List Char) : Option Value :=
  match date? s with
  | some [] => some .datetime
  | some (c :: rest) =>
    if isTimeMark c && ((time? rest).any isOffset) then some .datetime else none
  | none => if (time? s).any (·.isEmpty) then some .datetime else none

/-! ### All scalars -/

/-- What an unquoted scalar stands for. A space stands only between a date and a time. -/
def decode? (s : List Char) : Option Value :=
  match s with
  | ['t', 'r', 'u', 'e'] => some (.boolean true)
  | ['f', 'a', 'l', 's', 'e'] => some (.boolean false)
  | '0' :: 'x' :: digits => radixed? isHexDigit 16 digits
  | '0' :: 'o' :: digits => radixed? isOctalDigit 8 digits
  | '0' :: 'b' :: digits => radixed? isBinaryDigit 2 digits
  | s =>
    let (_, unsigned) := splitSign s
    let tail := unsigned.dropWhile isDigit
    if unsigned = ['i', 'n', 'f'] ∨ unsigned = ['n', 'a', 'n'] then some .float
    else if tail.head? = some '-' || tail.head? = some ':' then datetime? s
    else if tail.contains ' ' then none
    else if tail.any fun c => c = '.' || isExponentMark c then float? s
    else if tail.isEmpty || tail.head? = some '_' then decimal? s
    else none

end Psx.Toml.Scalar
