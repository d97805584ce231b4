import Mathlib.Data.List.Basic
import Mathlib.Data.List.TakeWhile
import Mathlib.Tactic.IntervalCases
import Psx.Proofs.Toml.Quoted
import Psx.Toml.Document

/-!
# Documents are read back

`Toml.Line` is what a written document consists of: headers, and keys with a number or a string,
each on a line of its own. A document of such lines is read back as the statements that they write
(`Toml.Document.statements?_write`), if the keys need no quotes and the numbers have at most 128
bits. The strings may be any.
-/

namespace Psx.Toml

/-- A line of a document, without its text. -/
inductive Line where
  | header (path : List String) (key : String)
  | number (key : String) (n : Nat)
  | text (key : String) (s : String)
deriving DecidableEq, Repr

namespace Line

def statement : Line → Statement
  | header path key => .table path key
  | number key n => .assignment [] key (.integer n)
  | text key s => .assignment [] key (.string s)

def dotted (path : List String) (key : String) : List Char :=
  path.flatMap (·.toList ++ ['.']) ++ key.toList

/-- A header stands behind an empty line. -/
def write : Line → List Char
  | header path key => '\n' :: '[' :: (dotted path key ++ [']', '\n'])
  | number key n => key.toList ++ [' ', '=', ' '] ++ (toString n).toList ++ ['\n']
  | text key s => key.toList ++ [' ', '=', ' '] ++ Quoted.write s.toList ++ ['\n']

end Line

/-- A key that needs no quotes. -/
def IsBare (key : String) : Prop := key ≠ "" ∧ key.toList.all Document.isBareKeyChar = true

instance (key : String) : Decidable (IsBare key) := inferInstanceAs (Decidable (_ ∧ _))

/-- A line that can be read back. -/
def Line.Proper : Line → Prop
  | header path key => path.length < Document.maxDepth ∧ ∀ k ∈ path ++ [key], IsBare k
  | number key n => IsBare key ∧ n < 2 ^ 128
  | text key _ => IsBare key

/-! ### Numbers -/

namespace Scalar

theorem isDigit_of_mem {n : Nat} {c : Char} (h : c ∈ Nat.toDigits 10 n) : isDigit c = true :=
  Nat.isDigit_of_mem_toDigits (by decide) (by decide) h

theorem ne_of_isDigit {c d : Char} (hc : isDigit c = true) (hd : isDigit d = false) : c ≠ d := by
  rintro rfl
  rw [hc] at hd
  cases hd

theorem number_toDigits (n : Nat) : number 10 (Nat.toDigits 10 n) = n := by
  have hn : (10 : Nat).ofDigitChars (Nat.toDigits 10 n) 0 = n :=
    Nat.ofDigitChars_toDigits (by decide) (by decide)
  rw [Nat.ofDigitChars_eq_foldl] at hn
  refine (List.foldl_ext _ _ _ fun m c hc => ?_).trans hn
  rw [digitValue, if_pos (isDigit_of_mem hc), Nat.mul_comm]
  rfl

theorem head?_toDigits {n : Nat} (hn : 0 < n) : (Nat.toDigits 10 n).head? ≠ some '0' := by
  induction n using Nat.strong_induction_on with
  | _ n ih =>
    rw [Nat.toDigits_eq_if (by decide)]
    split_ifs with hlt
    · interval_cases n <;> decide
    · rw [List.head?_append]
      intro h
      obtain h | ⟨h, -⟩ := Option.or_eq_some_iff.1 h
      · exact ih (n / 10) (by omega) (by omega) h
      · exact Nat.toDigits_ne_nil (List.head?_eq_none_iff.1 h)

theorem hasLeadingZero_toDigits (n : Nat) : hasLeadingZero (Nat.toDigits 10 n) = false := by
  rcases Nat.eq_zero_or_pos n with rfl | hn
  · rw [Nat.toDigits_zero]
    rfl
  · simp [hasLeadingZero, head?_toDigits hn]

theorem areBetween_digits {digit : Char → Bool} {s : List Char} (h : ∀ c ∈ s, isDigit c = true)
    (behindDigit : Bool) : areBetween digit behindDigit s = true := by
  induction s generalizing behindDigit with
  | nil => rfl
  | cons c s ih =>
    obtain ⟨hc, hs⟩ := List.forall_mem_cons.1 h
    rw [areBetween.eq_def]
    split
    · rfl
    · next h =>
      cases h
      exact absurd hc (by decide)
    · next h =>
      cases h
      exact ih hs _

theorem dropUnderscores_digits {s : List Char} (h : ∀ c ∈ s, isDigit c = true) :
    dropUnderscores s = s := by
  refine List.filter_eq_self.2 fun c hc => decide_eq_true ?_
  rintro rfl
  exact absurd (h _ hc) (by decide)

theorem splitSign_digits {s : List Char} (h : ∀ c ∈ s, isDigit c = true) :
    splitSign s = (false, s) := by
  rw [splitSign.eq_def]
  split
  · exact absurd (h _ List.mem_cons_self) (by decide)
  · exact absurd (h _ List.mem_cons_self) (by decide)
  · rfl

theorem decode?_digits {s : List Char} (h : ∀ c ∈ s, isDigit c = true) :
    decode? s = decimal? s := by
  have hdrop : s.dropWhile isDigit = [] := List.dropWhile_eq_nil_iff.2 h
  rw [decode?.eq_def]
  split
  · exact absurd (h _ List.mem_cons_self) (by decide)
  · exact absurd (h _ List.mem_cons_self) (by decide)
  · exact absurd (h _ (List.mem_cons_of_mem _ List.mem_cons_self)) (by decide)
  · exact absurd (h _ (List.mem_cons_of_mem _ List.mem_cons_self)) (by decide)
  · exact absurd (h _ (List.mem_cons_of_mem _ List.mem_cons_self)) (by decide)
  · have hword : ¬(s = ['i', 'n', 'f'] ∨ s = ['n', 'a', 'n']) := by
      rintro (rfl | rfl) <;> exact absurd (h _ List.mem_cons_self) (by decide)
    rw [splitSign_digits h]
    dsimp only
    rw [if_neg hword, hdrop]
    rfl

theorem decode?_toDigits {n : Nat} (hn : n < 2 ^ 128) :
    decode? (Nat.toDigits 10 n) = some (.integer n) := by
  have h : ∀ c ∈ Nat.toDigits 10 n, isDigit c = true := fun c => isDigit_of_mem
  have hne : (Nat.toDigits 10 n).isEmpty = false := List.isEmpty_eq_false_iff.2 Nat.toDigits_ne_nil
  have hall : (Nat.toDigits 10 n).all isDigit = true := List.all_eq_true.2 h
  have hlimit : n < 1 <<< 128 := by
    rw [Nat.shiftLeft_eq, Nat.one_mul]
    exact hn
  have hplace : areInPlace isHexDigit (Nat.toDigits 10 n) = true := areBetween_digits h false
  rw [decode?_digits h, decimal?, splitSign_digits h]
  simp only [hne, hasLeadingZero_toDigits, hplace, dropUnderscores_digits h, integer,
    number_toDigits, hall, hlimit]
  rfl

end Scalar

namespace Document

/-! ### Keys -/

theorem IsBare.exists_cons {key : String} (h : IsBare key) :
    ∃ c cs, key.toList = c :: cs ∧ isBareKeyChar c = true := by
  obtain ⟨hne, hall⟩ := h
  cases hkey : key.toList with
  | nil => exact absurd (String.toList_eq_nil_iff.1 hkey) hne
  | cons c cs => exact ⟨c, cs, rfl, List.all_eq_true.1 hall c (by simp [hkey])⟩

/-- What no key without quotes has in it. -/
theorem ne_of_isBareKeyChar {c : Char} (h : isBareKeyChar c = true) :
    c ≠ '[' ∧ c ≠ '#' ∧ c ≠ '\n' ∧ c ≠ '\r' ∧ Quoted.isBlank c = false := by
  have hne : ∀ d, isBareKeyChar d = false → c ≠ d := by
    rintro d hd rfl
    rw [h] at hd
    cases hd
  have hspace := hne ' ' (by decide)
  have htab := hne '\t' (by decide)
  exact ⟨hne _ (by decide), hne _ (by decide), hne _ (by decide), hne _ (by decide),
    by simp [Quoted.isBlank, hspace, htab]⟩

/-- The rest of the text cannot belong to a key that needs no quotes. -/
def EndsKey (rest : List Char) : Prop := ∀ c, rest.head? = some c → isBareKeyChar c = false

theorem key?_bare {key : String} (h : IsBare key) {rest : List Char} (hr : EndsKey rest) :
    key? (key.toList ++ rest) = some (key, rest) := by
  have htake : (key.toList ++ rest).takeWhile isBareKeyChar = key.toList := by
    have hrest : rest.takeWhile isBareKeyChar = [] := by
      cases rest with
      | nil => rfl
      | cons c rest => simp [hr c rfl]
    rw [List.takeWhile_append_of_pos (List.all_eq_true.1 h.2), hrest, List.append_nil]
  obtain ⟨c, cs, hkey, -⟩ := IsBare.exists_cons h
  have hne : key.toList.isEmpty = false := by rw [hkey]; rfl
  unfold key?
  dsimp only
  rw [htake, hne, List.drop_left, String.ofList_toList]
  rfl

theorem skipBlanks_cons {c : Char} (h : Quoted.isBlank c = false) (rest : List Char) :
    skipBlanks (c :: rest) = c :: rest := by simp [skipBlanks, h]

theorem skipBlanks_bare {key : String} (h : IsBare key) (rest : List Char) :
    skipBlanks (key.toList ++ rest) = key.toList ++ rest := by
  obtain ⟨c, cs, hkey, hc⟩ := IsBare.exists_cons h
  obtain ⟨-, -, -, -, hblank⟩ := ne_of_isBareKeyChar hc
  rw [hkey]
  exact skipBlanks_cons hblank _

theorem dotted?_write {path : List String} {key : String} (h : ∀ k ∈ path ++ [key], IsBare k)
    {n : Nat} (hn : path.length < n) {rest : List Char} (hr : EndsKey rest)
    (hdot : (skipBlanks rest).head? ≠ some '.') :
    dotted? n (Line.dotted path key ++ rest) = some (path, key, skipBlanks rest) := by
  obtain ⟨n, rfl⟩ := Nat.exists_eq_succ_of_ne_zero (Nat.ne_of_gt (Nat.zero_lt_of_lt hn))
  induction path generalizing n with
  | nil =>
    have hkey : IsBare key := h key (by simp)
    show dotted? (n + 1) (key.toList ++ rest) = _
    rw [dotted?, skipBlanks_bare hkey, key?_bare hkey hr]
    dsimp only [Option.bind_eq_bind, Option.bind_some]
    split
    · next h => exact absurd (by rw [h]; rfl) hdot
    · rfl
  | cons first path ih =>
    have hfirst : IsBare first := h first (by simp)
    have hends : EndsKey ('.' :: (Line.dotted path key ++ rest)) := by
      intro c hc
      cases hc
      decide
    have htext : Line.dotted (first :: path) key ++ rest =
        first.toList ++ '.' :: (Line.dotted path key ++ rest) := by simp [Line.dotted]
    rw [htext, dotted?, skipBlanks_bare hfirst, key?_bare hfirst hends]
    dsimp only [Option.bind_eq_bind, Option.bind_some]
    rw [List.length_cons] at hn
    obtain ⟨n, rfl⟩ := Nat.exists_eq_succ_of_ne_zero (n := n) (by omega)
    have hlast := ih (fun k hk => h k (List.mem_cons_of_mem _ hk)) n (by omega)
    rw [skipBlanks_cons (by decide)]
    exact congrArg (Option.bind · fun r => pure (first :: r.1, r.2.1, r.2.2)) hlast

/-! ### Values -/

theorem value?_cons {c : Char} (hbracket : c ≠ '[') (hbrace : c ≠ '{') (depth fuel : Nat)
    (rest : List Char) :
    value? depth (fuel + 1) (c :: rest) =
      if atQuote (c :: rest) then
        (Quoted.read? (c :: rest)).map fun (text, rest) => (.string (String.ofList text), rest)
      else scalar? (c :: rest) := by
  rw [value?]
  · rintro rest' _ h -
    exact hbracket (List.cons.inj h).1
  · rintro rest' _ h -
    exact hbrace (List.cons.inj h).1
  · rintro rest' h -
    exact hbracket (List.cons.inj h).1
  · rintro rest' h -
    exact hbrace (List.cons.inj h).1

theorem scalarText_digits {s : List Char} (h : ∀ c ∈ s, Scalar.isDigit c = true)
    (rest : List Char) : scalarText (s ++ '\n' :: rest) = s := by
  induction s with
  | nil => rfl
  | cons c s ih =>
    obtain ⟨hc, hs⟩ := List.forall_mem_cons.1 h
    have hne : ∀ d, Scalar.isDigit d = false → c ≠ d := fun _ => Scalar.ne_of_isDigit hc
    have hends : endsScalar c = false := by
      simp only [endsScalar, List.contains_eq_mem, decide_eq_false_iff_not, List.mem_cons,
        List.not_mem_nil, or_false, not_or]
      refine ⟨?_, ?_, ?_, ?_, ?_, ?_, ?_, ?_, ?_⟩ <;> exact hne _ (by decide)
    have hblank : Quoted.isBlank c = false := by
      simp [Quoted.isBlank, hne ' ' (by decide), hne '\t' (by decide)]
    rw [List.cons_append, scalarText, hends, hblank, ih hs]
    rfl

theorem toString_cons (n : Nat) :
    ∃ c cs, (toString n).toList = c :: cs ∧ Scalar.isDigit c = true := by
  rw [Nat.toString_eq_repr, Nat.toList_repr]
  cases hcons : Nat.toDigits 10 n with
  | nil => exact absurd hcons Nat.toDigits_ne_nil
  | cons c cs => exact ⟨c, cs, rfl, Scalar.isDigit_of_mem (n := n) (by simp [hcons])⟩

theorem write_cons (s : List Char) :
    ∃ c cs, Quoted.write s = c :: cs ∧ (c = '"' ∨ c = '\'') := by
  unfold Quoted.write
  split
  · exact ⟨_, _, rfl, .inl rfl⟩
  · exact ⟨_, _, rfl, .inr rfl⟩
  · exact ⟨_, _, rfl, .inl rfl⟩
  · exact ⟨_, _, rfl, .inr rfl⟩

theorem value?_number {n : Nat} (hn : n < 2 ^ 128) (depth fuel : Nat) (rest : List Char) :
    value? depth (fuel + 1) ((toString n).toList ++ '\n' :: rest) =
      some (.integer n, '\n' :: rest) := by
  have hscalar : scalar? ((toString n).toList ++ '\n' :: rest) =
      some (.integer n, '\n' :: rest) := by
    rw [Nat.toString_eq_repr, Nat.toList_repr]
    unfold scalar?
    dsimp only
    rw [scalarText_digits fun c => Scalar.isDigit_of_mem, Scalar.decode?_toDigits hn,
      List.drop_left]
    rfl
  obtain ⟨c, cs, hcons, hc⟩ := toString_cons n
  have hne : ∀ d, Scalar.isDigit d = false → c ≠ d := fun _ => Scalar.ne_of_isDigit hc
  have hquote : atQuote (c :: (cs ++ '\n' :: rest)) = false := by
    simp [atQuote, hne '"' (by decide), hne '\'' (by decide)]
  rw [hcons, List.cons_append] at hscalar ⊢
  rw [value?_cons (hne _ (by decide)) (hne _ (by decide)), hquote]
  exact hscalar

theorem value?_text (s : String) (depth fuel : Nat) (rest : List Char) :
    value? depth (fuel + 1) (Quoted.write s.toList ++ '\n' :: rest) =
      some (.string s, '\n' :: rest) := by
  have hread : Quoted.read? (Quoted.write s.toList ++ '\n' :: rest) =
      some (s.toList, '\n' :: rest) := Quoted.read?_write _ (by simp) (by simp)
  obtain ⟨c, cs, hcons, hc⟩ := write_cons s.toList
  have hat : atQuote (c :: (cs ++ '\n' :: rest)) = true := by
    rcases hc with rfl | rfl <;> rfl
  have hne : c ≠ '[' ∧ c ≠ '{' := by rcases hc with rfl | rfl <;> decide
  rw [hcons, List.cons_append] at hread ⊢
  rw [value?_cons hne.1 hne.2, hat, hread, if_pos rfl, Option.map_some]
  exact congrArg (fun t => some (Value.string t, _)) String.ofList_toList

/-! ### Statements -/

theorem endLine?_newline (rest : List Char) : endLine? ('\n' :: rest) = some rest := rfl

theorem skipSpace?_cons {c : Char} (hn : c ≠ '\n') (hr : c ≠ '\r') (hcomment : c ≠ '#')
    (hblank : Quoted.isBlank c = false) (rest : List Char) :
    skipSpace? (c :: rest) = some (c :: rest) := by
  unfold skipSpace?
  rw [skipFrom?.eq_def]
  split
  case h_1 h => cases h
  case h_2 h => exact absurd (List.cons.inj h).1 hn
  case h_3 h => exact absurd (List.cons.inj h).1 hr
  case h_4 => contradiction
  case h_5 h => exact absurd (List.cons.inj h).1 hcomment
  case h_6 h =>
    cases h
    simp [hblank]

theorem skipSpace?_bare {c : Char} (hc : isBareKeyChar c = true) (rest : List Char) :
    skipSpace? (c :: rest) = some (c :: rest) := by
  obtain ⟨-, hcomment, hn, hr, hblank⟩ := ne_of_isBareKeyChar hc
  exact skipSpace?_cons hn hr hcomment hblank rest

theorem dotted_cons {path : List String} {key : String} (h : ∀ k ∈ path ++ [key], IsBare k) :
    ∃ c cs, Line.dotted path key = c :: cs ∧ isBareKeyChar c = true := by
  cases path with
  | nil => exact IsBare.exists_cons (h key (by simp))
  | cons first path =>
    obtain ⟨c, cs, hfirst, hc⟩ := IsBare.exists_cons (h first (by simp))
    exact ⟨c, _, by simp [Line.dotted, hfirst]; rfl, hc⟩

theorem statement?_header {path : List String} {key : String} (hp : path.length < maxDepth)
    (h : ∀ k ∈ path ++ [key], IsBare k) (fuel : Nat) (rest : List Char) :
    statement? fuel ('[' :: (Line.dotted path key ++ ']' :: rest)) =
      some (.table path key, rest) := by
  have hends : EndsKey (']' :: rest) := by
    intro c hc
    cases hc
    decide
  have hkeys : keys? (Line.dotted path key ++ ']' :: rest) = some (path, key, ']' :: rest) :=
    dotted?_write h hp hends (by simp [skipBlanks, Quoted.isBlank])
  obtain ⟨c, cs, hcons, hc⟩ := dotted_cons h
  rw [hcons, List.cons_append] at hkeys ⊢
  unfold statement?
  split
  case h_1 heq => exact absurd (List.cons.inj (List.cons.inj heq).2).1 (ne_of_isBareKeyChar hc).1
  case h_2 heq =>
    cases heq
    rw [hkeys]
    rfl
  case h_3 hno => exact absurd rfl (hno _)

theorem statement?_assignment {key : String} (h : IsBare key) {fuel : Nat} {v : Value}
    {text rest : List Char} (ht : skipBlanks text = text)
    (hv : value? maxDepth fuel text = some (v, rest)) :
    statement? fuel (key.toList ++ ' ' :: '=' :: ' ' :: text) =
      some (.assignment [] key v, rest) := by
  have hends : EndsKey (' ' :: '=' :: ' ' :: text) := by
    intro c hc
    cases hc
    decide
  have hkeys : keys? (key.toList ++ ' ' :: '=' :: ' ' :: text) =
      some ([], key, '=' :: ' ' :: text) := by
    show keys? (Line.dotted [] key ++ _) = _
    exact dotted?_write (by simpa using h) (by decide) hends (by simp [skipBlanks, Quoted.isBlank])
  have hblank : skipBlanks (' ' :: text) = text := ht
  obtain ⟨c, cs, hcons, hc⟩ := IsBare.exists_cons h
  have hbracket := (ne_of_isBareKeyChar hc).1
  rw [hcons, List.cons_append] at hkeys ⊢
  unfold statement?
  split
  case h_1 heq => exact absurd (List.cons.inj heq).1 hbracket
  case h_2 heq => exact absurd (List.cons.inj heq).1 hbracket
  case h_3 =>
    have hvalue : value? maxDepth fuel (skipBlanks (' ' :: text)) = some (v, rest) := by
      rw [hblank, hv]
    rw [hkeys]
    exact congrArg (Option.bind · fun r => pure (Statement.assignment [] key r.1, r.2)) hvalue

/-- A line is read up to its end, behind the empty line in front of a header. -/
theorem statement?_write {l : Line} (h : l.Proper) (fuel : Nat) (rest : List Char) :
    ∃ c cs, skipSpace? (l.write ++ rest) = some (c :: cs) ∧
      statement? (fuel + 1) (c :: cs) = some (l.statement, '\n' :: rest) := by
  have hassign : ∀ {key : String}, IsBare key → ∀ (v : Value) (text : List Char),
      skipBlanks (text ++ '\n' :: rest) = text ++ '\n' :: rest →
      value? maxDepth (fuel + 1) (text ++ '\n' :: rest) = some (v, '\n' :: rest) →
      ∃ c cs, skipSpace? (key.toList ++ [' ', '=', ' '] ++ text ++ ['\n'] ++ rest) =
          some (c :: cs) ∧
        statement? (fuel + 1) (c :: cs) = some (.assignment [] key v, '\n' :: rest) := by
    intro key hkey v text hblank hvalue
    obtain ⟨c, cs, hcons, hc⟩ := IsBare.exists_cons hkey
    have hstatement := statement?_assignment hkey hblank hvalue
    rw [hcons, List.cons_append] at hstatement
    refine ⟨c, _, ?_, hstatement⟩
    rw [hcons]
    simpa using skipSpace?_bare hc (cs ++ ' ' :: '=' :: ' ' :: (text ++ '\n' :: rest))
  cases l with
  | header path key =>
    have hskip := skipSpace?_cons (c := '[') (by decide) (by decide) (by decide) (by decide)
      (Line.dotted path key ++ ']' :: '\n' :: rest)
    refine ⟨'[', _, Eq.trans ?_ hskip, statement?_header h.1 h.2 (fuel + 1) ('\n' :: rest)⟩
    simp only [Line.write, List.cons_append, List.append_assoc, List.nil_append]
    rfl
  | number key n =>
    refine hassign h.1 _ _ ?_ (value?_number h.2 ..)
    obtain ⟨c, cs, hcons, hc⟩ := toString_cons n
    rw [hcons]
    exact skipBlanks_cons (by
      simp [Quoted.isBlank, Scalar.ne_of_isDigit hc (d := ' ') (by decide),
        Scalar.ne_of_isDigit hc (d := '\t') (by decide)]) _
  | text key s =>
    refine hassign h _ _ ?_ (value?_text s ..)
    obtain ⟨c, cs, hcons, hc⟩ := write_cons s.toList
    rw [hcons]
    exact skipBlanks_cons (by rcases hc with rfl | rfl <;> rfl) _

theorem statementsFrom?_write {lines : List Line} (h : ∀ l ∈ lines, l.Proper) {fuel : Nat}
    (hf : lines.length + 1 < fuel) :
    statementsFrom? fuel (lines.flatMap Line.write) = some (lines.map Line.statement) := by
  induction lines generalizing fuel with
  | nil =>
    obtain ⟨fuel, rfl⟩ := Nat.exists_eq_succ_of_ne_zero (n := fuel) (by omega)
    rfl
  | cons l lines ih =>
    obtain ⟨fuel, rfl⟩ : ∃ n, fuel = n + 2 := ⟨fuel - 2, by omega⟩
    obtain ⟨hl, hlines⟩ := List.forall_mem_cons.1 h
    rw [List.length_cons] at hf
    obtain ⟨c, cs, hskip, hstatement⟩ := statement?_write hl fuel (lines.flatMap Line.write)
    rw [List.flatMap_cons, List.map_cons, statementsFrom?, hskip]
    dsimp only [Option.bind_eq_bind, Option.bind_some]
    rw [hstatement]
    dsimp only [Option.bind_some]
    rw [endLine?_newline]
    dsimp only [Option.bind_some]
    rw [ih hlines (by omega)]
    rfl

theorem length_write_pos (l : Line) : 0 < l.write.length := by
  cases l with
  | header | number | text => simp [Line.write]

theorem length_le_length_write (lines : List Line) :
    lines.length ≤ (lines.flatMap Line.write).length := by
  induction lines with
  | nil => exact Nat.le_refl _
  | cons l lines ih =>
    have := length_write_pos l
    rw [List.length_cons, List.flatMap_cons, List.length_append]
    omega

theorem dropMark_write {lines : List Line} (h : ∀ l ∈ lines, l.Proper) :
    dropMark (lines.flatMap Line.write) = lines.flatMap Line.write := by
  have hbare : ∀ {key : String}, IsBare key → ∀ rest, dropMark (key.toList ++ rest) = key.toList ++ rest := by
    intro key hkey rest
    obtain ⟨c, cs, hcons, hc⟩ := IsBare.exists_cons hkey
    rw [hcons, List.cons_append, dropMark.eq_def]
    split
    · next heq =>
      cases heq
      exact absurd hc (by decide)
    · rfl
  cases lines with
  | nil => rfl
  | cons l lines =>
    rw [List.flatMap_cons]
    have hl := h l List.mem_cons_self
    cases l with
    | header => rfl
    | number key n => simpa [Line.write] using hbare hl.1 _
    | text key s => simpa [Line.write] using hbare hl _

/-- A document of lines is read back as the statements of these lines. -/
theorem statements?_write {lines : List Line} (h : ∀ l ∈ lines, l.Proper) :
    statements? (lines.flatMap Line.write) = some (lines.map Line.statement) := by
  have hlength := length_le_length_write lines
  unfold statements?
  rw [dropMark_write h]
  cases lines with
  | nil => rfl
  | cons l lines =>
    refine statementsFrom?_write h ?_
    have := length_write_pos l
    omega

end Document

end Psx.Toml
