import Mathlib.Data.Char
import Mathlib.Tactic.SplitIfs
import Psx.Toml.Quoted

/-!
# Quoted strings are read back

A string is written in one of four ways, whichever is the plainest that can hold it, and what is
written is read back as that string (`Toml.Quoted.read?_write`). Each way has its own reason why the
string ends where it was meant to: between double quotes a quote is escaped; between single quotes
there is none; and over several lines no three quotes stand in a row, so that the closing ones are
the last three of the run that they end.
-/

namespace Psx.Toml.Quoted

/-! ### Escapes -/

theorem controlText_spec {c : Char} (h : isControl c = true) :
    ∃ d e, controlText c = ['\\', 'u', '0', '0', d, e] ∧
      codePoint? ['0', '0', d, e] = some c := by
  have hall : ∀ n : Fin 128, isControl (Char.ofNat n) = true →
      codePoint? ((controlText (Char.ofNat n)).drop 2) = some (Char.ofNat n) := by decide
  have hlt : c.toNat < 128 := by
    simp only [isControl, Bool.or_eq_true, Bool.and_eq_true, decide_eq_true_eq] at h
    rcases h with ⟨⟨h, -⟩, -⟩ | rfl
    · exact lt_trans h (by decide)
    · decide
  have hc := hall ⟨c.toNat, hlt⟩
  rw [Char.ofNat_toNat] at hc
  exact ⟨_, _, rfl, hc h⟩

/-- How a character may be written where quotes and backslashes are escaped. -/
inductive Piece (multi : Bool) : Char → List Char → Prop
  | short {c e : Char} : escape? e = some c → Piece multi c ['\\', e]
  | code {c d e : Char} : codePoint? ['0', '0', d, e] = some c →
      Piece multi c ['\\', 'u', '0', '0', d, e]
  | plain {c : Char} : isPlain c = true → c ≠ '"' → c ≠ '\\' → Piece multi c [c]
  | newline : multi = true → Piece multi '\n' ['\n']

theorem isPlain_of {c : Char} (hc : isControl c = false) (hn : c ≠ '\n') : isPlain c = true := by
  simp only [isControl, isPlain, Bool.or_eq_false_iff, Bool.and_eq_false_iff, Bool.or_eq_true,
    Bool.and_eq_true, decide_eq_false_iff_not, decide_eq_true_eq, not_lt, not_not] at *
  obtain ⟨(h | h) | h, h'⟩ := hc
  · exact .inr ⟨h, h'⟩
  · exact .inl h
  · exact absurd h hn

/-- A character is written as a piece, but for a quote that may stand for itself. -/
theorem escapeFrom_cons (multi : Bool) (quotes run : Nat) (c : Char) (s : List Char) :
    (c = '"' ∧ run < quotes ∧
      escapeFrom multi quotes run (c :: s) = '"' :: escapeFrom multi quotes (run + 1) s) ∨
    ∃ piece, Piece multi c piece ∧
      escapeFrom multi quotes run (c :: s) = piece ++ escapeFrom multi quotes 0 s := by
  rw [escapeFrom.eq_def]
  split
  · next h => cases h
  · next h =>
    cases h
    split_ifs with hr
    · exact .inl ⟨rfl, hr, rfl⟩
    · exact .inr ⟨['\\', '"'], .short rfl, rfl⟩
  · next h =>
    cases h
    exact .inr ⟨['\\', '\\'], .short rfl, rfl⟩
  · next h =>
    cases h
    exact .inr ⟨['\\', 'b'], .short rfl, rfl⟩
  · next h =>
    cases h
    exact .inr ⟨['\\', 't'], .short rfl, rfl⟩
  · next h =>
    cases h
    split_ifs with hm
    · exact .inr ⟨['\n'], .newline hm, rfl⟩
    · exact .inr ⟨['\\', 'n'], .short rfl, rfl⟩
  · next h =>
    cases h
    exact .inr ⟨['\\', 'f'], .short rfl, rfl⟩
  · next h =>
    cases h
    exact .inr ⟨['\\', 'r'], .short rfl, rfl⟩
  · next hquote hback _ _ hnewline _ _ h =>
    obtain ⟨rfl, rfl⟩ := List.cons.inj h
    right
    split_ifs with hc
    · obtain ⟨d, e, htext, hcode⟩ := controlText_spec hc
      exact ⟨_, htext ▸ .code hcode, rfl⟩
    · have hplain := isPlain_of (Bool.eq_false_iff.2 hc) hnewline
      exact ⟨[c], .plain hplain hquote hback, rfl⟩

theorem basic?_piece {c : Char} {piece : List Char} (h : Piece false c piece) (rest : List Char) :
    basic? (piece ++ rest) = prepend (some c) (basic? rest) := by
  cases h with
  | short h =>
    unfold escape? at h
    split at h <;> cases h <;> rfl
  | code h =>
    rw [← h]
    rfl
  | plain h hquote hback =>
    rw [List.singleton_append, basic?.eq_def]
    simp [h, hback]
  | newline h => cases h

/-- A character that stands for itself. A quote does not where two more follow it. -/
theorem multiBasic?_cons {c : Char} (h : isPlain c = true ∨ c = '\n') (hback : c ≠ '\\')
    {rest : List Char} (hquotes : c = '"' → ∀ t, rest ≠ '"' :: '"' :: t) :
    multiBasic? false (c :: rest) = prepend (some c) (multiBasic? false rest) := by
  have hreturn : c ≠ '\r' := by
    rintro rfl
    revert h
    decide
  rw [multiBasic?.eq_def]
  split
  case h_1 h => cases h
  case h_2 h | h_3 h | h_4 h =>
    cases h
    exact absurd rfl (hquotes rfl _)
  case h_5 h | h_6 h | h_7 h | h_8 h =>
    cases h
    exact absurd rfl hback
  case h_9 h =>
    cases h
    exact absurd rfl hreturn
  case h_10 h' =>
    cases h'
    simp [h]

theorem multiBasic?_piece {c : Char} {piece : List Char} (h : Piece true c piece)
    (rest : List Char) :
    multiBasic? false (piece ++ rest) = prepend (some c) (multiBasic? false rest) := by
  cases h with
  | short h =>
    unfold escape? at h
    split at h <;> cases h <;> rfl
  | code h =>
    rw [← h]
    rfl
  | plain h hquote hback => exact multiBasic?_cons (.inl h) hback fun h => absurd h hquote
  | newline h => exact multiBasic?_cons (.inr rfl) (by decide) fun h => absurd h (by decide)

/-- No piece begins with a quote. -/
theorem Piece.ne_quote {multi : Bool} {c : Char} {piece : List Char} (h : Piece multi c piece)
    (rest t : List Char) : piece ++ rest ≠ '"' :: t := by
  intro ht
  cases h with
  | short | code | newline => simp at ht
  | plain _ hquote => exact hquote (List.cons.inj ht).1

/-! ### One line -/

theorem basic?_escapeFrom (s rest : List Char) :
    basic? (escapeFrom false 0 0 s ++ '"' :: rest) = some (s, rest) := by
  induction s with
  | nil => rfl
  | cons c s ih =>
    obtain ⟨-, h, -⟩ | ⟨piece, hpiece, h⟩ := escapeFrom_cons false 0 0 c s
    · omega
    · rw [h, List.append_assoc, basic?_piece hpiece, ih]
      rfl

/-- Between double quotes on one line the text does not begin with two quotes more. -/
theorem escapeFrom_ne_quotes (s rest t : List Char) (hr : rest.head? ≠ some '"') :
    escapeFrom false 0 0 s ++ '"' :: rest ≠ '"' :: '"' :: t := by
  intro h
  cases s with
  | nil =>
    rw [(List.cons.inj h).2] at hr
    exact hr rfl
  | cons c s =>
    obtain ⟨-, h', -⟩ | ⟨piece, hpiece, h'⟩ := escapeFrom_cons false 0 0 c s
    · omega
    · rw [h', List.append_assoc] at h
      exact hpiece.ne_quote _ _ h

theorem literal?_append {s : List Char} (h : ∀ c ∈ s, isPlain c = true ∧ c ≠ '\'')
    (rest : List Char) : literal? (s ++ '\'' :: rest) = some (s, rest) := by
  induction s with
  | nil => rfl
  | cons c s ih =>
    obtain ⟨⟨hplain, hquote⟩, hs⟩ := List.forall_mem_cons.1 h
    rw [List.cons_append, literal?.eq_def]
    simp [hplain, ih hs]
    rfl

/-! ### Runs of quotes -/

theorem longestRun_mono (c : Char) {run run' : Nat} (h : run ≤ run') (s : List Char) :
    longestRun c run s ≤ longestRun c run' s := by
  induction s generalizing run run' with
  | nil => exact h
  | cons d s ih =>
    unfold longestRun
    split_ifs
    · exact ih (by omega)
    · omega

theorem le_longestRun (c : Char) (run : Nat) (s : List Char) : run ≤ longestRun c run s := by
  induction s generalizing run with
  | nil => exact le_rfl
  | cons d s ih =>
    unfold longestRun
    split_ifs
    · have := ih (run + 1)
      omega
    · omega

theorem longestRun_tail {c d : Char} {s : List Char} {n : Nat} (h : longestRun c 0 (d :: s) ≤ n) :
    longestRun c 0 s ≤ n := by
  unfold longestRun at h
  split_ifs at h
  · exact Nat.le_trans (longestRun_mono c (by omega) s) h
  · omega

theorem not_mem_of_longestRun {c : Char} {s : List Char} (h : longestRun c 0 s = 0) : c ∉ s := by
  induction s with
  | nil => exact List.not_mem_nil
  | cons d s ih =>
    rw [List.mem_cons, not_or]
    refine ⟨?_, ih (Nat.le_zero.1 (longestRun_tail (Nat.le_of_eq h)))⟩
    rintro rfl
    rw [longestRun, if_pos rfl] at h
    have := le_longestRun c (0 + 1) s
    omega

/-! ### Several lines -/

theorem multiBasic?_closing {n : Nat} (hn : n ≤ 2) {rest : List Char}
    (hr : rest.head? ≠ some '"') :
    multiBasic? false (List.replicate n '"' ++ '"' :: '"' :: '"' :: rest) =
      some (List.replicate n '"', rest) := by
  rcases rest with _ | ⟨c, rest⟩
  · rcases n with _ | _ | _ | n
    · rfl
    · rfl
    · rfl
    · omega
  · have hc : c ≠ '"' := fun h => hr (congrArg some h)
    rcases n with _ | _ | _ | n
    · simp [multiBasic?, hc]
    · simp [multiBasic?, hc]
    · rfl
    · omega

/-- Behind a quote that stands for itself there are two more quotes only at the end. -/
theorem eq_replicate_of_quotes {run : Nat} {s rest t : List Char} (hrun : 0 < run)
    (h : escapeFrom true 2 run s ++ '"' :: '"' :: '"' :: rest = '"' :: '"' :: t) :
    ∃ n ≤ 1, s = List.replicate n '"' ∧ escapeFrom true 2 run s = s := by
  cases s with
  | nil => exact ⟨0, by omega, rfl, rfl⟩
  | cons c s =>
    obtain ⟨rfl, hlt, hc⟩ | ⟨piece, hpiece, hc⟩ := escapeFrom_cons true 2 run c s
    · rw [hc, List.cons_append] at h
      cases s with
      | nil => exact ⟨1, le_rfl, rfl, hc⟩
      | cons d s =>
        obtain ⟨-, hlt', -⟩ | ⟨piece, hpiece, hd⟩ := escapeFrom_cons true 2 (run + 1) d s
        · omega
        · rw [hd, List.append_assoc] at h
          exact absurd (List.cons.inj h).2 (hpiece.ne_quote _ _)
    · rw [hc, List.append_assoc] at h
      exact absurd h (hpiece.ne_quote _ _)

theorem multiBasic?_escapeFrom (run : Nat) (s : List Char) {rest : List Char}
    (hr : rest.head? ≠ some '"') :
    multiBasic? false (escapeFrom true 2 run s ++ '"' :: '"' :: '"' :: rest) = some (s, rest) := by
  induction s generalizing run with
  | nil => exact multiBasic?_closing (n := 0) (by omega) hr
  | cons c s ih =>
    obtain ⟨rfl, -, hc⟩ | ⟨piece, hpiece, hc⟩ := escapeFrom_cons true 2 run c s
    · rw [hc, List.cons_append]
      by_cases hq : ∃ t, escapeFrom true 2 (run + 1) s ++ '"' :: '"' :: '"' :: rest = '"' :: '"' :: t
      · -- all that is left are quotes, which are read together with the closing ones
        obtain ⟨t, ht⟩ := hq
        obtain ⟨n, hn, hs, htext⟩ := eq_replicate_of_quotes (Nat.succ_pos run) ht
        rw [htext, hs]
        exact multiBasic?_closing (n := n + 1) (by omega) hr
      · rw [multiBasic?_cons (.inl (by decide)) (by decide) fun _ t ht => hq ⟨t, ht⟩, ih]
        rfl
    · rw [hc, List.append_assoc, multiBasic?_piece hpiece, ih]
      rfl

theorem multiLiteral?_closing {n : Nat} (hn : n ≤ 2) {rest : List Char}
    (hr : rest.head? ≠ some '\'') :
    multiLiteral? (List.replicate n '\'' ++ '\'' :: '\'' :: '\'' :: rest) =
      some (List.replicate n '\'', rest) := by
  rcases rest with _ | ⟨c, rest⟩
  · rcases n with _ | _ | _ | n
    · rfl
    · rfl
    · rfl
    · omega
  · have hc : c ≠ '\'' := fun h => hr (congrArg some h)
    rcases n with _ | _ | _ | n
    · simp [multiLiteral?, hc]
    · simp [multiLiteral?, hc]
    · rfl
    · omega

theorem multiLiteral?_cons {c : Char} (h : isPlain c = true ∨ c = '\n') {rest : List Char}
    (hquotes : c = '\'' → ∀ t, rest ≠ '\'' :: '\'' :: t) :
    multiLiteral? (c :: rest) = prepend (some c) (multiLiteral? rest) := by
  rw [multiLiteral?.eq_def]
  split
  case h_1 h => cases h
  case h_2 h | h_3 h | h_4 h =>
    cases h
    exact absurd rfl (hquotes rfl _)
  case h_5 h' =>
    cases h'
    exact absurd h (by decide)
  case h_6 h' =>
    cases h'
    simp [h]

theorem eq_replicate_of_run {s rest t : List Char} (hs : longestRun '\'' 1 s ≤ 2)
    (h : s ++ '\'' :: '\'' :: '\'' :: rest = '\'' :: '\'' :: t) :
    ∃ n ≤ 1, s = List.replicate n '\'' := by
  rcases s with _ | ⟨c, _ | ⟨d, s⟩⟩
  · exact ⟨0, by omega, rfl⟩
  · exact ⟨1, le_rfl, by rw [(List.cons.inj h).1]; rfl⟩
  · rw [List.cons_append, List.cons_append] at h
    obtain ⟨rfl, h'⟩ := List.cons.inj h
    obtain ⟨rfl, -⟩ := List.cons.inj h'
    rw [longestRun, if_pos rfl, longestRun, if_pos rfl] at hs
    have := le_longestRun '\'' (1 + 1 + 1) s
    omega

theorem multiLiteral?_append {s : List Char} (h : ∀ c ∈ s, isPlain c = true ∨ c = '\n')
    (hrun : longestRun '\'' 0 s ≤ 2) {rest : List Char} (hr : rest.head? ≠ some '\'') :
    multiLiteral? (s ++ '\'' :: '\'' :: '\'' :: rest) = some (s, rest) := by
  induction s with
  | nil => exact multiLiteral?_closing (n := 0) (by omega) hr
  | cons c s ih =>
    obtain ⟨hc, hs⟩ := List.forall_mem_cons.1 h
    by_cases hq : c = '\'' ∧ ∃ t, s ++ '\'' :: '\'' :: '\'' :: rest = '\'' :: '\'' :: t
    · obtain ⟨rfl, t, ht⟩ := hq
      rw [longestRun, if_pos rfl] at hrun
      obtain ⟨n, hn, rfl⟩ := eq_replicate_of_run hrun ht
      exact multiLiteral?_closing (n := n + 1) (by omega) hr
    · rw [List.cons_append, multiLiteral?_cons hc fun hc t ht => hq ⟨hc, t, ht⟩,
        ih hs (longestRun_tail hrun)]
      rfl

/-! ### All ways -/

theorem plain_of_any {s : List Char} (h : s.any isControl = false) :
    ∀ c ∈ s, isPlain c = true ∨ c = '\n' := by
  intro c hc
  by_cases hn : c = '\n'
  · exact .inr hn
  · exact .inl (isPlain_of (Bool.eq_false_iff.2 fun h' => by simp_all) hn)

theorem of_style_literal {s : List Char} (h : style s = .literal) :
    ∀ c ∈ s, isPlain c = true ∧ c ≠ '\'' := by
  unfold style at h
  dsimp only at h
  split_ifs at h with _ hs
  simp only [Bool.and_eq_true, Bool.not_eq_true', decide_eq_true_eq] at hs
  obtain ⟨⟨hcontrol, hsingle⟩, hnewline⟩ := hs
  intro c hc
  refine ⟨(plain_of_any hcontrol c hc).resolve_right ?_, ?_⟩
  · rintro rfl
    simp_all
  · rintro rfl
    exact not_mem_of_longestRun hsingle hc

theorem of_style_multiLiteral {s : List Char} (h : style s = .multiLiteral) :
    (∀ c ∈ s, isPlain c = true ∨ c = '\n') ∧ longestRun '\'' 0 s ≤ 2 := by
  unfold style at h
  dsimp only at h
  split_ifs at h with _ _ _ hs
  simp only [Bool.and_eq_true, Bool.not_eq_true', decide_eq_true_eq] at hs
  exact ⟨plain_of_any hs.1, hs.2⟩

theorem dropNewline_cons {c : Char} (hn : c ≠ '\n') (hr : c ≠ '\r') (rest : List Char) :
    dropNewline (c :: rest) = c :: rest := by
  rw [dropNewline.eq_def]
  split
  · next h => exact absurd (List.cons.inj h).1 hn
  · next h => exact absurd (List.cons.inj h).1 hr
  · rfl

theorem ne_of_isPlain {c : Char} (h : isPlain c = true) : c ≠ '\n' ∧ c ≠ '\r' := by
  constructor <;> rintro rfl <;> revert h <;> decide

theorem dropNewline_escapeFrom (s rest : List Char) :
    dropNewline (opening s ++ escapeFrom true 2 0 s ++ '"' :: rest) =
      escapeFrom true 2 0 s ++ '"' :: rest := by
  unfold opening
  split_ifs with h
  · rfl
  · rw [List.nil_append]
    cases s with
    | nil => rfl
    | cons c s =>
      have hc : c ≠ '\n' := fun h' => h (by simp [h'])
      obtain ⟨-, -, h'⟩ | ⟨piece, hpiece, h'⟩ := escapeFrom_cons true 2 0 c s
      · rw [h']
        rfl
      · rw [h']
        cases hpiece with
        | short | code => rfl
        | plain hp =>
          obtain ⟨hn, hr⟩ := ne_of_isPlain hp
          exact dropNewline_cons hn hr _
        | newline => exact absurd rfl hc

theorem dropNewline_literal {s : List Char} (hs : ∀ c ∈ s, isPlain c = true ∨ c = '\n')
    (rest : List Char) : dropNewline (opening s ++ s ++ '\'' :: rest) = s ++ '\'' :: rest := by
  unfold opening
  split_ifs with h
  · rfl
  · rw [List.nil_append]
    cases s with
    | nil => rfl
    | cons c s =>
      have hc : c ≠ '\n' := fun h' => h (by simp [h'])
      obtain ⟨hn, hr⟩ := ne_of_isPlain ((hs c List.mem_cons_self).resolve_right hc)
      exact dropNewline_cons hn hr _

/-- A string that was written is read back, if no quote follows it. -/
theorem read?_write (s : List Char) {rest : List Char} (hdouble : rest.head? ≠ some '"')
    (hsingle : rest.head? ≠ some '\'') : read? (write s ++ rest) = some (s, rest) := by
  unfold write
  split
  · have hread := basic?_escapeFrom s rest
    have hne := escapeFrom_ne_quotes s rest
    simp only [List.append_assoc, List.cons_append, List.nil_append]
    rw [read?.eq_def]
    split
    · next h => exact absurd (List.cons.inj h).2 (hne _ hdouble)
    · next h => cases h
    · exact hread
  · next h =>
    have hs := of_style_literal h
    simp only [List.append_assoc, List.cons_append, List.nil_append]
    rw [read?.eq_def]
    split
    · next h => cases h
    · next h =>
      cases s with
      | nil =>
        simp at h
        simp [h] at hsingle
      | cons c s => exact absurd (List.cons.inj (List.cons.inj h).2).1 (hs c List.mem_cons_self).2
    · exact literal?_append hs rest
  · simp only [List.append_assoc, List.cons_append, List.nil_append]
    show multiBasic? false (dropNewline _) = _
    rw [← List.append_assoc, dropNewline_escapeFrom]
    exact multiBasic?_escapeFrom 0 s hdouble
  · next h =>
    obtain ⟨hs, hrun⟩ := of_style_multiLiteral h
    simp only [List.append_assoc, List.cons_append, List.nil_append]
    show multiLiteral? (dropNewline _) = _
    rw [← List.append_assoc, dropNewline_literal hs]
    exact multiLiteral?_append hs hrun hsingle

end Psx.Toml.Quoted
