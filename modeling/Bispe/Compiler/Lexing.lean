import Bispe.Compiler.Lexer
import Mathlib.Data.List.TakeWhile

/-!
# What the lexer accepts

The tokens of a string depend on the rest of the string only, so that an iteration
of the loop can be looked at as if it stood at the start.  The texts of the tokens,
with blanks and comments behind each, are read back as the same tokens.

## Main definitions

* `Token.IsLexeme`, `Token.text` — the tokens of the language and their texts.
* `Separator`, `render` — token texts with blanks and comments behind them.
* `tokenizeString_round_trip` — reading what has been written.
-/

namespace Bispe

/-! ## Positions -/

theorem charAt_drop (str : List Char) (pos i : ℕ) :
    charAt (str.drop pos) i = charAt str (pos + i) := by
  rw [charAt, charAt, List.getD_eq_getElem?_getD, List.getD_eq_getElem?_getD, List.getElem?_drop]

theorem charAt_drop_zero (str : List Char) (pos : ℕ) :
    charAt (str.drop pos) 0 = charAt str pos := charAt_drop str pos 0

theorem intliteralEnd_shift (isHex isOct : Bool) (line : ℕ) (rest : List Char) (n i : ℕ) :
    intliteralEnd isHex isOct line rest (n + i) =
      (intliteralEnd isHex isOct line rest i).map (n + ·) := by
  induction rest generalizing i with
  | nil => rfl
  | cons ch rest ih =>
      simp only [intliteralEnd, Nat.add_assoc, ih]
      split_ifs <;> rfl

def isNameChar (ch : Char) : Bool := isLetter ch || isDigit ch

theorem identEnd_eq (rest : List Char) (i : ℕ) :
    identEnd rest i = i + (rest.takeWhile isNameChar).length := by
  induction rest generalizing i with
  | nil => rfl
  | cons ch rest ih =>
      rw [identEnd]
      by_cases h : isLetter ch ∨ isDigit ch
      · have h' : isNameChar ch = true := by simpa [isNameChar] using h
        rw [if_pos h, List.takeWhile_cons_of_pos h', ih, List.length_cons]
        omega
      · have h' : ¬ isNameChar ch = true := by simpa [isNameChar] using h
        rw [if_neg h, List.takeWhile_cons_of_neg h']
        rfl

theorem isNameChar_of_isLetter {ch : Char} (h : isLetter ch = true) : isNameChar ch = true := by
  rw [isNameChar, h]
  rfl

def isCommentChar (ch : Char) : Bool := ch ≠ '\x00' ∧ ch ≠ '\n'

theorem commentEnd_eq (rest : List Char) (i : ℕ) :
    commentEnd rest i = i + (rest.takeWhile isCommentChar).length := by
  induction rest generalizing i with
  | nil => rfl
  | cons ch rest ih =>
      rw [commentEnd]
      by_cases h : ch ≠ '\x00' ∧ ch ≠ '\n'
      · have h' : isCommentChar ch = true := by simpa [isCommentChar] using h
        rw [if_pos h, List.takeWhile_cons_of_pos h', ih, List.length_cons]
        omega
      · have h' : ¬ isCommentChar ch = true := by
          simpa only [isCommentChar, decide_eq_true_eq] using h
        rw [if_neg h, List.takeWhile_cons_of_neg h']
        rfl

/-- The same iteration, `n` places further on. -/
def Scan.shift (n : ℕ) : Scan → Scan
  | .finish => .finish
  | .skip pos line => .skip (n + pos) line
  | .token tok last => .token tok (n + last)

theorem scanPrefix_shift (str : List Char) (pos : ℕ) :
    scanPrefix str pos = ((scanPrefix (str.drop pos) 0).1, (scanPrefix (str.drop pos) 0).2.1,
      pos + (scanPrefix (str.drop pos) 0).2.2) := by
  simp only [scanPrefix, charAt_drop, Nat.add_zero, Nat.zero_add]
  split_ifs <;> rfl

/-- The characters the loop of `scan_intliteral` takes. -/
def isLiteralChar (isHex isOct : Bool) (ch : Char) : Bool :=
  (isDigit ch && !(isOct && (ch = '8' || ch = '9'))) || (isHex && isHexLetter ch)

theorem intliteralEnd_eq {isHex isOct : Bool} {line : ℕ} {rest : List Char} {i j : ℕ}
    (h : intliteralEnd isHex isOct line rest i = .ok j) :
    j = i + (rest.takeWhile (isLiteralChar isHex isOct)).length := by
  induction rest generalizing i with
  | nil => cases h; rfl
  | cons ch rest ih =>
      rw [intliteralEnd] at h
      by_cases hoct : isOct ∧ (ch = '8' ∨ ch = '9')
      · rw [if_pos hoct] at h
        cases h
      · rw [if_neg hoct] at h
        by_cases hdigit : isDigit ch
        · have hch : isLiteralChar isHex isOct ch = true := by
            cases isOct <;> simp_all [isLiteralChar]
          rw [if_pos hdigit] at h
          rw [List.takeWhile_cons_of_pos hch, List.length_cons, ih h]
          omega
        · rw [if_neg hdigit] at h
          by_cases hhex : isHex ∧ isHexLetter ch
          · have hch : isLiteralChar isHex isOct ch = true := by
              simp [isLiteralChar, hhex]
            rw [if_pos hhex] at h
            rw [List.takeWhile_cons_of_pos hch, List.length_cons, ih h]
            omega
          · have hch : ¬ isLiteralChar isHex isOct ch = true := by
              cases isHex <;> simp_all [isLiteralChar]
            rw [if_neg hhex] at h
            by_cases hletter : isLetter ch
            · rw [if_pos hletter] at h
              cases h
            · rw [if_neg hletter] at h
              rw [List.takeWhile_cons_of_neg hch]
              cases h
              rfl

theorem scanPrefix_cases (str : List Char) :
    charAt str 0 = '0' ∧ charAt str 1 = 'x' ∧ scanPrefix str 0 = (true, false, 2) ∨
      charAt str 0 = '0' ∧ charAt str 1 ≠ 'x' ∧ scanPrefix str 0 = (false, true, 1) ∨
      (charAt str 0 = '0' → charAt str 1 = '\x00') ∧ scanPrefix str 0 = (false, false, 0) := by
  unfold scanPrefix
  split_ifs with h0 hx hnul
  · exact .inl ⟨h0, hx, rfl⟩
  · exact .inr (.inl ⟨h0, hx, rfl⟩)
  · exact .inr (.inr ⟨fun _ => not_not.mp hnul, rfl⟩)
  · exact .inr (.inr ⟨fun h => absurd h h0, rfl⟩)

/-- A literal takes at least the digit it starts with. -/
theorem intliteralEnd_pos {str : List Char} (hdigit : isDigit (charAt str 0)) {line j : ℕ}
    (h : intliteralEnd (scanPrefix str 0).1 (scanPrefix str 0).2.1 line
      (str.drop (scanPrefix str 0).2.2) (scanPrefix str 0).2.2 = .ok j) : 0 < j := by
  have hj := intliteralEnd_eq h
  rcases scanPrefix_cases str with ⟨-, -, hp⟩ | ⟨-, -, hp⟩ | ⟨-, hp⟩
  · simp only [hp] at hj
    omega
  · simp only [hp] at hj
    omega
  · simp only [hp] at hj
    cases str with
    | nil => cases hdigit
    | cons ch rest =>
        have hdigit' : isDigit ch = true := hdigit
        have hch : isLiteralChar false false ch = true := by
          simp [isLiteralChar, hdigit']
        rw [List.drop_zero, List.takeWhile_cons_of_pos hch, List.length_cons] at hj
        omega

theorem scanIntliteral_shift {str : List Char} {pos : ℕ} (hdigit : isDigit (charAt str pos))
    (line : ℕ) : scanIntliteral str pos line =
      (scanIntliteral (str.drop pos) 0 line).map fun r => (r.1, pos + r.2) := by
  rw [← charAt_drop_zero] at hdigit
  have hpos : ∀ j, intliteralEnd _ _ line _ _ = .ok j → 0 < j :=
    fun j h => intliteralEnd_pos hdigit h
  simp only [scanIntliteral, scanPrefix_shift str pos, ← List.drop_drop, intliteralEnd_shift]
  generalize intliteralEnd (scanPrefix (str.drop pos) 0).1 (scanPrefix (str.drop pos) 0).2.1 line
    ((str.drop pos).drop (scanPrefix (str.drop pos) 0).2.2) (scanPrefix (str.drop pos) 0).2.2 = r
    at hpos
  cases r with
  | error e => rfl
  | ok j =>
      have hlast : pos + j - 1 = pos + (j - 1) := by have := hpos j rfl; omega
      simp only [Except.map, Nat.add_sub_cancel_left, hlast]
      rfl

theorem identEnd_pos {str : List Char} (hletter : isLetter (charAt str 0)) :
    0 < identEnd str 0 := by
  cases str with
  | nil => cases hletter
  | cons ch rest =>
      have hch : isNameChar ch = true := isNameChar_of_isLetter hletter
      rw [identEnd_eq, List.takeWhile_cons_of_pos hch, List.length_cons]
      omega

theorem scanIdent_shift {str : List Char} {pos : ℕ} (hletter : isLetter (charAt str pos)) :
    scanIdent str pos = ((scanIdent (str.drop pos) 0).1, pos + (scanIdent (str.drop pos) 0).2) := by
  rw [← charAt_drop_zero] at hletter
  have hpos := identEnd_pos hletter
  have hend : identEnd (str.drop pos) pos = pos + identEnd (str.drop pos) 0 := by
    rw [identEnd_eq, identEnd_eq, Nat.zero_add]
  have hlast : pos + identEnd (str.drop pos) 0 - 1 = pos + (identEnd (str.drop pos) 0 - 1) := by
    omega
  simp only [scanIdent, hend, Nat.add_sub_cancel_left, hlast]
  rfl

/-- **An iteration reads the rest of the string only.** -/
theorem scanNext_shift (str : List Char) (pos line : ℕ) :
    scanNext str pos line = (scanNext (str.drop pos) 0 line).map (Scan.shift pos) := by
  have hcomment : commentEnd (str.drop pos) pos = pos + commentEnd (str.drop pos) 0 := by
    rw [commentEnd_eq, commentEnd_eq, Nat.zero_add]
  have hnext : charAt (str.drop pos) (0 + 1) = charAt str (pos + 1) := charAt_drop str pos 1
  rw [scanNext, scanNext, charAt_drop_zero, hnext, List.drop_zero]
  split_ifs with h1 h2 h3 h4 h5 h6
  · rfl
  · rfl
  · rfl
  · rw [scanIdent_shift h4]
    rfl
  · rw [scanIntliteral_shift h5]
    cases scanIntliteral (str.drop pos) 0 line <;> rfl
  · rw [hcomment]
    rfl
  · cases symbolType (charAt str pos) (charAt str (pos + 1) = '=') with
    | none => rfl
    | some r => simp [Except.map, Scan.shift]

/-- **The loop reads the rest of the string only.** -/
theorem tokenizeLoop_drop (str : List Char) (fuel pos line : ℕ) :
    tokenizeLoop str fuel pos line = tokenizeLoop (str.drop pos) fuel 0 line := by
  induction fuel generalizing str pos line with
  | zero => rfl
  | succ fuel ih =>
      rw [tokenizeLoop, tokenizeLoop, scanNext_shift str pos]
      cases scanNext (str.drop pos) 0 line with
      | error e => rfl
      | ok scan =>
          cases scan with
          | finish => rfl
          | skip n line' =>
              simp only [Except.map, Scan.shift]
              rw [ih str, ih (str.drop pos), List.drop_drop]
          | token tok last =>
              simp only [Except.map, Scan.shift]
              rw [ih str, ih (str.drop pos), List.drop_drop, Nat.add_assoc]

/-! ## The tokens of the language -/

def isOctalDigit (ch : Char) : Bool := '0' ≤ ch ∧ ch ≤ '7'

def isHexDigit (ch : Char) : Bool := isDigit ch || isHexLetter ch

/-- A letter or underscore, and letters, underscores and digits behind it. -/
structure IsName (name : List Char) : Prop where
  head : isLetter (charAt name 0)
  chars : ∀ ch ∈ name, isNameChar ch

/-- The forms of a literal that `scan_intliteral` accepts. -/
inductive IsLiteral : List Char → Prop
  | hex (ds : List Char) (h : ∀ ch ∈ ds, isHexDigit ch) : IsLiteral ('0' :: 'x' :: ds)
  | octal (ds : List Char) (h : ∀ ch ∈ ds, isOctalDigit ch) : IsLiteral ('0' :: ds)
  | decimal (d : Char) (ds : List Char) (hd : isDigit d) (h0 : d ≠ '0')
      (h : ∀ ch ∈ ds, isDigit ch) : IsLiteral (d :: ds)

/-- The texts of brackets, separators and operators. -/
def symbols : List (TokenType × String) :=
  [(.tokOpenpa, "("), (.tokClosepa, ")"), (.tokOpenbr, "\x7b"), (.tokClosebr, "\x7d"),
   (.tokComma, ","), (.tokSemicl, ";"), (.tokEq, "="), (.tokEqeq, "=="), (.tokNeq, "!="),
   (.tokGt, ">"), (.tokLt, "<"), (.tokGe, ">="), (.tokLe, "<="), (.tokPlus, "+"),
   (.tokMinus, "-"), (.tokStar, "*"), (.tokSlash, "/"), (.tokPercent, "%")]

/-- The tokens of the language, but for the end of the text. -/
inductive Token.IsLexeme : Token → Prop
  | keyword {k : String × TokenType} (h : k ∈ keywords) : IsLexeme ⟨k.2, k.1⟩
  | identifier {name : List Char} (h : IsName name)
      (hk : ∀ k ∈ keywords, k.1 ≠ String.ofList name) :
      IsLexeme ⟨.tokIdentifier, String.ofList name⟩
  | intliteral {text : List Char} (h : IsLiteral text) :
      IsLexeme ⟨.tokIntliteral, String.ofList text⟩
  | symbol {s : TokenType × String} (h : s ∈ symbols) : IsLexeme ⟨s.1, ""⟩

/-- The characters of a token. -/
def Token.text (t : Token) : List Char :=
  match symbols.find? fun s => s.1 = t.type with
  | some s => s.2.toList
  | none => t.val.toList

/-! ### What an iteration accepts -/

theorem checkIdentType_lexeme {name : List Char} (h : IsName name) :
    Token.IsLexeme ⟨checkIdentType (String.ofList name), String.ofList name⟩ := by
  rw [checkIdentType]
  cases hfind : keywords.find? fun k => k.1 = String.ofList name with
  | none =>
      apply Token.IsLexeme.identifier h
      intro k hk
      simpa using List.find?_eq_none.mp hfind k hk
  | some k =>
      have hval : k.1 = String.ofList name := by simpa using List.find?_some hfind
      rw [← hval]
      exact .keyword (List.mem_of_find?_eq_some hfind)

/-- What is in front of the end of a run of characters. -/
theorem take_takeWhile {p : Char → Bool} (str : List Char) :
    str.take (str.takeWhile p).length = str.takeWhile p :=
  (List.prefix_iff_eq_take.mp (List.takeWhile_prefix p)).symm

theorem scanIdent_lexeme {str : List Char} (h : isLetter (charAt str 0)) :
    (scanIdent str 0).1.IsLexeme := by
  rw [scanIdent, strndup, identEnd_eq, List.drop_zero, Nat.zero_add, Nat.sub_zero, take_takeWhile]
  apply checkIdentType_lexeme
  constructor
  · cases str with
    | nil => cases h
    | cons ch rest =>
        have hch : isNameChar ch = true := isNameChar_of_isLetter h
        rw [List.takeWhile_cons_of_pos hch]
        exact h
  · intro ch hch
    exact List.mem_takeWhile_imp hch

theorem isLiteralChar_hex : isLiteralChar true false = isHexDigit := by
  funext ch
  simp [isLiteralChar, isHexDigit]

theorem isLiteralChar_decimal : isLiteralChar false false = isDigit := by
  funext ch
  simp [isLiteralChar]

theorem isDigit_iff (ch : Char) : isDigit ch = true ↔ 48 ≤ ch.toNat ∧ ch.toNat ≤ 57 := by
  rw [isDigit, decide_eq_true_eq, Char.le_def, Char.le_def, UInt32.le_iff_toNat_le,
    UInt32.le_iff_toNat_le]
  rfl

theorem isOctalDigit_iff (ch : Char) :
    isOctalDigit ch = true ↔ 48 ≤ ch.toNat ∧ ch.toNat ≤ 55 := by
  rw [isOctalDigit, decide_eq_true_eq, Char.le_def, Char.le_def, UInt32.le_iff_toNat_le,
    UInt32.le_iff_toNat_le]
  rfl

theorem isLiteralChar_octal : isLiteralChar false true = isOctalDigit := by
  funext ch
  have h8 : ch = '8' ↔ ch.toNat = 56 := Char.toNat_inj.symm
  have h9 : ch = '9' ↔ ch.toNat = 57 := Char.toNat_inj.symm
  rw [Bool.eq_iff_iff, isOctalDigit_iff]
  simp only [isLiteralChar, Bool.false_and, Bool.or_false, Bool.true_and, Bool.and_eq_true,
    isDigit_iff, Bool.not_eq_true', Bool.or_eq_false_iff, decide_eq_false_iff_not, h8, h9]
  omega

/-- The characters of a list at its first places. -/
theorem eq_cons_of_charAt {str : List Char} {ch : Char} (h : charAt str 0 = ch)
    (hne : ch ≠ '\x00') :
    str = ch :: str.drop 1 := by
  cases str with
  | nil => exact absurd h.symm hne
  | cons c rest =>
      have hc : c = ch := h
      rw [hc]
      rfl

/-- The text of a literal: the prefix, and the run of characters behind it. -/
def literalText (str : List Char) : List Char :=
  str.take (scanPrefix str 0).2.2 ++ (str.drop (scanPrefix str 0).2.2).takeWhile
    (isLiteralChar (scanPrefix str 0).1 (scanPrefix str 0).2.1)

theorem scanIntliteral_text {str : List Char} {line last : ℕ} {tok : Token}
    (h : scanIntliteral str 0 line = .ok (tok, last)) :
    tok = ⟨.tokIntliteral, String.ofList (literalText str)⟩ := by
  rw [scanIntliteral] at h
  cases hend : intliteralEnd (scanPrefix str 0).1 (scanPrefix str 0).2.1 line
      (str.drop (scanPrefix str 0).2.2) (scanPrefix str 0).2.2 with
  | error e =>
      simp only [hend] at h
      cases h
  | ok j =>
      simp only [hend, Except.ok.injEq, Prod.mk.injEq] at h
      obtain ⟨rfl, -⟩ := h
      rw [strndup, List.drop_zero, Nat.sub_zero, intliteralEnd_eq hend, List.take_add,
        take_takeWhile, literalText]

theorem literalText_literal {str : List Char} (hdigit : isDigit (charAt str 0)) :
    IsLiteral (literalText str) := by
  rw [literalText]
  rcases scanPrefix_cases str with ⟨h0, hx, hp⟩ | ⟨h0, -, hp⟩ | ⟨h0, hp⟩
  · have hstr := eq_cons_of_charAt h0 (by decide)
    rw [← charAt_drop_zero] at hx
    have hstr' := eq_cons_of_charAt hx (by decide)
    simp only [hp, isLiteralChar_hex]
    rw [hstr, hstr', List.drop_drop]
    exact .hex _ fun ch hch => List.mem_takeWhile_imp hch
  · have hstr := eq_cons_of_charAt h0 (by decide)
    simp only [hp, isLiteralChar_octal]
    rw [hstr]
    exact .octal _ fun ch hch => List.mem_takeWhile_imp hch
  · simp only [hp, isLiteralChar_decimal, List.drop_zero, List.take_zero, List.nil_append]
    cases str with
    | nil => cases hdigit
    | cons ch rest =>
        have hch : isDigit ch = true := hdigit
        rw [List.takeWhile_cons_of_pos hch]
        by_cases hzero : ch = '0'
        · -- a lone zero, at the end of the string
          have hnul : charAt rest 0 = '\x00' := h0 hzero
          have hrest : rest.takeWhile isDigit = [] := by
            cases rest with
            | nil => rfl
            | cons c rest =>
                have hc : c = '\x00' := hnul
                rw [hc]
                rfl
          rw [hrest, hzero]
          exact .octal [] (by simp)
        · exact .decimal ch _ hch hzero fun c hc => List.mem_takeWhile_imp hc

theorem scanIntliteral_lexeme {str : List Char} (hdigit : isDigit (charAt str 0)) {line last : ℕ}
    {tok : Token} (h : scanIntliteral str 0 line = .ok (tok, last)) : tok.IsLexeme := by
  rw [scanIntliteral_text h]
  exact .intliteral (literalText_literal hdigit)

theorem findCase_mem {cs : List (Char × TokenType)} {ch : Char} {type : TokenType}
    (h : findCase cs ch = some type) : (ch, type) ∈ cs := by
  rw [findCase, Option.map_eq_some_iff] at h
  obtain ⟨c, hc, rfl⟩ := h
  have hch : c.1 = ch := by simpa using List.find?_some hc
  rw [← hch]
  exact List.mem_of_find?_eq_some hc

theorem symbolType_mem {ch : Char} {eqNext : Bool} {type : TokenType} {more : ℕ}
    (h : symbolType ch eqNext = some (type, more)) : ∃ s ∈ symbols, s.1 = type := by
  have htypes : ∀ c ∈ symbolEqCases ++ symbolCases, c.2 ∈ symbols.map Prod.fst := by decide
  have hmem : ∃ c ∈ symbolEqCases ++ symbolCases, c.2 = type := by
    rw [symbolType] at h
    cases hcase : (if eqNext then findCase symbolEqCases ch else none) with
    | some type' =>
        rw [hcase] at h
        cases h
        cases eqNext with
        | true => exact ⟨_, List.mem_append_left _ (findCase_mem hcase), rfl⟩
        | false => cases hcase
    | none =>
        rw [hcase] at h
        simp only [Option.map_eq_some_iff, Prod.mk.injEq] at h
        obtain ⟨type', htype, rfl, -⟩ := h
        exact ⟨_, List.mem_append_right _ (findCase_mem htype), rfl⟩
  obtain ⟨c, hc, rfl⟩ := hmem
  exact List.mem_map.mp (htypes c hc)

theorem symbolType_lexeme {ch : Char} {eqNext : Bool} {type : TokenType} {more : ℕ}
    (h : symbolType ch eqNext = some (type, more)) : Token.IsLexeme ⟨type, ""⟩ := by
  obtain ⟨s, hs, rfl⟩ := symbolType_mem h
  exact .symbol hs

/-- **An iteration makes tokens of the language.** -/
theorem scanNext_lexeme {str : List Char} {line last : ℕ} {tok : Token}
    (h : scanNext str 0 line = .ok (.token tok last)) : tok.IsLexeme := by
  rw [scanNext] at h
  split_ifs at h with h1 h2 h3 h4 h5 h6
  · cases h
  · cases h
  · cases h
  · cases h
    exact scanIdent_lexeme h4
  · cases hscan : scanIntliteral str 0 line with
    | error e =>
        rw [hscan] at h
        cases h
    | ok r =>
        rw [hscan] at h
        cases h
        exact scanIntliteral_lexeme h5 hscan
  · cases h
  · cases hsym : symbolType (charAt str 0) (charAt str (0 + 1) = '=') with
    | none =>
        rw [hsym] at h
        cases h
    | some r =>
        rw [hsym] at h
        cases h
        exact symbolType_lexeme hsym

/-- **The tokens of an accepted string** are tokens of the language, and the end. -/
theorem tokenizeLoop_lexemes {str : List Char} {fuel line : ℕ} {toks : List Token}
    (h : tokenizeLoop str fuel 0 line = .ok toks) :
    ∃ ts, toks = ts ++ [tokEof] ∧ ∀ t ∈ ts, t.IsLexeme := by
  induction fuel generalizing str line toks with
  | zero => cases h
  | succ fuel ih =>
      rw [tokenizeLoop] at h
      cases hscan : scanNext str 0 line with
      | error e =>
          rw [hscan] at h
          cases h
      | ok scan =>
          rw [hscan] at h
          cases scan with
          | finish =>
              cases h
              exact ⟨[], rfl, by simp⟩
          | skip pos line' =>
              simp only at h
              rw [tokenizeLoop_drop] at h
              exact ih h
          | token tok last =>
              simp only at h
              rw [tokenizeLoop_drop] at h
              cases hrest : tokenizeLoop (str.drop (last + 1)) fuel 0 line with
              | error e =>
                  rw [hrest] at h
                  cases h
              | ok rest =>
                  rw [hrest] at h
                  cases h
                  obtain ⟨ts, rfl, hts⟩ := ih hrest
                  refine ⟨tok :: ts, rfl, ?_⟩
                  intro t ht
                  rcases List.mem_cons.mp ht with rfl | ht
                  · exact scanNext_lexeme hscan
                  · exact hts t ht

/-- Every token but the last was read somewhere. -/
theorem tokenizeLoop_scanned {str : List Char} {fuel pos line : ℕ} {toks : List Token}
    (h : tokenizeLoop str fuel pos line = .ok toks) {tok : Token} (hmem : tok ∈ toks) :
    tok = tokEof ∨ ∃ pos line last, scanNext str pos line = .ok (.token tok last) := by
  induction fuel generalizing pos line toks with
  | zero => cases h
  | succ fuel ih =>
      rw [tokenizeLoop] at h
      cases hscan : scanNext str pos line with
      | error e =>
          rw [hscan] at h
          cases h
      | ok scan =>
          rw [hscan] at h
          cases scan with
          | finish =>
              cases h
              exact .inl (List.mem_singleton.mp hmem)
          | skip pos' line' => exact ih h hmem
          | token first last =>
              simp only at h
              cases hrest : tokenizeLoop str fuel (last + 1) line with
              | error e =>
                  rw [hrest] at h
                  cases h
              | ok rest =>
                  rw [hrest] at h
                  cases h
                  rcases List.mem_cons.mp hmem with rfl | hmem
                  · exact .inr ⟨pos, line, last, hscan⟩
                  · exact ih hrest hmem

theorem intliteralEnd_error {isHex isOct : Bool} {line : ℕ} {rest : List Char} {i : ℕ}
    {e : LexError} (h : intliteralEnd isHex isOct line rest i = .error e) : e ≠ .outOfFuel := by
  induction rest generalizing i with
  | nil => cases h
  | cons ch rest ih =>
      rw [intliteralEnd] at h
      split_ifs at h
      · cases h
        simp
      · exact ih h
      · exact ih h
      · cases h
        simp

theorem scanIntliteral_error {str : List Char} {line : ℕ} {e : LexError}
    (h : scanIntliteral str 0 line = .error e) : e ≠ .outOfFuel := by
  rw [scanIntliteral] at h
  cases hend : intliteralEnd (scanPrefix str 0).1 (scanPrefix str 0).2.1 line
      (str.drop (scanPrefix str 0).2.2) (scanPrefix str 0).2.2 with
  | error e' =>
      simp only [hend] at h
      cases h
      exact intliteralEnd_error hend
  | ok j =>
      simp only [hend] at h
      cases h

theorem scanNext_error {str : List Char} {line : ℕ} {e : LexError}
    (h : scanNext str 0 line = .error e) : e ≠ .outOfFuel := by
  rw [scanNext] at h
  split_ifs at h
  · cases hscan : scanIntliteral str 0 line with
    | error e' =>
        rw [hscan] at h
        cases h
        exact scanIntliteral_error hscan
    | ok r =>
        rw [hscan] at h
        cases h
  · cases hsym : symbolType (charAt str 0) (charAt str (0 + 1) = '=') with
    | none =>
        rw [hsym] at h
        cases h
        simp
    | some r =>
        rw [hsym] at h
        cases h

theorem commentEnd_pos {str : List Char} (h : isCommentChar (charAt str 0)) :
    0 < commentEnd str 0 := by
  cases str with
  | nil => cases h
  | cons ch rest =>
      have hch : isCommentChar ch = true := h
      rw [commentEnd_eq, List.takeWhile_cons_of_pos hch, List.length_cons]
      omega

/-- An iteration that goes on moves on. -/
theorem scanNext_skip {str : List Char} {line pos line' : ℕ}
    (h : scanNext str 0 line = .ok (.skip pos line')) : 0 < pos := by
  rw [scanNext] at h
  by_cases h1 : charAt str 0 = '\x00'
  · rw [if_pos h1] at h
    cases h
  rw [if_neg h1] at h
  by_cases h2 : charAt str 0 = '\n'
  · rw [if_pos h2] at h
    cases h
    omega
  rw [if_neg h2] at h
  by_cases h3 : charAt str 0 = ' ' ∨ charAt str 0 = '\t' ∨ charAt str 0 = '\r'
  · rw [if_pos h3] at h
    cases h
    omega
  rw [if_neg h3] at h
  by_cases h4 : isLetter (charAt str 0)
  · rw [if_pos h4] at h
    cases h
  rw [if_neg h4] at h
  by_cases h5 : isDigit (charAt str 0)
  · rw [if_pos h5] at h
    cases hscan : scanIntliteral str 0 line with
    | error e =>
        rw [hscan] at h
        cases h
    | ok r =>
        rw [hscan] at h
        cases h
  rw [if_neg h5] at h
  by_cases h6 : charAt str 0 = '/' ∧ charAt str (0 + 1) = '/'
  · rw [if_pos h6] at h
    cases h
    have hslash : isCommentChar (charAt str 0) = true := by
      rw [h6.1]
      decide
    exact commentEnd_pos hslash
  rw [if_neg h6] at h
  cases hsym : symbolType (charAt str 0) (charAt str (0 + 1) = '=') with
  | none =>
      rw [hsym] at h
      cases h
  | some r =>
      rw [hsym] at h
      cases h

/-- **The fuel suffices**: the lexer ends on every string. -/
theorem tokenizeLoop_ends {str : List Char} {fuel line : ℕ} (hfuel : str.length < fuel) :
    tokenizeLoop str fuel 0 line ≠ .error .outOfFuel := by
  induction fuel generalizing str line with
  | zero => cases hfuel
  | succ fuel ih =>
      intro h
      rw [tokenizeLoop] at h
      cases hscan : scanNext str 0 line with
      | error e =>
          rw [hscan] at h
          cases h
          exact scanNext_error hscan rfl
      | ok scan =>
          rw [hscan] at h
          have hne : scan ≠ .finish → 0 < str.length := by
            intro hgo
            cases str with
            | nil =>
                cases hscan
                exact absurd rfl hgo
            | cons ch rest => exact Nat.succ_pos _
          cases scan with
          | finish => cases h
          | skip pos line' =>
              have hpos := scanNext_skip hscan
              have hlen := hne (by simp)
              simp only at h
              rw [tokenizeLoop_drop] at h
              refine ih ?_ h
              rw [List.length_drop]
              omega
          | token tok last =>
              have hlen := hne (by simp)
              simp only at h
              rw [tokenizeLoop_drop] at h
              cases hrest : tokenizeLoop (str.drop (last + 1)) fuel 0 line with
              | error e =>
                  rw [hrest] at h
                  cases h
                  refine ih ?_ hrest
                  rw [List.length_drop]
                  omega
              | ok rest =>
                  rw [hrest] at h
                  cases h

/-- `tokenize_string` ends on every string. -/
theorem tokenizeString_ends (str : String) : tokenizeString str ≠ .error .outOfFuel :=
  tokenizeLoop_ends (Nat.lt_succ_self _)

/-! ### What an iteration reads back -/

/-- A space, a tab, a carriage return or a newline. -/
def blanks : List Char := [' ', '\t', '\r', '\n']

theorem forall_blanks {P : Char → Prop} :
    (∀ c ∈ blanks, P c) ↔ P ' ' ∧ P '\t' ∧ P '\r' ∧ P '\n' := by
  simp [blanks]

theorem isNameChar_blank : ∀ c ∈ blanks, isNameChar c = false := forall_blanks.mpr (by decide)

theorem takeWhile_append_cons {p : Char → Bool} {l rest : List Char} {c : Char}
    (hl : ∀ ch ∈ l, p ch = true) (hc : p c = false) : (l ++ c :: rest).takeWhile p = l := by
  rw [List.takeWhile_append_of_pos hl, List.takeWhile_cons_of_neg (by simp [hc]), List.append_nil]

theorem charAt_append {l : List Char} (hl : l ≠ []) (rest : List Char) :
    charAt (l ++ rest) 0 = charAt l 0 := by
  cases l with
  | nil => exact absurd rfl hl
  | cons ch l => rfl

theorem IsName.ne_nil {name : List Char} (h : IsName name) : name ≠ [] := by
  rintro rfl
  cases h.head

/-- A character of a class is none of the characters outside it. -/
theorem ne_of_class {p : Char → Bool} {ch c : Char} (h : p ch = true) (hc : p c = false) :
    ch ≠ c := by
  rintro rfl
  rw [h] at hc
  cases hc

theorem not_isLetter_of_isDigit {ch : Char} (h : isDigit ch = true) : ¬ isLetter ch = true := by
  rw [isDigit_iff] at h
  have hunder : ch = '_' ↔ ch.toNat = 95 := Char.toNat_inj.symm
  rw [isLetter, decide_eq_true_eq, Char.le_def, Char.le_def, Char.le_def, Char.le_def,
    UInt32.le_iff_toNat_le, UInt32.le_iff_toNat_le, UInt32.le_iff_toNat_le,
    UInt32.le_iff_toNat_le, hunder]
  change ¬ (65 ≤ ch.toNat ∧ ch.toNat ≤ 90 ∨ 97 ≤ ch.toNat ∧ ch.toNat ≤ 122 ∨ ch.toNat = 95)
  omega

theorem scanNext_of_isLetter {str : List Char} (h : isLetter (charAt str 0)) (line : ℕ) :
    scanNext str 0 line = .ok (.token (scanIdent str 0).1 (scanIdent str 0).2) := by
  have hblank : ¬ (charAt str 0 = ' ' ∨ charAt str 0 = '\t' ∨ charAt str 0 = '\r') := by
    rintro (hch | hch | hch) <;> exact ne_of_class h (by decide) hch
  rw [scanNext, if_neg (ne_of_class h (by decide)), if_neg (ne_of_class h (by decide)),
    if_neg hblank, if_pos h]

theorem scanNext_of_isDigit {str : List Char} (h : isDigit (charAt str 0)) (line : ℕ) :
    scanNext str 0 line = match scanIntliteral str 0 line with
      | .error e => .error e
      | .ok (tok, last) => .ok (.token tok last) := by
  have hletter : ¬ isLetter (charAt str 0) = true := not_isLetter_of_isDigit h
  have hblank : ¬ (charAt str 0 = ' ' ∨ charAt str 0 = '\t' ∨ charAt str 0 = '\r') := by
    rintro (hch | hch | hch) <;> exact ne_of_class h (by decide) hch
  rw [scanNext, if_neg (ne_of_class h (by decide)), if_neg (ne_of_class h (by decide)),
    if_neg hblank, if_neg hletter]
  exact if_pos h

theorem scanNext_name {name rest : List Char} {c : Char} (h : IsName name) (hc : c ∈ blanks)
    (line : ℕ) : scanNext (name ++ c :: rest) 0 line =
      .ok (.token ⟨checkIdentType (String.ofList name), String.ofList name⟩ (name.length - 1)) := by
  have hhead : isLetter (charAt (name ++ c :: rest) 0) := by
    rw [charAt_append h.ne_nil]
    exact h.head
  rw [scanNext_of_isLetter hhead, scanIdent, strndup, identEnd_eq, List.drop_zero,
    takeWhile_append_cons h.chars (isNameChar_blank c hc), Nat.zero_add, Nat.sub_zero,
    List.take_left]

theorem intliteralEnd_run {isHex isOct : Bool} {ds rest : List Char} {c : Char}
    (hds : ∀ ch ∈ ds, isLiteralChar isHex isOct ch = true) (hc : c ∈ blanks) (line i : ℕ) :
    intliteralEnd isHex isOct line (ds ++ c :: rest) i = .ok (i + ds.length) := by
  induction ds generalizing i with
  | nil =>
      have hclass : ∀ c ∈ blanks, ¬ (isOct = true ∧ (c = '8' ∨ c = '9')) ∧ ¬ isDigit c = true ∧
          ¬ (isHex = true ∧ isHexLetter c = true) ∧ ¬ isLetter c = true := by
        rw [forall_blanks]
        cases isHex <;> cases isOct <;> decide
      obtain ⟨h1, h2, h3, h4⟩ := hclass c hc
      rw [List.nil_append, intliteralEnd, if_neg h1, if_neg h2, if_neg h3, if_neg h4]
      rfl
  | cons ch ds ih =>
      have hch := hds ch List.mem_cons_self
      have hstep : intliteralEnd isHex isOct line (ch :: (ds ++ c :: rest)) i =
          intliteralEnd isHex isOct line (ds ++ c :: rest) (i + 1) := by
        rw [intliteralEnd]
        by_cases hdigit : isDigit ch
        · have hoct : ¬ (isOct = true ∧ (ch = '8' ∨ ch = '9')) := by
            rintro ⟨rfl, rfl | rfl⟩ <;> cases isHex <;> exact absurd hch (by decide)
          rw [if_neg hoct, if_pos hdigit]
        · have hhex : isHex = true ∧ isHexLetter ch = true := by
            simpa [isLiteralChar, hdigit] using hch
          have hoct : ¬ (isOct = true ∧ (ch = '8' ∨ ch = '9')) := by
            rintro ⟨-, rfl | rfl⟩ <;> exact hdigit (by decide)
          rw [if_neg hoct, if_neg hdigit, if_pos hhex]
      rw [List.cons_append, hstep, ih (fun d hd => hds d (List.mem_cons_of_mem ch hd)),
        List.length_cons]
      congr 1
      omega

theorem scanNext_digits {isHex isOct : Bool} {front ds rest : List Char} {c : Char}
    (hpre : scanPrefix (front ++ ds ++ c :: rest) 0 = (isHex, isOct, front.length))
    (hdigit : isDigit (charAt (front ++ ds ++ c :: rest) 0))
    (hds : ∀ ch ∈ ds, isLiteralChar isHex isOct ch = true) (hc : c ∈ blanks) (line : ℕ) :
    scanNext (front ++ ds ++ c :: rest) 0 line = .ok (.token
      ⟨.tokIntliteral, String.ofList (front ++ ds)⟩ ((front ++ ds).length - 1)) := by
  rw [scanNext_of_isDigit hdigit, scanIntliteral, hpre]
  simp only
  rw [List.append_assoc, List.drop_left, intliteralEnd_run hds hc, ← List.length_append,
    ← List.append_assoc]
  simp only
  rw [strndup, List.drop_zero, Nat.sub_zero, List.take_left]

theorem scanNext_literal {text rest : List Char} {c : Char} (h : IsLiteral text) (hc : c ∈ blanks)
    (line : ℕ) : scanNext (text ++ c :: rest) 0 line =
      .ok (.token ⟨.tokIntliteral, String.ofList text⟩ (text.length - 1)) := by
  have hzero : isDigit '0' = true := by decide
  cases h with
  | hex ds h =>
      have hds : ∀ ch ∈ ds, isLiteralChar true false ch = true := by
        simpa [isLiteralChar_hex] using h
      have hpre : scanPrefix (['0', 'x'] ++ ds ++ c :: rest) 0 = (true, false, 2) := rfl
      exact scanNext_digits hpre hzero hds hc line
  | octal ds h =>
      have hds : ∀ ch ∈ ds, isLiteralChar false true ch = true := by
        simpa [isLiteralChar_octal] using h
      have hnext : charAt (ds ++ c :: rest) 0 ≠ 'x' ∧ charAt (ds ++ c :: rest) 0 ≠ '\x00' := by
        cases ds with
        | nil =>
            have hblank : ∀ c ∈ blanks, c ≠ 'x' ∧ c ≠ '\x00' := forall_blanks.mpr (by decide)
            exact hblank c hc
        | cons d ds =>
            have hd := h d List.mem_cons_self
            exact ⟨ne_of_class hd (by decide), ne_of_class hd (by decide)⟩
      have hpre : scanPrefix (['0'] ++ ds ++ c :: rest) 0 = (false, true, 1) := by
        have h0 : charAt (['0'] ++ ds ++ c :: rest) 0 = '0' := rfl
        have h1 : charAt (['0'] ++ ds ++ c :: rest) (0 + 1) = charAt (ds ++ c :: rest) 0 := rfl
        rw [scanPrefix, h0, h1, if_pos rfl, if_neg hnext.1, if_pos hnext.2]
      exact scanNext_digits hpre hzero hds hc line
  | decimal d ds hd h0 h =>
      have hds : ∀ ch ∈ d :: ds, isLiteralChar false false ch = true := by
        simpa [isLiteralChar_decimal, hd] using h
      have hpre : scanPrefix ([] ++ (d :: ds) ++ c :: rest) 0 = (false, false, 0) := by
        have hchar : charAt ([] ++ (d :: ds) ++ c :: rest) 0 = d := rfl
        rw [scanPrefix, hchar, if_neg h0]
      exact scanNext_digits hpre hd hds hc line

/-- What decides about a bracket, separator or operator: its character and the next one. -/
theorem scanNext_symbol {s : TokenType × String} (hs : s ∈ symbols) {c : Char} (hc : c ∈ blanks)
    (rest : List Char) (line : ℕ) : scanNext (s.2.toList ++ c :: rest) 0 line =
      .ok (.token ⟨s.1, ""⟩ (s.2.toList.length - 1)) := by
  have hcases : ∀ s ∈ symbols, ∀ c ∈ blanks, s.2.toList ≠ [] ∧ s.2.toList.length ≤ 2 ∧
      charAt (s.2.toList ++ [c]) 0 ∉ '\x00' :: blanks ∧
      isLetter (charAt (s.2.toList ++ [c]) 0) = false ∧
      isDigit (charAt (s.2.toList ++ [c]) 0) = false ∧
      ¬ (charAt (s.2.toList ++ [c]) 0 = '/' ∧ charAt (s.2.toList ++ [c]) 1 = '/') ∧
      symbolType (charAt (s.2.toList ++ [c]) 0) (charAt (s.2.toList ++ [c]) 1 = '=') =
        some (s.1, s.2.toList.length - 1) := by
    simp only [forall_blanks]
    decide +kernel
  obtain ⟨hne, hlen, hspace, hletter, hdigit, hcomment, htype⟩ := hcases s hs c hc
  have hchar : ∀ i < 2, charAt (s.2.toList ++ c :: rest) i = charAt (s.2.toList ++ [c]) i := by
    intro i hi
    have hpos := List.length_pos_iff.mpr hne
    rw [charAt, charAt, List.getD_eq_getElem?_getD, List.getD_eq_getElem?_getD,
      show s.2.toList ++ c :: rest = (s.2.toList ++ [c]) ++ rest by simp,
      List.getElem?_append_left (by rw [List.length_append, List.length_singleton]; omega)]
  simp only [blanks, List.mem_cons, List.not_mem_nil, or_false, not_or] at hspace
  rw [scanNext, hchar 0 (by omega), hchar (0 + 1) (by omega), if_neg hspace.1,
    if_neg hspace.2.2.2.2, if_neg (by simp [hspace]), if_neg (by simp [hletter]),
    if_neg (by simp [hdigit]), if_neg hcomment, htype]
  simp

/-- **A token of the language is read back**, when a blank follows it. -/
theorem scanNext_text {t : Token} (h : t.IsLexeme) {c : Char} (hc : c ∈ blanks) (rest : List Char)
    (line : ℕ) : scanNext (t.text ++ c :: rest) 0 line = .ok (.token t (t.text.length - 1)) := by
  cases h with
  | @keyword k hk =>
      have hall : ∀ k ∈ keywords, Token.text ⟨k.2, k.1⟩ = k.1.toList ∧
          isLetter (charAt k.1.toList 0) = true ∧ k.1.toList.all isNameChar = true ∧
          checkIdentType k.1 = k.2 := by
        decide
      obtain ⟨htext, hhead, hchars, htype⟩ := hall k hk
      rw [htext, scanNext_name ⟨hhead, List.all_eq_true.mp hchars⟩ hc, String.ofList_toList, htype]
  | @identifier name hname hk =>
      have htext : Token.text ⟨.tokIdentifier, String.ofList name⟩ = name := String.toList_ofList
      have htype : checkIdentType (String.ofList name) = .tokIdentifier := by
        have hnone : keywords.find? (fun k => k.1 = String.ofList name) = none := by
          rw [List.find?_eq_none]
          intro k hmem
          simpa using hk k hmem
        rw [checkIdentType, hnone]
      rw [htext, scanNext_name hname hc, htype]
  | @intliteral text htext =>
      have htext' : Token.text ⟨.tokIntliteral, String.ofList text⟩ = text := String.toList_ofList
      rw [htext', scanNext_literal htext hc]
  | @symbol s hs =>
      have hall : ∀ s ∈ symbols, Token.text ⟨s.1, ""⟩ = s.2.toList := by decide
      rw [hall s hs, scanNext_symbol hs hc]

theorem Token.IsLexeme.text_ne_nil {t : Token} (h : t.IsLexeme) : t.text ≠ [] := by
  cases h with
  | @keyword k hk =>
      have hall : ∀ k ∈ keywords, Token.text ⟨k.2, k.1⟩ ≠ [] := by decide
      exact hall k hk
  | @identifier name hname hk =>
      have htext : Token.text ⟨.tokIdentifier, String.ofList name⟩ = name := String.toList_ofList
      rw [htext]
      exact hname.ne_nil
  | @intliteral text htext =>
      have htext' : Token.text ⟨.tokIntliteral, String.ofList text⟩ = text := String.toList_ofList
      rw [htext']
      cases htext <;> exact List.cons_ne_nil _ _
  | @symbol s hs =>
      have hall : ∀ s ∈ symbols, Token.text ⟨s.1, ""⟩ ≠ [] := by decide
      exact hall s hs

/-! ## Writing and reading -/

/-- What may follow the first blank behind a token. -/
inductive Filler
  | blank (ch : Char) (h : ch ∈ blanks)
  /-- A comment up to its newline. -/
  | comment (body : List Char) (h : ∀ ch ∈ body, isCommentChar ch)

def Filler.text : Filler → List Char
  | .blank ch _ => [ch]
  | .comment body _ => '/' :: '/' :: body ++ ['\n']

/-- A blank, and blanks and comments behind it. -/
structure Separator where
  first : Char
  first_blank : first ∈ blanks
  rest : List Filler

def Separator.text (sep : Separator) : List Char := sep.first :: sep.rest.flatMap Filler.text

/-- The texts of tokens, each with a separator behind it. -/
def render (items : List (Token × Separator)) : List Char :=
  items.flatMap fun item => item.1.text ++ item.2.text

/-- The lexer reads `toks` from `str`, from any line on. -/
def Reads (str : List Char) (toks : List Token) : Prop :=
  ∀ fuel line, str.length < fuel → tokenizeLoop str fuel 0 line = .ok toks

theorem reads_nil : Reads [] [tokEof] := by
  intro fuel line hfuel
  cases fuel with
  | zero => cases hfuel
  | succ fuel => rfl

theorem Reads.blank {c : Char} (hc : c ∈ blanks) {rest : List Char} {toks : List Token}
    (h : Reads rest toks) : Reads (c :: rest) toks := by
  intro fuel line hfuel
  cases fuel with
  | zero => cases hfuel
  | succ fuel =>
      have hscan : ∃ line', scanNext (c :: rest) 0 line = .ok (.skip 1 line') := by
        simp only [blanks, List.mem_cons, List.not_mem_nil, or_false] at hc
        rcases hc with rfl | rfl | rfl | rfl
        · exact ⟨line, rfl⟩
        · exact ⟨line, rfl⟩
        · exact ⟨line, rfl⟩
        · exact ⟨line + 1, rfl⟩
      obtain ⟨line', hscan⟩ := hscan
      rw [tokenizeLoop, hscan]
      simp only
      rw [tokenizeLoop_drop]
      exact h fuel line' (by simpa using hfuel)

theorem Reads.comment {body : List Char} (hbody : ∀ ch ∈ body, isCommentChar ch)
    {rest : List Char} {toks : List Token} (h : Reads rest toks) :
    Reads ('/' :: '/' :: body ++ '\n' :: rest) toks := by
  have hnewline := h.blank (show '\n' ∈ blanks by decide)
  intro fuel line hfuel
  cases fuel with
  | zero => cases hfuel
  | succ fuel =>
      have hall : ∀ ch ∈ '/' :: '/' :: body, isCommentChar ch = true := by
        have hslash : isCommentChar '/' = true := by decide
        simpa [hslash] using hbody
      have hend : commentEnd ('/' :: '/' :: body ++ '\n' :: rest) 0 = body.length + 2 := by
        rw [commentEnd_eq, takeWhile_append_cons hall (by decide)]
        simp
      have hscan : scanNext ('/' :: '/' :: body ++ '\n' :: rest) 0 line =
          .ok (.skip (body.length + 2) line) := by
        rw [← hend]
        rfl
      have hdrop : ('/' :: '/' :: body ++ '\n' :: rest).drop (body.length + 2) = '\n' :: rest := by
        simp
      rw [tokenizeLoop, hscan]
      simp only
      rw [tokenizeLoop_drop, hdrop]
      apply hnewline
      simp only [List.cons_append, List.length_cons, List.length_append] at hfuel ⊢
      omega

theorem Reads.fillers (fs : List Filler) {rest : List Char} {toks : List Token}
    (h : Reads rest toks) : Reads (fs.flatMap Filler.text ++ rest) toks := by
  induction fs with
  | nil => exact h
  | cons f fs ih =>
      rw [List.flatMap_cons, List.append_assoc]
      cases f with
      | blank ch hch => exact ih.blank hch
      | comment body hbody =>
          have hread := ih.comment hbody
          simpa [Filler.text] using hread

theorem Reads.token {t : Token} (ht : t.IsLexeme) {c : Char} (hc : c ∈ blanks) {rest : List Char}
    {toks : List Token} (h : Reads (c :: rest) toks) : Reads (t.text ++ c :: rest) (t :: toks) := by
  intro fuel line hfuel
  cases fuel with
  | zero => cases hfuel
  | succ fuel =>
      have hpos := List.length_pos_iff.mpr ht.text_ne_nil
      have hdrop : (t.text ++ c :: rest).drop (t.text.length - 1 + 1) = c :: rest := by
        rw [Nat.sub_add_cancel hpos, List.drop_left]
      rw [tokenizeLoop, scanNext_text ht hc]
      simp only
      rw [tokenizeLoop_drop, hdrop, h fuel line]
      rw [List.length_append] at hfuel
      omega

/-- **The lexer reads back what has been written.** -/
theorem reads_render (items : List (Token × Separator)) (h : ∀ item ∈ items, item.1.IsLexeme) :
    Reads (render items) (items.map Prod.fst ++ [tokEof]) := by
  induction items with
  | nil => exact reads_nil
  | cons item items ih =>
      have hrest := (ih fun i hi => h i (List.mem_cons_of_mem item hi)).fillers item.2.rest
      have hread := (hrest.blank item.2.first_blank).token (h item List.mem_cons_self)
        item.2.first_blank
      simpa [render, Separator.text] using hread

theorem tokenizeString_of_reads {str : List Char} {toks : List Token} (h : Reads str toks) :
    tokenizeString (String.ofList str) = .ok toks := by
  rw [tokenizeString, String.toList_ofList]
  exact h _ 1 (Nat.lt_succ_self _)

/-- **The lexer round-trips.**  Tokens that are written with a separator behind each
are read back, and so are the tokens of every string that the lexer accepts. -/
theorem tokenizeString_round_trip :
    (∀ items : List (Token × Separator), (∀ item ∈ items, item.1.IsLexeme) →
      tokenizeString (String.ofList (render items)) = .ok (items.map Prod.fst ++ [tokEof])) ∧
    ∀ str toks, tokenizeString str = .ok toks →
      ∃ ts, toks = ts ++ [tokEof] ∧ ∀ items : List (Token × Separator), items.map Prod.fst = ts →
        tokenizeString (String.ofList (render items)) = .ok toks := by
  constructor
  · intro items h
    exact tokenizeString_of_reads (reads_render items h)
  · intro str toks h
    obtain ⟨ts, rfl, hts⟩ := tokenizeLoop_lexemes h
    refine ⟨ts, rfl, ?_⟩
    rintro items rfl
    apply tokenizeString_of_reads
    apply reads_render
    intro item hitem
    exact hts _ (List.mem_map_of_mem hitem)

/-- The text `x // c` and a newline, `0x1f` and a tab. -/
theorem tokenizeString_round_trip_small :
    tokenizeString (String.ofList
        ['x', ' ', '/', '/', ' ', 'c', '\n', '0', 'x', '1', 'f', '\t']) =
      .ok [⟨.tokIdentifier, String.ofList ['x']⟩,
        ⟨.tokIntliteral, String.ofList ['0', 'x', '1', 'f']⟩, tokEof] := by
  have hx : Token.IsLexeme ⟨.tokIdentifier, String.ofList ['x']⟩ :=
    .identifier ⟨by decide, List.all_eq_true.mp (by decide)⟩ (by decide)
  have hlit : Token.IsLexeme ⟨.tokIntliteral, String.ofList ['0', 'x', '1', 'f']⟩ :=
    .intliteral (.hex ['1', 'f'] (List.all_eq_true.mp (by decide)))
  have h := tokenizeString_round_trip.1
    [(⟨.tokIdentifier, String.ofList ['x']⟩,
        ⟨' ', by decide, [.comment [' ', 'c'] (List.all_eq_true.mp (by decide))]⟩),
     (⟨.tokIntliteral, String.ofList ['0', 'x', '1', 'f']⟩, ⟨'\t', by decide, []⟩)]
    (by simp [hx, hlit])
  have hrender : render
      [(⟨.tokIdentifier, String.ofList ['x']⟩,
          ⟨' ', by decide, [.comment [' ', 'c'] (List.all_eq_true.mp (by decide))]⟩),
       (⟨.tokIntliteral, String.ofList ['0', 'x', '1', 'f']⟩, ⟨'\t', by decide, []⟩)] =
      ['x', ' ', '/', '/', ' ', 'c', '\n', '0', 'x', '1', 'f', '\t'] := by
    decide
  rw [hrender] at h
  exact h

end Bispe
