import Bispe.Compiler.Generator
import Bispe.Compiler.Lexing
import Bispe.Compiler.Phrases
import Bispe.Frontend.Arguments

/-!
# Integer literals

The lexer decides about the base of a literal by hand, and `create_intliteral` hands
its text to `strtol` with base 0.  Both agree on every literal but one: `0x` without
a digit is a literal for the lexer, and for `strtol` the number 0 in front of an `x`.

## Main definitions

* `IsNumeral` — a complete numeral, with its value.
* `LiteralAgrees` — a token is a numeral, `strtol` reads all of it, and the operand is
  its value.
* `BareHex` — a hexadecimal prefix without a digit.
-/

namespace Bispe

/-- The number that digits of a base denote. -/
def numeralValue (base : ℕ) (ds : List Char) : ℕ :=
  ds.foldl (fun acc ch => acc * base + (digitVal ch).getD 0) 0

/-- A complete numeral of the base its prefix announces. -/
inductive IsNumeral : List Char → ℕ → Prop
  | hex (ds : List Char) (hne : ds ≠ []) (h : ∀ ch ∈ ds, isHexDigit ch) :
      IsNumeral ('0' :: 'x' :: ds) (numeralValue 16 ds)
  | octal (ds : List Char) (h : ∀ ch ∈ ds, isOctalDigit ch) :
      IsNumeral ('0' :: ds) (numeralValue 8 ds)
  | decimal (d : Char) (ds : List Char) (hd : isDigit d) (h0 : d ≠ '0')
      (h : ∀ ch ∈ ds, isDigit ch) : IsNumeral (d :: ds) (numeralValue 10 (d :: ds))

/-- The creator makes a node for which the generator pushes `operand`. -/
def Pushes (create : Token → P Node) (token : Token) (operand : Word) : Prop :=
  ∀ s, ∃ node, create token s = .ok node s ∧
    ∀ junk g, generateHelper junk node g = pushElem .push operand g

/-- The creator ends the compiler. -/
def Exits (create : Token → P Node) (token : Token) : Prop :=
  ∀ s, create token s = .error .exitFailure s

/-- The parser does not accept the tokens. -/
def Rejects (toks : List Token) : Prop :=
  ∀ fuel node s, parseTokenlist fuel toks = .ok node s → node = .null

/-- What the compiler makes of a literal with this value, among other tokens. -/
structure Compiles (toks : List Token) (token : Token) (value : ℕ) : Prop where
  fits : value ≤ 2 ^ 32 - 1 → Pushes createIntliteral token (BitVec.ofNat 32 value)
  neg : value ≤ 2 ^ 32 - 1 → Pushes createNegIntliteral token (-BitVec.ofNat 32 value)
  tooLarge : 2 ^ 32 - 1 < value →
    Exits createIntliteral token ∧ Exits createNegIntliteral token ∧ Rejects toks

/-- The text is a numeral, `strtol` reads all of it, and the operand is its value. -/
def LiteralAgrees (toks : List Token) (token : Token) : Prop :=
  ∃ value, IsNumeral token.val.toList value ∧ strtolEnd token.val.toList = [] ∧
    Compiles toks token value

/-- `0x` without a digit behind it, at the start. -/
def BareHex (str : List Char) : Prop :=
  charAt str 0 = '0' ∧ charAt str 1 = 'x' ∧ ¬ isHexDigit (charAt str 2)

instance (str : List Char) : Decidable (BareHex str) := by unfold BareHex; infer_instance

/-! ## What `strtol` reads -/

theorem digitVal_of_isDigit {ch : Char} (h : isDigit ch = true) :
    digitVal ch = some (ch.toNat - 48) := by
  have hcond : '0' ≤ ch ∧ ch ≤ '9' := by simpa [isDigit] using h
  rw [digitVal, if_pos hcond]
  rfl

theorem digitVal_of_isOctalDigit {ch : Char} (h : isOctalDigit ch = true) :
    ∃ d < 8, digitVal ch = some d := by
  rw [isOctalDigit_iff] at h
  refine ⟨ch.toNat - 48, by omega, digitVal_of_isDigit ((isDigit_iff ch).mpr ?_)⟩
  omega

theorem digitVal_of_isHexDigit {ch : Char} (h : isHexDigit ch = true) :
    ∃ d < 16, digitVal ch = some d := by
  by_cases hdigit : isDigit ch = true
  · rw [digitVal_of_isDigit hdigit]
    rw [isDigit_iff] at hdigit
    exact ⟨ch.toNat - 48, by omega, rfl⟩
  · have hletter : isHexLetter ch = true := by simpa [isHexDigit, hdigit] using h
    have hno : ¬ ('0' ≤ ch ∧ ch ≤ '9') := by simpa [isDigit] using hdigit
    have hcases : ('A' ≤ ch ∧ ch ≤ 'F') ∨ ('a' ≤ ch ∧ ch ≤ 'f') := by
      simpa [isHexLetter] using hletter
    simp only [Char.le_def, UInt32.le_iff_toNat_le] at hcases
    change (65 ≤ ch.toNat ∧ ch.toNat ≤ 70) ∨ (97 ≤ ch.toNat ∧ ch.toNat ≤ 102) at hcases
    rw [digitVal, if_neg hno]
    simp only [Char.le_def, UInt32.le_iff_toNat_le]
    change ∃ d < 16, (if 97 ≤ ch.toNat ∧ ch.toNat ≤ 122 then some (ch.toNat - 97 + 10)
      else if 65 ≤ ch.toNat ∧ ch.toNat ≤ 90 then some (ch.toNat - 65 + 10) else none) = some d
    rcases hcases with hupper | hlower
    · rw [if_neg (by omega), if_pos (by omega)]
      exact ⟨ch.toNat - 65 + 10, by omega, rfl⟩
    · rw [if_pos (by omega)]
      exact ⟨ch.toNat - 97 + 10, by omega, rfl⟩

/-- All characters are digits of the base. -/
def AllDigits (base : ℕ) (ds : List Char) : Prop := ∀ ch ∈ ds, ∃ d < base, digitVal ch = some d

theorem scanDigits_eq {base : ℕ} {ds : List Char} (h : AllDigits base ds) (acc : ℕ) :
    scanDigits base acc ds = ds.foldl (fun acc ch => acc * base + (digitVal ch).getD 0) acc := by
  induction ds generalizing acc with
  | nil => rfl
  | cons ch ds ih =>
      obtain ⟨d, hd, hval⟩ := h ch List.mem_cons_self
      rw [scanDigits, hval]
      simp only [if_pos hd]
      rw [ih fun c hc => h c (List.mem_cons_of_mem ch hc), List.foldl_cons, hval]
      rfl

theorem restDigits_eq {base : ℕ} {ds : List Char} (h : AllDigits base ds) :
    restDigits base ds = [] := by
  rw [restDigits, List.dropWhile_eq_nil_iff]
  intro ch hch
  obtain ⟨d, hd, hval⟩ := h ch hch
  simp [hval, hd]

theorem scanNumber_octal {ds : List Char} (h : ∀ ch ∈ ds, isOctalDigit ch) :
    scanNumber ('0' :: ds) = scanDigits 8 0 ds ∧ scanRest ('0' :: ds) = some (restDigits 8 ds) := by
  cases ds with
  | nil => exact ⟨rfl, rfl⟩
  | cons d ds =>
      cases ds with
      | nil => exact ⟨rfl, rfl⟩
      | cons e ds =>
          have hx : ¬ (d = 'x' ∨ d = 'X') := by
            have hd := h d List.mem_cons_self
            intro hx
            rcases hx with rfl | rfl
            · exact absurd hd (by decide)
            · exact absurd hd (by decide)
          rw [scanNumber, scanRest, if_neg fun hc => hx hc.1, if_neg fun hc => hx hc.1]
          exact ⟨rfl, rfl⟩

theorem scanNumber_decimal {d : Char} (ds : List Char) (hd : isDigit d = true) (h0 : d ≠ '0') :
    scanNumber (d :: ds) = scanDigits 10 0 (d :: ds) ∧
      scanRest (d :: ds) = some (restDigits 10 ds) := by
  have hcond : (digitVal d).getD 10 < 10 := by
    rw [digitVal_of_isDigit hd]
    rw [isDigit_iff] at hd
    show d.toNat - 48 < 10
    omega
  constructor
  · rw [scanNumber]
    · intro x ch rest heq
      exact h0 (List.cons.inj heq).1
    · intro rest heq
      exact h0 (List.cons.inj heq).1
  · rw [scanRest, if_pos hcond]
    · intro x ch rest heq
      exact absurd heq h0
    · intro heq
      exact absurd heq h0

/-- `strtol` reads a numeral to its end. -/
theorem IsNumeral.scan {text : List Char} {value : ℕ} (h : IsNumeral text value) :
    scanNumber text = value ∧ scanRest text = some [] := by
  cases h with
  | hex ds hne h =>
      cases ds with
      | nil => exact absurd rfl hne
      | cons ch ds =>
          have hall : AllDigits 16 (ch :: ds) := fun c hc => digitVal_of_isHexDigit (h c hc)
          obtain ⟨d, hd, hval⟩ := hall ch List.mem_cons_self
          have hcond : ('x' = 'x' ∨ 'x' = 'X') ∧ (digitVal ch).getD 16 < 16 := by
            rw [hval]
            exact ⟨.inl rfl, hd⟩
          rw [scanNumber, scanRest, if_pos hcond, if_pos hcond, scanDigits_eq hall,
            restDigits_eq hall]
          exact ⟨rfl, rfl⟩
  | octal ds h =>
      have hall : AllDigits 8 ds := fun c hc => digitVal_of_isOctalDigit (h c hc)
      rw [(scanNumber_octal h).1, (scanNumber_octal h).2, scanDigits_eq hall, restDigits_eq hall]
      exact ⟨rfl, rfl⟩
  | decimal d ds hd h0 h =>
      have hall : AllDigits 10 (d :: ds) := by
        intro c hc
        have hdigit : isDigit c = true := by
          rcases List.mem_cons.mp hc with rfl | hc
          · exact hd
          · exact h c hc
        have hrange := (isDigit_iff c).mp hdigit
        exact ⟨c.toNat - 48, by omega, digitVal_of_isDigit hdigit⟩
      have htail : AllDigits 10 ds := fun c hc => hall c (List.mem_cons_of_mem d hc)
      rw [(scanNumber_decimal ds hd h0).1, (scanNumber_decimal ds hd h0).2, scanDigits_eq hall,
        restDigits_eq htail]
      exact ⟨rfl, rfl⟩

/-- The first character of a numeral is a digit. -/
theorem IsNumeral.head {text : List Char} {value : ℕ} (h : IsNumeral text value) :
    ∃ d rest, text = d :: rest ∧ isDigit d = true := by
  cases h with
  | hex ds => exact ⟨'0', _, rfl, by decide⟩
  | octal ds => exact ⟨'0', _, rfl, by decide⟩
  | decimal d ds hd => exact ⟨d, ds, rfl, hd⟩

/-- `strtol` of a numeral, and where it stops. -/
theorem IsNumeral.strtol_eq {text : List Char} {value : ℕ} (h : IsNumeral text value) :
    strtol text = (if value < 2 ^ 63 then some (value : ℤ) else none) ∧ strtolEnd text = [] := by
  obtain ⟨hnumber, hrest⟩ := h.scan
  obtain ⟨d, rest, rfl, hd⟩ := h.head
  have hspace : (d :: rest).dropWhile isSpace = d :: rest := by
    rw [List.dropWhile_cons_of_neg]
    intro hspace
    have hcases : d = ' ' ∨ d = '\t' ∨ d = '\n' ∨ d = '\x0b' ∨ d = '\x0c' ∨ d = '\r' := by
      simpa [isSpace] using hspace
    rcases hcases with rfl | rfl | rfl | rfl | rfl | rfl <;> exact absurd hd (by decide)
  have hminus : d ≠ '-' := by
    rintro rfl
    exact absurd hd (by decide)
  have hplus : d ≠ '+' := by
    rintro rfl
    exact absurd hd (by decide)
  constructor
  · rw [strtol, hspace]
    split
    · next rest' heq => exact absurd (List.cons.inj heq).1 hminus
    · next rest' heq => exact absurd (List.cons.inj heq).1 hplus
    · rw [hnumber]
      by_cases hlt : value < 2 ^ 63
      · rw [if_pos (by omega), if_pos hlt]
      · rw [if_neg (by omega), if_neg hlt]
  · rw [strtolEnd, hspace]
    split
    · next rest' heq => exact absurd (List.cons.inj heq).1 hminus
    · next rest' heq => exact absurd (List.cons.inj heq).1 hplus
    · rw [hrest]
      rfl

theorem IsNumeral.literalNumber_eq {token : Token} {value : ℕ}
    (h : IsNumeral token.val.toList value) (s : PState) : literalNumber token s =
      if value ≤ 2 ^ 32 - 1 then .ok (BitVec.ofNat 32 value) s else .error .exitFailure s := by
  rw [literalNumber, h.strtol_eq.1]
  by_cases hfits : value ≤ 2 ^ 32 - 1
  · rw [if_pos (by omega), if_pos hfits]
    simp only
    rw [if_neg (by omega), BitVec.ofInt_natCast]
    rfl
  · rw [if_neg hfits]
    by_cases hlt : value < 2 ^ 63
    · rw [if_pos hlt]
      simp only
      rw [if_pos (.inl (by omega))]
      rfl
    · rw [if_neg hlt]
      rfl

/-- `create_intliteral` and `create_neg_intliteral` on a numeral that fits. -/
theorem IsNumeral.pushes {token : Token} {value : ℕ} (h : IsNumeral token.val.toList value)
    (hfits : value ≤ 2 ^ 32 - 1) : Pushes createIntliteral token (BitVec.ofNat 32 value) ∧
      Pushes createNegIntliteral token (-BitVec.ofNat 32 value) := by
  have hnumber : ∀ s, literalNumber token s = .ok (BitVec.ofNat 32 value) s := by
    intro s
    rw [h.literalNumber_eq, if_pos hfits]
  constructor
  · intro s
    rw [createIntliteral, Effect.bind_ok (hnumber s)]
    exact ⟨_, rfl, fun junk g => rfl⟩
  · intro s
    rw [createNegIntliteral, Effect.bind_ok (hnumber s)]
    exact ⟨_, rfl, fun junk g => rfl⟩

theorem IsNumeral.exits {token : Token} {value : ℕ} (h : IsNumeral token.val.toList value)
    (hlarge : 2 ^ 32 - 1 < value) :
    Exits createIntliteral token ∧ Exits createNegIntliteral token := by
  have herror : ∀ s, literalNumber token s = .error .exitFailure s := by
    intro s
    rw [h.literalNumber_eq, if_neg (by omega)]
  constructor
  · intro s
    rw [createIntliteral, Effect.bind_error (herror s)]
  · intro s
    rw [createNegIntliteral, Effect.bind_error (herror s)]

/-! ## Accepted tokens -/

/-- A literal that is a numeral fits in a word. -/
def Token.Fits (token : Token) : Prop :=
  token.type = .tokIntliteral →
    ∀ value, IsNumeral token.val.toList value → value ≤ 2 ^ 32 - 1

/-- A terminal makes a number of its literal. -/
def Sym.converts : Sym → Bool
  | .terminal .tokIntliteral create => create = some .intliteral ∨ create = some .negIntliteral
  | _ => true

theorem prods_convert : ∀ c : Check, ∀ p ∈ c.rule.prods, ∀ sym ∈ p.1, sym.converts = true := by
  intro c
  cases c <;> decide

/-- A literal of which a node was made fits. -/
theorem Makes.fits {create : Option Creator} {token : Token} {new : List Node}
    (h : Makes create token new) (hconv : (Sym.terminal token.type create).converts = true) :
    token.Fits := by
  intro hlit value hvalue
  by_contra hlarge
  obtain ⟨hexit, hexit'⟩ := hvalue.exits (by omega)
  obtain ⟨s, s', h⟩ := h
  rw [hlit] at hconv
  have hcreate : create = some .intliteral ∨ create = some .negIntliteral := by
    simpa [Sym.converts] using hconv
  rcases hcreate with rfl | rfl
  · change (createIntliteral token >>= _) s = _ at h
    rw [Effect.bind_error (hexit s)] at h
    cases h
  · change (createNegIntliteral token >>= _) s = _ at h
    rw [Effect.bind_error (hexit' s)] at h
    cases h

/-- **The literals of an accepted token list fit.** -/
theorem parseTokenlist_fits {fuel : ℕ} {first : List Token} {node : Node} {s : PState}
    (h : parseTokenlist fuel first = .ok node s) (hnode : node ≠ .null) (hend : EndsInEof first) :
    ∀ token ∈ first, token.Fits := by
  obtain ⟨w, cs, hw, hmatches, -⟩ := matchProd_matches (check_matches fuel) h hnode
  change first = w ++ s.token at hw
  obtain ⟨ds, hds⟩ := hmatches.leftmost
  have hrest : s.token = [] := startSymbols_rest hds (hw ▸ hend)
  rw [hrest, List.append_nil] at hw
  intro token hmem
  obtain ⟨create, new, hin, hmakes⟩ := hmatches.terminals token (hw ▸ hmem)
  apply hmakes.fits
  rcases hin with hin | ⟨c, p, hp, hin⟩
  · have hstart : ∀ sym ∈ startProd, sym.converts = true := by decide
    exact hstart _ hin
  · exact prods_convert c p hp _ hin

/-! ## The literals of the lexer -/

theorem IsLiteral.numeral {text : List Char} (h : IsLiteral text) (hne : text ≠ ['0', 'x']) :
    ∃ value, IsNumeral text value := by
  cases h with
  | hex ds h => exact ⟨_, .hex ds (fun hnil => hne (by rw [hnil])) h⟩
  | octal ds h => exact ⟨_, .octal ds h⟩
  | decimal d ds hd h0 h => exact ⟨_, .decimal d ds hd h0 h⟩

theorem not_isNumeral_bareHex (value : ℕ) : ¬ IsNumeral ['0', 'x'] value := by
  intro h
  cases h with
  | hex ds hne h => exact hne rfl
  | octal ds h => exact absurd (h 'x' List.mem_cons_self) (by decide)
  | decimal d ds hd h0 h => exact h0 rfl

/-- The literal at the start of a string is bare exactly when no digit follows. -/
theorem literalText_eq_bareHex {str : List Char} :
    literalText str = ['0', 'x'] ↔ BareHex str := by
  rw [literalText]
  constructor
  · intro htext
    rcases scanPrefix_cases str with ⟨h0, hx, hp⟩ | ⟨h0, -, hp⟩ | ⟨-, hp⟩
    · have hnil : (str.drop 2).takeWhile isHexDigit = [] := by
        have hstr := eq_cons_of_charAt h0 (by decide)
        have hx' : charAt (str.drop 1) 0 = 'x' := by rw [charAt_drop_zero, hx]
        have hstr' := eq_cons_of_charAt hx' (by decide)
        rw [List.drop_drop] at hstr'
        have htwo : str.take 2 = ['0', 'x'] := by
          rw [hstr, hstr']
          rfl
        rw [hp, isLiteralChar_hex] at htext
        simpa [htwo] using htext
      refine ⟨h0, hx, fun hhex => ?_⟩
      rw [← charAt_drop_zero] at hhex
      cases hdrop : str.drop 2 with
      | nil =>
          rw [hdrop] at hhex
          exact absurd hhex (by decide)
      | cons ch rest =>
          rw [hdrop] at hnil hhex
          have hch : isHexDigit ch = true := hhex
          rw [List.takeWhile_cons_of_pos hch] at hnil
          cases hnil
    · have hstr := eq_cons_of_charAt h0 (by decide)
      have hx : 'x' ∈ (str.drop 1).takeWhile isOctalDigit := by
        rw [hp, isLiteralChar_octal, hstr] at htext
        rw [show (str.drop 1).takeWhile isOctalDigit = ['x'] by simpa using htext]
        exact List.mem_cons_self
      exact absurd (List.mem_takeWhile_imp hx) (by decide)
    · have hx : 'x' ∈ str.takeWhile isDigit := by
        rw [hp, isLiteralChar_decimal] at htext
        rw [show str.takeWhile isDigit = ['0', 'x'] by simpa using htext]
        decide
      exact absurd (List.mem_takeWhile_imp hx) (by decide)
  · intro hbare
    obtain ⟨h0, hx, hhex⟩ := hbare
    have hstr := eq_cons_of_charAt h0 (by decide)
    have hx' : charAt (str.drop 1) 0 = 'x' := by rw [charAt_drop_zero, hx]
    have hstr' := eq_cons_of_charAt hx' (by decide)
    rw [List.drop_drop] at hstr'
    have hp : scanPrefix str 0 = (true, false, 2) := by
      rw [scanPrefix, if_pos h0, if_pos (by simpa using hx)]
    have hnil : (str.drop 2).takeWhile isHexDigit = [] := by
      rw [← charAt_drop_zero] at hhex
      cases hdrop : str.drop 2 with
      | nil => rfl
      | cons ch rest =>
          rw [hdrop] at hhex
          exact List.takeWhile_cons_of_neg hhex
    rw [hp, isLiteralChar_hex, hnil, List.append_nil, hstr, hstr']
    rfl

/-- A literal token comes from a digit, and its text is the literal there. -/
theorem scanNext_intliteral {str : List Char} {line last : ℕ} {tok : Token}
    (h : scanNext str 0 line = .ok (.token tok last)) (htype : tok.type = .tokIntliteral) :
    isDigit (charAt str 0) = true ∧ tok = ⟨.tokIntliteral, String.ofList (literalText str)⟩ := by
  rw [scanNext] at h
  split_ifs at h with h1 h2 h3 h4 h5 h6
  · cases h
  · cases h
  · cases h
  · cases h
    have hkinds : ∀ name, checkIdentType name ≠ .tokIntliteral := by
      intro name
      rw [checkIdentType]
      cases hfind : keywords.find? fun k => k.1 = name with
      | none => decide
      | some k =>
          have hk : ∀ k ∈ keywords, k.2 ≠ .tokIntliteral := by decide
          exact hk k (List.mem_of_find?_eq_some hfind)
    exact absurd htype (hkinds _)
  · cases hscan : scanIntliteral str 0 line with
    | error e =>
        rw [hscan] at h
        cases h
    | ok r =>
        rw [hscan] at h
        cases h
        exact ⟨h5, scanIntliteral_text hscan⟩
  · cases h
  · cases hsym : symbolType (charAt str 0) (charAt str (0 + 1) = '=') with
    | none =>
        rw [hsym] at h
        cases h
    | some r =>
        rw [hsym] at h
        cases h
        have hsymbols : ∀ s ∈ symbols, s.1 ≠ .tokIntliteral := by decide
        obtain ⟨s, hs, hsame⟩ := symbolType_mem hsym
        exact absurd (hsame.trans htype) (hsymbols s hs)

theorem Token.IsLexeme.ne_eof {token : Token} (h : token.IsLexeme) : token.type ≠ .tokEof := by
  cases h with
  | @keyword k hk =>
      have hall : ∀ k ∈ keywords, k.2 ≠ .tokEof := by decide
      exact hall k hk
  | identifier => exact nofun
  | intliteral => exact nofun
  | @symbol s hs =>
      have hall : ∀ s ∈ symbols, s.1 ≠ .tokEof := by decide
      exact hall s hs

theorem tokenizeString_endsInEof {str : String} {toks : List Token}
    (h : tokenizeString str = .ok toks) : EndsInEof toks := by
  obtain ⟨ts, rfl, hts⟩ := tokenizeLoop_lexemes h
  exact ⟨ts, tokEof, rfl, rfl, fun t ht => (hts t ht).ne_eof⟩

/-- A numeral of an accepted string agrees. -/
theorem literalAgrees_of_isNumeral {str : String} {toks : List Token}
    (h : tokenizeString str = .ok toks) {token : Token} (hmem : token ∈ toks)
    (htype : token.type = .tokIntliteral) {value : ℕ}
    (hvalue : IsNumeral token.val.toList value) : LiteralAgrees toks token := by
  refine ⟨value, hvalue, hvalue.strtol_eq.2, ?_⟩
  constructor
  · exact fun hfits => (hvalue.pushes hfits).1
  · exact fun hfits => (hvalue.pushes hfits).2
  · intro hlarge
    refine ⟨(hvalue.exits hlarge).1, (hvalue.exits hlarge).2, fun fuel node s hparse => ?_⟩
    by_contra hnode
    have hfits := parseTokenlist_fits hparse hnode (tokenizeString_endsInEof h) token hmem
    have hle := hfits htype value hvalue
    omega

/-- **The lexer and `strtol` agree on literals, but for a bare `0x`.**  Each literal
token was read at some position of the string.  It is a numeral that `strtol` reads to
its end and that compiles to its value, unless `0x` without a digit stands there. -/
theorem tokenizeString_literals {str : String} {toks : List Token}
    (h : tokenizeString str = .ok toks) {token : Token} (hmem : token ∈ toks)
    (htype : token.type = .tokIntliteral) :
    ∃ pos line last, scanNext str.toList pos line = .ok (.token token last) ∧
      (LiteralAgrees toks token ↔ ¬ BareHex (str.toList.drop pos)) := by
  have hscanned : ∃ pos line last, scanNext str.toList pos line = .ok (.token token last) := by
    rcases tokenizeLoop_scanned h hmem with rfl | hscanned
    · exact absurd htype (by decide)
    · exact hscanned
  obtain ⟨pos, line, last, hscan⟩ := hscanned
  refine ⟨pos, line, last, hscan, ?_⟩
  rw [scanNext_shift] at hscan
  cases hfront : scanNext (str.toList.drop pos) 0 line with
  | error e =>
      rw [hfront] at hscan
      cases hscan
  | ok scan =>
      rw [hfront] at hscan
      cases scan with
      | finish => cases hscan
      | skip pos' line' => cases hscan
      | token tok last' =>
          have htok : tok = token := by
            simp only [Except.map, Scan.shift, Except.ok.injEq, Scan.token.injEq] at hscan
            exact hscan.1
          rw [htok] at hfront
          obtain ⟨hdigit, htoken⟩ := scanNext_intliteral hfront htype
          have htext : token.val.toList = literalText (str.toList.drop pos) := by
            rw [htoken, String.toList_ofList]
          rw [← literalText_eq_bareHex, ← htext]
          constructor
          · intro hagrees hbare
            obtain ⟨value, hvalue, -⟩ := hagrees
            rw [hbare] at hvalue
            exact not_isNumeral_bareHex value hvalue
          · intro hne
            have hlit := literalText_literal hdigit
            rw [← htext] at hlit
            obtain ⟨value, hvalue⟩ := hlit.numeral hne
            exact literalAgrees_of_isNumeral h hmem htype hvalue

/-- A hexadecimal literal is read as the lexer reads it. -/
theorem tokenizeString_literals_small :
    tokenizeString "0x1f" = .ok [⟨.tokIntliteral, "0x1f"⟩, tokEof] ∧
      LiteralAgrees [⟨.tokIntliteral, "0x1f"⟩, tokEof] ⟨.tokIntliteral, "0x1f"⟩ := by
  have hrun : tokenizeString "0x1f" = .ok [⟨.tokIntliteral, "0x1f"⟩, tokEof] := by decide +kernel
  obtain ⟨pos, line, last, -, hiff⟩ := tokenizeString_literals hrun List.mem_cons_self rfl
  refine ⟨hrun, hiff.mpr fun hbare => ?_⟩
  have hinside : ∀ pos < 4, ¬ BareHex ("0x1f".toList.drop pos) := by decide
  by_cases hpos : pos < 4
  · exact hinside pos hpos hbare
  · rw [List.drop_eq_nil_of_le (by simp; omega)] at hbare
    revert hbare
    decide

/-- `strtol` reads the zero of a bare `0x`, and the program compiles. -/
theorem bareHex_disagrees :
    tokenizeString "0x" = .ok [⟨.tokIntliteral, "0x"⟩, tokEof] ∧
      ¬ LiteralAgrees [⟨.tokIntliteral, "0x"⟩, tokEof] ⟨.tokIntliteral, "0x"⟩ ∧
      strtolEnd "0x".toList = ['x'] ∧ Pushes createIntliteral ⟨.tokIntliteral, "0x"⟩ 0 := by
  refine ⟨by decide +kernel, ?_, by decide +kernel, ?_⟩
  · intro hagrees
    obtain ⟨value, hvalue, -⟩ := hagrees
    exact not_isNumeral_bareHex value hvalue
  · intro s
    exact ⟨_, rfl, fun junk g => rfl⟩

end Bispe
