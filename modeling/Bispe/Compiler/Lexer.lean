import Bispe.Compiler.Symbols

/-!
# The lexer

`lexer.c`.  A string is the list of its characters before the terminating NUL, and a
position is an index into it; reading at the end gives the NUL.  The scanners return
the index of the last character they took, as in the source, and the loop of
`tokenize_string` moves on from there.

## Main definitions

* `LexError` — the errors, with their messages.
* `scanIntliteral`, `scanIdent` — the scanners.
* `scanNext` — one iteration of the loop of `tokenize_string`.
* `tokenizeString` — the tokens of a string.
-/

namespace Bispe

/-- What the lexer reports. -/
inductive LexError
  | octalDigit (ch : Char) (line : ℕ)
  | literalChar (ch : Char) (line : ℕ)
  | illegalChar (ch : Char) (line : ℕ)
  | outOfFuel
  deriving DecidableEq, Repr

def LexError.message : LexError → String
  | .octalDigit ch line =>
      "lexer: illegal character '" ++ toString ch ++ "' in int literal (base 8!) at line " ++
        toString line ++ "\n"
  | .literalChar ch line =>
      "lexer: illegal character '" ++ toString ch ++ "' in int literal at line " ++
        toString line ++ "\n"
  | .illegalChar ch line =>
      "lexer: illegal character '" ++ toString ch ++ "' at line " ++ toString line ++ "\n"
  | .outOfFuel => ""

/-- `str[i]`. -/
def charAt (str : List Char) (i : ℕ) : Char := str.getD i '\x00'

def isDigit (ch : Char) : Bool := '0' ≤ ch ∧ ch ≤ '9'

def isLetter (ch : Char) : Bool :=
  ('A' ≤ ch ∧ ch ≤ 'Z') ∨ ('a' ≤ ch ∧ ch ≤ 'z') ∨ ch = '_'

def isHexLetter (ch : Char) : Bool := ('A' ≤ ch ∧ ch ≤ 'F') ∨ ('a' ≤ ch ∧ ch ≤ 'f')

/-- `strndup(str + pos, n)`. -/
def strndup (str : List Char) (pos n : ℕ) : String := String.ofList ((str.drop pos).take n)

/-- The loop of `scan_intliteral`, on the characters from index `i` on: the index
behind the literal. -/
def intliteralEnd (isHex isOct : Bool) (line : ℕ) : List Char → ℕ → Except LexError ℕ
  | [], i => .ok i
  | ch :: rest, i =>
      if isOct ∧ (ch = '8' ∨ ch = '9') then .error (.octalDigit ch line)
      else if isDigit ch then intliteralEnd isHex isOct line rest (i + 1)
      else if isHex ∧ isHexLetter ch then intliteralEnd isHex isOct line rest (i + 1)
      else if isLetter ch then .error (.literalChar ch line)
      else .ok i

/-- The prefix of a literal: whether it is hexadecimal, whether it is octal, and the
index to go on from. -/
def scanPrefix (str : List Char) (pos : ℕ) : Bool × Bool × ℕ :=
  if charAt str pos = '0' then
    if charAt str (pos + 1) = 'x' then (true, false, pos + 2)
    else if charAt str (pos + 1) ≠ '\x00' then (false, true, pos + 1)
    else (false, false, pos)
  else (false, false, pos)

/-- `scan_intliteral`: the token and the index of its last character. -/
def scanIntliteral (str : List Char) (pos line : ℕ) : Except LexError (Token × ℕ) :=
  let (isHex, isOct, i) := scanPrefix str pos
  match intliteralEnd isHex isOct line (str.drop i) i with
  | .error e => .error e
  | .ok i => .ok (⟨.tokIntliteral, strndup str pos (i - pos)⟩, i - 1)

/-- `keywords`. -/
def keywords : List (String × TokenType) :=
  [("void", .tokVoid), ("int", .tokInt), ("if", .tokIf), ("else", .tokElse), ("while", .tokWhile),
   ("for", .tokFor), ("do", .tokDo), ("return", .tokReturn), ("print", .tokPrint)]

/-- `check_ident_type`. -/
def checkIdentType (val : String) : TokenType :=
  match keywords.find? fun k => k.1 = val with
  | some k => k.2
  | none => .tokIdentifier

/-- The loop of `scan_ident`. -/
def identEnd : List Char → ℕ → ℕ
  | [], i => i
  | ch :: rest, i => if isLetter ch ∨ isDigit ch then identEnd rest (i + 1) else i

/-- `scan_ident`. -/
def scanIdent (str : List Char) (pos : ℕ) : Token × ℕ :=
  let i := identEnd (str.drop pos) pos
  let val := strndup str pos (i - pos)
  (⟨checkIdentType val, val⟩, i - 1)

/-- The loop that reads away a comment. -/
def commentEnd : List Char → ℕ → ℕ
  | [], i => i
  | ch :: rest, i => if ch ≠ '\x00' ∧ ch ≠ '\n' then commentEnd rest (i + 1) else i

/-- The cases of brackets, separators and operators. -/
def symbolCases : List (Char × TokenType) :=
  [('(', .tokOpenpa), (')', .tokClosepa), ('\x7b', .tokOpenbr), ('\x7d', .tokClosebr),
   (',', .tokComma), (';', .tokSemicl), ('=', .tokEq), ('<', .tokLt), ('>', .tokGt),
   ('+', .tokPlus), ('-', .tokMinus), ('*', .tokStar), ('/', .tokSlash), ('%', .tokPercent)]

/-- The cases with another character if the next one is `=`. -/
def symbolEqCases : List (Char × TokenType) :=
  [('=', .tokEqeq), ('!', .tokNeq), ('<', .tokLe), ('>', .tokGe)]

def findCase (cases : List (Char × TokenType)) (ch : Char) : Option TokenType :=
  (cases.find? fun c => c.1 = ch).map Prod.snd

/-- The type of a bracket, separator or operator and how many more characters it
takes, by its character and whether `=` is next. -/
def symbolType (ch : Char) (eqNext : Bool) : Option (TokenType × ℕ) :=
  match if eqNext then findCase symbolEqCases ch else none with
  | some type => some (type, 1)
  | none => (findCase symbolCases ch).map fun type => (type, 0)

/-- What an iteration of the loop of `tokenize_string` comes to. -/
inductive Scan
  | finish
  /-- Go on at an index and a line. -/
  | skip (pos line : ℕ)
  /-- A token and the index of its last character. -/
  | token (tok : Token) (last : ℕ)
  deriving DecidableEq, Repr

/-- One iteration of the loop of `tokenize_string`. -/
def scanNext (str : List Char) (pos line : ℕ) : Except LexError Scan :=
  let ch := charAt str pos
  if ch = '\x00' then .ok .finish
  else if ch = '\n' then .ok (.skip (pos + 1) (line + 1))
  else if ch = ' ' ∨ ch = '\t' ∨ ch = '\r' then .ok (.skip (pos + 1) line)
  else if isLetter ch then
    let (tok, last) := scanIdent str pos
    .ok (.token tok last)
  else if isDigit ch then
    match scanIntliteral str pos line with
    | .error e => .error e
    | .ok (tok, last) => .ok (.token tok last)
  else if ch = '/' ∧ charAt str (pos + 1) = '/' then
    .ok (.skip (commentEnd (str.drop pos) pos) line)
  else
    match symbolType ch (charAt str (pos + 1) = '=') with
    | some (type, more) => .ok (.token ⟨type, ""⟩ (pos + more))
    | none => .error (.illegalChar ch line)

/-- The end of the token list. -/
def tokEof : Token := ⟨.tokEof, ""⟩

/-- The loop of `tokenize_string`. -/
def tokenizeLoop (str : List Char) : ℕ → ℕ → ℕ → Except LexError (List Token)
  | 0, _, _ => .error .outOfFuel
  | fuel + 1, pos, line =>
      match scanNext str pos line with
      | .error e => .error e
      | .ok .finish => .ok [tokEof]
      | .ok (.skip pos line) => tokenizeLoop str fuel pos line
      | .ok (.token tok last) =>
          match tokenizeLoop str fuel (last + 1) line with
          | .error e => .error e
          | .ok toks => .ok (tok :: toks)

/-- `tokenize_string`.  Every iteration but the last moves on. -/
def tokenizeString (str : String) : Except LexError (List Token) :=
  tokenizeLoop str.toList (str.toList.length + 1) 0 1

end Bispe
