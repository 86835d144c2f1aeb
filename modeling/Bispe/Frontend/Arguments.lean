import Bispe.Compiler.Ast

/-!
# Program arguments and output

How the front end reads the arguments of a program and prints what it has printed.

## Main definitions

* `strtolEnd` — the characters `strtol` leaves.
* `interprArg`, `interprArgv` — the argument words.
* `printLine` — a line of output.
-/

namespace Bispe

/-- The characters after the digits of a base. -/
def restDigits (base : ℕ) (str : List Char) : List Char :=
  str.dropWhile fun ch => (digitVal ch).getD base < base

/-- What is left after a number, `none` where there is no digit. -/
def scanRest : List Char → Option (List Char)
  | '0' :: x :: ch :: rest =>
      some (if (x = 'x' ∨ x = 'X') ∧ ((digitVal ch).getD 16) < 16
        then restDigits 16 (ch :: rest) else restDigits 8 (x :: ch :: rest))
  | '0' :: rest => some (restDigits 8 rest)
  | ch :: rest => if (digitVal ch).getD 10 < 10 then some (restDigits 10 rest) else none
  | [] => none

/-- `*endptr` and what follows, after `strtol(str, &endptr, 0)`. -/
def strtolEnd (str : List Char) : List Char :=
  let number := match str.dropWhile isSpace with
    | '-' :: rest => rest
    | '+' :: rest => rest
    | rest => rest
  (scanRest number).getD str

/-- The word of a program argument; `none` is `exit(EXIT_FAILURE)`. -/
def interprArg (arg : String) : Option Word :=
  match strtol arg.toList with
  | none => none
  | some number =>
      if 2 ^ 32 - 1 < number ∨ number < -2 ^ 31 then none
      else if strtolEnd arg.toList ≠ [] then none
      else some (BitVec.ofInt 32 number)

/-- `interpr_argv`. -/
def interprArgv (args : List String) : Option (List Word) := args.mapM interprArg

/-- `printf("%d\n", *(print_buf+i))`. -/
def printLine (w : Word) : String := toString w.toInt ++ "\n"

/-! ## Signed readings -/

/-- A number that fits in 32 bits is read back from its word. -/
theorem toInt_ofInt_of_fits {v : ℤ} (h : -2 ^ 31 ≤ v ∧ v < 2 ^ 31) :
    (BitVec.ofInt 32 v).toInt = v := by
  rw [BitVec.toInt_ofInt, Int.bmod_eq_of_le (by omega) (by omega)]

theorem interprArg_toInt {arg : String} {w : Word} {v : ℤ} (h : interprArg arg = some w)
    (hv : strtol arg.toList = some v) (hfits : v < 2 ^ 31) : w.toInt = v := by
  unfold interprArg at h
  rw [hv] at h
  simp only at h
  split at h
  · simp at h
  · next hrange =>
    split at h
    · simp at h
    · cases h
      exact toInt_ofInt_of_fits (by omega)

end Bispe
