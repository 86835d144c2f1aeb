import Bispe.Compiler.Emission
import Bispe.Backend.Steps

/-!
# Code in the code segment

The words of a code list, and code segments that hold them.

## Main definitions

* `CodeElem.encode`, `encode` — the words of an instruction and of a list.
* `Program.Holds p i l` — the code segment holds the words of `l` from the word `i` on.
* `compile` — tokens to code; `Program.ofCode` — a program for the plain machine.
-/

namespace Bispe

open Effect

/-- The words of an instruction: the opcode, and the argument if it has one. -/
def CodeElem.encode (elem : CodeElem) : List Word :=
  (instrInfo elem.instr).opcode :: if (instrInfo elem.instr).hasArg then [elem.arg] else []

theorem opcode_inj {instr instr' : InstrType}
    (h : (instrInfo instr).opcode = (instrInfo instr').opcode) : instr = instr' := by
  revert h
  cases instr <;> cases instr' <;> decide

/-- The words of a list of instructions. -/
def encode (code : List CodeElem) : List Word := code.flatMap CodeElem.encode

@[simp] theorem encode_nil : encode [] = [] := rfl

@[simp] theorem encode_cons (elem : CodeElem) (l : List CodeElem) :
    encode (elem :: l) = elem.encode ++ encode l := rfl

@[simp] theorem encode_append (l l' : List CodeElem) : encode (l ++ l') = encode l ++ encode l' :=
  List.flatMap_append

@[simp] theorem CodeElem.length_encode (elem : CodeElem) : elem.encode.length = elem.width := by
  rw [CodeElem.encode, CodeElem.width]
  split <;> rfl

@[simp] theorem length_encode (code : List CodeElem) : (encode code).length = words code := by
  induction code with
  | nil => rfl
  | cons elem l ih => simp [ih]

/-! ## Placement -/

/-- The code segment holds the words of a list from the word `i` on. -/
def Program.Holds (p : Program) (i : ℕ) (code : List CodeElem) : Prop :=
  ∀ j w, (encode code)[j]? = some w → p.At (i + j) w

namespace Program.Holds

variable {p : Program} {i : ℕ} {l l' : List CodeElem} {elem : CodeElem}

theorem left (h : p.Holds i (l ++ l')) : p.Holds i l := by
  intro j w hj
  refine h j w ?_
  rw [encode_append, List.getElem?_append_left (List.getElem?_eq_some_iff.mp hj).1, hj]

theorem right (h : p.Holds i (l ++ l')) : p.Holds (i + words l) l' := by
  intro j w hj
  have hw : (encode (l ++ l'))[words l + j]? = some w := by
    rw [encode_append, List.getElem?_append_right (by simp), length_encode, Nat.add_sub_cancel_left,
      hj]
  simpa only [Nat.add_assoc] using h (words l + j) w hw

theorem tail (h : p.Holds i (elem :: l)) : p.Holds (i + elem.width) l := by
  simpa using right (l := [elem]) h

theorem opcode (h : p.Holds i (elem :: l)) : p.At i (instrInfo elem.instr).opcode := h 0 _ rfl

theorem operand (h : p.Holds i (elem :: l)) (harg : (instrInfo elem.instr).hasArg = true) :
    p.At (i + 1) elem.arg :=
  h 1 elem.arg (by simp [CodeElem.encode, harg])

end Program.Holds

/-! ## From tokens to a run -/

/-- `main` of the compiler: the code list of a token list, if it is accepted. -/
def compile (junk : Junk) (fuel : ℕ) (first : List Token) : Option (List CodeElem) :=
  match parseTokenlist fuel first with
  | .error _ _ => none
  | .ok head s =>
      if head = .null then none
      else match generateCode junk s.funcTable head with
        | .ok code _ => code
        | .error _ _ => none

/-- A program for the plain machine.  Behind the code there are `NOP`s. -/
def Program.ofCode (code : List CodeElem) (stackWords callWords : ℕ) (args : List Word) :
    Program where
  code i := (encode code).getD i 0
  codeSize := 4 * words code
  stackWords := stackWords
  callWords := callWords
  argc := args.length
  argv i := args.getD i 0

theorem Program.ofCode_holds (code : List CodeElem) (stackWords callWords : ℕ)
    (args : List Word) : (Program.ofCode code stackWords callWords args).Holds 0 code := by
  intro j w hj
  have hlt : j < words code := by
    rw [← length_encode]
    exact (List.getElem?_eq_some_iff.mp hj).1
  constructor
  · simp [ofCode, hj]
  · simp only [ofCode]
    omega

/-- The values printed in `n` instructions from the start of a program. -/
def Program.prints (p : Program) (n : ℕ) : List Word :=
  (stateOf (dispatchLoop (flatMacros p) n .initial)).printed

end Bispe
