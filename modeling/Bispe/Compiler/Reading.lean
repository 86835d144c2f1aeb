import Bispe.Compiler.Encoding

/-!
# Reading code words

The compiler's table says which instructions have an argument, and the handlers of the
backend say which of them take the word behind their opcode.  The handlers are run here on
macros that only move over the words of the code: what they take is what the table says, so
a sequence of words is split back into the instructions it has been made of.

## Main definitions

* `readerMacros` — macros that only read the code.
* `readInstrs` — the words the next instructions take.
* `Program.segmentWords` — the words of a code segment.
* `readInstrs_encode` — the instructions of a code list take the words of the list.
-/

namespace Bispe

open Effect

/-- The words from the instruction pointer on, and the operands that instructions pop. -/
structure Reader where
  words : List Word
  operands : List Word

/-- Go on to the next word. -/
def passWord : EStateM Unit Reader Unit := modify fun r => { r with words := r.words.tail }

/-- The macros of a reader that follows no jump: it goes on behind the word a jump is made
from, and behind a `FINISH`. -/
def readerMacros : Macros (EStateM Unit Reader) Word where
  argc := 2 ^ 32
  argv := fun _ => 0
  error := fun _ => throw ()
  setHaltFlag := passWord
  incAndCheckCycleCnt := pure .next
  extrNextInstr := fun r => match r.words with
    | [] => .error () r
    | w :: _ => .ok w r
  incInstrPtr := passWord
  calcJmpTarget := pure
  jumpTo := fun _ => passWord
  retAddr := pure 0
  extrStack := fun r => .ok (r.operands.headD 1) r
  insStack := fun _ => pure ()
  incStackPtr := pure ()
  decStackPtr := modify fun r => { r with operands := r.operands.tail }
  fetchCallElement := fun _ => pure 0
  saveCallElement := fun _ _ => pure ()
  incCallPtr := fun _ => pure ()
  decCallPtr := fun _ => pure ()
  print := fun _ => pure ()

/-! ## Handlers -/

section Handlers
variable {words operands : List Word} {w arg : Word}

/-- A conditional jump takes its operand whether it is made or not. -/
theorem instrJcc_reads (cond : Word → Word → Bool) :
    instrJcc readerMacros cond ⟨w :: arg :: words, operands⟩ =
      .ok .next ⟨words, operands.tail.tail⟩ := by
  have hrun : instrJcc readerMacros cond ⟨w :: arg :: words, operands⟩ =
      (if cond (operands.tail.headD 1) (operands.headD 1) then instrJmp readerMacros
        else do
          readerMacros.incInstrPtr
          gotoNextInstr readerMacros) ⟨w :: arg :: words, operands.tail.tail⟩ := rfl
  rw [hrun]
  split
  · rfl
  · rfl

theorem instrDivide_reads (op : Word → Word → Word) (h : operands.headD 1 ≠ 0) :
    instrDivide readerMacros op ⟨w :: words, operands⟩ = .ok .next ⟨words, operands.tail⟩ := by
  have hrun : instrDivide readerMacros op ⟨w :: words, operands⟩ =
      (if operands.headD 1 = 0 then readerMacros.error .divZero
        else do
          let eax ← readerMacros.extrStack
          readerMacros.insStack (op eax (operands.headD 1))
          gotoNextInstr readerMacros) ⟨w :: words, operands.tail⟩ := rfl
  rw [hrun, if_neg h]
  rfl

theorem instrArgload_reads :
    instrArgload readerMacros ⟨w :: arg :: words, operands⟩ = .ok .next ⟨words, operands⟩ := by
  have hrun : instrArgload readerMacros ⟨w :: arg :: words, operands⟩ =
      (if readerMacros.argc ≤ arg.toNat then readerMacros.error .argRange
        else do
          readerMacros.saveCallElement (arg <<< 2).toNat (readerMacros.argv arg.toNat)
          gotoNextInstr readerMacros) ⟨arg :: words, operands⟩ := rfl
  have hin : ¬ readerMacros.argc ≤ arg.toNat := Nat.not_le.mpr arg.isLt
  rw [hrun, if_neg hin]
  rfl

end Handlers

/-- Some operands are left, none of them zero. -/
def NonzeroOperands (operands : List Word) : Prop := 0 ∉ operands

namespace NonzeroOperands

variable {operands : List Word}

theorem tail (h : NonzeroOperands operands) : NonzeroOperands operands.tail := by
  intro hmem
  exact h (List.mem_of_mem_tail hmem)

theorem head (h : NonzeroOperands operands) : operands.headD 1 ≠ 0 := by
  cases operands with
  | nil => decide
  | cons w l =>
      intro hw
      exact h (by simp [← hw])

end NonzeroOperands

/-- **An instruction takes its own words**, whatever its operands are. -/
theorem dispatch_reads (e : CodeElem) (rest : List Word) {operands : List Word}
    (h : NonzeroOperands operands) :
    ∃ c operands', NonzeroOperands operands' ∧
      dispatch readerMacros ⟨e.encode ++ rest, operands⟩ = .ok c ⟨rest, operands'⟩ := by
  obtain ⟨instr, arg, callee⟩ := e
  cases instr with
  | nop => exact ⟨_, _, h, rfl⟩
  | finish => exact ⟨_, _, h, rfl⟩
  | push => exact ⟨_, _, h, rfl⟩
  | print => exact ⟨_, _, h.tail, rfl⟩
  | load => exact ⟨_, _, h, rfl⟩
  | store => exact ⟨_, _, h.tail, rfl⟩
  | add => exact ⟨_, _, h.tail, rfl⟩
  | sub => exact ⟨_, _, h.tail, rfl⟩
  | mul => exact ⟨_, _, h.tail, rfl⟩
  | div => exact ⟨_, _, h.tail, instrDivide_reads _ h.head⟩
  | mod => exact ⟨_, _, h.tail, instrDivide_reads _ h.head⟩
  | jmp => exact ⟨_, _, h, rfl⟩
  | jeq => exact ⟨_, _, h.tail.tail, instrJcc_reads fun ecx edx => ecx == edx⟩
  | jne => exact ⟨_, _, h.tail.tail, instrJcc_reads fun ecx edx => ecx != edx⟩
  | jl => exact ⟨_, _, h.tail.tail, instrJcc_reads fun ecx edx => ecx.slt edx⟩
  | jle => exact ⟨_, _, h.tail.tail, instrJcc_reads fun ecx edx => ecx.sle edx⟩
  | jg => exact ⟨_, _, h.tail.tail, instrJcc_reads fun ecx edx => edx.slt ecx⟩
  | jge => exact ⟨_, _, h.tail.tail, instrJcc_reads fun ecx edx => edx.sle ecx⟩
  | call => exact ⟨_, _, h, rfl⟩
  | ret => exact ⟨_, _, h, rfl⟩
  | prolog => exact ⟨_, _, h, rfl⟩
  | epilog => exact ⟨_, _, h, rfl⟩
  | argload => exact ⟨_, _, h, instrArgload_reads⟩

/-! ## Sequences -/

/-- The words that each of the next `n` instructions takes. -/
def readInstrs : ℕ → EStateM Unit Reader (List (List Word))
  | 0 => pure []
  | n + 1 => do
      let before ← get
      let _ ← dispatch readerMacros
      let after ← get
      let next ← readInstrs n
      pure (before.words.take (before.words.length - after.words.length) :: next)

/-- **The words of a code list are split into its instructions.** -/
theorem readInstrs_encode (l : List CodeElem) (rest : List Word) {operands : List Word}
    (h : NonzeroOperands operands) :
    ∃ operands', readInstrs l.length ⟨encode l ++ rest, operands⟩ =
      .ok (l.map CodeElem.encode) ⟨rest, operands'⟩ := by
  induction l generalizing operands with
  | nil => exact ⟨operands, rfl⟩
  | cons e l ih =>
      obtain ⟨c, operands₁, h₁, hread⟩ := dispatch_reads e (encode l ++ rest) h
      obtain ⟨operands₂, hnext⟩ := ih h₁
      refine ⟨operands₂, ?_⟩
      rw [encode_cons, List.append_assoc, List.length_cons, readInstrs, bind_ok (run_get _),
        bind_ok hread, bind_ok (run_get _), bind_ok hnext]
      simp [run_pure]

/-! ## Segments -/

/-- The words of the code segment. -/
def Program.segmentWords (p : Program) : List Word := (List.range (p.codeSize / 4)).map p.code

/-- A segment that holds a list starts with its words. -/
theorem Program.Holds.segmentWords_eq {p : Program} {l : List CodeElem} (h : p.Holds 0 l)
    (hsize : 4 ∣ p.codeSize) : ∃ rest, p.segmentWords = encode l ++ rest := by
  refine ⟨p.segmentWords.drop (words l), ?_⟩
  have htake : p.segmentWords.take (words l) = encode l := by
    ext1 a
    rw [List.getElem?_take]
    by_cases ha : a < words l
    · have hlt : a < (encode l).length := by rwa [length_encode]
      have hat := h a _ (List.getElem?_eq_getElem hlt)
      rw [Nat.zero_add] at hat
      have hin : a < p.codeSize / 4 := by
        have hword := hat.lt
        omega
      simp [ha, segmentWords, hin, hat.code]
    · rw [if_neg ha, List.getElem?_eq_none (by rw [length_encode]; omega)]
  rw [← htake, List.take_append_drop]

end Bispe
