import Bispe.Backend.Open

/-!
# The words of the two stacks

What the interpreter holds at the positions of its stacks, in the cached lines or in
memory, and how the next instruction ends.  A word that a plain state leaves undefined
may be taken to be the one that is there.

## Main definitions

* `stackIndex`, `stackWord`, `operandStack` — the operand stack.
* `callIndex`, `callWord` — the call stack.
* `operandOf` — the operand of the next instruction.
* `GoesOn`, `StopsWith` — how the next instruction ends.
* `Flat.filled` — a plain state with the words of both stacks.
-/

namespace Bispe

open Effect

/-- The number of values on the operand stack. -/
def stackIndex (ctx : Ctx) (s : St) : ℕ := ((s.curStackPtr - ctx.stackSegBp) / 4).toNat

/-- The word at position `i` of the operand stack. -/
def stackWord (b : Build) (ctx : Ctx) (s : St) (i : ℕ) : Word :=
  wordAt (b.mode.held (lines s.mem) (s.curStackPtr / 16) s.rstackLine) (ctx.stackSegBp + 4 * i)

/-- The words at the positions `n`, …, `1`. -/
def wordsFrom (f : ℕ → Word) : ℕ → List Word
  | 0 => []
  | n + 1 => f (n + 1) :: wordsFrom f n

/-- The words of the operand stack, the top one first. -/
def operandStack (b : Build) (ctx : Ctx) (s : St) : List Word :=
  wordsFrom (stackWord b ctx s) ((s.curStackPtr - ctx.stackSegBp) / 4).toNat

/-- The word the call pointer points to. -/
def callIndex (ctx : Ctx) (s : St) : ℕ := ((s.curCallPtr - ctx.callSegBp) / 4).toNat

/-- The word at position `i` of the call stack. -/
def callWord (b : Build) (ctx : Ctx) (s : St) (i : ℕ) : Word :=
  wordAt (b.mode.held (lines s.mem) (s.curCallLine / 16) s.rcallLine) (ctx.callSegBp + 4 * i)

/-- The operand of the next instruction: the second word it executes. -/
def operandOf (b : Build) (ctx : Ctx) (s : St) : Word :=
  (executed (stateOf (dispatch (macros b ctx) s)).log).getD ((executed s.log).length + 1) 0

theorem wordsFrom_congr {f g : ℕ → Word} {n : ℕ} (h : ∀ i, 1 ≤ i → i ≤ n → f i = g i) :
    wordsFrom f n = wordsFrom g n := by
  induction n with
  | zero => rfl
  | succ n ih =>
      rw [wordsFrom, wordsFrom, h (n + 1) (by omega) (le_refl _),
        ih fun i hlo hhi => h i hlo (by omega)]

/-! ## How the next instruction ends -/

/-- The next instruction goes on. -/
def GoesOn (b : Build) (ctx : Ctx) (s : St) : Prop :=
  ∃ c s', dispatch (macros b ctx) s = .ok c s'

/-- The next instruction stops with the error `e`. -/
def StopsWith (b : Build) (ctx : Ctx) (s : St) (e : Err) : Prop :=
  ∃ s', dispatch (macros b ctx) s = .error (.error e) s'

section Stops
variable {b : Build} {ctx : Ctx} {s s' : St} {e e' : Err}

theorem stopsWith_iff (hrun : dispatch (macros b ctx) s = .error (.error e) s') :
    StopsWith b ctx s e' ↔ e' = e := by
  constructor
  · rintro ⟨s'', hrun'⟩
    rw [hrun] at hrun'
    cases hrun'
    rfl
  · rintro rfl
    exact ⟨s', hrun⟩

theorem not_stopsWith {c : Ctl} (hrun : dispatch (macros b ctx) s = .ok c s') :
    ¬ StopsWith b ctx s e := by
  rintro ⟨s'', hrun'⟩
  rw [hrun] at hrun'
  cases hrun'

/-- The operand is the second word of the trace. -/
theorem operandOf_eq {r : EStateM.Result Stop St Ctl} {n : Word}
    (hrun : dispatch (macros b ctx) s = r)
    (htrace : executed (stateOf r).log = executed s.log ++ [opcodeAt s] ++ [n]) :
    operandOf b ctx s = n := by
  subst hrun
  rw [operandOf, htrace]
  simp

end Stops

/-! ## On the plain machine -/

/-- A plain state, with the words that the interpreter holds. -/
def Flat.filled (b : Build) (ctx : Ctx) (s : St) (t : Flat) : Flat :=
  { t with
    stack := fun i => some (stackWord b ctx s i), call := fun i => some (callWord b ctx s i) }

section Sim
variable {b : Build} {ctx : Ctx} {m₀ : ℤ → Word} {s : St} {t : Flat}

/-- Every word of the stacks may be taken as defined. -/
theorem Sim.total (hst : Sim b ctx m₀ s t) : Sim b ctx m₀ s (t.filled b ctx s) :=
  { hst with
    observed := ⟨hst.observed.halt, hst.observed.error, hst.observed.trace, hst.observed.printed⟩
    stack := fun _ _ _ hw => Option.some.inj hw
    call := fun _ _ _ hw => Option.some.inj hw }

theorem Sim.stackIndex_eq (hst : Sim b ctx m₀ s t) : stackIndex ctx s = t.sp := by
  have hsp := hst.sp
  unfold stackIndex
  omega

theorem Sim.callIndex_eq (hst : Sim b ctx m₀ s t) : callIndex ctx s = t.cp := by
  have hcp := hst.cp
  unfold callIndex
  omega

theorem Sim.stackWord_eq (hst : Sim b ctx m₀ s t) {i : ℕ} (hi : i ≤ t.sp) {w : Word}
    (hw : t.stack i = some w) : stackWord b ctx s i = w := hst.stack i hi w hw

theorem Sim.callWord_eq (hst : Sim b ctx m₀ s t) {i : ℕ} (hi : i ≤ t.cp) {w : Word}
    (hw : t.call i = some w) : callWord b ctx s i = w := hst.call i hi w hw

theorem Sim.operandStack_eq (hst : Sim b ctx m₀ s t) :
    operandStack b ctx s = wordsFrom (stackWord b ctx s) t.sp := by
  rw [operandStack, ← hst.stackIndex_eq]
  rfl

end Sim
end Bispe
