import Bispe.Backend.Instructions

/-!
# The plain machine

The instruction set over flat, unencrypted arrays of words: the machine that a
bytecode program is written for.  It has the handlers of the interpreter, and the
checks its macros make, but no lines, no registers and no cycles.

A word of a stack can be undefined: a new top of the operand stack, and the words
a rising call pointer passes, hold whatever was there.  What reading such a word
yields is not determined; the machine takes it from a supply, and stops when the
supply is empty.

## Main definitions

* `Program` — the code and the sizes a run depends on.
* `Flat` — the state.
* `flatMacros` — the state macros.
* `dispatchLoop` — a number of instructions in sequence.
-/

namespace Bispe

open Effect

/-- What a run depends on besides its state.  Sizes are in words, but for the code
size, which jump targets are compared with in bytes. -/
structure Program where
  code : ℕ → Word
  codeSize : ℕ
  stackWords : ℕ
  callWords : ℕ
  argc : ℕ
  argv : ℕ → Word

/-- The plain machine: pointers are positions, and `none` is an undefined word. -/
structure Flat where
  ip : ℕ
  sp : ℕ
  cp : ℕ
  stack : ℕ → Option Word
  call : ℕ → Option Word
  haltFlag : Bool
  errorCode : ℕ
  /-- The words that were executed, opcodes and operands. -/
  trace : List Word
  printed : List Word
  /-- The values of the next undefined words that are read. -/
  supply : List Word

/-- Why the plain machine stops. -/
inductive FlatStop
  /-- One of the `error_*` labels. -/
  | error (e : Err)
  /-- The next word to execute is not in the code segment. -/
  | outside
  /-- An undefined word is read and the supply is empty. -/
  | undef
  deriving DecidableEq, Repr

abbrev F := EStateM FlatStop Flat

namespace Flat

/-- The value of a word that may be undefined. -/
def readCell : Option Word → F Word
  | some w => pure w
  | none => fun t => match t.supply with
      | [] => .error .undef t
      | w :: rest => .ok w { t with supply := rest }

def setError {α : Type} (e : Err) : F α := fun t =>
  .error (.error e) { t with errorCode := e.code, haltFlag := true }

section Macros
variable (p : Program)

def extrNextInstr : F Word := fun t =>
  if 4 * t.ip < p.codeSize then .ok (p.code t.ip) { t with trace := t.trace ++ [p.code t.ip] }
  else .error .outside t

def incInstrPtr : F Unit := modify fun t => { t with ip := t.ip + 1 }

def calcJmpTarget (target : Word) : F ℕ :=
  if p.codeSize ≤ 4 * target.toNat then setError .jmpBounds else pure target.toNat

def jumpTo (target : ℕ) : F Unit := modify fun t => { t with ip := target }

def retAddr : F Word := fun t => .ok (BitVec.ofNat 32 (t.ip + 1)) t

def insStack (src : Word) : F Unit := modify fun t =>
  { t with stack := Function.update t.stack t.sp (some src) }

def extrStack : F Word := do
  let t ← get
  readCell (t.stack t.sp)

/-- The new top of the operand stack is undefined. -/
def incStackPtr : F Unit := do
  modify fun t => { t with sp := t.sp + 1, stack := Function.update t.stack (t.sp + 1) none }
  let t ← get
  if p.stackWords ≤ t.sp then setError .stackOverflow else pure ()

def decStackPtr : F Unit := do
  let t ← get
  if t.sp = 0 then setError .stackUnderflow else set { t with sp := t.sp - 1 }

/-- The call word `displacement` bytes below the call pointer. -/
def fetchCallElement (displacement : ℕ) : F Word := do
  let t ← get
  if t.cp < displacement / 4 then setError .callUnderflow
  else readCell (t.call (t.cp - displacement / 4))

def saveCallElement (displacement : ℕ) (src : Word) : F Unit := do
  let t ← get
  if t.cp < displacement / 4 then setError .callUnderflow
  else set { t with call := Function.update t.call (t.cp - displacement / 4) (some src) }

/-- The call words above position `cp` up to `cp + n` become undefined. -/
def clearAbove (call : ℕ → Option Word) (cp n : ℕ) : ℕ → Option Word :=
  fun i => if cp < i ∧ i ≤ cp + n then none else call i

theorem clearAbove_eq_some {call : ℕ → Option Word} {cp n i : ℕ} {w : Word} (hi : i ≤ cp + n)
    (h : clearAbove call cp n i = some w) : i ≤ cp ∧ call i = some w := by
  unfold clearAbove at h
  split at h
  · simp at h
  · exact ⟨by omega, h⟩

def incCallPtr (amount : ℕ) : F Unit := do
  modify fun t => { t with
    cp := t.cp + amount / 4, call := clearAbove t.call t.cp (amount / 4) }
  let t ← get
  if p.callWords ≤ t.cp then setError .callOverflow else pure ()

def decCallPtr (amount : ℕ) : F Unit := do
  let t ← get
  if t.cp < amount / 4 then setError .callUnderflow
  else set { t with cp := t.cp - amount / 4 }

def print (w : Word) : F Unit := modify fun t => { t with printed := t.printed ++ [w] }

/-! ### Runs -/

variable {p} {t : Flat}

theorem extrNextInstr_run (h : 4 * t.ip < p.codeSize) :
    extrNextInstr p t = .ok (p.code t.ip) { t with trace := t.trace ++ [p.code t.ip] } := if_pos h

theorem extrNextInstr_outside (h : ¬ 4 * t.ip < p.codeSize) :
    extrNextInstr p t = .error .outside t := if_neg h

theorem calcJmpTarget_run {w : Word} (h : 4 * w.toNat < p.codeSize) :
    calcJmpTarget p w t = .ok w.toNat t := by
  rw [calcJmpTarget, if_neg (Nat.not_le.mpr h)]
  rfl

theorem calcJmpTarget_error {w : Word} (h : p.codeSize ≤ 4 * w.toNat) :
    calcJmpTarget p w t = setError .jmpBounds t := by rw [calcJmpTarget, if_pos h]

theorem incStackPtr_run (h : t.sp + 1 < p.stackWords) :
    incStackPtr p t =
      .ok () { t with sp := t.sp + 1, stack := Function.update t.stack (t.sp + 1) none } := by
  rw [incStackPtr, bind_ok (run_modify _ t), bind_ok (run_get _), if_neg (Nat.not_le.mpr h)]
  rfl

theorem incStackPtr_error (h : p.stackWords ≤ t.sp + 1) :
    incStackPtr p t = setError .stackOverflow
      { t with sp := t.sp + 1, stack := Function.update t.stack (t.sp + 1) none } := by
  rw [incStackPtr, bind_ok (run_modify _ t), bind_ok (run_get _), if_pos h]

theorem decStackPtr_run (h : t.sp ≠ 0) : decStackPtr t = .ok () { t with sp := t.sp - 1 } := by
  rw [decStackPtr, bind_ok (run_get t), if_neg h]
  rfl

theorem decStackPtr_error (h : t.sp = 0) : decStackPtr t = setError .stackUnderflow t := by
  rw [decStackPtr, bind_ok (run_get t), if_pos h]

theorem fetchCallElement_eq {d : ℕ} (h : d / 4 ≤ t.cp) :
    fetchCallElement d t = readCell (t.call (t.cp - d / 4)) t := by
  rw [fetchCallElement, bind_ok (run_get t), if_neg (Nat.not_lt.mpr h)]

theorem fetchCallElement_error {d : ℕ} (h : t.cp < d / 4) :
    fetchCallElement d t = setError .callUnderflow t := by
  rw [fetchCallElement, bind_ok (run_get t), if_pos h]

theorem saveCallElement_run {d : ℕ} {w : Word} (h : d / 4 ≤ t.cp) :
    saveCallElement d w t =
      .ok () { t with call := Function.update t.call (t.cp - d / 4) (some w) } := by
  rw [saveCallElement, bind_ok (run_get t), if_neg (Nat.not_lt.mpr h)]
  rfl

theorem saveCallElement_error {d : ℕ} {w : Word} (h : t.cp < d / 4) :
    saveCallElement d w t = setError .callUnderflow t := by
  rw [saveCallElement, bind_ok (run_get t), if_pos h]

theorem incCallPtr_run {d : ℕ} (h : t.cp + d / 4 < p.callWords) :
    incCallPtr p d t =
      .ok () { t with cp := t.cp + d / 4, call := clearAbove t.call t.cp (d / 4) } := by
  rw [incCallPtr, bind_ok (run_modify _ t), bind_ok (run_get _), if_neg (Nat.not_le.mpr h)]
  rfl

theorem incCallPtr_error {d : ℕ} (h : p.callWords ≤ t.cp + d / 4) :
    incCallPtr p d t = setError .callOverflow
      { t with cp := t.cp + d / 4, call := clearAbove t.call t.cp (d / 4) } := by
  rw [incCallPtr, bind_ok (run_modify _ t), bind_ok (run_get _), if_pos h]

theorem decCallPtr_run {d : ℕ} (h : d / 4 ≤ t.cp) :
    decCallPtr d t = .ok () { t with cp := t.cp - d / 4 } := by
  rw [decCallPtr, bind_ok (run_get t), if_neg (Nat.not_lt.mpr h)]
  rfl

theorem decCallPtr_error {d : ℕ} (h : t.cp < d / 4) :
    decCallPtr d t = setError .callUnderflow t := by
  rw [decCallPtr, bind_ok (run_get t), if_pos h]

end Macros
end Flat

/-- The macros the handlers of the plain machine run on. -/
def flatMacros (p : Program) : Macros F ℕ where
  argc := p.argc
  argv := p.argv
  error := Flat.setError
  setHaltFlag := modify fun t => { t with haltFlag := true }
  incAndCheckCycleCnt := pure .next
  extrNextInstr := Flat.extrNextInstr p
  incInstrPtr := Flat.incInstrPtr
  calcJmpTarget := Flat.calcJmpTarget p
  jumpTo := Flat.jumpTo
  retAddr := Flat.retAddr
  extrStack := Flat.extrStack
  insStack := Flat.insStack
  incStackPtr := Flat.incStackPtr p
  decStackPtr := Flat.decStackPtr
  fetchCallElement := Flat.fetchCallElement
  saveCallElement := Flat.saveCallElement
  incCallPtr := Flat.incCallPtr p
  decCallPtr := Flat.decCallPtr
  print := Flat.print

/-- At most `n` instructions, up to the first that does not hand control to its
successor. -/
def dispatchLoop {m : Type → Type} [Monad m] {P : Type} (M : Macros m P) : ℕ → m Ctl
  | 0 => pure .next
  | n + 1 => do
      match ← dispatch M with
      | .next => dispatchLoop M n
      | c => pure c

section Loop
variable {ε σ P : Type} {M : Macros (EStateM ε σ) P} {n m : ℕ} {s s' : σ}

/-- The instruction after `n` others. -/
theorem dispatchLoop_add (h : dispatchLoop M n s = .ok .next s') :
    dispatchLoop M (n + m) s = dispatchLoop M m s' := by
  induction n generalizing s with
  | zero =>
      injection h with _ hs
      rw [Nat.zero_add, hs]
  | succ n ih =>
      obtain ⟨c, s₁, hd, hrest⟩ := bind_eq_ok h
      have hstep (k : ℕ) : dispatchLoop M (k + 1) s = _ := bind_ok hd
      rw [Nat.succ_add, hstep]
      cases c with
      | next => exact ih hrest
      | cycleEnd => cases hrest
      | finish => cases hrest

/-- One more instruction. -/
theorem dispatchLoop_snoc (h : dispatchLoop M n s = .ok .next s') :
    dispatchLoop M (n + 1) s = dispatch M s' := by
  rw [dispatchLoop_add h]
  cases hd : dispatch M s' with
  | error e s₁ => exact bind_error hd
  | ok c s₁ =>
      have hstep : dispatchLoop M 1 s' = _ := bind_ok hd
      rw [hstep]
      cases c <;> rfl

/-- A run that has stopped stays as it is. -/
theorem dispatchLoop_stopped {r : EStateM.Result ε σ Ctl} (h : dispatchLoop M n s = r)
    (hr : ∀ s', r ≠ .ok .next s') : dispatchLoop M (n + m) s = r := by
  induction n generalizing s with
  | zero => exact (hr s h.symm).elim
  | succ n ih =>
      cases hd : dispatch M s with
      | error e s₁ =>
          have hstep (k : ℕ) : dispatchLoop M (k + 1) s = .error e s₁ := bind_error hd
          rw [Nat.succ_add, hstep, ← h, hstep]
      | ok c s₁ =>
          have hstep (k : ℕ) : dispatchLoop M (k + 1) s = _ := bind_ok hd
          rw [hstep] at h
          rw [Nat.succ_add, hstep]
          cases c with
          | next => exact ih h
          | cycleEnd => exact h
          | finish => exact h

/-- Two stops of one run are the same. -/
theorem dispatchLoop_unique {r r' : EStateM.Result ε σ Ctl} (h : dispatchLoop M n s = r)
    (hr : ∀ s', r ≠ .ok .next s') (h' : dispatchLoop M m s = r') (hr' : ∀ s', r' ≠ .ok .next s') :
    r = r' := by
  rw [← dispatchLoop_stopped h hr (m := m), Nat.add_comm, dispatchLoop_stopped h' hr']

end Loop

/-! ## What an instruction does to the flag and the output -/

/-- The flag and the error code are the same, and nothing that was printed is taken back. -/
structure Flat.Extends (t t' : Flat) : Prop where
  haltFlag : t'.haltFlag = t.haltFlag
  errorCode : t'.errorCode = t.errorCode
  printed : t.printed <+: t'.printed

/-- An invariant `I` of the flag, the error code and the output, with an end `E` of a machine
that stops. -/
structure EndsIn (I : Flat → Prop) (E : FlatStop → Flat → Prop) : Prop where
  step : ∀ t t', Flat.Extends t t' → I t → I t'
  error : ∀ t e, I t → E (.error e) { t with errorCode := e.code, haltFlag := true }
  outside : ∀ t, I t → E .outside t
  undef : ∀ t, I t → E .undef t

section Output
variable {p : Program} {t t' : Flat} {I : Flat → Prop} {E : FlatStop → Flat → Prop}

namespace EndsIn

/-- What touches neither the flag nor the error code nor the output. -/
theorem same (H : EndsIn I E) (ht : I t) (hflag : t'.haltFlag = t.haltFlag)
    (hcode : t'.errorCode = t.errorCode) (hprinted : t'.printed = t.printed) : I t' :=
  H.step t t' ⟨hflag, hcode, hprinted ▸ List.prefix_rfl⟩ ht

theorem readCell (H : EndsIn I E) (c : Option Word) : Keeps I E (Flat.readCell c) := by
  intro t ht
  cases c with
  | some w => exact ht
  | none =>
      simp only [Flat.readCell]
      split
      · exact H.undef t ht
      · exact H.same ht rfl rfl rfl

/-- No macro of the handlers but `setHaltFlag` changes the flag or the error code, unless it
stops the machine, and none takes back what was printed. -/
theorem flatMacros (H : EndsIn I E) (p : Program) :
    MacrosRel (MonadRel.keeping I E) Eq (fun c c' => c = .next ∧ c' = .next)
      (Bispe.flatMacros p) (Bispe.flatMacros p) where
  argc := rfl
  argv := rfl
  error _ e := fun t ht => ⟨rfl, rfl, H.error t e ht⟩
  incAndCheckCycleCnt := fun _ ht => ⟨⟨rfl, rfl⟩, rfl, ht⟩
  extrNextInstr := Keeps.rel fun t ht => by
    change Ends _ _ (Flat.extrNextInstr p t)
    by_cases h : 4 * t.ip < p.codeSize
    · rw [Flat.extrNextInstr_run h]
      exact H.same ht rfl rfl rfl
    · rw [Flat.extrNextInstr_outside h]
      exact H.outside t ht
  incInstrPtr := Keeps.rel fun _ ht => H.same ht rfl rfl rfl
  calcJmpTarget w := Keeps.rel fun t ht => by
    change Ends _ _ (Flat.calcJmpTarget p w t)
    by_cases h : 4 * w.toNat < p.codeSize
    · rw [Flat.calcJmpTarget_run h]
      exact ht
    · rw [Flat.calcJmpTarget_error (Nat.not_lt.mp h)]
      exact H.error t _ ht
  jumpTo _ _ h := h ▸ Keeps.rel fun _ ht => H.same ht rfl rfl rfl
  retAddr := Keeps.rel fun _ ht => ht
  extrStack := Keeps.rel fun t ht => H.readCell (t.stack t.sp) t ht
  insStack _ := Keeps.rel fun _ ht => H.same ht rfl rfl rfl
  incStackPtr := Keeps.rel fun t ht => by
    change Ends _ _ (Flat.incStackPtr p t)
    by_cases h : t.sp + 1 < p.stackWords
    · rw [Flat.incStackPtr_run h]
      exact H.same ht rfl rfl rfl
    · rw [Flat.incStackPtr_error (Nat.not_lt.mp h)]
      exact H.error _ _ (H.same ht rfl rfl rfl)
  decStackPtr := Keeps.rel fun t ht => by
    change Ends _ _ (Flat.decStackPtr t)
    by_cases h : t.sp = 0
    · rw [Flat.decStackPtr_error h]
      exact H.error t _ ht
    · rw [Flat.decStackPtr_run h]
      exact H.same ht rfl rfl rfl
  fetchCallElement d _ := Keeps.rel fun t ht => by
    change Ends _ _ (Flat.fetchCallElement d t)
    by_cases h : d / 4 ≤ t.cp
    · rw [Flat.fetchCallElement_eq h]
      exact H.readCell _ t ht
    · rw [Flat.fetchCallElement_error (Nat.not_le.mp h)]
      exact H.error t _ ht
  saveCallElement d w _ := Keeps.rel fun t ht => by
    change Ends _ _ (Flat.saveCallElement d w t)
    by_cases h : d / 4 ≤ t.cp
    · rw [Flat.saveCallElement_run h]
      exact H.same ht rfl rfl rfl
    · rw [Flat.saveCallElement_error (Nat.not_le.mp h)]
      exact H.error t _ ht
  incCallPtr d _ := Keeps.rel fun t ht => by
    change Ends _ _ (Flat.incCallPtr p d t)
    by_cases h : t.cp + d / 4 < p.callWords
    · rw [Flat.incCallPtr_run h]
      exact H.same ht rfl rfl rfl
    · rw [Flat.incCallPtr_error (Nat.not_lt.mp h)]
      exact H.error _ _ (H.same ht rfl rfl rfl)
  decCallPtr d _ := Keeps.rel fun t ht => by
    change Ends _ _ (Flat.decCallPtr d t)
    by_cases h : d / 4 ≤ t.cp
    · rw [Flat.decCallPtr_run h]
      exact H.same ht rfl rfl rfl
    · rw [Flat.decCallPtr_error (Nat.not_le.mp h)]
      exact H.error t _ ht
  print _ := Keeps.rel fun t ht => H.step t _ ⟨rfl, rfl, List.prefix_append ..⟩ ht

end EndsIn

/-- The flag keeps its value `v`, and the output goes on from `l`. -/
theorem endsIn_printed (v : Bool) (l : List Word) :
    EndsIn (fun t => t.haltFlag = v ∧ l <+: t.printed) (fun _ t => l <+: t.printed) where
  step _ _ h ht := ⟨h.haltFlag.trans ht.1, ht.2.trans h.printed⟩
  error _ _ ht := ht.2
  outside _ ht := ht.2
  undef _ ht := ht.2

/-- An instruction goes on to the next one, or is `FINISH` and sets the halt flag. -/
theorem dispatch_flat_ends (p : Program) (t : Flat) :
    Ends (fun c t' => t.printed <+: t'.printed ∧
        ((c = .next ∧ t'.haltFlag = t.haltFlag) ∨ (c = .finish ∧ t'.haltFlag = true)))
      (fun _ t' => t.printed <+: t'.printed) (dispatch (flatMacros p) t) := by
  have H := (endsIn_printed t.haltFlag t.printed).flatMacros p
  refine ((Keeps.of_rel H.extrNextInstr) t ⟨rfl, List.prefix_rfl⟩).bind fun w t₁ ht₁ => ?_
  by_cases hop : w = 1
  · subst hop
    exact ⟨ht₁.2, .inr ⟨rfl, rfl⟩⟩
  · have hrel := H.jmpThroughTable_of_ne hop t₁ ht₁
    cases hj : jmpThroughTable (flatMacros p) w t₁ with
    | ok c t' =>
        rw [hj] at hrel
        exact ⟨hrel.2.2.2, .inl ⟨hrel.1.1, hrel.2.2.1⟩⟩
    | error e t' =>
        rw [hj] at hrel
        exact hrel.2.2

theorem dispatch_flat_exit {c : Ctl} (h : dispatch (flatMacros p) t = .ok c t') :
    (c = .next ∧ t'.haltFlag = t.haltFlag) ∨ (c = .finish ∧ t'.haltFlag = true) := by
  have hends := dispatch_flat_ends p t
  rw [h] at hends
  exact hends.2

/-- What was printed stays printed. -/
theorem dispatchLoop_printed (p : Program) (n : ℕ) (t : Flat) :
    Ends (fun _ t' => t.printed <+: t'.printed) (fun _ t' => t.printed <+: t'.printed)
      (dispatchLoop (flatMacros p) n t) := by
  induction n generalizing t with
  | zero => exact List.prefix_rfl
  | succ n ih =>
      refine ((dispatch_flat_ends p t).mono (fun _ _ h => h.1) fun _ _ h => h).bind
        fun c t₁ ht₁ => ?_
      cases c with
      | next => exact (ih t₁).mono (fun _ _ h => ht₁.trans h) fun _ _ h => ht₁.trans h
      | cycleEnd => exact ht₁
      | finish => exact ht₁

/-- A longer run has printed at least as much. -/
theorem dispatchLoop_printed_mono (p : Program) {k k' : ℕ} (h : k ≤ k') (t : Flat) :
    (stateOf (dispatchLoop (flatMacros p) k t)).printed <+:
      (stateOf (dispatchLoop (flatMacros p) k' t)).printed := by
  obtain ⟨m, rfl⟩ := Nat.exists_eq_add_of_le h
  by_cases hnext : ∃ t', dispatchLoop (flatMacros p) k t = .ok .next t'
  · obtain ⟨t', ht'⟩ := hnext
    rw [dispatchLoop_add ht', ht']
    exact (dispatchLoop_printed p m t').state
  · rewrite [dispatchLoop_stopped rfl fun t' ht' => hnext ⟨t', ht'⟩]
    exact List.prefix_rfl

end Output

/-- The state before the first instruction: nothing is defined yet. -/
def Flat.initial : Flat where
  ip := 0
  sp := 0
  cp := 0
  stack := fun _ => none
  call := fun _ => none
  haltFlag := false
  errorCode := 0
  trace := []
  printed := []
  supply := []

end Bispe
