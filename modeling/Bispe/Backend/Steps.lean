import Bispe.Backend.Flat

/-!
# Steps of the plain machine

One instruction of the plain machine at a time: what it does when its words are in the
code segment at the instruction pointer and the operands are there.  The trace is left
out: nothing reads it, so runs are composed up to the trace.

## Main definitions

* `Program.At p i w` — the word `i` of the code segment is `w`.
* `Flat.Does p t t'` — one instruction leads from `t` to `t'`.
* `Flat.Runs p n t t'` — `n` instructions do.
-/

namespace Bispe

open Effect

/-- The word `i` is in the code segment, and it is `w`. -/
structure Program.At (p : Program) (i : ℕ) (w : Word) : Prop where
  code : p.code i = w
  lt : 4 * i < p.codeSize

namespace Flat

variable {p : Program} {t t' t'' : Flat}

/-- A state with more of a past. -/
def addTrace (past : List Word) (t : Flat) : Flat := { t with trace := past ++ t.trace }

theorem readCell_commutes (past : List Word) (cell : Option Word) :
    Commutes (addTrace past) (readCell cell) := by
  intro t
  cases cell with
  | some w => rfl
  | none =>
      cases hs : t.supply with
      | nil => simp [readCell, addTrace, mapState, hs]
      | cons w rest => simp [readCell, addTrace, mapState, hs]

/-- The macros do not read the trace. -/
theorem flatMacros_commute (p : Program) (past : List Word) :
    MacrosRel (MonadRel.commuting (addTrace past)) Eq Eq (flatMacros p) (flatMacros p) where
  argc := rfl
  argv := rfl
  error _ _ := fun _ => ⟨rfl, rfl⟩
  incAndCheckCycleCnt := Commutes.rel fun _ => rfl
  extrNextInstr := Commutes.rel fun t => by
    by_cases h : 4 * t.ip < p.codeSize
    · have hpast : 4 * (addTrace past t).ip < p.codeSize := h
      change extrNextInstr p (addTrace past t) = mapState _ (extrNextInstr p t)
      rw [extrNextInstr_run h, extrNextInstr_run hpast]
      simp [addTrace, mapState]
    · have hpast : ¬ 4 * (addTrace past t).ip < p.codeSize := h
      change extrNextInstr p (addTrace past t) = mapState _ (extrNextInstr p t)
      rw [extrNextInstr_outside h, extrNextInstr_outside hpast]
      rfl
  incInstrPtr := Commutes.rel fun _ => rfl
  calcJmpTarget w := Commutes.rel <| .ite (fun _ => rfl) (.pure _)
  jumpTo w _ h := h ▸ Commutes.rel fun _ => rfl
  retAddr := Commutes.rel fun _ => rfl
  extrStack := Commutes.rel fun t => readCell_commutes past (t.stack t.sp) t
  insStack _ := Commutes.rel fun _ => rfl
  incStackPtr := Commutes.rel fun t => by
    change incStackPtr p (addTrace past t) = mapState _ (incStackPtr p t)
    by_cases h : t.sp + 1 < p.stackWords
    · rw [incStackPtr_run h, incStackPtr_run (t := addTrace past t) h]
      rfl
    · rw [incStackPtr_error (Nat.not_lt.mp h),
        incStackPtr_error (t := addTrace past t) (Nat.not_lt.mp h)]
      rfl
  decStackPtr := Commutes.rel fun t => by
    change decStackPtr (addTrace past t) = mapState _ (decStackPtr t)
    by_cases h : t.sp = 0
    · rw [decStackPtr_error h, decStackPtr_error (t := addTrace past t) h]
      rfl
    · rw [decStackPtr_run h, decStackPtr_run (t := addTrace past t) h]
      rfl
  fetchCallElement d _ := Commutes.rel fun t => by
    change fetchCallElement d (addTrace past t) = mapState _ (fetchCallElement d t)
    by_cases h : d / 4 ≤ t.cp
    · rw [fetchCallElement_eq h, fetchCallElement_eq (t := addTrace past t) h]
      exact readCell_commutes past _ t
    · rw [fetchCallElement_error (Nat.not_le.mp h),
        fetchCallElement_error (t := addTrace past t) (Nat.not_le.mp h)]
      rfl
  saveCallElement d w _ := Commutes.rel fun t => by
    change saveCallElement d w (addTrace past t) = mapState _ (saveCallElement d w t)
    by_cases h : d / 4 ≤ t.cp
    · rw [saveCallElement_run h, saveCallElement_run (t := addTrace past t) h]
      rfl
    · rw [saveCallElement_error (Nat.not_le.mp h),
        saveCallElement_error (t := addTrace past t) (Nat.not_le.mp h)]
      rfl
  incCallPtr d _ := Commutes.rel fun t => by
    change incCallPtr p d (addTrace past t) = mapState _ (incCallPtr p d t)
    by_cases h : t.cp + d / 4 < p.callWords
    · rw [incCallPtr_run h, incCallPtr_run (t := addTrace past t) h]
      rfl
    · rw [incCallPtr_error (Nat.not_lt.mp h),
        incCallPtr_error (t := addTrace past t) (Nat.not_lt.mp h)]
      rfl
  decCallPtr d _ := Commutes.rel fun t => by
    change decCallPtr d (addTrace past t) = mapState _ (decCallPtr d t)
    by_cases h : d / 4 ≤ t.cp
    · rw [decCallPtr_run h, decCallPtr_run (t := addTrace past t) h]
      rfl
    · rw [decCallPtr_error (Nat.not_le.mp h),
        decCallPtr_error (t := addTrace past t) (Nat.not_le.mp h)]
      rfl
  print _ := Commutes.rel fun _ => rfl

theorem dispatch_commutes (p : Program) (past : List Word) :
    Commutes (addTrace past) (dispatch (flatMacros p)) :=
  .of_rel (dispatch_rel (flatMacros_commute p past) fun _ => ⟨rfl, rfl⟩)

/-- A run does not depend on its past. -/
theorem dispatchLoop_commutes (p : Program) (past : List Word) (n : ℕ) :
    Commutes (addTrace past) (dispatchLoop (flatMacros p) n) := by
  induction n with
  | zero => exact .pure _
  | succ n ih =>
      refine .bind (dispatch_commutes p past) fun c => ?_
      cases c with
      | next => exact ih
      | cycleEnd => exact .pure _
      | finish => exact .pure _

/-! ## Runs -/

/-- `n` instructions lead from `t` to `t'`, the trace apart. -/
def Runs (p : Program) (n : ℕ) (t t' : Flat) : Prop :=
  ∃ trace, dispatchLoop (flatMacros p) n t = .ok .next { t' with trace := trace }

/-- One instruction leads from `t` to `t'`, the trace apart. -/
def Does (p : Program) (t t' : Flat) : Prop :=
  ∃ trace, dispatch (flatMacros p) t = .ok .next { t' with trace := trace }

theorem Runs.refl (p : Program) (t : Flat) : Runs p 0 t t := ⟨t.trace, rfl⟩

theorem Runs.of_trace {n : ℕ} (h : Runs p n t t') (past : List Word) :
    Runs p n { t with trace := past } t' := by
  obtain ⟨trace, htrace⟩ := h
  have hempty := dispatchLoop_commutes p t.trace n { t with trace := [] }
  have hself : addTrace t.trace { t with trace := [] } = t := by simp [addTrace]
  rw [hself, htrace] at hempty
  have hpast := dispatchLoop_commutes p past n { t with trace := [] }
  have hother : addTrace past { t with trace := [] } = { t with trace := past } := by
    simp [addTrace]
  rw [hother] at hpast
  cases hrun : dispatchLoop (flatMacros p) n { t with trace := [] } with
  | error e s => rw [hrun] at hempty; cases hempty
  | ok c s =>
      rw [hrun] at hempty hpast
      injection hempty with hc hs
      have hend := congrArg (fun t : Flat => { t with trace := past ++ s.trace }) hs
      refine ⟨past ++ s.trace, hpast.trans ?_⟩
      rw [← hc]
      exact congrArg (EStateM.Result.ok Ctl.next) hend.symm

theorem Runs.trans {n m : ℕ} (h : Runs p n t t') (h' : Runs p m t' t'') :
    Runs p (n + m) t t'' := by
  obtain ⟨trace, htrace⟩ := h
  obtain ⟨trace', htrace'⟩ := h'.of_trace trace
  exact ⟨trace', (dispatchLoop_add htrace).trans htrace'⟩

theorem Does.runs (h : Does p t t') : Runs p 1 t t' := by
  obtain ⟨trace, htrace⟩ := h
  exact ⟨trace, bind_ok htrace⟩

/-- A run has one end, the trace apart. -/
theorem Runs.unique {n : ℕ} (h : Runs p n t t') (h' : Runs p n t t'') :
    { t' with trace := [] } = { t'' with trace := [] } := by
  obtain ⟨trace, htrace⟩ := h
  obtain ⟨trace', htrace'⟩ := h'
  rw [htrace] at htrace'
  injection htrace' with _ hs
  exact congrArg (fun t : Flat => { t with trace := [] }) hs

/-! ## The handlers -/

theorem dispatch_eq {w : Word} (h : p.At t.ip w) :
    dispatch (flatMacros p) t =
      jmpThroughTable (flatMacros p) w { t with trace := t.trace ++ [w] } := by
  have hfetch := extrNextInstr_run h.lt
  rw [h.code] at hfetch
  exact bind_ok hfetch

/-- The instruction with the opcode `w` does what its handler does. -/
theorem Does.of_run {w : Word} {x : F Ctl} {trace : List Word} (h : p.At t.ip w)
    (hx : jmpThroughTable (flatMacros p) w = x)
    (hrun : x { t with trace := t.trace ++ [w] } = .ok .next { t' with trace := trace }) :
    Does p t t' := by
  refine ⟨trace, (dispatch_eq h).trans ?_⟩
  rw [hx, hrun]

theorem fetchOperand_run {w : Word} (h : p.At (t.ip + 1) w) :
    fetchOperand (flatMacros p) t =
      .ok w { t with ip := t.ip + 1, trace := t.trace ++ [w] } := by
  have hfetch := extrNextInstr_run (t := { t with ip := t.ip + 1 }) h.lt
  rw [h.code] at hfetch
  exact (bind_ok (run_modify _ t)).trans hfetch

/-- The top of the operand stack. -/
theorem extrStack_run {w : Word} (h : t.stack t.sp = some w) : extrStack t = .ok w t := by
  have hrun : extrStack t = readCell (t.stack t.sp) t := rfl
  rw [hrun, h]
  rfl

theorem fetchCallElement_run {w : Word} {d : ℕ} (hd : d / 4 ≤ t.cp)
    (h : t.call (t.cp - d / 4) = some w) : fetchCallElement d t = .ok w t := by
  rw [fetchCallElement_eq hd, h]
  rfl

/-- How far below the call pointer an operand reaches, in words. -/
def depth (arg : Word) : ℕ := (arg <<< 2).toNat / 4

/-- An operand below `2 ^ 30` is scaled without loss. -/
theorem depth_ofNat {n : ℕ} (h : n < 2 ^ 30) : depth (BitVec.ofNat 32 n) = n := by
  rw [depth, BitVec.toNat_shiftLeft, BitVec.toNat_ofNat, Nat.shiftLeft_eq]
  omega

/-- A value arrives on the operand stack. -/
theorem push_run {w : Word} (hroom : t.sp + 1 < p.stackWords) :
    (do
      (flatMacros p).incStackPtr
      (flatMacros p).insStack w
      gotoNextInstr (flatMacros p)) t = .ok .next { t with
        ip := t.ip + 1, sp := t.sp + 1
        stack := Function.update t.stack (t.sp + 1) (some w) } := by
  refine (bind_ok (incStackPtr_run hroom)).trans ?_
  refine (bind_ok (run_modify _ _)).trans ?_
  simp only [Function.update_idem]
  rfl

theorem does_push {w : Word} (hop : p.At t.ip 2) (harg : p.At (t.ip + 1) w)
    (hroom : t.sp + 1 < p.stackWords) :
    Does p t { t with
      ip := t.ip + 2, sp := t.sp + 1, stack := Function.update t.stack (t.sp + 1) (some w) } := by
  apply Does.of_run hop rfl
  exact (bind_ok (fetchOperand_run (by exact harg))).trans (push_run (by exact hroom))

theorem does_print {w : Word} (hop : p.At t.ip 3) (htop : t.stack t.sp = some w)
    (hsp : t.sp ≠ 0) :
    Does p t { t with ip := t.ip + 1, sp := t.sp - 1, printed := t.printed ++ [w] } := by
  apply Does.of_run hop rfl
  refine (bind_ok (extrStack_run (by exact htop))).trans ?_
  exact (bind_ok (decStackPtr_run (by exact hsp))).trans rfl

theorem does_load {arg w : Word} (hop : p.At t.ip 4) (harg : p.At (t.ip + 1) arg)
    (hcp : depth arg ≤ t.cp) (hcell : t.call (t.cp - depth arg) = some w)
    (hroom : t.sp + 1 < p.stackWords) :
    Does p t { t with
      ip := t.ip + 2, sp := t.sp + 1, stack := Function.update t.stack (t.sp + 1) (some w) } := by
  apply Does.of_run hop rfl
  refine (bind_ok (fetchOperand_run (by exact harg))).trans ?_
  exact (bind_ok (fetchCallElement_run (by exact hcp) (by exact hcell))).trans
    (push_run (by exact hroom))

theorem does_store {arg w : Word} (hop : p.At t.ip 5) (harg : p.At (t.ip + 1) arg)
    (hcp : depth arg ≤ t.cp) (htop : t.stack t.sp = some w) (hsp : t.sp ≠ 0) :
    Does p t { t with
      ip := t.ip + 2, sp := t.sp - 1
      call := Function.update t.call (t.cp - depth arg) (some w) } := by
  apply Does.of_run hop rfl
  refine (bind_ok (fetchOperand_run (by exact harg))).trans ?_
  refine (bind_ok (extrStack_run (by exact htop))).trans ?_
  refine (bind_ok (decStackPtr_run (by exact hsp))).trans ?_
  exact (bind_ok (saveCallElement_run (by exact hcp))).trans rfl

theorem instrArith_run {op : Word → Word → Word} {a b : Word} (hright : t.stack t.sp = some b)
    (hleft : t.stack (t.sp - 1) = some a) (hsp : t.sp ≠ 0) :
    instrArith (flatMacros p) op t = .ok .next { t with
      ip := t.ip + 1, sp := t.sp - 1
      stack := Function.update t.stack (t.sp - 1) (some (op a b)) } := by
  refine (bind_ok (extrStack_run hright)).trans ?_
  refine (bind_ok (decStackPtr_run hsp)).trans ?_
  exact (bind_ok (extrStack_run (by exact hleft))).trans rfl

theorem instrDivide_run {op : Word → Word → Word} {a b : Word} (hright : t.stack t.sp = some b)
    (hleft : t.stack (t.sp - 1) = some a) (hsp : t.sp ≠ 0) (hb : b ≠ 0) :
    instrDivide (flatMacros p) op t = .ok .next { t with
      ip := t.ip + 1, sp := t.sp - 1
      stack := Function.update t.stack (t.sp - 1) (some (op a b)) } := by
  refine (bind_ok (extrStack_run hright)).trans ?_
  refine (bind_ok (decStackPtr_run hsp)).trans ?_
  simp only [if_neg hb]
  exact (bind_ok (extrStack_run (by exact hleft))).trans rfl

theorem instrJmp_run {target : Word} (harg : p.At (t.ip + 1) target)
    (htarget : 4 * target.toNat < p.codeSize) :
    instrJmp (flatMacros p) t =
      .ok .next { t with ip := target.toNat, trace := t.trace ++ [target] } := by
  refine (bind_ok (fetchOperand_run harg)).trans ?_
  exact (bind_ok (calcJmpTarget_run htarget)).trans rfl

theorem does_jmp {target : Word} (hop : p.At t.ip 11) (harg : p.At (t.ip + 1) target)
    (htarget : 4 * target.toNat < p.codeSize) : Does p t { t with ip := target.toNat } := by
  apply Does.of_run hop rfl
  exact instrJmp_run (by exact harg) htarget

/-- A conditional jump compares the word below the top with the top. -/
theorem does_jcc {cond : Word → Word → Bool} {w target a b : Word} (hop : p.At t.ip w)
    (hw : jmpThroughTable (flatMacros p) w = instrJcc (flatMacros p) cond)
    (harg : p.At (t.ip + 1) target) (htarget : 4 * target.toNat < p.codeSize)
    (hright : t.stack t.sp = some b) (hleft : t.stack (t.sp - 1) = some a) (hsp : 2 ≤ t.sp) :
    Does p t { t with
      ip := if cond a b then target.toNat else t.ip + 2, sp := t.sp - 1 - 1 } := by
  have hrun (past : List Word) : ∃ trace, instrJcc (flatMacros p) cond { t with trace := past } =
      .ok .next { t with
        ip := if cond a b then target.toNat else t.ip + 2, sp := t.sp - 1 - 1
        trace := trace } := by
    have hsp0 : t.sp ≠ 0 := by omega
    have hsp1 : t.sp - 1 ≠ 0 := by omega
    have hpops : instrJcc (flatMacros p) cond { t with trace := past } =
        (if cond a b then instrJmp (flatMacros p)
          else do (flatMacros p).incInstrPtr; gotoNextInstr (flatMacros p))
          { t with sp := t.sp - 1 - 1, trace := past } := by
      refine (bind_ok (extrStack_run (by exact hright))).trans ?_
      refine (bind_ok (decStackPtr_run (by exact hsp0))).trans ?_
      refine (bind_ok (extrStack_run (by exact hleft))).trans ?_
      exact bind_ok (decStackPtr_run (by exact hsp1))
    rw [hpops]
    split
    · exact ⟨_, instrJmp_run (by exact harg) htarget⟩
    · exact ⟨past, rfl⟩
  obtain ⟨trace, htrace⟩ := hrun (t.trace ++ [w])
  exact .of_run hop hw htrace

end Flat
end Bispe
