import Bispe.Backend.Steps
import Bispe.Lib.Tracking

/-!
# Calls and failures of the plain machine

The instructions that move the call pointer, and the instructions that stop with an
error: a push or a call where there is no room, a division by zero.

## Main definitions

* `Flat.FailsWith p t e` — the next instruction stops with the error `e`.
* `Flat.machine p` — the plain machine with its output and its errors.
* `Overflow` — the errors of a full stack.
-/

namespace Bispe

open Effect

namespace Flat

variable {p : Program} {t t' t'' : Flat}

/-- The next instruction stops with the error `e`, and prints nothing. -/
def FailsWith (p : Program) (t : Flat) (e : Err) : Prop :=
  ∃ t', dispatch (flatMacros p) t = .error (.error e) t' ∧ t'.printed = t.printed

theorem FailsWith.of_trace {e : Err} (h : FailsWith p t e) (past : List Word) :
    FailsWith p { t with trace := past } e := by
  obtain ⟨t', herror, hprinted⟩ := h
  have hempty := dispatch_commutes p t.trace { t with trace := [] }
  have hself : addTrace t.trace { t with trace := [] } = t := by simp [addTrace]
  rw [hself, herror] at hempty
  have hpast := dispatch_commutes p past { t with trace := [] }
  have hother : addTrace past { t with trace := [] } = { t with trace := past } := by
    simp [addTrace]
  rw [hother] at hpast
  cases hrun : dispatch (flatMacros p) { t with trace := [] } with
  | ok c s =>
      rw [hrun] at hempty
      cases hempty
  | error e' s =>
      rw [hrun] at hempty hpast
      injection hempty with he hs
      have hout := congrArg (fun t : Flat => t.printed) hs
      refine ⟨addTrace past s, hpast.trans (he ▸ rfl), ?_⟩
      exact hout.symm.trans hprinted

/-- A run that ends in a failure. -/
theorem Runs.fails {n : ℕ} {e : Err} (h : Runs p n t t') (hfail : FailsWith p t' e) :
    ∃ t'', dispatchLoop (flatMacros p) (n + 1) t = .error (.error e) t'' ∧
      t''.printed = t'.printed := by
  obtain ⟨trace, htrace⟩ := h
  obtain ⟨t'', herror, hprinted⟩ := hfail.of_trace trace
  exact ⟨t'', (dispatchLoop_snoc htrace).trans herror, hprinted⟩

theorem FailsWith.of_run {w : Word} {x : F Ctl} {e : Err} (h : p.At t.ip w)
    (hx : jmpThroughTable (flatMacros p) w = x)
    (hrun : ∃ t', x { t with trace := t.trace ++ [w] } = .error (.error e) t' ∧
      t'.printed = t.printed) : FailsWith p t e := by
  obtain ⟨t', hrun, hprinted⟩ := hrun
  refine ⟨t', (dispatch_eq h).trans ?_, hprinted⟩
  rw [hx, hrun]

/-- The plain machine. -/
def machine (p : Program) : Tracking.Machine Flat Word Err where
  runs := Runs p
  out := Flat.printed
  fails := FailsWith p
  refl := Runs.refl p
  trans := Runs.trans

theorem incCallPtr_fails {d : ℕ} (h : p.callWords ≤ t.cp + d / 4) :
    ∃ t', incCallPtr p d t = .error (.error .callOverflow) t' ∧ t'.printed = t.printed :=
  ⟨_, incCallPtr_error h, rfl⟩

theorem incStackPtr_fails (h : p.stackWords ≤ t.sp + 1) :
    ∃ t', incStackPtr p t = .error (.error .stackOverflow) t' ∧ t'.printed = t.printed :=
  ⟨_, incStackPtr_error h, rfl⟩

/-- The first part of a handler succeeds. -/
theorem fails_bind {α : Type} {x : F α} {f : α → F Ctl} {a : α} {e : Err} (h : x t = .ok a t')
    (hprinted : t'.printed = t.printed)
    (hf : ∃ t'', f a t' = .error (.error e) t'' ∧ t''.printed = t'.printed) :
    ∃ t'', (x >>= f) t = .error (.error e) t'' ∧ t''.printed = t.printed := by
  obtain ⟨t'', herror, hout⟩ := hf
  exact ⟨t'', (bind_ok h).trans herror, hout.trans hprinted⟩

/-- The first part of a handler fails. -/
theorem fails_first {α : Type} {x : F α} {f : α → F Ctl} {e : Err}
    (hx : ∃ t', x t = .error (.error e) t' ∧ t'.printed = t.printed) :
    ∃ t', (x >>= f) t = .error (.error e) t' ∧ t'.printed = t.printed := by
  obtain ⟨t', herror, hout⟩ := hx
  exact ⟨t', bind_error herror, hout⟩

/-! ## Calls -/

theorem retAddr_run (t : Flat) : retAddr t = .ok (BitVec.ofNat 32 (t.ip + 1)) t := rfl

theorem does_call {target : Word} (hop : p.At t.ip 18) (harg : p.At (t.ip + 1) target)
    (htarget : 4 * target.toNat < p.codeSize) (hroom : t.cp + 1 < p.callWords) :
    Does p t { t with
      ip := target.toNat, cp := t.cp + 1
      call := Function.update (clearAbove t.call t.cp 1) (t.cp + 1)
        (some (BitVec.ofNat 32 (t.ip + 2))) } := by
  apply Does.of_run hop rfl
  refine (bind_ok (fetchOperand_run (by exact harg))).trans ?_
  refine (bind_ok (calcJmpTarget_run htarget)).trans ?_
  refine (bind_ok (retAddr_run _)).trans ?_
  refine (bind_ok (incCallPtr_run (by exact hroom))).trans ?_
  exact (bind_ok (saveCallElement_run (Nat.zero_le _))).trans rfl

theorem fails_call {target : Word} (hop : p.At t.ip 18) (harg : p.At (t.ip + 1) target)
    (htarget : 4 * target.toNat < p.codeSize) (hfull : p.callWords ≤ t.cp + 1) :
    FailsWith p t .callOverflow := by
  apply FailsWith.of_run hop rfl
  refine fails_bind (fetchOperand_run (by exact harg)) rfl ?_
  refine fails_bind (calcJmpTarget_run htarget) rfl ?_
  refine fails_bind (retAddr_run _) rfl ?_
  exact fails_first (incCallPtr_fails (by exact hfull))

theorem does_ret {w : Word} (hop : p.At t.ip 19) (hcell : t.call t.cp = some w)
    (hw : 4 * w.toNat < p.codeSize) (hcp : 1 ≤ t.cp) :
    Does p t { t with ip := w.toNat, cp := t.cp - 1 } := by
  apply Does.of_run hop rfl
  refine (bind_ok (fetchCallElement_run (Nat.zero_le _) (by exact hcell))).trans ?_
  refine (bind_ok (calcJmpTarget_run hw)).trans ?_
  exact (bind_ok (decCallPtr_run (by exact hcp))).trans rfl

theorem does_prolog {arg : Word} (hop : p.At t.ip 20) (harg : p.At (t.ip + 1) arg)
    (hroom : t.cp + depth arg < p.callWords) :
    Does p t { t with
      ip := t.ip + 2, cp := t.cp + depth arg
      call := clearAbove t.call t.cp (depth arg) } := by
  apply Does.of_run hop rfl
  refine (bind_ok (fetchOperand_run (by exact harg))).trans ?_
  exact (bind_ok (incCallPtr_run (by exact hroom))).trans rfl

theorem fails_prolog {arg : Word} (hop : p.At t.ip 20) (harg : p.At (t.ip + 1) arg)
    (hfull : p.callWords ≤ t.cp + depth arg) : FailsWith p t .callOverflow := by
  apply FailsWith.of_run hop rfl
  refine fails_bind (fetchOperand_run (by exact harg)) rfl ?_
  exact fails_first (incCallPtr_fails (by exact hfull))

theorem does_epilog {arg : Word} (hop : p.At t.ip 21) (harg : p.At (t.ip + 1) arg)
    (hcp : depth arg ≤ t.cp) :
    Does p t { t with ip := t.ip + 2, cp := t.cp - depth arg } := by
  apply Does.of_run hop rfl
  refine (bind_ok (fetchOperand_run (by exact harg))).trans ?_
  exact (bind_ok (decCallPtr_run (by exact hcp))).trans rfl

theorem does_argload {arg : Word} (hop : p.At t.ip 22) (harg : p.At (t.ip + 1) arg)
    (hargc : arg.toNat < p.argc) (hcp : depth arg ≤ t.cp) :
    Does p t { t with
      ip := t.ip + 2
      call := Function.update t.call (t.cp - depth arg) (some (p.argv arg.toNat)) } := by
  apply Does.of_run hop rfl
  refine (bind_ok (fetchOperand_run (by exact harg))).trans ?_
  rw [if_neg (Nat.not_le.mpr (by exact hargc))]
  exact (bind_ok (saveCallElement_run (by exact hcp))).trans rfl

/-- `FINISH` ends the run. -/
theorem dispatch_finish (hop : p.At t.ip 1) : ∃ t', dispatch (flatMacros p) t = .ok .finish t' ∧
    t'.printed = t.printed :=
  ⟨_, dispatch_eq hop, rfl⟩

/-! ## Failures -/

theorem fails_push {w : Word} (hop : p.At t.ip 2) (harg : p.At (t.ip + 1) w)
    (hfull : p.stackWords ≤ t.sp + 1) : FailsWith p t .stackOverflow := by
  apply FailsWith.of_run hop rfl
  refine fails_bind (fetchOperand_run (by exact harg)) rfl ?_
  exact fails_first (incStackPtr_fails (by exact hfull))

theorem fails_load {arg w : Word} (hop : p.At t.ip 4) (harg : p.At (t.ip + 1) arg)
    (hcp : depth arg ≤ t.cp) (hcell : t.call (t.cp - depth arg) = some w)
    (hfull : p.stackWords ≤ t.sp + 1) : FailsWith p t .stackOverflow := by
  apply FailsWith.of_run hop rfl
  refine fails_bind (fetchOperand_run (by exact harg)) rfl ?_
  refine fails_bind (fetchCallElement_run (by exact hcp) (by exact hcell)) rfl ?_
  exact fails_first (incStackPtr_fails (by exact hfull))

theorem instrDivide_zero {op : Word → Word → Word} (hright : t.stack t.sp = some 0)
    (hsp : t.sp ≠ 0) : ∃ t', instrDivide (flatMacros p) op t = .error (.error .divZero) t' ∧
      t'.printed = t.printed := by
  refine fails_bind (extrStack_run hright) rfl ?_
  refine fails_bind (decStackPtr_run hsp) rfl ?_
  exact ⟨_, congrFun (if_pos rfl) _, rfl⟩

end Flat

/-- The errors of a full stack. -/
def Overflow (e : Err) : Prop := e = .stackOverflow ∨ e = .callOverflow

end Bispe
