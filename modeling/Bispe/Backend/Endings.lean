import Bispe.Backend.Cycles

/-!
# How an invocation ends

What an invocation leaves behind is the list of printed values and the error code.  For a
clean program both are those of the plain machine, where a run that has not stopped with an
error has the code zero.

## Main definitions

* `FlatStop.Coded` — the error code belongs to the error.
* `InvocationEnds` — an invocation is over, with this output and this code.
* `invocationEnds_iff` — invocations end as the plain machine does.
-/

namespace Bispe

open Effect

/-! ## Error codes of the plain machine -/

/-- The error code belongs to the error.  The plain machine has no code for the words it
does not have. -/
def FlatStop.Coded (stop : FlatStop) (code : ℕ) : Prop := ∀ e, stop = .error e → code = e.code

section Codes
variable {p : Program} {t : Flat}

theorem FlatStop.coded_error (e : Err) : FlatStop.Coded (.error e) e.code := by
  intro e' he
  rw [FlatStop.error.inj he]

/-- A macro that stops the machine leaves the code of its error. -/
theorem endsIn_coded :
    EndsIn (fun t => t.errorCode = 0) fun stop t => stop.Coded t.errorCode where
  step _ _ h ht := h.errorCode.trans ht
  error _ e _ := FlatStop.coded_error e
  outside _ _ := by
    intro e he
    cases he
  undef _ _ := by
    intro e he
    cases he

/-- One instruction. -/
theorem dispatch_coded (h : t.errorCode = 0) :
    Ends (fun c t' => c ≠ .cycleEnd ∧ t'.errorCode = 0) (fun stop t' => stop.Coded t'.errorCode)
      (dispatch (flatMacros p) t) := by
  have H := endsIn_coded.flatMacros p
  refine (Keeps.of_rel H.extrNextInstr t h).bind fun w t₁ ht₁ => ?_
  by_cases hop : w = 1
  · subst hop
    exact ⟨by simp, ht₁⟩
  · have hrel := H.jmpThroughTable_of_ne hop t₁ ht₁
    cases hj : jmpThroughTable (flatMacros p) w t₁ with
    | ok c t' =>
        rw [hj] at hrel
        obtain ⟨⟨rfl, -⟩, -, hcode⟩ := hrel
        exact ⟨by simp, hcode⟩
    | error stop t' =>
        rw [hj] at hrel
        exact hrel.2.2

/-- A run of instructions. -/
theorem dispatchLoop_coded (n : ℕ) (h : t.errorCode = 0) :
    Ends (fun c t' => c ≠ .cycleEnd ∧ t'.errorCode = 0) (fun stop t' => stop.Coded t'.errorCode)
      (dispatchLoop (flatMacros p) n t) := by
  induction n generalizing t with
  | zero => exact ⟨by simp, h⟩
  | succ n ih =>
      refine (dispatch_coded h).bind fun c t₁ ht₁ => ?_
      cases c with
      | next => exact ih ht₁.2
      | cycleEnd => exact absurd rfl ht₁.1
      | finish => exact ⟨by simp, ht₁.2⟩

/-- A program that has stopped by itself is clean. -/
theorem Clean.of_stop {n : ℕ} {r : EStateM.Result FlatStop Flat Ctl}
    (hrun : dispatchLoop (flatMacros p) n .initial = r) (hnext : ∀ t, r ≠ .ok .next t)
    (houtside : ∀ t, r ≠ .error .outside t) (hundef : ∀ t, r ≠ .error .undef t) : Clean p := by
  intro m t
  constructor
  · intro hm
    exact houtside t (dispatchLoop_unique hrun hnext hm (by simp))
  · intro hm
    exact hundef t (dispatchLoop_unique hrun hnext hm (by simp))

end Codes

/-! ## Invocations -/

section Invocations
variable {b : Build} {ctx : Ctx} {regs : CalleeRegs} {s : St}

/-- The invocation is over at some time, with this output and this error code. -/
def InvocationEnds (b : Build) (ctx : Ctx) (regs : CalleeRegs) (s : St) (o : List Word)
    (code : ℕ) : Prop :=
  ∃ n, Halted (invocation b ctx regs s n) ∧ printed (invocation b ctx regs s n).2.log = o ∧
    (invocation b ctx regs s n).2.errorCode = code

/-- **Invocations of a clean program end as the plain machine does.** -/
theorem invocationEnds_iff (hb : b.Inverts) (hc : ctx.Aligned) (hd : ctx.Apart)
    (hclean : Clean (programOf b ctx s.mem)) {o : List Word} {code : ℕ} :
    InvocationEnds b ctx regs s o code ↔
      ∃ n r, dispatchLoop (flatMacros (programOf b ctx s.mem)) n .initial = r ∧
        (∀ t, r ≠ .ok .next t) ∧ (stateOf r).printed = o ∧ (stateOf r).errorCode = code := by
  constructor
  · rintro ⟨n, hhalt, rfl, rfl⟩
    obtain ⟨k, hk, -⟩ := invocation_follows hb hc hd s regs hclean n
    exact ⟨k, _, rfl, hk.halted hhalt, hk.observed.printed.symm, hk.observed.error.symm⟩
  · rintro ⟨n, r, hrun, hr, rfl, rfl⟩
    obtain ⟨k, hk, hrank⟩ := invocation_follows hb hc hd s regs hclean (3 * n + 2)
    have hhalt : Halted (invocation b ctx regs s (3 * n + 2)) :=
      hk.over hrank hrun hr (le_refl _)
    have hsame := dispatchLoop_unique rfl (hk.halted hhalt) hrun hr
    have hobs := hk.observed
    rw [hsame] at hobs
    exact ⟨_, hhalt, hobs.printed, hobs.error⟩

/-- An invocation of a clean program is over once. -/
theorem invocationEnds_unique (hb : b.Inverts) (hc : ctx.Aligned) (hd : ctx.Apart)
    (hclean : Clean (programOf b ctx s.mem)) {o o' : List Word} {code code' : ℕ}
    (h : InvocationEnds b ctx regs s o code) (h' : InvocationEnds b ctx regs s o' code') :
    o = o' ∧ code = code' := by
  obtain ⟨n, r, hrun, hr, rfl, rfl⟩ := (invocationEnds_iff hb hc hd hclean).mp h
  obtain ⟨n', r', hrun', hr', rfl, rfl⟩ := (invocationEnds_iff hb hc hd hclean).mp h'
  rw [dispatchLoop_unique hrun hr hrun' hr']
  exact ⟨rfl, rfl⟩

/-- An invocation that finishes has the error code zero. -/
theorem invocationEnds_of_finish (hb : b.Inverts) (hc : ctx.Aligned) (hd : ctx.Apart) {n : ℕ}
    {t : Flat}
    (hrun : dispatchLoop (flatMacros (programOf b ctx s.mem)) n .initial = .ok .finish t) :
    InvocationEnds b ctx regs s t.printed 0 := by
  have hclean : Clean (programOf b ctx s.mem) := .of_stop hrun (by simp) (by simp) (by simp)
  have hcoded := dispatchLoop_coded (p := programOf b ctx s.mem) (t := .initial) n rfl
  rw [hrun] at hcoded
  exact (invocationEnds_iff hb hc hd hclean).mpr ⟨n, _, hrun, by simp, rfl, hcoded.2⟩

/-- An invocation that stops with an error has the code of this error. -/
theorem invocationEnds_of_error (hb : b.Inverts) (hc : ctx.Aligned) (hd : ctx.Apart) {n : ℕ}
    {t : Flat} {e : Err}
    (hrun : dispatchLoop (flatMacros (programOf b ctx s.mem)) n .initial = .error (.error e) t) :
    InvocationEnds b ctx regs s t.printed e.code := by
  have hclean : Clean (programOf b ctx s.mem) := .of_stop hrun (by simp) (by simp) (by simp)
  have hcoded := dispatchLoop_coded (p := programOf b ctx s.mem) (t := .initial) n rfl
  rw [hrun] at hcoded
  exact (invocationEnds_iff hb hc hd hclean).mpr ⟨n, _, hrun, by simp, rfl, hcoded e rfl⟩

/-- An invocation of a program that never stops runs for ever. -/
theorem never_halted (hb : b.Inverts) (hc : ctx.Aligned) (hd : ctx.Apart)
    (hon : ∀ n, ∃ t, dispatchLoop (flatMacros (programOf b ctx s.mem)) n .initial = .ok .next t)
    (n : ℕ) : ¬ Halted (invocation b ctx regs s n) := by
  have hclean : Clean (programOf b ctx s.mem) := by
    intro m t
    obtain ⟨t', ht'⟩ := hon m
    rw [ht']
    exact ⟨by simp, by simp⟩
  intro hhalt
  obtain ⟨k, hk, -⟩ := invocation_follows hb hc hd s regs hclean n
  obtain ⟨t, ht⟩ := hon k
  exact hk.halted hhalt t ht

end Invocations
end Bispe
