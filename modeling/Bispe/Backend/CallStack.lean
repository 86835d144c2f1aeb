import Bispe.Backend.Operands

/-!
# The arithmetic of the call stack

Where the call pointer moves to and which word of the call stack an instruction
accesses, compared with the integer its operand stands for.  An operand is scaled to
bytes in a 32-bit register, so its two upper bits are lost; jump targets are scaled in
64 bits.

## Main definitions

* `CallExact` — the next instruction treats its operand as an integer.
* `OperandFits` — when that is so.
-/

namespace Bispe

open Effect

section Exact
variable (b : Build) (ctx : Ctx) (s : St)

/-- `LOAD n` at index `c`. -/
structure LoadExact (c n : ℕ) : Prop where
  stack : StopsWith b ctx s .stackOverflow → ctx.stackSegSize / 4 ≤ stackIndex ctx s + 1
  error : ¬ StopsWith b ctx s .stackOverflow → (StopsWith b ctx s .callUnderflow ↔ c < n)
  goes : ¬ StopsWith b ctx s .stackOverflow → n ≤ c → GoesOn b ctx s
  access : ∀ r s', dispatch (macros b ctx) s = .ok r s' →
    n ≤ c ∧ operandStack b ctx s' = callWord b ctx s (c - n) :: operandStack b ctx s

/-- `STORE n` at index `c`. -/
structure StoreExact (c n : ℕ) : Prop where
  stack : StopsWith b ctx s .stackUnderflow → stackIndex ctx s = 0
  error : ¬ StopsWith b ctx s .stackUnderflow → (StopsWith b ctx s .callUnderflow ↔ c < n)
  goes : ¬ StopsWith b ctx s .stackUnderflow → n ≤ c → GoesOn b ctx s
  access : ∀ r s', dispatch (macros b ctx) s = .ok r s' →
    n ≤ c ∧ callWord b ctx s' (c - n) = stackWord b ctx s (stackIndex ctx s) ∧
      ∀ i ≤ c, i ≠ c - n → callWord b ctx s' i = callWord b ctx s i

/-- `CALL n` at index `c` of a segment of `size` words. -/
structure CallMoves (size c n : ℕ) : Prop where
  target : StopsWith b ctx s .jmpBounds ↔ ctx.codeSegSize ≤ 4 * n
  error : ¬ StopsWith b ctx s .jmpBounds → (StopsWith b ctx s .callOverflow ↔ size ≤ c + 1)
  goes : ¬ StopsWith b ctx s .jmpBounds → c + 1 < size → GoesOn b ctx s
  index : ∀ r s', dispatch (macros b ctx) s = .ok r s' → callIndex ctx s' = c + 1

/-- `RET` at index `c`. -/
structure RetMoves (c : ℕ) : Prop where
  target : StopsWith b ctx s .jmpBounds ↔ ctx.codeSegSize ≤ 4 * (callWord b ctx s c).toNat
  error : ¬ StopsWith b ctx s .jmpBounds → (StopsWith b ctx s .callUnderflow ↔ c < 1)
  goes : ¬ StopsWith b ctx s .jmpBounds → 1 ≤ c → GoesOn b ctx s
  index : ∀ r s', dispatch (macros b ctx) s = .ok r s' → callIndex ctx s' + 1 = c

/-- `PROLOG n` at index `c` of a segment of `size` words. -/
structure PrologExact (size c n : ℕ) : Prop where
  error : StopsWith b ctx s .callOverflow ↔ size ≤ c + n
  goes : c + n < size → GoesOn b ctx s
  index : ∀ r s', dispatch (macros b ctx) s = .ok r s' → callIndex ctx s' = c + n

/-- `EPILOG n` at index `c`. -/
structure EpilogExact (c n : ℕ) : Prop where
  error : StopsWith b ctx s .callUnderflow ↔ c < n
  goes : n ≤ c → GoesOn b ctx s
  index : ∀ r s', dispatch (macros b ctx) s = .ok r s' → callIndex ctx s' + n = c

/-- The next instruction moves the call pointer, or accesses the call stack, as the
integer operand says, on a call segment of `l` lines; it goes on where no bound is
passed. -/
def CallExact (l : ℕ) : Prop :=
  match (opcodeAt s).toNat with
  | 4 => LoadExact b ctx s (callIndex ctx s) (operandOf b ctx s).toNat
  | 5 => StoreExact b ctx s (callIndex ctx s) (operandOf b ctx s).toNat
  | 18 => CallMoves b ctx s (4 * l) (callIndex ctx s) (operandOf b ctx s).toNat
  | 19 => RetMoves b ctx s (callIndex ctx s)
  | 20 => PrologExact b ctx s (4 * l) (callIndex ctx s) (operandOf b ctx s).toNat
  | 21 => EpilogExact b ctx s (callIndex ctx s) (operandOf b ctx s).toNat
  | _ => True

/-- The words at the positions of both readings of an operand are the same. -/
def SameWord (c n : ℕ) (v : Word) : Prop :=
  n ≤ c ∧ callWord b ctx s (c - n) = v ∧ callWord b ctx s (c - n % 2 ^ 30) = v

/-- The operand of the next instruction has no upper bits, or its lower bits alone lead
to the error as well.  A load or a store has no effect of its own where the operand
stack errs, or where the two words that could be accessed are the same already. -/
def OperandFits (l : ℕ) : Prop :=
  match (opcodeAt s).toNat with
  | 4 => (operandOf b ctx s).toNat < 2 ^ 30 ∨
      callIndex ctx s < (operandOf b ctx s).toNat % 2 ^ 30 ∨
      ctx.stackSegSize / 4 ≤ stackIndex ctx s + 1 ∨
      ∃ v, SameWord b ctx s (callIndex ctx s) (operandOf b ctx s).toNat v
  | 5 => (operandOf b ctx s).toNat < 2 ^ 30 ∨
      callIndex ctx s < (operandOf b ctx s).toNat % 2 ^ 30 ∨ stackIndex ctx s = 0 ∨
      SameWord b ctx s (callIndex ctx s) (operandOf b ctx s).toNat
        (stackWord b ctx s (stackIndex ctx s))
  | 20 => (operandOf b ctx s).toNat < 2 ^ 30 ∨
      4 * l ≤ callIndex ctx s + (operandOf b ctx s).toNat % 2 ^ 30
  | 21 => (operandOf b ctx s).toNat < 2 ^ 30 ∨
      callIndex ctx s < (operandOf b ctx s).toNat % 2 ^ 30
  | _ => True

end Exact

/-! ## Outcomes -/

section Outcomes
open Flat
variable {b : Build} {ctx : Ctx} {m₀ : ℤ → Word} {s : St} {t : Flat}

/-- An instruction of the plain machine, started on the words that are there. -/
theorem Sim.outcome (hb : b.Inverts) (hc : ctx.Aligned) (hd : ctx.Apart)
    (hs : Inside ctx m₀ s) (hst : Sim b ctx m₀ s t) {x : F Ctl}
    (hx : jmpThroughTable (openMacros (programOf b ctx m₀)) (opcodeAt s) = x)
    {Q : List Word → Flat → Prop} {P : List Word → Err → List Word → Prop}
    (h : ∀ ws, HandlerEnds { t.filled b ctx s with
      trace := t.trace ++ [opcodeAt s], supply := ws } x (Q ws) (P ws)) :
    (∃ err s', dispatch (macros b ctx) s = .error (.error err) s' ∧
      ∃ ws, P ws err (executed s'.log)) ∨
      ∃ r s' t', dispatch (macros b ctx) s = .ok r s' ∧ Sim b ctx m₀ s' t' ∧ ∃ ws, Q ws t' := by
  have hend := dispatch_transfer hb hc hd hs hst.total
    (Q := fun _ t' => ∃ ws, Q ws t') (P := fun err l => ∃ ws, P ws err l) fun ws => by
      rw [hx]
      exact (h ws).mono (fun _ _ hQ => ⟨ws, hQ.2⟩) fun _ _ hP => hP.mono fun _ _ hl => ⟨ws, hl⟩
  cases hrun : dispatch (macros b ctx) s with
  | ok r s' =>
      rw [hrun] at hend
      obtain ⟨-, -, t', -, hst', hQ⟩ := hend
      exact .inr ⟨r, s', t', rfl, hst', hQ⟩
  | error e s' =>
      rw [hrun] at hend
      obtain ⟨err, rfl, hP⟩ := hend
      exact .inl ⟨err, s', rfl, hP⟩

section Handlers
variable (hb : b.Inverts) (hc : ctx.Aligned) (hd : ctx.Apart) (hs : Inside ctx m₀ s)
  (hst : Sim b ctx m₀ s t)
include hb hc hd hs hst

theorem prolog_outcome (hop : opcodeAt s = 20) :
    (StopsWith b ctx s .callOverflow ∧
      ctx.callSegSize / 4 ≤ callIndex ctx s + scaled (operandOf b ctx s)) ∨
    ∃ r s', dispatch (macros b ctx) s = .ok r s' ∧
      callIndex ctx s + scaled (operandOf b ctx s) < ctx.callSegSize / 4 ∧
      callIndex ctx s' = callIndex ctx s + scaled (operandOf b ctx s) := by
  have htrace := hst.observed.trace
  have hcp := hst.callIndex_eq
  rcases Sim.outcome hb hc hd hs hst (x := instrProlog _) (by rw [hop]; rfl)
    fun ws => instrProlog_ends _ with ⟨err, s', hrun, _, n, hl, rfl, hlt⟩ |
      ⟨r, s', t', hrun, hst', _, n, hroom, ip, ws, rfl⟩
  · have hn : operandOf b ctx s = n := operandOf_eq hrun (by rw [htrace]; exact hl)
    rw [hn, hcp]
    exact .inl ⟨⟨s', hrun⟩, hlt⟩
  · have hn : operandOf b ctx s = n := operandOf_eq hrun (by rw [htrace]; exact hst'.observed.trace)
    rw [hn, hcp]
    exact .inr ⟨r, s', hrun, hroom, hst'.callIndex_eq⟩

theorem epilog_outcome (hop : opcodeAt s = 21) :
    (StopsWith b ctx s .callUnderflow ∧ callIndex ctx s < scaled (operandOf b ctx s)) ∨
    ∃ r s', dispatch (macros b ctx) s = .ok r s' ∧
      callIndex ctx s' + scaled (operandOf b ctx s) = callIndex ctx s := by
  have htrace := hst.observed.trace
  have hcp := hst.callIndex_eq
  rcases Sim.outcome hb hc hd hs hst (x := instrEpilog _) (by rw [hop]; rfl)
    fun ws => instrEpilog_ends _ with ⟨err, s', hrun, _, n, hl, rfl, hlt⟩ |
      ⟨r, s', t', hrun, hst', _, n, hle, ip, ws, rfl⟩
  · have hn : operandOf b ctx s = n := operandOf_eq hrun (by rw [htrace]; exact hl)
    rw [hn, hcp]
    exact .inl ⟨⟨s', hrun⟩, hlt⟩
  · have hn : operandOf b ctx s = n := operandOf_eq hrun (by rw [htrace]; exact hst'.observed.trace)
    rw [hn, hcp]
    refine .inr ⟨r, s', hrun, ?_⟩
    rw [hst'.callIndex_eq]
    exact Nat.sub_add_cancel hle

theorem call_outcome (hop : opcodeAt s = 18) :
    (StopsWith b ctx s .jmpBounds ∧ ctx.codeSegSize ≤ 4 * (operandOf b ctx s).toNat) ∨
    4 * (operandOf b ctx s).toNat < ctx.codeSegSize ∧
      ((StopsWith b ctx s .callOverflow ∧ ctx.callSegSize / 4 ≤ callIndex ctx s + 1) ∨
        ∃ r s', dispatch (macros b ctx) s = .ok r s' ∧
          callIndex ctx s + 1 < ctx.callSegSize / 4 ∧ callIndex ctx s' = callIndex ctx s + 1) := by
  have htrace := hst.observed.trace
  have hcp := hst.callIndex_eq
  rcases Sim.outcome hb hc hd hs hst (x := instrCall _) (by rw [hop]; rfl)
    fun ws => instrCall_ends _ with
      ⟨err, s', hrun, _, n, hl, ⟨rfl, htarget⟩ | ⟨rfl, htarget, hle⟩⟩ |
      ⟨r, s', t', hrun, hst', _, hroom, n, v, htarget, ip, ws, rfl⟩
  · have hn : operandOf b ctx s = n := operandOf_eq hrun (by rw [htrace]; exact hl)
    rw [hn]
    exact .inl ⟨⟨s', hrun⟩, htarget⟩
  · have hn : operandOf b ctx s = n := operandOf_eq hrun (by rw [htrace]; exact hl)
    rw [hn, hcp]
    exact .inr ⟨htarget, .inl ⟨⟨s', hrun⟩, hle⟩⟩
  · have hn : operandOf b ctx s = n := operandOf_eq hrun (by rw [htrace]; exact hst'.observed.trace)
    rw [hn, hcp]
    exact .inr ⟨htarget, .inr ⟨r, s', hrun, hroom, hst'.callIndex_eq⟩⟩

theorem ret_outcome (hop : opcodeAt s = 19) :
    (StopsWith b ctx s .jmpBounds ∧
      ctx.codeSegSize ≤ 4 * (callWord b ctx s (callIndex ctx s)).toNat) ∨
    4 * (callWord b ctx s (callIndex ctx s)).toNat < ctx.codeSegSize ∧
      ((StopsWith b ctx s .callUnderflow ∧ callIndex ctx s < 1) ∨
        ∃ r s', dispatch (macros b ctx) s = .ok r s' ∧
          callIndex ctx s' + 1 = callIndex ctx s) := by
  have hcp := hst.callIndex_eq
  -- the word that the pointer points to is the return address
  have hread {n : Word} (hn : Flat.Reads (some (callWord b ctx s t.cp)) n) :
      callWord b ctx s (callIndex ctx s) = n := by
    rw [hcp]
    exact (hn _ rfl).symm
  rcases Sim.outcome hb hc hd hs hst (x := instrRet _) (by rw [hop]; rfl)
    fun ws => instrRet_ends _ with
      ⟨err, s', hrun, _, n, hn, ⟨rfl, htarget⟩ | ⟨rfl, htarget, hlt⟩⟩ |
      ⟨r, s', t', hrun, hst', _, hle, n, hn, htarget, ip, ws, rfl⟩
  · rw [hread hn]
    exact .inl ⟨⟨s', hrun⟩, htarget⟩
  · rw [hread hn, hcp]
    exact .inr ⟨htarget, .inl ⟨⟨s', hrun⟩, hlt⟩⟩
  · rw [hread hn, hcp]
    refine .inr ⟨htarget, .inr ⟨r, s', hrun, ?_⟩⟩
    rw [hst'.callIndex_eq]
    exact Nat.sub_add_cancel hle

theorem load_outcome (hop : opcodeAt s = 4) :
    (StopsWith b ctx s .callUnderflow ∧ callIndex ctx s < scaled (operandOf b ctx s)) ∨
    (StopsWith b ctx s .stackOverflow ∧ scaled (operandOf b ctx s) ≤ callIndex ctx s ∧
      ctx.stackSegSize / 4 ≤ stackIndex ctx s + 1) ∨
    ∃ r s', dispatch (macros b ctx) s = .ok r s' ∧
      scaled (operandOf b ctx s) ≤ callIndex ctx s ∧
      stackIndex ctx s + 1 < ctx.stackSegSize / 4 ∧
      operandStack b ctx s' =
        callWord b ctx s (callIndex ctx s - scaled (operandOf b ctx s)) ::
          operandStack b ctx s := by
  have htrace := hst.observed.trace
  have hcp := hst.callIndex_eq
  have hsp := hst.stackIndex_eq
  rcases Sim.outcome hb hc hd hs hst (x := instrLoad _) (by rw [hop]; rfl)
    fun ws => instrLoad_ends _ with ⟨err, s', hrun, _, n, hl, ⟨rfl, hlt⟩ | ⟨rfl, hle, hfull⟩⟩ |
      ⟨r, s', t', hrun, hst', _, hroom, n, v, hle, hv, ip, ws, rfl⟩
  · have hn : operandOf b ctx s = n := operandOf_eq hrun (by rw [htrace]; exact hl)
    rw [hn, hcp]
    exact .inl ⟨⟨s', hrun⟩, hlt⟩
  · have hn : operandOf b ctx s = n := operandOf_eq hrun (by rw [htrace]; exact hl)
    rw [hn, hcp, hsp]
    exact .inr (.inl ⟨⟨s', hrun⟩, hle, hfull⟩)
  · have hn : operandOf b ctx s = n := operandOf_eq hrun (by rw [htrace]; exact hst'.observed.trace)
    rw [hn, hcp, hsp]
    refine .inr (.inr ⟨r, s', hrun, hle, hroom, ?_⟩)
    have hload : v = callWord b ctx s (t.cp - scaled n) := hv _ rfl
    have hsame : wordsFrom (stackWord b ctx s') t.sp = wordsFrom (stackWord b ctx s) t.sp := by
      refine wordsFrom_congr fun i _ hi => hst'.stackWord_eq (Nat.le_succ_of_le hi) ?_
      have hne : i ≠ t.sp + 1 := by omega
      exact Function.update_of_ne hne _ _
    have htop : stackWord b ctx s' (t.sp + 1) = v :=
      hst'.stackWord_eq (le_refl (t.sp + 1)) (Function.update_self _ _ _)
    rw [hst.operandStack_eq, hst'.operandStack_eq, ← hload, ← hsame, ← htop]
    rfl

theorem store_outcome (hop : opcodeAt s = 5) :
    (StopsWith b ctx s .stackUnderflow ∧ stackIndex ctx s = 0) ∨
    (StopsWith b ctx s .callUnderflow ∧ stackIndex ctx s ≠ 0 ∧
      callIndex ctx s < scaled (operandOf b ctx s)) ∨
    ∃ r s', dispatch (macros b ctx) s = .ok r s' ∧ stackIndex ctx s ≠ 0 ∧
      scaled (operandOf b ctx s) ≤ callIndex ctx s ∧
      callWord b ctx s' (callIndex ctx s - scaled (operandOf b ctx s)) =
        stackWord b ctx s (stackIndex ctx s) ∧
      ∀ i ≤ callIndex ctx s, i ≠ callIndex ctx s - scaled (operandOf b ctx s) →
        callWord b ctx s' i = callWord b ctx s i := by
  have htrace := hst.observed.trace
  have hcp := hst.callIndex_eq
  have hsp := hst.stackIndex_eq
  rcases Sim.outcome hb hc hd hs hst (x := instrStore _) (by rw [hop]; rfl)
    fun ws => instrStore_ends _ with ⟨err, s', hrun, _, n, hl, ⟨rfl, hzero⟩ | ⟨rfl, hpos, hlt⟩⟩ |
      ⟨r, s', t', hrun, hst', _, hpos, n, v, hle, hv, ip, ws, rfl⟩
  · rw [hsp]
    exact .inl ⟨⟨s', hrun⟩, hzero⟩
  · have hn : operandOf b ctx s = n := operandOf_eq hrun (by rw [htrace]; exact hl)
    rw [hn, hcp, hsp]
    exact .inr (.inl ⟨⟨s', hrun⟩, hpos, hlt⟩)
  · have hn : operandOf b ctx s = n := operandOf_eq hrun (by rw [htrace]; exact hst'.observed.trace)
    rw [hn, hcp, hsp]
    have hstore : v = stackWord b ctx s t.sp := hv _ rfl
    refine .inr (.inr ⟨r, s', hrun, hpos, hle, ?_, fun i hi hne => ?_⟩)
    · rw [← hstore]
      exact hst'.callWord_eq (Nat.sub_le _ _) (Function.update_self _ _ _)
    · exact hst'.callWord_eq hi (Function.update_of_ne hne _ _)

end Handlers
end Outcomes

/-! ## Exactness -/

section Exact
variable {b : Build} {ctx : Ctx} {m₀ : ℤ → Word} {s : St} {t : Flat} {l : ℕ}

/-- The two readings of an operand differ when it has upper bits. -/
theorem scaled_lt {n : Word} (h : ¬ n.toNat < 2 ^ 30) : scaled n < n.toNat := by
  rw [scaled_eq]
  omega

theorem scaled_of_lt {n : Word} (h : n.toNat < 2 ^ 30) : scaled n = n.toNat := by
  rw [scaled_eq]
  exact Nat.mod_eq_of_lt h

variable (hb : b.Inverts) (hc : ctx.Aligned) (hd : ctx.Apart) (hl : ctx.callSegSize = 16 * l)
  (hs : Inside ctx m₀ s) (hst : Sim b ctx m₀ s t)
include hb hc hd hs hst

include hl in
theorem prologExact_iff (hop : opcodeAt s = 20) :
    PrologExact b ctx s (4 * l) (callIndex ctx s) (operandOf b ctx s).toNat ↔
      (operandOf b ctx s).toNat < 2 ^ 30 ∨
        4 * l ≤ callIndex ctx s + (operandOf b ctx s).toNat % 2 ^ 30 := by
  have hwords : ctx.callSegSize / 4 = 4 * l := by omega
  have hout := prolog_outcome hb hc hd hs hst hop
  rw [hwords] at hout
  rw [← scaled_eq]
  have hle := scaled_le (operandOf b ctx s)
  rcases hout with ⟨⟨s', hrun⟩, hfull⟩ | ⟨r, s', hrun, hroom, hidx⟩
  · refine iff_of_true ⟨?_, fun hroom => ?_, fun r s'' hok => ?_⟩ (.inr hfull)
    · rw [stopsWith_iff hrun]
      exact iff_of_true rfl (by omega)
    · omega
    · rw [hrun] at hok
      cases hok
  · constructor
    · intro hexact
      by_contra hbig
      have := scaled_lt (not_or.mp hbig).1
      have := hexact.index r s' hrun
      omega
    · rintro (hsmall | hfull)
      · rw [scaled_of_lt hsmall] at hroom hidx
        refine ⟨iff_of_false (not_stopsWith hrun) (by omega), fun _ => ⟨r, s', hrun⟩,
          fun r' s'' hok => ?_⟩
        rw [hrun] at hok
        cases hok
        exact hidx
      · omega

theorem epilogExact_iff (hop : opcodeAt s = 21) :
    EpilogExact b ctx s (callIndex ctx s) (operandOf b ctx s).toNat ↔
      (operandOf b ctx s).toNat < 2 ^ 30 ∨
        callIndex ctx s < (operandOf b ctx s).toNat % 2 ^ 30 := by
  have hout := epilog_outcome hb hc hd hs hst hop
  rw [← scaled_eq]
  have hle := scaled_le (operandOf b ctx s)
  rcases hout with ⟨⟨s', hrun⟩, hlt⟩ | ⟨r, s', hrun, hidx⟩
  · refine iff_of_true ⟨?_, fun hin => ?_, fun r s'' hok => ?_⟩ (.inr hlt)
    · rw [stopsWith_iff hrun]
      exact iff_of_true rfl (by omega)
    · omega
    · rw [hrun] at hok
      cases hok
  · constructor
    · intro hexact
      by_contra hbig
      have := scaled_lt (not_or.mp hbig).1
      have := hexact.index r s' hrun
      omega
    · rintro (hsmall | hlt)
      · rw [scaled_of_lt hsmall] at hidx
        refine ⟨iff_of_false (not_stopsWith hrun) (by omega), fun _ => ⟨r, s', hrun⟩,
          fun r' s'' hok => ?_⟩
        rw [hrun] at hok
        cases hok
        exact hidx
      · omega

include hl in
theorem call_moves (hop : opcodeAt s = 18) :
    CallMoves b ctx s (4 * l) (callIndex ctx s) (operandOf b ctx s).toNat := by
  have hwords : ctx.callSegSize / 4 = 4 * l := by omega
  have hout := call_outcome hb hc hd hs hst hop
  rw [hwords] at hout
  rcases hout with ⟨hjmp, htarget⟩ | ⟨htarget, ⟨⟨s', hrun⟩, hfull⟩ | ⟨r, s', hrun, hroom, hidx⟩⟩
  · refine ⟨iff_of_true hjmp htarget, fun hno => (hno hjmp).elim, fun hno => (hno hjmp).elim,
      fun r s' hok => ?_⟩
    exact (not_stopsWith hok hjmp).elim
  · refine ⟨?_, fun _ => ?_, fun _ _ => by omega, fun r s'' hok => ?_⟩
    · rw [stopsWith_iff hrun]
      exact iff_of_false (fun he => nomatch he) (by omega)
    · rw [stopsWith_iff hrun]
      exact iff_of_true rfl hfull
    · rw [hrun] at hok
      cases hok
  · refine ⟨iff_of_false (not_stopsWith hrun) (by omega),
      fun _ => iff_of_false (not_stopsWith hrun) (by omega), fun _ _ => ⟨r, s', hrun⟩,
      fun r' s'' hok => ?_⟩
    rw [hrun] at hok
    cases hok
    exact hidx

theorem ret_moves (hop : opcodeAt s = 19) : RetMoves b ctx s (callIndex ctx s) := by
  rcases ret_outcome hb hc hd hs hst hop with ⟨hjmp, htarget⟩ |
    ⟨htarget, ⟨⟨s', hrun⟩, hlt⟩ | ⟨r, s', hrun, hidx⟩⟩
  · refine ⟨iff_of_true hjmp htarget, fun hno => (hno hjmp).elim, fun hno => (hno hjmp).elim,
      fun r s' hok => ?_⟩
    exact (not_stopsWith hok hjmp).elim
  · refine ⟨?_, fun _ => ?_, fun _ _ => by omega, fun r s'' hok => ?_⟩
    · rw [stopsWith_iff hrun]
      exact iff_of_false (fun he => nomatch he) (by omega)
    · rw [stopsWith_iff hrun]
      exact iff_of_true rfl hlt
    · rw [hrun] at hok
      cases hok
  · refine ⟨iff_of_false (not_stopsWith hrun) (by omega),
      fun _ => iff_of_false (not_stopsWith hrun) (by omega), fun _ _ => ⟨r, s', hrun⟩,
      fun r' s'' hok => ?_⟩
    rw [hrun] at hok
    cases hok
    exact hidx

theorem loadExact_iff (hop : opcodeAt s = 4) :
    LoadExact b ctx s (callIndex ctx s) (operandOf b ctx s).toNat ↔
      (operandOf b ctx s).toNat < 2 ^ 30 ∨
        callIndex ctx s < (operandOf b ctx s).toNat % 2 ^ 30 ∨
        ctx.stackSegSize / 4 ≤ stackIndex ctx s + 1 ∨
        ∃ v, SameWord b ctx s (callIndex ctx s) (operandOf b ctx s).toNat v := by
  have hout := load_outcome hb hc hd hs hst hop
  simp only [SameWord]
  rw [← scaled_eq]
  have hle := scaled_le (operandOf b ctx s)
  rcases hout with ⟨⟨s', hrun⟩, hlt⟩ | ⟨⟨s', hrun⟩, -, hfull⟩ |
    ⟨r, s', hrun, hfit, hroom, hstack⟩
  · refine iff_of_true ⟨fun hover => ?_, fun _ => ?_, fun _ hin => by omega,
      fun r s'' hok => ?_⟩ (.inr (.inl hlt))
    · rw [stopsWith_iff hrun] at hover
      cases hover
    · rw [stopsWith_iff hrun]
      exact iff_of_true rfl (by omega)
    · rw [hrun] at hok
      cases hok
  · have hover : StopsWith b ctx s .stackOverflow := ⟨s', hrun⟩
    refine iff_of_true ⟨fun _ => hfull, fun hno => (hno hover).elim, fun hno => (hno hover).elim,
      fun r s'' hok => ?_⟩ (.inr (.inr (.inl hfull)))
    rw [hrun] at hok
    cases hok
  · constructor
    · intro hexact
      obtain ⟨hn, hword⟩ := hexact.access r s' hrun
      rw [hstack] at hword
      exact .inr (.inr (.inr ⟨_, hn, rfl, List.head_eq_of_cons_eq hword⟩))
    · have hload {m : ℕ} (hm : m ≤ callIndex ctx s)
          (hw : callWord b ctx s (callIndex ctx s - scaled (operandOf b ctx s)) =
            callWord b ctx s (callIndex ctx s - m)) : LoadExact b ctx s (callIndex ctx s) m := by
        refine ⟨fun hover => (not_stopsWith hrun hover).elim,
          fun _ => iff_of_false (not_stopsWith hrun) (by omega), fun _ _ => ⟨r, s', hrun⟩,
          fun r' s'' hok => ?_⟩
        rw [hrun] at hok
        cases hok
        exact ⟨hm, by rw [hstack, hw]⟩
      rintro (hsmall | hlt | hfull | ⟨v, hn, hv, hv'⟩)
      · rw [scaled_of_lt hsmall] at hfit hload
        exact hload hfit rfl
      · omega
      · omega
      · exact hload hn (hv'.trans hv.symm)

theorem storeExact_iff (hop : opcodeAt s = 5) :
    StoreExact b ctx s (callIndex ctx s) (operandOf b ctx s).toNat ↔
      (operandOf b ctx s).toNat < 2 ^ 30 ∨
        callIndex ctx s < (operandOf b ctx s).toNat % 2 ^ 30 ∨ stackIndex ctx s = 0 ∨
        SameWord b ctx s (callIndex ctx s) (operandOf b ctx s).toNat
          (stackWord b ctx s (stackIndex ctx s)) := by
  have hout := store_outcome hb hc hd hs hst hop
  simp only [SameWord]
  rw [← scaled_eq]
  have hle := scaled_le (operandOf b ctx s)
  rcases hout with ⟨⟨s', hrun⟩, hzero⟩ | ⟨⟨s', hrun⟩, -, hlt⟩ |
    ⟨r, s', hrun, hpos, hfit, hword, hsame⟩
  · have hunder : StopsWith b ctx s .stackUnderflow := ⟨s', hrun⟩
    refine iff_of_true ⟨fun _ => hzero, fun hno => (hno hunder).elim, fun hno => (hno hunder).elim,
      fun r s'' hok => ?_⟩ (.inr (.inr (.inl hzero)))
    rw [hrun] at hok
    cases hok
  · refine iff_of_true ⟨fun hunder => ?_, fun _ => ?_, fun _ hin => by omega,
      fun r s'' hok => ?_⟩ (.inr (.inl hlt))
    · rw [stopsWith_iff hrun] at hunder
      cases hunder
    · rw [stopsWith_iff hrun]
      exact iff_of_true rfl (by omega)
    · rw [hrun] at hok
      cases hok
  · constructor
    · intro hexact
      obtain ⟨hn, hword', hsame'⟩ := hexact.access r s' hrun
      by_cases hsmall : (operandOf b ctx s).toNat < 2 ^ 30
      · exact .inl hsmall
      · have hlt := scaled_lt hsmall
        -- both words hold the value, and each is left alone by the other reading
        refine .inr (.inr (.inr ⟨hn, ?_, ?_⟩))
        · rw [← hsame _ (Nat.sub_le _ _) (by omega), hword']
        · rw [← hsame' _ (Nat.sub_le _ _) (by omega), hword]
    · intro hcond
      refine ⟨fun hunder => (not_stopsWith hrun hunder).elim,
        fun _ => iff_of_false (not_stopsWith hrun) ?_, fun _ _ => ⟨r, s', hrun⟩,
        fun r' s'' hok => ?_⟩
      · rcases hcond with hsmall | hlt | hzero | ⟨hn, -, -⟩
        · rw [scaled_of_lt hsmall] at hfit
          omega
        · omega
        · exact (hpos hzero).elim
        · omega
      · rw [hrun] at hok
        cases hok
        rcases hcond with hsmall | hlt | hzero | ⟨hn, hv, hv'⟩
        · rw [scaled_of_lt hsmall] at hfit hword hsame
          exact ⟨hfit, hword, hsame⟩
        · omega
        · exact (hpos hzero).elim
        · refine ⟨hn, ?_, fun i hi hne => ?_⟩
          · by_cases heq : callIndex ctx s - (operandOf b ctx s).toNat =
                callIndex ctx s - scaled (operandOf b ctx s)
            · rw [heq, hword]
            · rw [hsame _ (Nat.sub_le _ _) heq, hv]
          · by_cases heq : i = callIndex ctx s - scaled (operandOf b ctx s)
            · rw [heq, hword, hv']
            · exact hsame i hi heq

end Exact

/-- **The arithmetic of the call stack is exact up to the scaling of operands**, in every
reachable state: an instruction treats its operand as an integer just when the operand
has no upper bits, or when its lower bits have the same effect. -/
theorem callExact_iff {b : Build} {ctx : Ctx} {s₀ s : St} {l : ℕ} (hb : b.Inverts)
    (hc : ctx.Aligned) (hd : ctx.Apart) (hl : ctx.callSegSize = 16 * l)
    (hs : Reach b ctx s₀ .dispatch s) : CallExact b ctx s l ↔ OperandFits b ctx s l := by
  obtain ⟨h, hh⟩ := hs.height
  obtain ⟨t, ⟨hin, hst⟩, -⟩ := hh.sim hb hc hd (fun hidle => nomatch hidle)
  have hopcode {n : ℕ} (hn : (opcodeAt s).toNat = n) : opcodeAt s = BitVec.ofNat 32 n := by
    rw [← hn, BitVec.ofNat_toNat, BitVec.setWidth_eq]
  unfold CallExact OperandFits
  split
  · next hop =>
    rw [hop]
    exact loadExact_iff hb hc hd hin hst (hopcode hop)
  · next hop =>
    rw [hop]
    exact storeExact_iff hb hc hd hin hst (hopcode hop)
  · next hop =>
    rw [hop]
    exact iff_of_true (call_moves hb hc hd hl hin hst (hopcode hop)) trivial
  · next hop =>
    rw [hop]
    exact iff_of_true (ret_moves hb hc hd hin hst (hopcode hop)) trivial
  · next hop =>
    rw [hop]
    exact prologExact_iff hb hc hd hl hin hst (hopcode hop)
  · next hop =>
    rw [hop]
    exact epilogExact_iff hb hc hd hin hst (hopcode hop)
  · next h4 h5 _ _ h20 h21 =>
    split
    · next hop => exact (h4 hop).elim
    · next hop => exact (h5 hop).elim
    · next hop => exact (h20 hop).elim
    · next hop => exact (h21 hop).elim
    · exact Iff.rfl

/-- Memory in which the first line of code decrypts to `PROLOG n`, `FINISH`. -/
def prologState (n : Word) : St :=
  { nopState with
    mem := fun a => if a = 16 then 17 else if a = 20 then n ^^^ 5 else if a = 24 then 4 else 0 }

/-- `PROLOG 2` on the call stack of a small program. -/
theorem callExact_iff_small :
    ∃ s, Reach (some (keyCipher 5)) (smallCtx 32) (prologState 2) .dispatch s ∧
      opcodeAt s = 20 ∧ CallExact (some (keyCipher 5)) (smallCtx 32) s 1 := by
  have h : Reach (some (keyCipher 5)) (smallCtx 32) (prologState 2) .dispatch _ :=
    .step .start (fun _ => rfl) rfl
  have hsize : (smallCtx 32).callSegSize = 16 * 1 := by decide
  refine ⟨_, h, rfl, (callExact_iff (keyCipher_build_inverts 5) smallCtx_aligned smallCtx_apart
    hsize h).mpr (Or.inl ?_)⟩
  decide

/-- `PROLOG 2^30` at the bottom of a call stack of four words does not stop. -/
theorem prolog_scaled :
    ∃ s, Reach (some (keyCipher 5)) (smallCtx 32) (prologState 0x40000000) .dispatch s ∧
      callIndex (smallCtx 32) s = 0 ∧ operandOf (some (keyCipher 5)) (smallCtx 32) s = 0x40000000 ∧
      ¬ CallExact (some (keyCipher 5)) (smallCtx 32) s 1 := by
  have h : Reach (some (keyCipher 5)) (smallCtx 32) (prologState 0x40000000) .dispatch _ :=
    .step .start (fun _ => rfl) rfl
  refine ⟨_, h, rfl, rfl, fun hexact => ?_⟩
  obtain ⟨s', hrun⟩ := hexact.error.mpr (by decide)
  cases hrun

end Bispe
