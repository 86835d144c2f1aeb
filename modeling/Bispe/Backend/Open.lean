import Bispe.Backend.Cycles

/-!
# Runs that leave the code

The straight-line advance is not checked, so a run can execute words behind the code
segment.  A plain machine that takes such words from its supply answers every run of
the interpreter, and with it every reachable state of an invocation has a plain
counterpart.

## Main definitions

* `openMacros` — the plain machine with undefined words behind its code.
* `jmpThroughTable_simulates` — it answers every instruction.
* `Flat.Near` — states that differ in what is executed next only.
* `instrPush_ends`, … — what each handler does to that machine, and where it stops.
* `Reach.sim` — every reachable state that can go on has a plain counterpart.
-/

namespace Bispe

open Effect

namespace Flat

/-- The next word to execute, whatever it is where the code has ended. -/
def extrAnyInstr (p : Program) : F Word := do
  let t ← get
  let w ← readCell (if 4 * t.ip < p.codeSize then some (p.code t.ip) else none)
  modify fun t => { t with trace := t.trace ++ [w] }
  pure w

end Flat

/-- The macros of the plain machine with undefined words behind its code. -/
def openMacros (p : Program) : Macros F ℕ :=
  { flatMacros p with extrNextInstr := Flat.extrAnyInstr p }

section Simulation
variable {b : Build} {ctx : Ctx} {m₀ : ℤ → Word}

/-- The word that is executed next. -/
def opcodeAt (s : St) : Word := extrByOfs s.rinstrLine (ofsFromPtr s.curInstrPtr)

theorem Sim.fetch {s : St} {t : Flat} (hst : Sim b ctx m₀ s t) (w : Word) :
    Sim b ctx m₀ { s with log := s.log ++ [.fetch s.curInstrPtr w] }
      { t with trace := t.trace ++ [w] } := by
  have hobs := hst.observed
  refine { hst with observed := { hobs with trace := ?_, printed := ?_ } }
  · rw [executed, List.filterMap_append, ← executed, hobs.trace]
    rfl
  · rw [printed, List.filterMap_append, ← printed, hobs.printed]
    exact List.append_nil _

theorem extrAnyInstr_simulates :
    Simulates b ctx m₀ Eq extrNextInstr (Flat.extrAnyInstr (programOf b ctx m₀)) := by
  refine .of_eq extrNextInstr_keeps (extrNextInstr_keeps_code (escaped_invariant ctx)) ?_
  intro s t hs hst
  have hcell : Supplies (Flat.readCell (if 4 * t.ip < (programOf b ctx m₀).codeSize
      then some ((programOf b ctx m₀).code t.ip) else none)) t (.ok (opcodeAt s) t) := by
    refine .readCell fun w hw => ?_
    split at hw
    · next hin =>
      have hline := hst.instr hin
      rw [opcodeAt, extrByOfs_ofsFromPtr, hline, hst.ip, ← Option.some.inj hw]
      exact (if_pos hin).symm
    · cases hw
  exact ⟨_, { t with trace := t.trace ++ [opcodeAt s] }, rfl, hst.fetch _,
    .congr (fun _ => rfl) (hcell.bind (.of_run fun _ => rfl))⟩

theorem openMacros_simulate (hb : b.Inverts) (hc : ctx.Aligned) (hd : ctx.Apart) :
    MacrosRel (MonadRel.simulation b ctx m₀) (TargetRel ctx) ExitRel (macros b ctx)
      (openMacros (programOf b ctx m₀)) :=
  { macros_simulate hb hc hd with extrNextInstr := extrAnyInstr_simulates }

/-- Every instruction is answered, wherever its operand is fetched from. -/
theorem jmpThroughTable_simulates (hb : b.Inverts) (hc : ctx.Aligned) (hd : ctx.Apart)
    (w : Word) : Simulates b ctx m₀ ExitRel (jmpThroughTable (macros b ctx) w)
      (jmpThroughTable (openMacros (programOf b ctx m₀)) w) := by
  by_cases h : w = 1
  · subst h
    exact Simulates.bind setHaltFlag_simulates fun _ _ _ => Simulates.pure (.inl ⟨rfl, rfl⟩)
  · exact (openMacros_simulate hb hc hd).jmpThroughTable_of_ne h

end Simulation

/-! ## What the handlers do -/

namespace Flat

/-- The states agree but for the next instruction and the supply. -/
def Near (t t' : Flat) : Prop := ∃ ip ws, t' = { t with ip := ip, supply := ws }

/-- The machine stops at an undefined word, or with an error, having executed the
words `l`, as `P` says. -/
def Stops (P : Err → List Word → Prop) (e : FlatStop) (t : Flat) : Prop :=
  e = .undef ∨ ∃ err, e = .error err ∧ P err t.trace

/-- `w` can be read from a cell. -/
def Reads (cell : Option Word) (w : Word) : Prop := ∀ v, cell = some v → w = v

theorem Stops.mono {P Q : Err → List Word → Prop} {e : FlatStop} {t : Flat} (h : Stops P e t)
    (hPQ : ∀ err l, P err l → Q err l) : Stops Q e t :=
  h.imp id fun ⟨err, he, hP⟩ => ⟨err, he, hPQ err _ hP⟩

/-- Put a part in front whose errors are among those of the whole. -/
theorem seq_ends {α β : Type} {x : F α} {f : α → F β} {t : Flat} {A : α → Flat → Prop}
    {Q : β → Flat → Prop} {P P' : Err → List Word → Prop} (hx : Ends A (Stops P') (x t))
    (hP : ∀ err l, P' err l → P err l) (hf : ∀ a t', A a t' → Ends Q (Stops P) (f a t')) :
    Ends Q (Stops P) ((x >>= f) t) :=
  (hx.mono (fun _ _ h => h) fun _ _ h => h.mono hP).bind hf

section Parts
variable {p : Program}

theorem readCell_ends (cell : Option Word) (t : Flat) :
    Ends (fun w t' => Reads cell w ∧ ∃ ws, t' = { t with supply := ws })
      (Stops fun _ _ => False) (readCell cell t) := by
  cases cell with
  | some w => exact ⟨fun v hv => Option.some.inj hv, t.supply, rfl⟩
  | none =>
      simp only [readCell]
      split
      · exact .inl rfl
      · next w rest _ => exact ⟨fun v hv => absurd hv.symm (Option.some_ne_none v), rest, rfl⟩

theorem extrAnyInstr_ends (t : Flat) :
    Ends (fun w t' => Near { t with trace := t.trace ++ [w] } t') (Stops fun _ _ => False)
      (extrAnyInstr p t) := by
  have hget : extrAnyInstr p t = (readCell (if 4 * t.ip < p.codeSize then some (p.code t.ip)
      else none) >>= fun w => do modify fun t => { t with trace := t.trace ++ [w] }; pure w) t :=
    rfl
  rw [hget]
  refine seq_ends (readCell_ends _ t) (fun _ _ h => h) ?_
  rintro w _ ⟨-, ws, rfl⟩
  exact ⟨t.ip, ws, rfl⟩

theorem fetchOperand_ends (t : Flat) :
    Ends (fun w t' => Near { t with trace := t.trace ++ [w] } t') (Stops fun _ _ => False)
      (fetchOperand (openMacros p) t) := by
  have h := extrAnyInstr_ends (p := p) { t with ip := t.ip + 1 }
  exact h.mono (fun w t' ⟨ip, ws, ht'⟩ => ⟨ip, ws, ht'⟩) fun _ _ he => he

theorem extrStack_ends (t : Flat) :
    Ends (fun w t' => Reads (t.stack t.sp) w ∧ ∃ ws, t' = { t with supply := ws })
      (Stops fun _ _ => False) (extrStack t) := readCell_ends (t.stack t.sp) t

theorem incStackPtr_ends (t : Flat) :
    Ends (fun _ t' => t.sp + 1 < p.stackWords ∧
        t' = { t with sp := t.sp + 1, stack := Function.update t.stack (t.sp + 1) none })
      (Stops fun err l => err = .stackOverflow ∧ l = t.trace ∧ p.stackWords ≤ t.sp + 1)
      (incStackPtr p t) := by
  by_cases h : t.sp + 1 < p.stackWords
  · rw [incStackPtr_run h]
    exact ⟨h, rfl⟩
  · rw [incStackPtr_error (Nat.not_lt.mp h)]
    exact .inr ⟨_, rfl, rfl, rfl, Nat.not_lt.mp h⟩

theorem decStackPtr_ends (t : Flat) :
    Ends (fun _ t' => t.sp ≠ 0 ∧ t' = { t with sp := t.sp - 1 })
      (Stops fun err l => err = .stackUnderflow ∧ l = t.trace ∧ t.sp = 0) (decStackPtr t) := by
  by_cases h : t.sp = 0
  · rw [decStackPtr_error h]
    exact .inr ⟨_, rfl, rfl, rfl, h⟩
  · rw [decStackPtr_run h]
    exact ⟨h, rfl⟩

theorem fetchCallElement_ends (d : ℕ) (t : Flat) :
    Ends (fun w t' => d / 4 ≤ t.cp ∧ Reads (t.call (t.cp - d / 4)) w ∧
        ∃ ws, t' = { t with supply := ws })
      (Stops fun err l => err = .callUnderflow ∧ l = t.trace ∧ t.cp < d / 4)
      (fetchCallElement d t) := by
  by_cases h : d / 4 ≤ t.cp
  · rw [fetchCallElement_eq h]
    refine (readCell_ends _ t).mono (fun w t' hw => ⟨h, hw⟩) fun _ _ he => ?_
    exact he.mono fun _ _ => False.elim
  · rw [fetchCallElement_error (Nat.not_le.mp h)]
    exact .inr ⟨_, rfl, rfl, rfl, Nat.not_le.mp h⟩

theorem saveCallElement_ends (d : ℕ) (w : Word) (t : Flat) :
    Ends (fun _ t' => d / 4 ≤ t.cp ∧
        t' = { t with call := Function.update t.call (t.cp - d / 4) (some w) })
      (Stops fun err l => err = .callUnderflow ∧ l = t.trace ∧ t.cp < d / 4)
      (saveCallElement d w t) := by
  by_cases h : d / 4 ≤ t.cp
  · rw [saveCallElement_run h]
    exact ⟨h, rfl⟩
  · rw [saveCallElement_error (Nat.not_le.mp h)]
    exact .inr ⟨_, rfl, rfl, rfl, Nat.not_le.mp h⟩

theorem incCallPtr_ends (d : ℕ) (t : Flat) :
    Ends (fun _ t' => t.cp + d / 4 < p.callWords ∧
        t' = { t with cp := t.cp + d / 4, call := clearAbove t.call t.cp (d / 4) })
      (Stops fun err l => err = .callOverflow ∧ l = t.trace ∧ p.callWords ≤ t.cp + d / 4)
      (incCallPtr p d t) := by
  by_cases h : t.cp + d / 4 < p.callWords
  · rw [incCallPtr_run h]
    exact ⟨h, rfl⟩
  · rw [incCallPtr_error (Nat.not_lt.mp h)]
    exact .inr ⟨_, rfl, rfl, rfl, Nat.not_lt.mp h⟩

theorem decCallPtr_ends (d : ℕ) (t : Flat) :
    Ends (fun _ t' => d / 4 ≤ t.cp ∧ t' = { t with cp := t.cp - d / 4 })
      (Stops fun err l => err = .callUnderflow ∧ l = t.trace ∧ t.cp < d / 4)
      (decCallPtr d t) := by
  by_cases h : d / 4 ≤ t.cp
  · rw [decCallPtr_run h]
    exact ⟨h, rfl⟩
  · rw [decCallPtr_error (Nat.not_le.mp h)]
    exact .inr ⟨_, rfl, rfl, rfl, Nat.not_le.mp h⟩

theorem calcJmpTarget_ends (w : Word) (t : Flat) :
    Ends (fun target t' => 4 * w.toNat < p.codeSize ∧ target = w.toNat ∧ t' = t)
      (Stops fun err l => err = .jmpBounds ∧ l = t.trace ∧ p.codeSize ≤ 4 * w.toNat)
      (calcJmpTarget p w t) := by
  by_cases h : p.codeSize ≤ 4 * w.toNat
  · rw [calcJmpTarget_error h]
    exact .inr ⟨_, rfl, rfl, rfl, h⟩
  · rw [calcJmpTarget_run (Nat.not_le.mp h)]
    exact ⟨Nat.not_le.mp h, rfl, rfl⟩

theorem retAddr_ends (t : Flat) :
    Ends (fun _ t' => t' = t) (Stops fun _ _ => False) (retAddr t) := rfl

end Parts
end Flat

/-- The displacement an operand stands for: it is scaled to bytes in 32 bits. -/
def scaled (n : Word) : ℕ := (n <<< 2).toNat / 4

theorem scaled_eq (n : Word) : scaled n = n.toNat % 2 ^ 30 := by
  rw [scaled, BitVec.toNat_shiftLeft, Nat.shiftLeft_eq]
  omega

theorem scaled_le (n : Word) : scaled n ≤ n.toNat := by
  rw [scaled_eq]
  exact Nat.mod_le _ _

section Handlers
open Flat
variable {p : Program} (t : Flat)

/-- What a handler does: it goes on in a state with `Q`, or stops as `P` says. -/
abbrev HandlerEnds (x : F Ctl) (Q : Flat → Prop) (P : Err → List Word → Prop) : Prop :=
  Ends (fun c t' => c = .next ∧ Q t') (Stops P) (x t)

theorem instrNop_ends : HandlerEnds t (instrNop (openMacros p)) (Near t) fun _ _ => False :=
  ⟨rfl, t.ip + 1, t.supply, rfl⟩

theorem instrFinish_ends :
    Ends (fun c t' => c = .finish ∧ t' = { t with haltFlag := true }) (Stops fun _ _ => False)
      (instrFinish (openMacros p) t) := ⟨rfl, rfl⟩

theorem instrPush_ends : HandlerEnds t (instrPush (openMacros p))
    (fun t' => t.sp + 1 < p.stackWords ∧ ∃ n, Near { t with
      sp := t.sp + 1, stack := Function.update t.stack (t.sp + 1) (some n)
      trace := t.trace ++ [n] } t')
    (fun err _ => err = .stackOverflow ∧ p.stackWords ≤ t.sp + 1) := by
  refine seq_ends (fetchOperand_ends t) (fun _ _ => False.elim) ?_
  rintro n _ ⟨ip, ws, rfl⟩
  refine seq_ends (incStackPtr_ends _) (fun _ _ h => ⟨h.1, h.2.2⟩) ?_
  rintro _ _ ⟨hroom, rfl⟩
  refine ⟨rfl, hroom, n, ip + 1, ws, ?_⟩
  simp [Function.update_idem]

theorem instrPrint_ends : HandlerEnds t (instrPrint (openMacros p))
    (fun t' => t.sp ≠ 0 ∧ ∃ v, Reads (t.stack t.sp) v ∧
      Near { t with sp := t.sp - 1, printed := t.printed ++ [v] } t')
    (fun err _ => err = .stackUnderflow ∧ t.sp = 0) := by
  refine seq_ends (extrStack_ends t) (fun _ _ => False.elim) ?_
  rintro v _ ⟨hv, ws, rfl⟩
  refine seq_ends (decStackPtr_ends _) (fun _ _ h => ⟨h.1, h.2.2⟩) ?_
  rintro _ _ ⟨hpos, rfl⟩
  exact ⟨rfl, hpos, v, hv, t.ip + 1, ws, rfl⟩

theorem instrLoad_ends : HandlerEnds t (instrLoad (openMacros p))
    (fun t' => t.sp + 1 < p.stackWords ∧ ∃ n v, scaled n ≤ t.cp ∧
      Reads (t.call (t.cp - scaled n)) v ∧ Near { t with
        sp := t.sp + 1, stack := Function.update t.stack (t.sp + 1) (some v)
        trace := t.trace ++ [n] } t')
    (fun err l => ∃ n, l = t.trace ++ [n] ∧ ((err = .callUnderflow ∧ t.cp < scaled n) ∨
      (err = .stackOverflow ∧ scaled n ≤ t.cp ∧ p.stackWords ≤ t.sp + 1))) := by
  refine seq_ends (fetchOperand_ends t) (fun _ _ => False.elim) ?_
  rintro n _ ⟨ip, ws, rfl⟩
  refine seq_ends (fetchCallElement_ends _ _) (fun _ _ h => ⟨n, h.2.1, .inl ⟨h.1, h.2.2⟩⟩) ?_
  rintro v _ ⟨hle, hv, ws', rfl⟩
  refine seq_ends (incStackPtr_ends _) (fun _ _ h => ⟨n, h.2.1, .inr ⟨h.1, hle, h.2.2⟩⟩) ?_
  rintro _ _ ⟨hroom, rfl⟩
  refine ⟨rfl, hroom, n, v, hle, hv, ip + 1, ws', ?_⟩
  simp [Function.update_idem]

theorem instrStore_ends : HandlerEnds t (instrStore (openMacros p))
    (fun t' => t.sp ≠ 0 ∧ ∃ n v, scaled n ≤ t.cp ∧ Reads (t.stack t.sp) v ∧ Near { t with
      sp := t.sp - 1, call := Function.update t.call (t.cp - scaled n) (some v)
      trace := t.trace ++ [n] } t')
    (fun err l => ∃ n, l = t.trace ++ [n] ∧ ((err = .stackUnderflow ∧ t.sp = 0) ∨
      (err = .callUnderflow ∧ t.sp ≠ 0 ∧ t.cp < scaled n))) := by
  refine seq_ends (fetchOperand_ends t) (fun _ _ => False.elim) ?_
  rintro n _ ⟨ip, ws, rfl⟩
  refine seq_ends (extrStack_ends _) (fun _ _ => False.elim) ?_
  rintro v _ ⟨hv, ws', rfl⟩
  refine seq_ends (decStackPtr_ends _) (fun _ _ h => ⟨n, h.2.1, .inl ⟨h.1, h.2.2⟩⟩) ?_
  rintro _ _ ⟨hpos, rfl⟩
  refine seq_ends (saveCallElement_ends _ _ _)
    (fun _ _ h => ⟨n, h.2.1, .inr ⟨h.1, hpos, h.2.2⟩⟩) ?_
  rintro _ _ ⟨hle, rfl⟩
  exact ⟨rfl, hpos, n, v, hle, hv, ip + 1, ws', rfl⟩

theorem instrArith_ends (op : Word → Word → Word) : HandlerEnds t (instrArith (openMacros p) op)
    (fun t' => t.sp ≠ 0 ∧ ∃ x y, Reads (t.stack (t.sp - 1)) x ∧ Reads (t.stack t.sp) y ∧
      Near { t with
        sp := t.sp - 1, stack := Function.update t.stack (t.sp - 1) (some (op x y)) } t')
    (fun err _ => err = .stackUnderflow ∧ t.sp = 0) := by
  refine seq_ends (extrStack_ends t) (fun _ _ => False.elim) ?_
  rintro y _ ⟨hy, ws, rfl⟩
  refine seq_ends (decStackPtr_ends _) (fun _ _ h => ⟨h.1, h.2.2⟩) ?_
  rintro _ _ ⟨hpos, rfl⟩
  refine seq_ends (extrStack_ends _) (fun _ _ => False.elim) ?_
  rintro x _ ⟨hx, ws', rfl⟩
  exact ⟨rfl, hpos, x, y, hx, hy, t.ip + 1, ws', rfl⟩

theorem instrDivide_ends (op : Word → Word → Word) : HandlerEnds t (instrDivide (openMacros p) op)
    (fun t' => t.sp ≠ 0 ∧ ∃ x y, y ≠ 0 ∧ Reads (t.stack (t.sp - 1)) x ∧ Reads (t.stack t.sp) y ∧
      Near { t with
        sp := t.sp - 1, stack := Function.update t.stack (t.sp - 1) (some (op x y)) } t')
    (fun err _ => (err = .stackUnderflow ∧ t.sp = 0) ∨
      (err = .divZero ∧ t.sp ≠ 0 ∧ Reads (t.stack t.sp) 0)) := by
  refine seq_ends (extrStack_ends t) (fun _ _ => False.elim) ?_
  rintro y _ ⟨hy, ws, rfl⟩
  refine seq_ends (decStackPtr_ends _) (fun _ _ h => .inl ⟨h.1, h.2.2⟩) ?_
  rintro _ _ ⟨hpos, rfl⟩
  split
  · next hzero =>
    subst hzero
    exact .inr ⟨_, rfl, .inr ⟨rfl, hpos, hy⟩⟩
  · next hne =>
    refine seq_ends (extrStack_ends _) (fun _ _ => False.elim) ?_
    rintro x _ ⟨hx, ws', rfl⟩
    exact ⟨rfl, hpos, x, y, hne, hx, hy, t.ip + 1, ws', rfl⟩

theorem instrJmp_ends : HandlerEnds t (instrJmp (openMacros p))
    (fun t' => ∃ n, t'.ip = n.toNat ∧ Near { t with trace := t.trace ++ [n] } t')
    (fun err _ => err = .jmpBounds) := by
  refine seq_ends (fetchOperand_ends t) (fun _ _ => False.elim) ?_
  rintro n _ ⟨ip, ws, rfl⟩
  refine seq_ends (calcJmpTarget_ends _ _) (fun _ _ h => h.1) ?_
  rintro target _ ⟨-, rfl, rfl⟩
  exact ⟨rfl, n, rfl, n.toNat, ws, rfl⟩

/-- A jump that is taken executes its operand and goes on there; the operand is skipped
when it is not. -/
def Branches (taken : Bool) (t t' : Flat) : Prop :=
  if taken then ∃ n : Word, t'.trace = t.trace ++ [n] ∧ t'.ip = n.toNat
  else t'.trace = t.trace ∧ t'.ip = t.ip + 2

theorem instrJcc_ends (cond : Word → Word → Bool) : HandlerEnds t (instrJcc (openMacros p) cond)
    (fun t' => 2 ≤ t.sp ∧ ∃ x y, Reads (t.stack (t.sp - 1)) x ∧ Reads (t.stack t.sp) y ∧
      Branches (cond x y) t t' ∧ ∃ l, Near { t with sp := t.sp - 2, trace := l } t')
    (fun err _ => (err = .stackUnderflow ∧ t.sp < 2) ∨
      (err = .jmpBounds ∧ 2 ≤ t.sp ∧ ∃ x y, Reads (t.stack (t.sp - 1)) x ∧
        Reads (t.stack t.sp) y ∧ cond x y)) := by
  refine seq_ends (extrStack_ends t) (fun _ _ => False.elim) ?_
  rintro y _ ⟨hy, ws, rfl⟩
  refine seq_ends (decStackPtr_ends _) (fun _ _ ⟨he, _, h⟩ => .inl ⟨he, ?_⟩) ?_
  · change t.sp = 0 at h
    omega
  rintro _ _ ⟨hpos, rfl⟩
  refine seq_ends (extrStack_ends _) (fun _ _ => False.elim) ?_
  rintro x _ ⟨hx, ws', rfl⟩
  refine seq_ends (decStackPtr_ends _) (fun _ _ ⟨he, _, h⟩ => .inl ⟨he, ?_⟩) ?_
  · change t.sp - 1 = 0 at h
    omega
  rintro _ _ ⟨hpos', rfl⟩
  change t.sp - 1 ≠ 0 at hpos'
  have hle : 2 ≤ t.sp := by omega
  have hsp : t.sp - 1 - 1 = t.sp - 2 := by omega
  split
  · next hc =>
    refine (instrJmp_ends _).mono ?_ fun _ _ h => ?_
    swap
    · exact h.mono fun _ _ he => .inr ⟨he, hle, x, y, hx, hy, hc⟩
    rintro _ _ ⟨rfl, n, hip, ip'', ws'', rfl⟩
    refine ⟨rfl, hle, x, y, hx, hy, ?_, t.trace ++ [n], ip'', ws'', by simp only [hsp]⟩
    rw [Branches, if_pos hc]
    exact ⟨n, rfl, hip⟩
  · next hc =>
    refine ⟨rfl, hle, x, y, hx, hy, ?_, t.trace, t.ip + 1 + 1, ws', by simp only [hsp]⟩
    rw [Branches, if_neg hc]
    exact ⟨rfl, rfl⟩

theorem instrCall_ends : HandlerEnds t (instrCall (openMacros p))
    (fun t' => t.cp + 1 < p.callWords ∧ ∃ n v, 4 * n.toNat < p.codeSize ∧ Near { t with
      cp := t.cp + 1, call := Function.update (clearAbove t.call t.cp 1) (t.cp + 1) (some v)
      trace := t.trace ++ [n] } t')
    (fun err l => ∃ n : Word, l = t.trace ++ [n] ∧
      ((err = .jmpBounds ∧ p.codeSize ≤ 4 * n.toNat) ∨
        (err = .callOverflow ∧ 4 * n.toNat < p.codeSize ∧ p.callWords ≤ t.cp + 1))) := by
  refine seq_ends (fetchOperand_ends t) (fun _ _ => False.elim) ?_
  rintro n _ ⟨ip, ws, rfl⟩
  refine seq_ends (calcJmpTarget_ends _ _) (fun _ _ h => ⟨n, h.2.1, .inl ⟨h.1, h.2.2⟩⟩) ?_
  rintro target _ ⟨htarget, rfl, rfl⟩
  refine seq_ends (retAddr_ends _) (fun _ _ => False.elim) ?_
  rintro v _ rfl
  refine seq_ends (incCallPtr_ends 4 _) (fun _ _ h => ⟨n, h.2.1, .inr ⟨h.1, htarget, h.2.2⟩⟩) ?_
  rintro _ _ ⟨hroom, rfl⟩
  refine seq_ends (saveCallElement_ends 0 _ _) (fun _ _ h => ?_) ?_
  · exact absurd h.2.2 (Nat.not_lt_zero _)
  rintro _ _ ⟨-, rfl⟩
  exact ⟨rfl, hroom, n, v, htarget, n.toNat, ws, rfl⟩

theorem instrRet_ends : HandlerEnds t (instrRet (openMacros p))
    (fun t' => 1 ≤ t.cp ∧ ∃ n, Reads (t.call t.cp) n ∧ 4 * n.toNat < p.codeSize ∧
      Near { t with cp := t.cp - 1 } t')
    (fun err _ => ∃ n, Reads (t.call t.cp) n ∧
      ((err = .jmpBounds ∧ p.codeSize ≤ 4 * n.toNat) ∨
        (err = .callUnderflow ∧ 4 * n.toNat < p.codeSize ∧ t.cp < 1))) := by
  refine seq_ends (fetchCallElement_ends 0 t) (fun _ _ h => ?_) ?_
  · exact absurd h.2.2 (Nat.not_lt_zero _)
  rintro n _ ⟨-, hn, ws, rfl⟩
  refine seq_ends (calcJmpTarget_ends _ _) (fun _ _ h => ⟨n, hn, .inl ⟨h.1, h.2.2⟩⟩) ?_
  rintro target _ ⟨htarget, rfl, rfl⟩
  refine seq_ends (decCallPtr_ends 4 _) (fun _ _ h => ⟨n, hn, .inr ⟨h.1, htarget, h.2.2⟩⟩) ?_
  rintro _ _ ⟨hroom, rfl⟩
  exact ⟨rfl, hroom, n, hn, htarget, n.toNat, ws, rfl⟩

theorem instrProlog_ends : HandlerEnds t (instrProlog (openMacros p))
    (fun t' => ∃ n, t.cp + scaled n < p.callWords ∧ Near { t with
      cp := t.cp + scaled n, call := clearAbove t.call t.cp (scaled n)
      trace := t.trace ++ [n] } t')
    (fun err l => ∃ n, l = t.trace ++ [n] ∧ err = .callOverflow ∧
      p.callWords ≤ t.cp + scaled n) := by
  refine seq_ends (fetchOperand_ends t) (fun _ _ => False.elim) ?_
  rintro n _ ⟨ip, ws, rfl⟩
  refine seq_ends (incCallPtr_ends _ _) (fun _ _ h => ⟨n, h.2.1, h.1, h.2.2⟩) ?_
  rintro _ _ ⟨hroom, rfl⟩
  exact ⟨rfl, n, hroom, ip + 1, ws, rfl⟩

theorem instrEpilog_ends : HandlerEnds t (instrEpilog (openMacros p))
    (fun t' => ∃ n, scaled n ≤ t.cp ∧ Near { t with
      cp := t.cp - scaled n, trace := t.trace ++ [n] } t')
    (fun err l => ∃ n, l = t.trace ++ [n] ∧ err = .callUnderflow ∧ t.cp < scaled n) := by
  refine seq_ends (fetchOperand_ends t) (fun _ _ => False.elim) ?_
  rintro n _ ⟨ip, ws, rfl⟩
  refine seq_ends (decCallPtr_ends _ _) (fun _ _ h => ⟨n, h.2.1, h.1, h.2.2⟩) ?_
  rintro _ _ ⟨hroom, rfl⟩
  exact ⟨rfl, n, hroom, ip + 1, ws, rfl⟩

theorem instrArgload_ends : HandlerEnds t (instrArgload (openMacros p))
    (fun t' => ∃ n, scaled n ≤ t.cp ∧ n.toNat < p.argc ∧ Near { t with
      call := Function.update t.call (t.cp - scaled n) (some (p.argv n.toNat))
      trace := t.trace ++ [n] } t')
    (fun err _ => err = .argRange ∨ err = .callUnderflow) := by
  refine seq_ends (fetchOperand_ends t) (fun _ _ => False.elim) ?_
  rintro n _ ⟨ip, ws, rfl⟩
  split
  · exact .inr ⟨_, rfl, .inl rfl⟩
  · next hlt =>
    refine seq_ends (saveCallElement_ends _ _ _) (fun _ _ h => .inr h.1) ?_
    rintro _ _ ⟨hle, rfl⟩
    exact ⟨rfl, n, hle, not_le.mp hlt, ip + 1, ws, rfl⟩

end Handlers

/-! ## The jump table -/

/-- The opcodes in the order of the jump table. -/
def opcodes : List Word := (List.range 23).map (BitVec.ofNat 32)

/-- A relation of opcodes to handlers, checked along the jump table. -/
theorem jmpThroughTable_of_table {m : Type → Type} [Monad m] {P : Type} {M : Macros m P}
    {C : Word → m Ctl → Prop}
    (hinv : ∀ w : Word, maximumOpcode < w.toNat → C w (M.error .invOpcode))
    (h : List.Forall₂ C opcodes (instrTable M)) (w : Word) : C w (jmpThroughTable M w) := by
  unfold jmpThroughTable
  split
  · next hgt => exact hinv w hgt
  · next hle =>
    have hlt : w.toNat < opcodes.length := Nat.lt_succ_of_le (Nat.not_lt.mp hle)
    have hlt' : w.toNat < (instrTable M).length := hlt
    have hget := h.get hlt hlt'
    have hop : opcodes.get ⟨w.toNat, hlt⟩ = w := by simp [opcodes]
    rw [hop] at hget
    rwa [List.getD_eq_getElem?_getD, List.getElem?_eq_getElem hlt']

/-! ## From the plain machine to the interpreter -/

section Transfer
open Flat
variable {b : Build} {ctx : Ctx} {m₀ : ℤ → Word}

/-- What holds of an instruction of the plain machine, whatever its undefined words
are, holds of the instruction of the interpreter. -/
theorem dispatch_transfer (hb : b.Inverts) (hc : ctx.Aligned) (hd : ctx.Apart) {s : St} {t : Flat}
    (hs : Inside ctx m₀ s) (hst : Sim b ctx m₀ s t) {Q : Ctl → Flat → Prop}
    {P : Err → List Word → Prop}
    (h : ∀ ws, Ends Q (Stops P) (jmpThroughTable (openMacros (programOf b ctx m₀)) (opcodeAt s)
      { t with trace := t.trace ++ [opcodeAt s], supply := ws })) :
    Ends (fun c s' => Inside ctx m₀ s' ∧ ∃ c' t', ExitRel c c' ∧ Sim b ctx m₀ s' t' ∧ Q c' t')
      (fun e s' => ∃ err, e = .error err ∧ P err (executed s'.log))
      (dispatch (macros b ctx) s) := by
  have hsim : Simulates b ctx m₀ ExitRel _ _ := jmpThroughTable_simulates hb hc hd (opcodeAt s)
  have hs₁ : Inside ctx m₀ { s with log := s.log ++ [.fetch s.curInstrPtr (opcodeAt s)] } :=
    extrNextInstr_keeps s hs
  have hst₁ := hst.fetch (opcodeAt s)
  have hrun : dispatch (macros b ctx) s = jmpThroughTable (macros b ctx) (opcodeAt s)
      { s with log := s.log ++ [.fetch s.curInstrPtr (opcodeAt s)] } := rfl
  have hkeep := hsim.keeps _ hs₁
  rw [hrun]
  rcases hsim.run _ _ hs₁ hst₁ with hm | ⟨-, t', ws, hout, -⟩
  · cases hr : jmpThroughTable (macros b ctx) (opcodeAt s)
        { s with log := s.log ++ [.fetch s.curInstrPtr (opcodeAt s)] } with
    | ok c s' =>
        rw [hr] at hm hkeep
        obtain ⟨c', t', hcc, hst', ws, hws, -⟩ := hm
        have hend := h (ws ++ [])
        rw [hws] at hend
        exact ⟨hkeep.1, c', _, hcc, hst'.resupply [], hend⟩
    | error e s' =>
        rw [hr] at hm
        obtain ⟨err, t', rfl, hobs, ws, hws, -⟩ := hm
        have hend := h (ws ++ [])
        rw [hws] at hend
        obtain hundef | ⟨err', herr, hP⟩ := hend
        · cases hundef
        · cases herr
          exact ⟨err, rfl, hobs.trace ▸ hP⟩
  · have hend := h (ws ++ [])
    rw [hout] at hend
    obtain hundef | ⟨err', herr, -⟩ := hend
    · cases hundef
    · cases herr

end Transfer
end Bispe
