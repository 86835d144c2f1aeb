import Bispe.Compiler.Execution

/-!
# Calls on the machine

A `CALL` runs the code of its callee, which tracks what the call means.  The induction is
on the depth of calls: the body of a function makes calls of a smaller depth, and a `CALL`
is a step that counts for the bound.

## Main definitions

* `Func.Loaded` — the code of a function is in the segment, with the addresses of its callees.
* `Func.tracks` — the code of a function tracks its body.
* `callSem_tracks` — a `CALL` tracks the call.
-/

namespace Bispe

open Effect Flat Tracking

/-! ## The end of a function -/

section Ends
variable {t : FuncTable} {junk : Junk} {name : String}

theorem endsInRet_last (before : Bool) (l : List CodeElem) (e : CodeElem) :
    endsInRet before (l ++ [e]) = decide (e.instr = .ret) := by
  rw [endsInRet, List.getLast?_concat]

theorem endsInRet_call (before : Bool) (l : List CodeElem) (g : String) :
    endsInRet before (l ++ callCode t junk g) = false := by
  rw [callCode, ← List.append_assoc, endsInRet_last]
  rfl

theorem endsInRet_cond (before : Bool) (l : List CodeElem) (c : Cond) (target : ℕ) :
    endsInRet before (l ++ c.emit t junk name c.op.jmp target) = false ∧
      endsInRet before (l ++ c.emit t junk name (negJmpInstr c.op.jmp) target) = false := by
  rw [Cond.emit, Cond.emit, ← List.append_assoc, ← List.append_assoc, endsInRet_last,
    endsInRet_last]
  obtain ⟨_, op, _⟩ := c
  cases op <;> exact ⟨rfl, rfl⟩

/-- **The last instruction** of a statement. -/
theorem Stmt.endsInRet_emit (st : Stmt) : ∀ (before : Bool) (base : ℕ),
    endsInRet before (st.emit t junk name base) = st.lastRet.getD before := by
  induction st with
  | skip =>
      intro before base
      rfl
  | seq st rest ih₁ ih₂ =>
      intro before base
      rw [Stmt.emit, ← endsInRet_append, ih₁, ih₂, Stmt.lastRet]
      cases rest.lastRet <;> rfl
  | simple st =>
      intro before base
      cases st with
      | varDef type x init =>
          cases init with
          | none => rfl
          | some e => exact endsInRet_last ..
      | varAssign x e => exact endsInRet_last ..
  | call g args =>
      intro before base
      exact endsInRet_call ..
  | print e =>
      intro before base
      exact endsInRet_last ..
  | ret e =>
      intro before base
      exact endsInRet_last ..
  | ifThen c st ih =>
      intro before base
      rw [Stmt.emit, ← endsInRet_append, ih, Stmt.lastRet]
      have hcond (target : ℕ) := (@endsInRet_cond t junk name before [] c target).2
      simp only [List.nil_append] at hcond
      rw [hcond]
      cases st.lastRet <;> rfl
  | ifElse c s₁ s₂ ih₁ ih₂ =>
      intro before base
      simp only [Stmt.emit]
      rw [List.append_cons, ← endsInRet_append, ih₂, Stmt.lastRet, endsInRet_last]
      cases s₂.lastRet <;> rfl
  | whileLoop c body ih =>
      intro before base
      exact (endsInRet_cond ..).1
  | forLoop init c x e body ih =>
      intro before base
      exact (endsInRet_cond ..).1
  | doLoop body c ih =>
      intro before base
      exact (endsInRet_cond ..).1

/-- **A function that closes** ends in `RET`, unless its end is not reached. -/
theorem Func.Closes.emit {f : Func} (h : f.Closes) (hsize : frameSize t f.name = f.frame)
    (before : Bool) (base : ℕ) :
    f.body.returns = true ∨ f.emit t junk before base = prologCode t f.name ++
      f.body.emit t junk f.name (base + words (prologCode t f.name)) ++
        (epilogCode t f.name ++ [elem .ret 0]) := by
  rcases h with hreturns | hlast
  · exact .inl hreturns
  · right
    have hends : endsInRet before (prologCode t f.name ++
        f.body.emit t junk f.name (base + words (prologCode t f.name))) = false := by
      rw [← endsInRet_append, Stmt.endsInRet_emit]
      rcases hlast with hlast | ⟨hlast, hdefs⟩
      · rw [hlast]
        rfl
      · -- there is a frame, so that the last instruction is `PROLOG`
        have hframe : 0 < frameSize t f.name := by
          rw [hsize, Func.frame]
          exact Nat.add_pos_left (List.length_pos_iff.mpr hdefs) _
        rw [hlast, prologCode, if_pos hframe]
        rfl
    simp only [Func.emit]
    rw [hends]
    simp

end Ends

/-! ## Functions -/

/-- The code of a function is in the segment, with a frame for its variables and the
addresses of its callees. -/
structure Func.Loaded (p : Program) (limit : ℕ) (junk : Junk) (start : String → ℕ)
    (ft : FuncTable) (before : Bool) (f : Func) : Prop extends Framed p limit ft f where
  code : p.Holds (start f.name) (f.emit ft junk before (start f.name))
  fits : start f.name + words (f.emit ft junk before (start f.name)) ≤ limit
  nodup : (f.params.names ++ f.body.defs).Nodup
  knows : f.Knows (f.body.vars ++ f.body.defs)
  counts : ∀ c ∈ f.body.calls, callArgCount ft c.callee = c.argCount ∧ c.argCount ≤ f.maxCall
  addr : ∀ c ∈ f.body.calls, callAddr ft junk c.callee = BitVec.ofNat 32 (start c.callee)
  closes : f.Closes

section Functions
variable {F : Family} {limit k : ℕ} {junk : Junk} {start : String → ℕ} {ft : FuncTable}
  {before : Bool} {call : String → List Word → Sem (Option Word)} {f : Func}

/-- The state behind a `CALL`. -/
def called (start : ℕ) (t : Flat) : Flat := { t with
  ip := start, cp := t.cp + 1
  call := Function.update (clearAbove t.call t.cp 1) (t.cp + 1)
    (some (BitVec.ofNat 32 (t.ip + 2))) }

/-- The state behind the `PROLOG` of a function, if it has one. -/
def entered (f : Func) (ip : ℕ) (t : Flat) : Flat := { t with
  ip := ip, cp := t.cp + f.frame, call := clearAbove t.call t.cp f.frame }

theorem clearAbove_of_le {call : ℕ → Option Word} {cp n i : ℕ} (h : i ≤ cp) :
    clearAbove call cp n i = call i := if_neg (by omega)

theorem clearAbove_zero (call : ℕ → Option Word) (cp : ℕ) : clearAbove call cp 0 = call := by
  ext1 i
  exact if_neg (by omega)

/-- **The activation of a function** holds its arguments. -/
theorem Func.Loaded.activation (h : f.Loaded F.base limit junk start ft before) {ip : ℕ}
    {args : List Word} {t : Flat} (hlen : args.length = f.params.names.length)
    (hargs : ArgsAt args t) (base : ℕ) :
    Activation f t ip (f.arguments args) (entered f ip (called base t)) := by
  have hle := f.maxCall_le_frame
  have hbound : f.params.names.length ≤ t.cp + 1 := by
    rw [← hlen]
    by_cases hzero : args.length = 0
    · omega
    · have hlast := (hargs (args.length - 1) _ (List.getElem?_eq_getElem (by omega))).1
      omega
  have hkeep : ∀ i ≤ t.cp, (entered f ip (called base t)).call i = t.call i := by
    intro i hi
    refine (clearAbove_of_le (by simp only [called]; omega)).trans ?_
    refine (Function.update_of_ne (by omega) ..).trans ?_
    exact clearAbove_of_le hi
  refine ⟨rfl, rfl, ?_, rfl, fun _ _ => rfl, fun i hi => ?_, hbound, ?_, ?_⟩
  · refine (clearAbove_of_le le_rfl).trans ?_
    exact Function.update_self ..
  · by_cases hi' : i ≤ t.cp
    · exact hkeep i hi'
    · omega
  · simp only [entered, called]
    omega
  · intro x w hx
    rw [Func.arguments] at hx
    have hlt := (List.getElem?_eq_some_iff.mp hx).1
    have hmem : x ∈ f.params.names := List.idxOf_lt_length_iff.mp (by omega)
    have hdef : x ∉ f.body.defs := fun hdef =>
      (List.nodup_append.mp h.nodup).2.2 x hmem x hdef rfl
    obtain ⟨hle', hcell⟩ := hargs _ _ hx
    refine ⟨f.frame + 1 + f.params.names.idxOf x, ?_, by omega, ?_, ?_⟩
    · rw [Func.slots, framePos, if_neg hdef, if_pos hmem, Func.frame]
    · simp only [entered, called]
      omega
    · have hpos : (entered f ip (called base t)).cp - (f.frame + 1 + f.params.names.idxOf x) =
          t.cp - f.params.names.idxOf x := by
        simp only [entered, called]
        omega
      rw [hpos, hkeep _ (Nat.sub_le _ _), hcell]

/-- **The prolog** makes room for the frame, if there is room. -/
theorem Func.Loaded.prolog (h : f.Loaded F.base limit junk start ft before) {base : ℕ} {t : Flat}
    {rest : List CodeElem} (hcode : F.base.Holds base (prologCode ft f.name ++ rest)) :
    (∃ n, F.machine.runs n (called base t)
      (entered f (base + words (prologCode ft f.name)) (called base t))) ∨
      F.machine.fails (called base t) .callOverflow ∧ F.excuse .callOverflow := by
  rw [prologCode, h.size] at hcode ⊢
  by_cases hframe : 0 < f.frame
  · rw [if_pos hframe] at hcode ⊢
    have hdepth : depth (BitVec.ofNat 32 f.frame) = f.frame :=
      depth_ofNat (by have hsmall := h.small; omega)
    have hstep := F.prolog (t := called base t) hcode.left.opcode (hcode.left.operand rfl)
    rw [elem, hdepth] at hstep
    exact hstep.imp_left fun hrun => ⟨1, hrun⟩
  · left
    rw [if_neg hframe]
    refine ⟨0, ?_⟩
    have hzero : f.frame = 0 := Nat.eq_zero_of_not_pos hframe
    have hsame : entered f (base + words []) (called base t) = called base t := by
      simp only [entered, hzero, clearAbove_zero, words_nil, Nat.add_zero]
      rfl
    rw [hsame]
    exact F.machine.refl _

/-- **Functions**: from the first instruction on, the code tracks the body. -/
theorem Func.Loaded.tracks (h : f.Loaded F.base limit junk start ft before)
    (hcalls : ∀ c ∈ f.body.calls, CallReady F limit f.maxCall k ft junk call c) {args : List Word}
    {t : Flat} (hlen : args.length = f.params.names.length) (hargs : ArgsAt args t)
    (hback : t.ip + 2 ≤ limit) :
    F.machine.Tracks F.excuse k (f.body.sem call k (f.arguments args) >>= fun flow =>
      pure (returned flow)) (called (start f.name) t) fun v t' =>
        Leaves f.params.names.length 2 v.toList t t' := by
  let body := f.body.emit ft junk f.name (start f.name + words (prologCode ft f.name))
  obtain ⟨rest, hemit⟩ : ∃ rest, f.emit ft junk before (start f.name) =
      prologCode ft f.name ++ body ++ rest := by
    simp only [Func.emit]
    split
    · exact ⟨[], (List.append_nil _).symm⟩
    · exact ⟨epilogCode ft f.name ++ [elem .ret 0], List.append_assoc ..⟩
  have hcode := h.code
  have hfits := h.fits
  rw [hemit] at hcode hfits
  rw [words_append, words_append] at hfits
  have hinside : start f.name + words (prologCode ft f.name) + words body ≤ limit := by omega
  rcases (h.prolog (t := t) hcode.left).symm with ⟨hfail, hexcuse⟩ | ⟨n, hrun⟩
  · exact .giveUp hfail hexcuse
  refine .steps hrun rfl ?_
  refine (f.body.tracks h.toFramed hback h.knows hcalls hcode.left.right hinside
    (h.activation hlen hargs (start f.name))).result.bind fun flow t₁ h₁ => ?_
  obtain ⟨hflow, h₁⟩ := h₁
  cases flow with
  | inr v => exact .pure h₁
  | inl ρ =>
      rcases h.closes.emit h.size before (start f.name) with hreturns | hclosed
      · exact absurd hflow (Stmt.sem_returns hreturns)
      · -- the end of the body is reached
        have hlast := h.code
        rw [hclosed] at hlast
        have hright := hlast.right
        rw [words_append, ← Nat.add_assoc, ← Activation.ip h₁] at hright
        obtain ⟨m, t₂, hrun', hprinted, hleaves⟩ :=
          Activation.returns h₁ (.refl f.maxCall t₁) h.toFramed hback hright
        exact .steps hrun' hprinted (.pure hleaves)

end Functions

/-! ## Calls -/

/-- The code of every definition is in the segment. -/
def Linked (p : Program) (limit : ℕ) (junk : Junk) (start : String → ℕ)
    (defs : String → Option Func) : Prop :=
  ∀ g f, defs g = some f → f.name = g ∧ ∃ ft before, f.Loaded p limit junk start ft before

/-- **Calls.** -/
theorem callSem_tracks {F : Family} {limit : ℕ} {junk : Junk} {start : String → ℕ}
    {defs : String → Option Func} (h : Linked F.base limit junk start defs) (k : ℕ) :
    ∀ (g : String) (args : List Word) (t : Flat), F.base.At t.ip 18 →
      F.base.At (t.ip + 1) (BitVec.ofNat 32 (start g)) → t.ip + 2 ≤ limit → ArgsAt args t →
      F.machine.Tracks F.excuse k (callSem defs k g args) t fun v t' =>
        Leaves args.length 2 v.toList t t' := by
  induction k with
  | zero =>
      intro g args t _ _ _ _
      exact .timeout
  | succ k ih =>
      intro g args t hop harg hback hargs
      rw [callSem]
      cases hg : defs g with
      | none => exact .undefined
      | some f =>
          obtain ⟨rfl, ft, before, hf⟩ := h g f hg
          by_cases hlen : args.length = f.params.names.length
          · simp only [if_pos hlen]
            have hcalls : ∀ c ∈ f.body.calls,
                CallReady F limit f.maxCall k ft junk (callSem defs k) c := by
              intro c hc
              obtain ⟨hcount, hroom⟩ := hf.counts c hc
              refine ⟨hcount, hroom, fun args' t' hlen' hop' harg' hback' hargs' => ?_⟩
              rw [hf.addr c hc] at harg'
              rw [← hlen']
              exact ih c.callee args' t' hop' harg' hback' hargs'
            have hfits := hf.fits
            have hinside : start f.name ≤ limit := by omega
            have htarget := hf.toFramed.toNat hinside
            have hsegment := hf.segment
            have hbound : 4 * (BitVec.ofNat 32 (start f.name)).toNat < F.base.codeSize := by
              omega
            have hstep := F.does_or_fails F.call (t.cp + 1)
              (fun q hq => does_call (hq.word hop) (hq.word harg) (hq.inside hbound))
              (fun q hq => fails_call (hq.word hop) (hq.word harg) (hq.inside hbound))
            rw [htarget] at hstep
            rcases hstep with hrun | ⟨hfail, hexcuse⟩
            · rw [hlen]
              exact .after hrun rfl (hf.tracks hcalls hlen hargs hback)
            · exact .giveUp hfail hexcuse
          · simp only [if_neg hlen]
            exact .undefined

end Bispe
