import Bispe.Compiler.Evaluation
import Bispe.Compiler.Jumps

/-!
# Statements on the machine

The code of a statement, run in an activation of its function, tracks the meaning of the
statement: it comes to its end with the operand stack as high as before and the variables
in their slots, or returns to the caller with what the statement returns.  What an
activation leaves alone is said by the state in which its function was called.

## Main definitions

* `Func.frame`, `Func.slots` — the frame of a function.
* `Activation` — the state within an activation.
* `Arrives` — where a statement leads.
* `Stmt.tracks` — the code of a statement tracks its meaning.
-/

namespace Bispe

open Effect Flat Tracking

/-! ## Frames -/

/-- The words of a frame, the return address apart. -/
def Func.frame (f : Func) : ℕ := f.body.defs.length + f.maxCall

def Func.slots (f : Func) : String → Option ℕ := framePos f.params.names f.body.defs f.maxCall

theorem framePos_cases {names defs : List String} {m s : ℕ} {x : String}
    (h : framePos names defs m x = some s) :
    (x ∈ defs ∧ s = m + defs.idxOf x ∧ s < m + defs.length) ∨
      (x ∉ defs ∧ x ∈ names ∧ s = defs.length + m + 1 + names.idxOf x ∧
        s < defs.length + m + 1 + names.length) := by
  rw [framePos] at h
  by_cases hdef : x ∈ defs
  · rw [if_pos hdef] at h
    obtain rfl := Option.some.inj h
    have hlt := List.idxOf_lt_length_of_mem hdef
    exact .inl ⟨hdef, rfl, by omega⟩
  · rw [if_neg hdef] at h
    by_cases hname : x ∈ names
    · rw [if_pos hname] at h
      obtain rfl := Option.some.inj h
      have hlt := List.idxOf_lt_length_of_mem hname
      exact .inr ⟨hdef, hname, rfl, by omega⟩
    · rw [if_neg hname] at h
      cases h

/-- Variables are in slots of their own. -/
theorem framePos_injective {names defs : List String} {m s : ℕ} {x y : String}
    (hx : framePos names defs m x = some s) (hy : framePos names defs m y = some s) : x = y := by
  rcases framePos_cases hx with ⟨hxd, hxs, hlt⟩ | ⟨-, hxn, hxs, -⟩ <;>
    rcases framePos_cases hy with ⟨hyd, hys, hlt'⟩ | ⟨-, hyn, hys, -⟩
  · exact (List.idxOf_inj hxd).mp (by omega)
  · omega
  · omega
  · exact (List.idxOf_inj hxn).mp (by omega)

/-- Slots are behind the outgoing arguments, and are not that of the return address. -/
theorem Func.slots_bounds {f : Func} {x : String} {s : ℕ} (h : f.slots x = some s) :
    f.maxCall ≤ s ∧ s ≠ f.frame ∧ s ≤ f.frame + f.params.names.length := by
  rw [Func.frame]
  rcases framePos_cases h with ⟨-, hs, hlt⟩ | ⟨-, -, hs, hlt⟩ <;> omega

/-- The state at the word `ip` within an activation of `f`.  The call was the instruction at
`t₀`, with the arguments in their slots. -/
structure Activation (f : Func) (t₀ : Flat) (ip : ℕ) (ρ : Valuation) (t : Flat) : Prop where
  ip : t.ip = ip
  cp : t.cp = t₀.cp + 1 + f.frame
  ret : t.call (t₀.cp + 1) = some (BitVec.ofNat 32 (t₀.ip + 2))
  sp : t.sp = t₀.sp
  below : ∀ i ≤ t₀.sp, t.stack i = t₀.stack i
  call : ∀ i, i + f.params.names.length ≤ t₀.cp → t.call i = t₀.call i
  args : f.params.names.length ≤ t₀.cp + 1
  vars : Variables f.maxCall f.slots ρ t

/-- Where a statement leads: to the word `ip` in the same activation, or back to the caller. -/
def Arrives (f : Func) (t₀ : Flat) (ip : ℕ) : Flow → Flat → Prop
  | .inl ρ, t => Activation f t₀ ip ρ t
  | .inr v, t => Leaves f.params.names.length 2 v.toList t₀ t

theorem Func.maxCall_le_frame (f : Func) : f.maxCall ≤ f.frame := Nat.le_add_left _ _

namespace Activation

variable {f : Func} {t₀ t t' : Flat} {ip n : ℕ} {ρ : Valuation}

/-- Code that leaves nothing on the operand stack. -/
theorem leaves (h : Activation f t₀ ip ρ t) (h' : Leaves f.maxCall n [] t t') :
    Activation f t₀ (ip + n) ρ t' where
  ip := by rw [h'.ip, h.ip]
  cp := h'.cp.trans h.cp
  ret := by
    have hle := f.maxCall_le_frame
    rw [h'.call _ (by rw [h.cp]; omega), h.ret]
  sp := by rw [h'.sp, h.sp, List.length_nil, Nat.add_zero]
  below := by
    intro i hi
    rw [h'.below i (by rw [h.sp]; exact hi), h.below i hi]
  call := by
    intro i hi
    have hle := f.maxCall_le_frame
    rw [h'.call i (by rw [h.cp]; omega), h.call i hi]
  args := h.args
  vars := h.vars.leaves h'

/-- Other states that differ in the instruction pointer only. -/
theorem jump {target : ℕ} (h : Activation f t₀ ip ρ t) :
    Activation f t₀ target ρ { t with ip := target } :=
  ⟨rfl, h.cp, h.ret, h.sp, h.below, h.call, h.args, h.vars.room, h.vars.cell⟩

/-- A word from the operand stack is stored in the slot of a variable. -/
theorem store {w : Word} {x : String} {s : ℕ} (h : Activation f t₀ ip ρ t)
    (h' : Leaves f.maxCall n [w] t t') (hx : f.slots x = some s) :
    Activation f t₀ (ip + n + 2) (Function.update ρ x (some w)) { t' with
      ip := t'.ip + 2, sp := t'.sp - 1
      call := Function.update t'.call (t'.cp - s) (some w) } := by
  obtain ⟨hm, hret, hbound⟩ := f.slots_bounds hx
  have hargs := h.args
  have hle := f.maxCall_le_frame
  have hcp : t'.cp = t₀.cp + 1 + f.frame := h'.cp.trans h.cp
  refine ⟨by rw [h'.ip, h.ip], hcp, ?_, ?_, ?_, ?_, hargs, ?_, ?_⟩
  · have hne : t₀.cp + 1 ≠ t'.cp - s := by omega
    refine (Function.update_of_ne hne ..).trans ?_
    rw [h'.call _ (by rw [h.cp]; omega), h.ret]
  · rw [h'.sp, h.sp]
    rfl
  · intro i hi
    exact (h'.below i (by rw [h.sp]; exact hi)).trans (h.below i hi)
  · intro i hi
    have hne : i ≠ t'.cp - s := by omega
    refine (Function.update_of_ne hne ..).trans ?_
    rw [h'.call i (by rw [h.cp]; omega), h.call i hi]
  · exact (h.vars.leaves h').room
  · intro y v hy
    by_cases hyx : y = x
    · subst hyx
      rw [Function.update_self] at hy
      refine ⟨s, hx, hm, by simp only [hcp]; omega, ?_⟩
      exact (Function.update_self ..).trans hy
    · rw [Function.update_of_ne hyx] at hy
      obtain ⟨s', hs', hm', hle', hcell⟩ := (h.vars.leaves h').cell y v hy
      refine ⟨s', hs', hm', hle', ?_⟩
      have hne : s' ≠ s := by
        rintro rfl
        exact hyx (framePos_injective hs' hx)
      have hne' : t'.cp - s' ≠ t'.cp - s := by omega
      exact (Function.update_of_ne hne' ..).trans hcell

end Activation

/-- A statement goes on after another one. -/
theorem Arrives.goOn {f : Func} {t₀ t : Flat} {ip : ℕ} {flow : Flow} {F : Family} {k : ℕ}
    {next : Valuation → Sem Flow} {P : Flow → Flat → Prop} (h : Arrives f t₀ ip flow t)
    (hnext : ∀ ρ, Activation f t₀ ip ρ t → F.machine.Tracks F.excuse k (next ρ) t P)
    (hret : ∀ v, Leaves f.params.names.length 2 v.toList t₀ t → P (.inr v) t) :
    F.machine.Tracks F.excuse k (goOn next flow) t P := by
  cases flow with
  | inl ρ => exact hnext ρ h
  | inr v => exact .pure (hret v h)

/-! ## Statements -/

/-- What the code of a function relies on: the frame that the table says, and a segment in
which the words up to `limit` can be reached. -/
structure Framed (p : Program) (limit : ℕ) (ft : FuncTable) (f : Func) : Prop where
  slots : SlotsAt ft f.name f.slots
  size : frameSize ft f.name = f.frame
  small : f.frame + f.params.names.length < 2 ^ 30
  segment : 4 * limit < p.codeSize
  word : limit < 2 ^ 31

/-- The variables have slots. -/
def Func.Knows (f : Func) (xs : List String) : Prop := ∀ x ∈ xs, f.slots x ≠ none

theorem Func.Knows.mono {f : Func} {xs ys : List String} (h : f.Knows ys)
    (hsub : ∀ x ∈ xs, x ∈ ys) : f.Knows xs := fun x hx => h x (hsub x hx)

section Statements
variable {F : Family} {limit k : ℕ} {ft : FuncTable} {junk : Junk}
  {call : String → List Word → Sem (Option Word)} {f : Func} {t₀ t t' : Flat} {ρ : Valuation}

theorem Framed.maxCall_lt (hf : Framed F.base limit ft f) : f.maxCall < 2 ^ 30 := by
  have hsmall := hf.small
  have hle := f.maxCall_le_frame
  omega

theorem Framed.toNat (hf : Framed F.base limit ft f) {target : ℕ} (htarget : target ≤ limit) :
    (BitVec.ofNat 32 target).toNat = target := by
  have hlimit := hf.word
  rw [BitVec.toNat_ofNat, Nat.mod_eq_of_lt (by omega)]

/-- **The end of a function**: its frame is removed, and the words it leaves on the operand
stack are there for the caller. -/
theorem Activation.returns {ip n : ℕ} {ws : List Word} (h : Activation f t₀ ip ρ t)
    (h' : Leaves f.maxCall n ws t t') (hf : Framed F.base limit ft f) (hback : t₀.ip + 2 ≤ limit)
    (hcode : F.base.Holds t'.ip (epilogCode ft f.name ++ [elem .ret 0])) :
    ∃ n t'', F.machine.runs n t' t'' ∧ t''.printed = t'.printed ∧
      Leaves f.params.names.length 2 ws t₀ t'' := by
  have hcp : t'.cp = t₀.cp + 1 + f.frame := h'.cp.trans h.cp
  have hle := f.maxCall_le_frame
  have hargs := h.args
  have hsegment := hf.segment
  let t₁ : Flat := { t' with
    ip := t'.ip + words (epilogCode ft f.name), cp := t₀.cp + 1 }
  obtain ⟨n, hepilog⟩ : ∃ n, F.machine.runs n t' t₁ := by
    rw [epilogCode, hf.size] at hcode
    by_cases hframe : 0 < f.frame
    · rw [if_pos hframe] at hcode
      have hdepth : depth (BitVec.ofNat 32 f.frame) = f.frame :=
        depth_ofNat (by have := hf.small; omega)
      have hroom : depth (elem .epilog f.frame).arg ≤ t'.cp := by
        rw [elem, hdepth, hcp]
        omega
      have hstep := F.does fun q hq =>
        does_epilog (hq.word hcode.left.opcode) (hq.word (hcode.left.operand rfl)) hroom
      refine ⟨1, ?_⟩
      have hend : t'.cp - depth (elem .epilog f.frame).arg = t₀.cp + 1 := by
        rw [elem, hdepth, hcp]
        omega
      rw [hend] at hstep
      have hwords : words (epilogCode ft f.name) = 2 := by
        rw [epilogCode, hf.size, if_pos hframe]
        rfl
      simp only [t₁, hwords]
      exact hstep
    · have hwords : words (epilogCode ft f.name) = 0 := by
        rw [epilogCode, hf.size, if_neg hframe]
        rfl
      refine ⟨0, ?_⟩
      have hsame : t₁ = t' := by
        simp only [t₁, hwords, Nat.add_zero]
        rw [show t₀.cp + 1 = t'.cp by rw [hcp]; omega]
      rw [hsame]
      exact F.machine.refl t'
  have hcell : t'.call (t₀.cp + 1) = some (BitVec.ofNat 32 (t₀.ip + 2)) := by
    rw [h'.call _ (by rw [h.cp]; omega), h.ret]
  have htarget := hf.toNat hback
  have hinside : 4 * (BitVec.ofNat 32 (t₀.ip + 2)).toNat < F.base.codeSize := by
    rw [htarget]
    omega
  have hret := F.does fun q hq => does_ret (t := t₁) (hq.word hcode.right.opcode) hcell
    (hq.inside hinside) (Nat.le_add_left 1 t₀.cp)
  rw [htarget] at hret
  refine ⟨n + 1, _, F.machine.trans hepilog hret, rfl, rfl, ?_, ?_, ?_, Nat.add_sub_cancel .., ?_⟩
  · exact h'.sp.trans (by rw [h.sp])
  · intro i w hi
    have hpushed := h'.pushed i w hi
    rwa [h.sp] at hpushed
  · intro i hi
    exact (h'.below i (by rw [h.sp]; exact hi)).trans (h.below i hi)
  · intro i hi
    exact (h'.call i (by rw [h.cp]; omega)).trans (h.call i hi)

variable (hf : Framed F.base limit ft f)
include hf

/-- An expression within an activation. -/
theorem Expr.tracksIn {e : Expr} {base : ℕ}
    (hcalls : ∀ c ∈ e.calls, CallReady F limit f.maxCall k ft junk call c)
    (hcode : F.base.Holds base (e.emit ft junk f.name))
    (hlimit : base + words (e.emit ft junk f.name) ≤ limit) (h : Activation f t₀ base ρ t) :
    F.machine.Tracks F.excuse k (e.sem call ρ) t fun w t' =>
      Leaves f.maxCall (words (e.emit ft junk f.name)) [w] t t' := by
  rw [← h.ip] at hcode hlimit
  exact e.tracks hf.maxCall_lt hf.slots hcalls hcode hlimit h.vars

/-- A condition with its jump. -/
theorem Cond.tracks_jump {c : Cond} {sense : Bool} {base target : ℕ}
    (hcalls : ∀ d ∈ c.calls, CallReady F limit f.maxCall k ft junk call d)
    (hcode : F.base.Holds base
      (c.emit ft junk f.name (Guard.instr ⟨c, sense, base, target⟩) target))
    (hlimit : base + words (c.operands ft junk f.name) ≤ limit) (htarget : target ≤ limit)
    (h : Activation f t₀ base ρ t) :
    F.machine.Tracks F.excuse k (c.sem call ρ) t fun go t' =>
      ∃ t'', F.machine.runs 1 t' t'' ∧ t''.printed = t'.printed ∧ Activation f t₀
        (if go = sense then target else base + words (c.operands ft junk f.name) + 2) ρ t'' := by
  have hleft := hcode.left
  rw [← h.ip] at hleft hlimit
  refine (Cond.tracks hf.maxCall_lt hf.slots hcalls hleft hlimit h.vars).mono fun go t' ht' => ?_
  obtain ⟨a, b, hleaves, rfl⟩ := ht'
  have hip : t'.ip = base + words (c.operands ft junk f.name) := by rw [hleaves.ip, h.ip]
  have hright := hcode.right
  rw [← hip] at hright ⊢
  have hasArg : (instrInfo (Guard.instr ⟨c, sense, base, target⟩)).hasArg = true := by
    rw [Guard.instr]
    split
    · exact c.op.jmp_hasArg
    · exact c.op.neg_hasArg
  have hsegment := hf.segment
  have hbound := hf.word
  have hinside : 4 * target < F.base.codeSize := by omega
  have hword : target < 2 ^ 32 := by omega
  have hsp : 2 ≤ t'.sp := by
    rw [hleaves.sp]
    exact Nat.le_add_left 2 t.sp
  have hjump := F.does fun q hq => does_guard (g := ⟨c, sense, base, target⟩)
    (hq.word hright.opcode) (hq.word (hright.operand hasArg)) (hq.inside hinside) hword
    hleaves.operands hsp
  refine ⟨_, hjump, rfl, ?_⟩
  have hpop : Leaves f.maxCall (words (c.operands ft junk f.name) + 0) [] t
      { t' with sp := t'.sp - 1 - 1 } :=
    hleaves.pop rfl (by rw [hleaves.sp]; rfl) rfl rfl fun _ _ => rfl
  exact (h.leaves hpop).jump

theorem assign_tracks {x : String} {e : Expr} {base : ℕ} (hx : f.slots x ≠ none)
    (hcalls : ∀ c ∈ e.calls, CallReady F limit f.maxCall k ft junk call c)
    (hcode : F.base.Holds base (e.emit ft junk f.name ++ [elem .store (slot ft f.name x)]))
    (hlimit : base + words (e.emit ft junk f.name) ≤ limit) (h : Activation f t₀ base ρ t) :
    F.machine.Tracks F.excuse k (assign call x e ρ) t
      (Activation f t₀ (base + words (e.emit ft junk f.name) + 2)) := by
  refine (e.tracksIn hf hcalls hcode.left hlimit h).bind fun w t' ht' => ?_
  obtain ⟨s, hs⟩ := Option.ne_none_iff_exists'.mp hx
  obtain ⟨hslot, hsmall⟩ := hf.slots x s hs
  have hright := hcode.right
  rw [hslot, ← h.ip, ← ht'.ip] at hright
  have hdepth : depth (BitVec.ofNat 32 s) = s := depth_ofNat hsmall
  obtain ⟨-, -, hbound⟩ := f.slots_bounds hs
  have hargs := h.args
  have hcp : t'.cp = t₀.cp + 1 + f.frame := ht'.cp.trans h.cp
  have htop : t'.stack t'.sp = some w := by
    rw [ht'.sp]
    exact ht'.pushed 0 w rfl
  have hsp : t'.sp ≠ 0 := by
    rw [ht'.sp]
    exact Nat.succ_ne_zero _
  have hroom : depth (elem .store s).arg ≤ t'.cp := by
    rw [elem, hdepth, hcp]
    omega
  have hstep := F.does fun q hq =>
    does_store (hq.word hright.opcode) (hq.word (hright.operand rfl)) hroom htop hsp
  rw [elem, hdepth] at hstep
  exact .steps hstep rfl (.pure (h.store ht' hs))

theorem Simple.tracks {st : Simple} {base : ℕ} (hvars : f.Knows (st.vars ++ st.defs))
    (hcalls : ∀ c ∈ st.calls, CallReady F limit f.maxCall k ft junk call c)
    (hcode : F.base.Holds base (st.emit ft junk f.name))
    (hlimit : base + words (st.emit ft junk f.name) ≤ limit) (h : Activation f t₀ base ρ t) :
    F.machine.Tracks F.excuse k (st.sem call ρ) t
      (Activation f t₀ (base + words (st.emit ft junk f.name))) := by
  cases st with
  | varDef type x init =>
      cases init with
      | none => exact .pure h
      | some e =>
          rw [Simple.emit, words_append] at hlimit ⊢
          exact assign_tracks hf (hvars x (by simp [Simple.defs])) hcalls hcode (by omega) h
  | varAssign x e =>
      rw [Simple.emit, words_append] at hlimit ⊢
      exact assign_tracks hf (hvars x (by simp [Simple.vars])) hcalls hcode (by omega) h

/-- **A branch.**  The jump behind the condition leads to the second part. -/
theorem branch_tracks {c : Cond} {x y : Sem Flow} {base target : ℕ} {P : Flow → Flat → Prop}
    (hcalls : ∀ d ∈ c.calls, CallReady F limit f.maxCall k ft junk call d)
    (hcode : F.base.Holds base (c.emit ft junk f.name (negJmpInstr c.op.jmp) target))
    (hlimit : base + words (c.operands ft junk f.name) ≤ limit) (htarget : target ≤ limit)
    (hx : ∀ t', Activation f t₀ (base + words (c.operands ft junk f.name) + 2) ρ t' →
      F.machine.Tracks F.excuse k x t' P)
    (hy : ∀ t', Activation f t₀ target ρ t' → F.machine.Tracks F.excuse k y t' P)
    (h : Activation f t₀ base ρ t) :
    F.machine.Tracks F.excuse k (do if ← c.sem call ρ then x else y) t P := by
  have hguard : F.base.Holds base
      (c.emit ft junk f.name (Guard.instr ⟨c, false, base, target⟩) target) := hcode
  refine (Cond.tracks_jump hf hcalls hguard hlimit htarget h).bind fun go t₁ h₁ => ?_
  obtain ⟨t₂, hrun, hprinted, hgo⟩ := h₁
  refine .steps hrun hprinted ?_
  cases go with
  | true => exact hx t₂ hgo
  | false => exact hy t₂ hgo

/-- An unconditional jump within an activation. -/
theorem Activation.does_jmp {ip target : ℕ} {rest : List CodeElem} (h : Activation f t₀ ip ρ t)
    (hcode : F.base.Holds ip (elem .jmp target :: rest)) (htarget : target ≤ limit) :
    F.machine.runs 1 t { t with ip := target } := by
  rw [← h.ip] at hcode
  have hsegment := hf.segment
  have hnat := hf.toNat htarget
  have hinside : 4 * (elem .jmp target).arg.toNat < F.base.codeSize := by
    rw [elem, hnat]
    omega
  have hjump := F.does fun q hq => Flat.does_jmp (hq.word hcode.opcode)
    (hq.word (hcode.operand rfl)) (hq.inside hinside)
  rw [elem, hnat] at hjump
  exact hjump

/-- **A loop**, from its condition on.  The jump behind the condition leads back to the body. -/
theorem rounds_tracks {c : Cond} {body : Valuation → Sem Flow} {start check : ℕ}
    (hcalls : ∀ d ∈ c.calls, CallReady F limit f.maxCall k ft junk call d)
    (hcode : F.base.Holds check (c.emit ft junk f.name c.op.jmp start))
    (hlimit : check + words (c.operands ft junk f.name) + 2 ≤ limit) (hstart : start ≤ check)
    (hbody : ∀ ρ t, Activation f t₀ start ρ t →
      F.machine.Tracks F.excuse k (body ρ) t (Arrives f t₀ check))
    (h : Activation f t₀ check ρ t) :
    F.machine.Tracks F.excuse k (Eval.rounds (c.sem call) body k ρ) t
      (Arrives f t₀ (check + words (c.operands ft junk f.name) + 2)) := by
  refine Machine.Tracks.rounds (I := Activation f t₀ check) (J := Activation f t₀ start)
    (fun ρ t ht => ?_) (fun ρ t ht => ?_) le_rfl h
  · have hguard : F.base.Holds check
        (c.emit ft junk f.name (Guard.instr ⟨c, true, check, start⟩) start) := hcode
    refine (Cond.tracks_jump hf hcalls hguard (by omega) (by omega) ht).mono fun go t' ht' => ?_
    obtain ⟨t'', hrun, hprinted, hgo⟩ := ht'
    refine ⟨t'', hrun, hprinted, ?_⟩
    cases go with
    | true => exact hgo
    | false => exact hgo
  · refine (hbody ρ t ht).mono fun flow t' ht' => ?_
    cases flow with
    | inl ρ' => exact ht'
    | inr v => exact ht'

/-- **Statements.** -/
theorem Stmt.tracks (hback : t₀.ip + 2 ≤ limit) (st : Stmt) :
    ∀ {base : ℕ} {ρ : Valuation} {t : Flat}, f.Knows (st.vars ++ st.defs) →
    (∀ c ∈ st.calls, CallReady F limit f.maxCall k ft junk call c) →
    F.base.Holds base (st.emit ft junk f.name base) →
    base + words (st.emit ft junk f.name base) ≤ limit → Activation f t₀ base ρ t →
    F.machine.Tracks F.excuse k (st.sem call k ρ) t
      (Arrives f t₀ (base + words (st.emit ft junk f.name base))) := by
  induction st with
  | skip =>
      intro base ρ t _ _ _ _ h
      exact .pure h
  | seq st rest ih₁ ih₂ =>
      intro base ρ t hvars hcalls hcode hlimit h
      rw [Stmt.emit, words_append] at hlimit ⊢
      refine (ih₁ (hvars.mono ?_) (fun c hc => hcalls c (List.mem_append_left _ hc)) hcode.left
        (by omega) h).bind fun flow t' ht' => ?_
      · simp [Stmt.vars, Stmt.defs]
        tauto
      refine ht'.goOn (fun ρ' hρ' => ?_) fun v hv => hv
      rw [← Nat.add_assoc] at hlimit ⊢
      refine ih₂ (hvars.mono ?_) (fun c hc => hcalls c (List.mem_append_right _ hc)) hcode.right
        hlimit hρ'
      simp [Stmt.vars, Stmt.defs]
      tauto
  | simple st =>
      intro base ρ t hvars hcalls hcode hlimit h
      exact (Simple.tracks hf hvars hcalls hcode hlimit h).bind fun ρ' t' ht' => .pure ht'
  | call g args =>
      intro base ρ t hvars hcalls hcode hlimit h
      rw [Stmt.emit, words_append] at hlimit
      have hleft := hcode.left
      have hright := hcode.right
      rw [← h.ip] at hleft hright hlimit
      refine (args.tracks hf.maxCall_lt hf.slots (fun c hc => hcalls c (List.mem_append_left _ hc))
        hleft (by omega) h.vars).bind fun ws t₁ h₁ => ?_
      obtain ⟨h₁, hlen⟩ := h₁
      rw [← h₁.ip] at hright
      have hready := hcalls ⟨g, args.count, false⟩ (List.mem_append_right _ List.mem_cons_self)
      have hbound : t₁.ip + words (callCode ft junk g) ≤ limit := by
        rw [h₁.ip, Nat.add_assoc]
        exact hlimit
      refine (hready.tracks_callCode hf.maxCall_lt h₁ hlen h.vars.room hright hbound).bind
        fun v t₂ h₂ => ?_
      cases v with
      | some w => exact .undefined
      | none =>
          rw [Stmt.emit, words_append]
          exact .bind (P := fun _ => Activation f t₀ _ ρ) (.pure (h.leaves h₂)) fun _ _ h₃ =>
            .pure h₃
  | print e =>
      intro base ρ t hvars hcalls hcode hlimit h
      rw [Stmt.emit, words_append] at hlimit ⊢
      refine (e.tracksIn hf hcalls hcode.left (by omega) h).bind fun w t₁ h₁ => ?_
      have hright := hcode.right
      rw [← h.ip, ← h₁.ip] at hright
      have htop : t₁.stack t₁.sp = some w := by
        rw [h₁.sp]
        exact h₁.pushed 0 w rfl
      have hsp : t₁.sp ≠ 0 := by
        rw [h₁.sp]
        exact Nat.succ_ne_zero _
      have hstep := F.does fun q hq => does_print (hq.word hright.opcode) htop hsp
      have hpop : Leaves f.maxCall (words (e.emit ft junk f.name) + 1) [] t { t₁ with
          ip := t₁.ip + 1, sp := t₁.sp - 1, printed := t₁.printed ++ [w] } :=
        h₁.pop rfl (by rw [h₁.sp]; rfl) rfl rfl fun _ _ => rfl
      exact .bind (.print hstep rfl (h.leaves hpop)) fun _ t₂ h₂ => .pure h₂
  | ret e =>
      intro base ρ t hvars hcalls hcode hlimit h
      rw [Stmt.emit, List.append_assoc] at hcode hlimit
      cases e with
      | none =>
          rw [← h.ip] at hcode
          obtain ⟨n, t', hrun, hprinted, hleaves⟩ :=
            h.returns (.refl f.maxCall t) hf hback hcode
          exact .steps hrun hprinted (.pure hleaves)
      | some e =>
          rw [words_append, exprEmit?] at hlimit
          refine (e.tracksIn hf hcalls hcode.left (by omega) h).bind fun w t₁ h₁ => ?_
          have hright := hcode.right
          rw [exprEmit?, ← h.ip, ← h₁.ip] at hright
          obtain ⟨n, t', hrun, hprinted, hleaves⟩ := h.returns h₁ hf hback hright
          exact .steps hrun hprinted (.pure hleaves)
  | ifThen c st ih =>
      intro base ρ t hvars hcalls hcode hlimit h
      simp only [Stmt.emit] at hcode hlimit ⊢
      have hright := hcode.right
      simp only [words_append, Cond.words_neg, ← Nat.add_assoc] at hright hlimit ⊢
      refine branch_tracks hf (fun d hd => hcalls d (List.mem_append_left _ hd)) hcode.left
        (by omega) hlimit (fun t' ht' => ?_) (fun t' ht' => .pure ht') h
      refine ih (hvars.mono ?_) (fun d hd => hcalls d (List.mem_append_right _ hd)) hright hlimit
        ht'
      simp [Stmt.vars, Stmt.defs]
      tauto
  | ifElse c s₁ s₂ ih₁ ih₂ =>
      intro base ρ t hvars hcalls hcode hlimit h
      simp only [Stmt.emit] at hcode hlimit ⊢
      have hfirst := hcode.left.right
      have hright := hcode.right
      simp only [words_append, words_cons, Cond.words_neg, jmp_width, ← Nat.add_assoc]
        at hfirst hright hlimit ⊢
      refine branch_tracks hf
        (fun d hd => hcalls d (List.mem_append_left _ (List.mem_append_left _ hd)))
        hcode.left.left (by omega) (by omega) (fun t' ht' => ?_) (fun t' ht' => ?_) h
      · -- the jump behind the first part leads to the end
        refine (ih₁ (hvars.mono ?_)
          (fun d hd => hcalls d (List.mem_append_left _ (List.mem_append_right _ hd)))
          hfirst (by omega) ht').extend fun flow t₁ h₁ => ?_
        · simp [Stmt.vars, Stmt.defs]
          tauto
        cases flow with
        | inl ρ' => exact ⟨1, _, Activation.does_jmp hf h₁ hright hlimit, rfl, h₁.jump⟩
        | inr v => exact ⟨0, t₁, F.machine.refl t₁, rfl, h₁⟩
      · refine ih₂ (hvars.mono ?_) (fun d hd => hcalls d (List.mem_append_right _ hd)) hright.tail
          hlimit ht'
        simp [Stmt.vars, Stmt.defs]
        tauto
  | whileLoop c body ih =>
      intro base ρ t hvars hcalls hcode hlimit h
      simp only [Stmt.emit] at hcode hlimit ⊢
      have hbody := hcode.left.tail
      have hcond := hcode.right
      simp only [words_append, words_cons, Cond.words_jmp, jmp_width, ← Nat.add_assoc]
        at hbody hcond hlimit ⊢
      refine .steps (Activation.does_jmp hf h hcode.left (by omega)) rfl ?_
      refine rounds_tracks hf (fun d hd => hcalls d (List.mem_append_left _ hd)) hcond hlimit
        (by omega) (fun ρ' t' ht' => ?_) h.jump
      refine ih (hvars.mono ?_) (fun d hd => hcalls d (List.mem_append_right _ hd)) hbody (by omega)
        ht'
      simp [Stmt.vars, Stmt.defs]
      tauto
  | forLoop init c x e body ih =>
      intro base ρ t hvars hcalls hcode hlimit h
      simp only [Stmt.emit] at hcode hlimit ⊢
      have hjmp := hcode.left.right
      have hbody := hjmp.tail.left
      have hupdate := hjmp.tail.right
      have hcond := hcode.right
      simp only [words_append, words_cons, Cond.words_jmp, jmp_width, ← Nat.add_assoc]
        at hjmp hbody hupdate hcond hlimit ⊢
      simp only [Stmt.vars, Stmt.defs] at hvars
      simp only [Stmt.calls, List.mem_append] at hcalls
      refine (Simple.tracks hf (hvars.mono ?_) (fun d hd => hcalls d (by tauto))
        hcode.left.left (by omega) h).bind fun ρ₁ t₁ h₁ => ?_
      · simp
        tauto
      refine .steps (Activation.does_jmp hf h₁ hjmp (by omega)) rfl ?_
      refine rounds_tracks hf (fun d hd => hcalls d (by tauto)) hcond hlimit (by omega)
        (fun ρ' t' ht' => ?_) h₁.jump
      refine (ih (hvars.mono ?_) (fun d hd => hcalls d (by tauto)) hbody (by omega) ht').bind
        fun flow t₂ h₂ => ?_
      · simp
        tauto
      refine h₂.goOn (fun ρ₂ hρ₂ => ?_) fun v hv => hv
      refine (Simple.tracks hf (hvars.mono ?_) (fun d hd => hcalls d ?_) hupdate
        (by omega) hρ₂).bind fun ρ₃ t₃ h₃ => .pure h₃
      · simp [Simple.vars, Simple.defs]
        tauto
      · simp only [Simple.calls] at hd
        tauto
  | doLoop body c ih =>
      intro base ρ t hvars hcalls hcode hlimit h
      simp only [Stmt.emit] at hcode hlimit ⊢
      have hcond := hcode.right
      simp only [words_append, Cond.words_jmp, ← Nat.add_assoc] at hlimit ⊢
      have hbody (ρ : Valuation) (t : Flat) (ht : Activation f t₀ base ρ t) :=
        ih (hvars.mono (by simp [Stmt.vars, Stmt.defs]; tauto))
          (fun d hd => hcalls d (List.mem_append_left _ hd)) hcode.left (by omega) ht
      refine (hbody ρ t h).bind fun flow t₁ h₁ => ?_
      refine h₁.goOn (fun ρ₁ hρ₁ => ?_) fun v hv => hv
      exact rounds_tracks hf (fun d hd => hcalls d (List.mem_append_right _ hd)) hcond hlimit
        (Nat.le_add_right _ _) hbody hρ₁

end Statements

end Bispe
