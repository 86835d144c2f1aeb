import Bispe.Compiler.Calls
import Bispe.Compiler.Linking
import Bispe.Compiler.Moves
import Bispe.Compiler.Written
import Bispe.Lib.Regions

/-!
# Control stays in a function

The generator closes a function with a `RET` unless the last instruction it has appended
is one.  Whether control can come to the word behind the function is then a matter of the
jumps that lead there: those of a branch at the end of the body.  It is read off the
syntax here, and is the same as reachability in the code.

## Main definitions

* `Leads` — the places of the code that control comes to from another one.
* `Stmt.falls` — control can come to the end of a statement.
* `Func.Confined` — control cannot come to the end of a function.
* `Func.HasCode` — a function has an instruction.
* `control_stays` — the functions of a program keep control exactly when they are confined.
* `confined_keeps_control` — what a run of a confined function keeps.
-/

namespace Bispe

open Effect Flat Regions

/-! ## Places -/

/-- The instruction at the word `i`, in code that starts at the word `base`. -/
def InstrAt (base : ℕ) (code : List CodeElem) (i : ℕ) (e : CodeElem) : Prop :=
  ∃ l r, code = l ++ e :: r ∧ i = base + words l

/-- The word `i` is the start of an instruction. -/
def Starts (base : ℕ) (code : List CodeElem) (i : ℕ) : Prop := ∃ e, InstrAt base code i e

/-- An instruction of the code leads from `i` to `j`. -/
def Edge (base : ℕ) (code : List CodeElem) (i j : ℕ) : Prop :=
  ∃ e, InstrAt base code i e ∧ e.Goes i j

/-- Instructions of the code lead from `i` to `j`. -/
def Leads (base : ℕ) (code : List CodeElem) : ℕ → ℕ → Prop :=
  Relation.ReflTransGen (Edge base code)

/-- The list `l` is in the code, at the word `b`. -/
def LiesAt (base : ℕ) (code : List CodeElem) (b : ℕ) (l : List CodeElem) : Prop :=
  ∃ pre post, code = pre ++ l ++ post ∧ b = base + words pre

theorem CodeElem.width_pos (e : CodeElem) : 0 < e.width := by
  rw [CodeElem.width]
  split <;> omega

theorem append_words_inj {l l' r r' : List CodeElem} (h : l ++ r = l' ++ r')
    (hwords : words l = words l') : l = l' := by
  rcases List.append_eq_append_iff.mp h with ⟨m, rfl, -⟩ | ⟨m, rfl, -⟩ <;>
    cases m with
    | nil => simp
    | cons e m =>
        have hpos := e.width_pos
        rw [words_append, words_cons] at hwords
        omega

section Places
variable {base b i j : ℕ} {code l r : List CodeElem} {e e' : CodeElem}

theorem InstrAt.unique (h : InstrAt base code i e) (h' : InstrAt base code i e') : e = e' := by
  obtain ⟨l, r, rfl, rfl⟩ := h
  obtain ⟨l', r', hcode, hwords⟩ := h'
  obtain rfl := append_words_inj hcode (by omega)
  exact (List.cons.inj (List.append_cancel_left hcode)).1

namespace LiesAt

theorem left (h : LiesAt base code b (l ++ r)) : LiesAt base code b l := by
  obtain ⟨pre, post, rfl, rfl⟩ := h
  exact ⟨pre, r ++ post, by simp, rfl⟩

theorem right (h : LiesAt base code b (l ++ r)) : LiesAt base code (b + words l) r := by
  obtain ⟨pre, post, rfl, rfl⟩ := h
  exact ⟨pre ++ l, post, by simp, by simp [Nat.add_assoc]⟩

theorem head (h : LiesAt base code b (e :: l)) : InstrAt base code b e := by
  obtain ⟨pre, post, rfl, rfl⟩ := h
  exact ⟨pre, l ++ post, by simp, rfl⟩

theorem tail (h : LiesAt base code b (e :: l)) : LiesAt base code (b + e.width) l := by
  simpa using right (l := [e]) h

theorem starts (h : LiesAt base code b (e :: l)) : Starts base code b := ⟨e, h.head⟩

/-- The edges from an instruction. -/
theorem edge_iff (h : LiesAt base code b (e :: l)) : Edge base code b j ↔ e.Goes b j := by
  constructor
  · rintro ⟨e', hat, hgoes⟩
    rwa [h.head.unique hat]
  · exact fun hgoes => ⟨e, h.head, hgoes⟩

end LiesAt
end Places

/-! ## Straight code -/

/-- Control goes through the list from its start to its end. -/
def Passes (l : List CodeElem) : Prop := ∀ e ∈ l, e.instr.passes = true

theorem InstrType.passes_not_jump {instr : InstrType} (h : instr.passes = true) :
    instr.isJump = false := by
  simp only [InstrType.passes, Bool.and_eq_true, Bool.not_eq_true'] at h
  exact h.1.1

/-- An instruction that is passed leads behind itself. -/
theorem CodeElem.goes_passes {e : CodeElem} (h : e.instr.passes = true) {i j : ℕ} :
    e.Goes i j ↔ j = i + e.width := by
  constructor
  · rintro (_ | hjump)
    · rfl
    · rw [InstrType.passes_not_jump h] at hjump
      cases hjump
  · rintro rfl
    exact .next (.inl h)

namespace Passes

variable {base b : ℕ} {code l r : List CodeElem}

theorem nil : Passes [] := by simp [Passes]

theorem append (hl : Passes l) (hr : Passes r) : Passes (l ++ r) := by
  intro e he
  rcases List.mem_append.mp he with he | he
  · exact hl e he
  · exact hr e he

theorem single {e : CodeElem} (h : e.instr.passes = true) : Passes [e] := by
  intro x hx
  rwa [List.mem_singleton.mp hx]

theorem confines (h : Passes l) (hat : LiesAt base code b l) :
    Confines (Edge base code) (Starts base code) b {b + words l} := by
  induction l generalizing b with
  | nil => exact .exit rfl
  | cons e l ih =>
      refine .step hat.starts fun j hj => ?_
      rw [hat.edge_iff, CodeElem.goes_passes (h e List.mem_cons_self)] at hj
      subst hj
      have hrest := ih (fun x hx => h x (List.mem_cons_of_mem _ hx)) hat.tail
      rwa [Nat.add_assoc, ← words_cons] at hrest

theorem leads (h : Passes l) (hat : LiesAt base code b l) : Leads base code b (b + words l) := by
  induction l generalizing b with
  | nil => exact .refl
  | cons e l ih =>
      have hedge : Edge base code b (b + e.width) :=
        hat.edge_iff.mpr ((CodeElem.goes_passes (h e List.mem_cons_self)).mpr rfl)
      have hrest := ih (fun x hx => h x (List.mem_cons_of_mem _ hx)) hat.tail
      rw [Nat.add_assoc, ← words_cons] at hrest
      exact .head hedge hrest

/-- Straight code with an instruction behind it. -/
theorem region (h : Passes l) {e : CodeElem} {Y : Set ℕ} (hat : LiesAt base code b (l ++ [e]))
    (hY : ∀ j, e.Goes (b + words l) j → j ∈ Y) :
    ∃ S, b ∈ S ∧ Region (Edge base code) (Starts base code) S Y := by
  have hlast : Confines (Edge base code) (Starts base code) (b + words l) Y := by
    refine .step hat.right.starts fun j hj => .exit (hY j ?_)
    rwa [hat.right.edge_iff] at hj
  cases l with
  | nil =>
      have hat : LiesAt base code b [e] := hat
      exact Confines.begin hat.starts fun j hj => .exit (hY j (hat.edge_iff.mp hj))
  | cons a l =>
      refine Confines.begin hat.starts fun j hj => ?_
      rw [hat.left.edge_iff, CodeElem.goes_passes (h a List.mem_cons_self)] at hj
      subst hj
      have hrest := confines (fun x hx => h x (List.mem_cons_of_mem _ hx)) hat.left.tail
      refine hrest.bind fun j hj => ?_
      rwa [Set.mem_singleton_iff.mp hj, Nat.add_assoc, ← words_cons]

end Passes

section Jumping
variable {i j target : ℕ} {instr : InstrType}

/-- A conditional jump leads to its target and behind itself. -/
theorem goes_cond (h : instr.isCondJump = true) (htarget : target < 2 ^ 32) :
    (elem instr target).Goes i j ↔ j = target ∨ j = i + 2 := by
  have hnat : (elem instr target).arg.toNat = target := by
    rw [elem, BitVec.toNat_ofNat, Nat.mod_eq_of_lt htarget]
  have hjump : instr.isJump = true := by simp [InstrType.isJump, h]
  have hwidth : (elem instr target).width = 2 := by
    rw [CodeElem.width, elem, InstrType.isJump_hasArg hjump]
    rfl
  have hgoes : (elem instr target).Goes i (elem instr target).arg.toNat := .jump hjump
  rw [hnat] at hgoes
  have hnext : (elem instr target).Goes i (i + (elem instr target).width) := .next (.inr h)
  rw [hwidth] at hnext
  constructor
  · rintro (_ | _)
    · exact .inr (by rw [hwidth])
    · exact .inl hnat
  · rintro (rfl | rfl)
    · exact hgoes
    · exact hnext

/-- A jump without a condition leads to its target only. -/
theorem goes_jmp (htarget : target < 2 ^ 32) : (elem .jmp target).Goes i j ↔ j = target := by
  have hnat : (elem .jmp target).arg.toNat = target := by
    rw [elem, BitVec.toNat_ofNat, Nat.mod_eq_of_lt htarget]
  have hgoes : (elem .jmp target).Goes i (elem .jmp target).arg.toNat := .jump rfl
  rw [hnat] at hgoes
  constructor
  · rintro (h | _)
    · simp [elem, InstrType.passes, InstrType.isCondJump, InstrType.isJump] at h
    · exact hnat
  · rintro rfl
    exact hgoes

theorem not_goes_ret : ¬ (elem .ret 0).Goes i j := by
  rintro (h | h)
  · simp [elem, InstrType.passes, InstrType.isCondJump] at h
  · simp [elem, InstrType.isJump, InstrType.isCondJump] at h

end Jumping

/-! ## Phrases -/

section Emission
variable (t : FuncTable) (junk : Junk) (name : String)

theorem callCode_passes (g : String) : Passes (callCode t junk g) := by
  have hstores (n : ℕ) : Passes (storeCode n) := by
    induction n with
    | zero => exact .nil
    | succ n ih => exact Passes.append (.single rfl) ih
  exact (hstores _).append (.single rfl)

mutual

theorem Expr.emit_passes : ∀ e : Expr, Passes (e.emit t junk name)
  | .unary u => u.emit_passes
  | .bin u op e => by
      refine (u.emit_passes.append e.emit_passes).append (.single ?_)
      cases op <;> rfl

theorem Unary.emit_passes : ∀ u : Unary, Passes (u.emit t junk name)
  | .call g args => args.emit_passes.append (callCode_passes t junk g)
  | .var _ => .single rfl
  | .lit _ => .single rfl
  | .paren e => e.emit_passes

theorem Args.emit_passes : ∀ args : Args, Passes (args.emit t junk name)
  | .empty => .nil
  | .last e => e.emit_passes
  | .cons e args => e.emit_passes.append args.emit_passes

end

theorem Cond.operands_passes (c : Cond) : Passes (c.operands t junk name) :=
  (c.left.emit_passes t junk name).append (c.right.emit_passes t junk name)

theorem Simple.emit_passes (s : Simple) : Passes (s.emit t junk name) := by
  cases s with
  | varDef _ _ init =>
      cases init with
      | none => exact .nil
      | some e => exact (e.emit_passes t junk name).append (.single rfl)
  | varAssign _ e => exact (e.emit_passes t junk name).append (.single rfl)

theorem epilogCode_passes : Passes (epilogCode t name) := by
  rw [epilogCode]
  split
  · exact .single rfl
  · exact .nil

theorem prologCode_passes : Passes (prologCode t name) := by
  rw [prologCode]
  split
  · exact .single rfl
  · exact .nil

/-- What a `return` does before the `RET`. -/
theorem return_passes (e : Option Expr) :
    Passes (exprEmit? t junk name e ++ epilogCode t name) := by
  cases e with
  | none => exact Passes.nil.append (epilogCode_passes t name)
  | some e => exact (e.emit_passes t junk name).append (epilogCode_passes t name)

end Emission

/-! ## Statements -/

/-- Control can come to the end of a statement, if every condition can be true and false. -/
def Stmt.falls : Stmt → Bool
  | .ret _ => false
  | .seq s rest => s.falls && rest.falls
  | .ifElse _ s₁ s₂ => s₁.falls || s₂.falls
  | .doLoop body _ => body.falls
  | _ => true

/-- The end of a statement, if control can come to it. -/
def Stmt.end (s : Stmt) (n : ℕ) : Set ℕ := {j | j = n ∧ s.falls = true}

section Statements
variable {t : FuncTable} {junk : Junk} {name : String} {base b : ℕ} {code : List CodeElem}

theorem LiesAt.le {l : List CodeElem} (h : LiesAt base code b l) :
    b + words l ≤ base + words code := by
  obtain ⟨pre, post, rfl, rfl⟩ := h
  simp only [words_append]
  omega

theorem LiesAt.lt {l : List CodeElem} (h : LiesAt base code b l)
    (hsize : base + words code < 2 ^ 32) : b + words l < 2 ^ 32 :=
  h.le.trans_lt hsize

/-- A condition with its jump. -/
theorem Cond.region {c : Cond} {instr : InstrType} {target : ℕ} (hinstr : instr.isCondJump = true)
    (htarget : target < 2 ^ 32) (hat : LiesAt base code b (c.emit t junk name instr target)) :
    ∃ S, b ∈ S ∧ Region (Edge base code) (Starts base code) S
      {target, b + words (c.operands t junk name) + 2} := by
  refine (c.operands_passes t junk name).region hat fun j hj => ?_
  rwa [goes_cond hinstr htarget] at hj

theorem BoolOp.isCondJump (op : BoolOp) :
    op.jmp.isCondJump = true ∧ (negJmpInstr op.jmp).isCondJump = true := by
  cases op <;> exact ⟨rfl, rfl⟩

/-- A jump without a condition. -/
theorem jmp_confines {target : ℕ} {l : List CodeElem} {Y : Set ℕ} (htarget : target < 2 ^ 32)
    (hat : LiesAt base code b (elem .jmp target :: l))
    (h : Confines (Edge base code) (Starts base code) target Y) :
    Confines (Edge base code) (Starts base code) b Y := by
  refine .step hat.starts fun j hj => ?_
  rw [hat.edge_iff, goes_jmp htarget] at hj
  rwa [hj]

/-- **Control stays in a statement** until it comes to its end. -/
theorem Stmt.confines (hsize : base + words code < 2 ^ 32) (st : Stmt) : ∀ {b : ℕ},
    LiesAt base code b (st.emit t junk name b) →
      Confines (Edge base code) (Starts base code) b
        (st.end (b + words (st.emit t junk name b))) := by
  induction st with
  | skip =>
      intro b _
      exact .exit ⟨rfl, rfl⟩
  | seq st rest ih₁ ih₂ =>
      intro b hat
      rw [Stmt.emit] at hat ⊢
      refine (ih₁ hat.left).bind fun j hj => ?_
      rw [hj.1, words_append, ← Nat.add_assoc]
      refine (ih₂ hat.right).mono fun k hk => ⟨hk.1, ?_⟩
      rw [Stmt.falls, hj.2, hk.2]
      rfl
  | simple st =>
      intro b hat
      exact ((st.emit_passes t junk name).confines hat).mono fun j hj => ⟨hj, rfl⟩
  | call g args =>
      intro b hat
      have hpasses := (args.emit_passes t junk name).append (callCode_passes t junk g)
      exact (hpasses.confines hat).mono fun j hj => ⟨hj, rfl⟩
  | print e =>
      intro b hat
      have hpasses := (e.emit_passes t junk name).append (.single (e := elem .print 0) rfl)
      exact (hpasses.confines hat).mono fun j hj => ⟨hj, rfl⟩
  | ret e =>
      intro b hat
      obtain ⟨S, hb, hS⟩ := (return_passes t junk name e).region (Y := ∅) hat
        fun j hj => (not_goes_ret hj).elim
      exact ⟨S, .inl hb, hS.mono (Set.empty_subset _)⟩
  | ifThen c st ih =>
      intro b hat
      simp only [Stmt.emit] at hat ⊢
      have hlt := hat.right.lt hsize
      simp only [Cond.words_neg, ← Nat.add_assoc] at hlt
      obtain ⟨S, hb, hS⟩ := Cond.region c.op.isCondJump.2 hlt hat.left
      have hcond : Confines (Edge base code) (Starts base code) b _ := ⟨S, .inl hb, hS⟩
      have hright := hat.right
      simp only [words_append, Cond.words_neg, ← Nat.add_assoc] at hright ⊢
      refine hcond.bind fun j hj => ?_
      rcases hj with rfl | hj
      · exact .exit ⟨rfl, rfl⟩
      · rw [Set.mem_singleton_iff.mp hj]
        exact (ih hright).mono fun k hk => ⟨hk.1, rfl⟩
  | ifElse c s₁ s₂ ih₁ ih₂ =>
      intro b hat
      simp only [Stmt.emit] at hat ⊢
      have hmiddle := hat.right.tail
      have hlt := hmiddle.lt hsize
      have hcond := hat.left.left
      have hthen := hat.left.right
      have hjmp := hat.right
      simp only [words_append, words_cons, Cond.words_neg, jmp_width, ← Nat.add_assoc] at *
      obtain ⟨S, hb, hS⟩ := Cond.region c.op.isCondJump.2 (by omega) hcond
      have hcond : Confines (Edge base code) (Starts base code) b _ := ⟨S, .inl hb, hS⟩
      refine hcond.bind fun j hj => ?_
      rcases hj with rfl | hj
      · refine (ih₂ hmiddle).mono fun k hk => ⟨hk.1, ?_⟩
        rw [Stmt.falls, hk.2, Bool.or_true]
      · rw [Set.mem_singleton_iff.mp hj]
        refine (ih₁ hthen).bind fun k hk => ?_
        rw [hk.1]
        refine jmp_confines hlt hjmp (.exit ⟨rfl, ?_⟩)
        rw [Stmt.falls, hk.2, Bool.true_or]
  | whileLoop c body ih =>
      intro b hat
      simp only [Stmt.emit, List.cons_append] at hat ⊢
      have hlt := hat.lt hsize
      have hbody := hat.tail.left
      have hcond := hat.tail.right
      simp only [words_append, words_cons, Cond.words_jmp, jmp_width, ← Nat.add_assoc] at *
      refine jmp_confines (by omega) hat ?_
      have hstays := (ih hbody).mono (Y := {b + 2 + words (body.emit t junk name (b + 2))})
        fun k hk => hk.1
      refine (hstays.loop ?_).2
      obtain ⟨S, hb, hS⟩ := Cond.region c.op.isCondJump.1 (by omega) hcond
      exact ⟨S, hb, hS.mono (Set.insert_subset_insert fun k hk => ⟨hk, rfl⟩)⟩
  | forLoop init c x e body ih =>
      intro b hat
      simp only [Stmt.emit] at hat ⊢
      have hlt := hat.lt hsize
      have hinit := hat.left.left
      have hjmp := hat.left.right
      have hbody := hat.left.right.tail.left
      have hupdate := hat.left.right.tail.right
      have hcond := hat.right
      simp only [words_append, words_cons, Cond.words_jmp, jmp_width, ← Nat.add_assoc] at *
      refine ((init.emit_passes t junk name).confines hinit).bind fun j hj => ?_
      rw [Set.mem_singleton_iff.mp hj]
      refine jmp_confines (by omega) hjmp ?_
      have hupdates := (Simple.emit_passes t junk name (.varAssign x e)).confines hupdate
      have hround := (ih hbody).bind (Y := {b + words (init.emit t junk name) + 2 +
          words (body.emit t junk name (b + words (init.emit t junk name) + 2)) +
          words ((Simple.varAssign x e).emit t junk name)}) fun k hk => by rwa [hk.1]
      refine (hround.loop ?_).2
      obtain ⟨S, hb, hS⟩ := Cond.region c.op.isCondJump.1 (by omega) hcond
      exact ⟨S, hb, hS.mono (Set.insert_subset_insert fun k hk => ⟨hk, rfl⟩)⟩
  | doLoop body c ih =>
      intro b hat
      simp only [Stmt.emit] at hat ⊢
      have hlt := hat.lt hsize
      have hcond := hat.right
      have hbody := ih hat.left
      simp only [words_append, Cond.words_jmp, ← Nat.add_assoc] at *
      by_cases hfalls : body.falls = true
      · have hstays := hbody.mono (Y := {b + words (body.emit t junk name b)}) fun k hk => hk.1
        refine (hstays.loop ?_).1
        obtain ⟨S, hb, hS⟩ := Cond.region c.op.isCondJump.1 (by omega) hcond
        exact ⟨S, hb, hS.mono (Set.insert_subset_insert fun k hk => ⟨hk, hfalls⟩)⟩
      · exact hbody.mono fun k hk => absurd hk.2 hfalls

theorem Leads.trans {i j k : ℕ} (h : Leads base code i j) (h' : Leads base code j k) :
    Leads base code i k :=
  Relation.ReflTransGen.trans h h'

/-- From a condition to its target and behind its jump. -/
theorem Cond.leads {c : Cond} {instr : InstrType} {target : ℕ} (hinstr : instr.isCondJump = true)
    (htarget : target < 2 ^ 32) (hat : LiesAt base code b (c.emit t junk name instr target)) :
    Leads base code b target ∧ Leads base code b (b + words (c.operands t junk name) + 2) := by
  have hpasses := (c.operands_passes t junk name).leads hat.left
  have hedge (j : ℕ) := (hat.right.edge_iff (j := j)).trans (goes_cond hinstr htarget)
  exact ⟨hpasses.tail ((hedge _).mpr (.inl rfl)), hpasses.tail ((hedge _).mpr (.inr rfl))⟩

theorem jmp_leads {target : ℕ} {l : List CodeElem} (htarget : target < 2 ^ 32)
    (hat : LiesAt base code b (elem .jmp target :: l)) : Leads base code b target :=
  .single (hat.edge_iff.mpr ((goes_jmp htarget).mpr rfl))

/-- **Control comes to the end** of a statement that falls through. -/
theorem Stmt.leads (hsize : base + words code < 2 ^ 32) (st : Stmt) : ∀ {b : ℕ},
    LiesAt base code b (st.emit t junk name b) → st.falls = true →
      Leads base code b (b + words (st.emit t junk name b)) := by
  induction st with
  | skip =>
      intro b _ _
      exact .refl
  | seq st rest ih₁ ih₂ =>
      intro b hat hfalls
      rw [Stmt.falls, Bool.and_eq_true] at hfalls
      rw [Stmt.emit] at hat ⊢
      rw [words_append, ← Nat.add_assoc]
      exact (ih₁ hat.left hfalls.1).trans (ih₂ hat.right hfalls.2)
  | simple st =>
      intro b hat _
      exact (st.emit_passes t junk name).leads hat
  | call g args =>
      intro b hat _
      exact ((args.emit_passes t junk name).append (callCode_passes t junk g)).leads hat
  | print e =>
      intro b hat _
      exact ((e.emit_passes t junk name).append (.single (e := elem .print 0) rfl)).leads hat
  | ret e =>
      intro b _ hfalls
      cases hfalls
  | ifThen c st ih =>
      intro b hat _
      simp only [Stmt.emit] at hat ⊢
      have hlt := hat.right.lt hsize
      simp only [Cond.words_neg, ← Nat.add_assoc] at hlt
      have hcond := (Cond.leads c.op.isCondJump.2 hlt hat.left).1
      simpa only [words_append, Cond.words_neg, ← Nat.add_assoc] using hcond
  | ifElse c s₁ s₂ ih₁ ih₂ =>
      intro b hat hfalls
      simp only [Stmt.emit] at hat ⊢
      have hmiddle := hat.right.tail
      have hlt := hmiddle.lt hsize
      have hcond := hat.left.left
      have hthen := hat.left.right
      have hjmp := hat.right
      simp only [words_append, words_cons, Cond.words_neg, jmp_width, ← Nat.add_assoc] at *
      have hboth := Cond.leads c.op.isCondJump.2 (by omega) hcond
      rw [Stmt.falls, Bool.or_eq_true] at hfalls
      rcases hfalls with hfalls | hfalls
      · exact (hboth.2.trans (ih₁ hthen hfalls)).trans (jmp_leads hlt hjmp)
      · exact hboth.1.trans (ih₂ hmiddle hfalls)
  | whileLoop c body ih =>
      intro b hat _
      simp only [Stmt.emit, List.cons_append] at hat ⊢
      have hlt := hat.lt hsize
      have hcond := hat.tail.right
      simp only [words_append, words_cons, Cond.words_jmp, jmp_width, ← Nat.add_assoc] at *
      exact (jmp_leads (by omega) hat).trans (Cond.leads c.op.isCondJump.1 (by omega) hcond).2
  | forLoop init c x e body ih =>
      intro b hat _
      simp only [Stmt.emit] at hat ⊢
      have hlt := hat.lt hsize
      have hinit := (init.emit_passes t junk name).leads hat.left.left
      have hjmp := hat.left.right
      have hcond := hat.right
      simp only [words_append, words_cons, Cond.words_jmp, jmp_width, ← Nat.add_assoc] at *
      exact (hinit.trans (jmp_leads (by omega) hjmp)).trans
        (Cond.leads c.op.isCondJump.1 (by omega) hcond).2
  | doLoop body c ih =>
      intro b hat hfalls
      simp only [Stmt.emit] at hat ⊢
      have hlt := hat.lt hsize
      have hcond := hat.right
      have hbody := ih hat.left hfalls
      simp only [words_append, Cond.words_jmp, ← Nat.add_assoc] at *
      exact hbody.trans (Cond.leads c.op.isCondJump.1 (by omega) hcond).2

end Statements

/-! ## Functions -/

/-- Control cannot come to the end of a function: that of its body is not reached, or the
code of the body does not end in a `RET`, so that one is appended.  Where the code of a
body is empty, the last instruction is that of the function before. -/
def Func.Confined (first : Bool) (f : Func) : Prop :=
  f.body.falls = false ∨ f.body.lastRet = some false ∨
    (f.body.lastRet = none ∧ (first = true ∨ 0 < f.frame))

instance (first : Bool) (f : Func) : Decidable (f.Confined first) := by
  unfold Func.Confined
  infer_instance

/-- The function `f` has an instruction, behind the functions of `pre`. -/
def Func.HasCode (pre : List Item) (f : Func) : Prop :=
  f.body.lastRet ≠ none ∨ defined pre = [] ∨ 0 < f.frame

section Functions
variable {t : FuncTable} {junk : Junk}

theorem endsInRet_prolog (before : Bool) (name : String) :
    endsInRet before (prologCode t name) = (before && decide (frameSize t name = 0)) := by
  rw [prologCode]
  by_cases h : 0 < frameSize t name
  · have hne : frameSize t name ≠ 0 := by omega
    rw [if_pos h, decide_eq_false hne, Bool.and_false]
    rfl
  · have heq : frameSize t name = 0 := by omega
    rw [if_neg h, decide_eq_true heq, Bool.and_true]
    rfl

theorem endsInRet_ne_nil {l : List CodeElem} (h : l ≠ []) (before before' : Bool) :
    endsInRet before l = endsInRet before' l := by
  rw [endsInRet, endsInRet, List.getLast?_eq_getLast_of_ne_nil h]

/-- **The statements without code** are those without a last instruction. -/
theorem Stmt.emit_eq_nil_iff {name : String} (st : Stmt) (base : ℕ) :
    st.emit t junk name base = [] ↔ st.lastRet = none := by
  have hends (before : Bool) := @Stmt.endsInRet_emit t junk name st before base
  constructor
  · intro h
    rw [h] at hends
    cases hlast : st.lastRet with
    | none => rfl
    | some b =>
        have hfalse := hends (!b)
        rw [hlast] at hfalse
        cases b <;> cases hfalse
  · intro h
    by_contra hne
    rw [h] at hends
    have hsame := endsInRet_ne_nil hne true false
    rw [hends, hends] at hsame
    cases hsame

/-- **The functions without code**: those without a frame that have no instruction in their
body and are not the first. -/
theorem Func.emit_eq_nil_iff {f : Func} {before : Bool} (base : ℕ)
    (hframe : frameSize t f.name = f.frame) :
    f.emit t junk before base = [] ↔
      f.body.lastRet = none ∧ before = true ∧ f.frame = 0 := by
  let prolog := prologCode t f.name
  let body := f.body.emit t junk f.name (base + words prolog)
  have hends : endsInRet before (prolog ++ body) =
      f.body.lastRet.getD (before && decide (f.frame = 0)) := by
    rw [← endsInRet_append, Stmt.endsInRet_emit, endsInRet_prolog, hframe]
  have hemit : f.emit t junk before base = if endsInRet before (prolog ++ body) then prolog ++ body
      else prolog ++ body ++ epilogCode t f.name ++ [elem .ret 0] := rfl
  have hprolog : prolog = [] ↔ f.frame = 0 := by
    simp only [prolog, prologCode, hframe]
    split <;> simp <;> omega
  have hbody : body = [] ↔ f.body.lastRet = none := f.body.emit_eq_nil_iff _
  rw [hemit]
  constructor
  · intro h
    split at h
    · next hret =>
      obtain ⟨hl, hr⟩ := List.append_eq_nil_iff.mp h
      have hlast := hbody.mp hr
      rw [hends, hlast, Option.getD_none, Bool.and_eq_true] at hret
      exact ⟨hlast, hret.1, hprolog.mp hl⟩
    · simp at h
  · rintro ⟨hlast, rfl, hzero⟩
    have hret : endsInRet true (prolog ++ body) = true := by
      rw [hends, hlast, hzero]
      rfl
    rw [if_pos hret, hprolog.mpr hzero, hbody.mpr hlast]
    rfl

theorem Func.emit_ne_nil_iff {f : Func} {before : Bool} {pre : List Item} (base : ℕ)
    (hframe : frameSize t f.name = f.frame) (hbefore : before = !(defined pre).isEmpty) :
    f.emit t junk before base ≠ [] ↔ f.HasCode pre := by
  rw [ne_eq, Func.emit_eq_nil_iff base hframe, hbefore, Func.HasCode]
  simp only [Bool.not_eq_true', List.isEmpty_eq_false_iff]
  have hpos := Nat.pos_iff_ne_zero (n := f.frame)
  tauto

/-- Behind a function there is a `RET`. -/
theorem Func.endsInRet_emit (f : Func) (before : Bool) (base : ℕ) :
    endsInRet before (f.emit t junk before base) = true := by
  simp only [Func.emit]
  split
  · next h => exact h
  · rw [endsInRet_last]
    rfl

theorem emitItems_endsInRet (items : List Item) (base : ℕ) (before : Bool) (t : FuncTable) :
    endsInRet before (emitItems junk items base before t).1 =
      (before || !(defined items).isEmpty) := by
  induction items generalizing base before t with
  | nil => simp [emitItems, defined, endsInRet]
  | cons item items ih =>
      cases item with
      | proto p => exact ih base before t
      | func f =>
          simp only [emitItems]
          rw [← endsInRet_append, ih, Func.endsInRet_emit]
          simp [defined]

theorem not_starts_end (base : ℕ) (code : List CodeElem) :
    ¬ Starts base code (base + words code) := by
  rintro ⟨e, l, r, rfl, hwords⟩
  have hpos := e.width_pos
  rw [words_append, words_cons] at hwords
  omega

/-- **Where control comes to in a function.** -/
theorem Func.confined_iff {f : Func} {before : Bool} {base : ℕ}
    (hsize : base + words (f.emit t junk before base) < 2 ^ 32)
    (hframe : frameSize t f.name = f.frame) :
    (∀ j, Leads base (f.emit t junk before base) base j →
      Starts base (f.emit t junk before base) j) ↔ f.Confined (!before) := by
  let prolog := prologCode t f.name
  let body := f.body.emit t junk f.name (base + words prolog)
  have hends : endsInRet before (prolog ++ body) =
      f.body.lastRet.getD (before && decide (f.frame = 0)) := by
    rw [← endsInRet_append, Stmt.endsInRet_emit, endsInRet_prolog, hframe]
  have hemit : f.emit t junk before base = if endsInRet before (prolog ++ body) then prolog ++ body
      else prolog ++ body ++ epilogCode t f.name ++ [elem .ret 0] := rfl
  have hprolog : Passes prolog := prologCode_passes t f.name
  generalize f.emit t junk before base = fn at hsize hemit
  by_cases hret : endsInRet before (prolog ++ body) = true
  · rw [if_pos hret] at hemit
    have hat : LiesAt base fn base (prolog ++ body) := ⟨[], [], by simp [hemit], rfl⟩
    have hfalls : (∀ j, Leads base fn base j → Starts base fn j) ↔ f.body.falls = false := by
      constructor
      · intro h
        by_contra hfalls
        have hpath := (hprolog.leads hat.left).trans
          (f.body.leads hsize hat.right (Bool.of_not_eq_false hfalls))
        have hend := h _ hpath
        rw [Nat.add_assoc, ← words_append, ← hemit] at hend
        exact not_starts_end base fn hend
      · intro hfalls j hj
        refine Confines.reach ?_ hj
        refine (hprolog.confines hat.left).bind fun k hk => ?_
        rw [Set.mem_singleton_iff.mp hk]
        refine (f.body.confines hsize hat.right).mono fun k hk => ?_
        rw [hk.2] at hfalls
        cases hfalls
    rw [hfalls, Func.Confined]
    rw [hends] at hret
    cases hlast : f.body.lastRet with
    | none =>
        simp only [hlast, Option.getD_none, Bool.and_eq_true, decide_eq_true_eq] at hret
        simp [hret.1, hret.2]
    | some b =>
        simp only [hlast, Option.getD_some] at hret
        simp [hret]
  · rw [if_neg hret] at hemit
    have hat : LiesAt base fn base (prolog ++ body ++ epilogCode t f.name ++ [elem .ret 0]) :=
      ⟨[], [], by simp [hemit], rfl⟩
    have hconfined : f.Confined (!before) := by
      rw [hends, Bool.not_eq_true] at hret
      cases hlast : f.body.lastRet with
      | none =>
          simp only [hlast, Option.getD_none, Bool.and_eq_false_iff,
            decide_eq_false_iff_not] at hret
          refine .inr (.inr ⟨hlast, hret.imp (fun h => ?_) Nat.pos_of_ne_zero⟩)
          rw [h]
          rfl
      | some b =>
          simp only [hlast, Option.getD_some] at hret
          exact .inr (.inl (hret ▸ hlast))
    refine iff_of_true (fun j hj => Confines.reach ?_ hj) hconfined
    refine (hprolog.confines hat.left.left.left).bind fun k hk => ?_
    rw [Set.mem_singleton_iff.mp hk]
    refine (f.body.confines hsize hat.left.left.right).bind fun k hk => ?_
    rw [hk.1, Nat.add_assoc, ← words_append]
    rw [List.append_assoc] at hat
    obtain ⟨S, hb, hS⟩ := (epilogCode_passes t f.name).region (Y := ∅) hat.right
      fun j hj => (not_goes_ret hj).elim
    exact ⟨S, .inl hb, hS⟩

end Functions

section Programs
variable {junk : Junk} {t : FuncTable} {items : List Item} {code : List CodeElem} {s : GState}

/-- The frame of a function of a program. -/
theorem Registers.frameSize_eq (hreg : Registers (fun _ => none) items t) {pre post : List Item}
    {f : Func} (hitems : items = pre ++ .func f :: post) : frameSize t f.name = f.frame := by
  rw [hitems] at hreg
  obtain ⟨t₁, t₂, hat⟩ := hreg.at
  obtain ⟨info, hinfo, hvars, hmax⟩ := hat.sizes
  rw [frameSize, hinfo, Func.frame, ← hvars, ← hmax]
  rfl

theorem endsInRet_entry (n : ℕ) (addr : Word) (items : List Item) (base : ℕ) :
    endsInRet false (entryCode n addr ++ (emitItems junk items base false t).1) =
      !(defined items).isEmpty := by
  have hentry : endsInRet false (entryCode n addr) = false := by
    rw [entryCode, endsInRet, List.getLast?_append]
    rfl
  rw [← endsInRet_append, hentry, emitItems_endsInRet, Bool.false_or]

/-- **The control of a function** in the list of a program. -/
theorem generateCode_control (hreg : Registers (fun _ => none) items t)
    (h : generateCode junk t (headNode items) = .ok (some code) s) {pre post : List Item} {f : Func}
    (hitems : items = pre ++ .func f :: post) :
    ∃ l fn r ft b, code = l ++ fn ++ r ∧ fn = f.emit ft junk b (words l) ∧
      (fn ≠ [] ↔ f.HasCode pre) ∧
      ((∀ j, Leads (words l) fn (words l) j → Starts (words l) fn j) ↔
        f.Confined (defined pre).isEmpty) := by
  obtain ⟨_, -, -, -, hlt⟩ := generateCode_eq_some h
  obtain ⟨main, l, b, ft, r, hmain, hl, -, hcode, hb, -, hsame, -⟩ :=
    generateCode_function hreg h hitems
  have hframe : frameSize ft f.name = f.frame := by
    rw [hsame.frameSize, hreg.frameSize_eq hitems]
  have hbefore : b = !(defined pre).isEmpty := by rw [hb, hl, endsInRet_entry]
  have hwords : words code = words l + words (f.emit ft junk b (words l)) + words r := by
    rw [hcode, words_append, words_append]
  refine ⟨l, _, r, ft, b, hcode, rfl, f.emit_ne_nil_iff _ hframe hbefore, ?_⟩
  have hiff := @Func.confined_iff ft junk f b (words l) (by omega) hframe
  rwa [hbefore, Bool.not_not, ← hbefore] at hiff

end Programs

/-! ## Runs -/

/-- The states of one activation of a function, from the state `t` on: instructions other
than `CALL` and `RET`, and calls that have returned, to any state behind the `CALL`. -/
inductive Within (p : Program) (t : Flat) : Flat → Prop
  | refl : Within p t t
  | step {t₁ t₂ : Flat} : Within p t t₁ → p.code t₁.ip ≠ (instrInfo .call).opcode →
      p.code t₁.ip ≠ (instrInfo .ret).opcode → dispatch (flatMacros p) t₁ = .ok .next t₂ →
      Within p t t₂
  | call {t₁ t₂ : Flat} : Within p t t₁ → p.code t₁.ip = (instrInfo .call).opcode →
      t₂.ip = t₁.ip + 2 → Within p t t₂

/-- **An activation** goes along the edges of the code. -/
theorem Within.leads {p : Program} {base : ℕ} {code : List CodeElem} {t t' : Flat}
    (hcode : p.Holds base code) (hstays : ∀ j, Leads base code base j → Starts base code j)
    (ht : t.ip = base) (h : Within p t t') : Leads base code base t'.ip := by
  induction h with
  | refl =>
      rw [ht]
      exact .refl
  | @step t₁ t₂ _ hcall hret hdispatch ih =>
      obtain ⟨e, hat⟩ := hstays _ ih
      have hat' := hat
      obtain ⟨l, r, rfl, hip⟩ := hat'
      have hholds := hcode.right
      rw [← hip] at hholds
      rw [hholds.opcode.code] at hcall hret
      have hgoes := dispatch_goes hholds (fun h => hcall (h ▸ rfl)) (fun h => hret (h ▸ rfl))
        hdispatch
      exact ih.tail ⟨e, hat, hgoes⟩
  | @call t₁ t₂ _ hcall hip ih =>
      obtain ⟨e, hat⟩ := hstays _ ih
      have hat' := hat
      obtain ⟨l, r, rfl, hip'⟩ := hat'
      have hholds := hcode.right
      rw [← hip'] at hholds
      rw [hholds.opcode.code] at hcall
      have hinstr := opcode_inj hcall
      have hwidth : e.width = 2 := by
        rw [CodeElem.width, hinstr]
        rfl
      have hpasses : e.instr.passes = true := by
        rw [hinstr]
        rfl
      rw [hip, ← hwidth]
      exact ih.tail ⟨e, hat, .next (.inl hpasses)⟩

/-- **Control stays in a function** of a compiled text, from its first instruction on,
if and only if the function is confined; the test of the last instruction is then enough.
On the machine, every state of an activation of a confined function is at one of its
instructions, so that it is left by a `CALL` or a `RET` only. -/
theorem control_stays {junk : Junk} {fuel : ℕ} {first : List Token} {code : List CodeElem}
    (h : compile junk fuel first = some code) :
    ∃ items w eof rest s, first = w ++ eof :: rest ∧ eof.type = .tokEof ∧ Written items w ∧
      parseTokenlist fuel first = .ok (headNode items) s ∧
      ∀ pre f post, items = pre ++ .func f :: post →
        ∃ l fn r ft b, code = l ++ fn ++ r ∧ fn = f.emit ft junk b (words l) ∧
          ((∀ j, Leads (words l) fn (words l) j → Starts (words l) fn j) ↔
            f.Confined (defined pre).isEmpty) ∧
          (f.Confined (defined pre).isEmpty → ∀ (p : Program) (t t' : Flat),
            p.Holds 0 code → t.ip = words l → Within p t t' → Starts (words l) fn t'.ip) := by
  obtain ⟨items, w, eof, rest, s, s', hfirst, heof, hwritten, -, hparse, hreg, hgen⟩ :=
    compile_written h
  refine ⟨items, w, eof, rest, s, hfirst, heof, hwritten, hparse, fun pre f post hitems => ?_⟩
  obtain ⟨l, fn, r, ft, b, hcode, hfn, -, hiff⟩ := generateCode_control hreg hgen hitems
  refine ⟨l, fn, r, ft, b, hcode, hfn, hiff, fun hconfined p t t' hp ht hwithin => ?_⟩
  have hstays := hiff.mpr hconfined
  rw [hcode] at hp
  have hholds := hp.piece
  rw [Nat.zero_add] at hholds
  exact hstays _ (hwithin.leads hholds hstays ht)

/-- `int same(int a) { return a; } void main(void) { if (1 < 2) { return; } }` -/
def branchReturns : List Token :=
  [⟨.tokInt, "int"⟩, ⟨.tokIdentifier, "same"⟩, ⟨.tokOpenpa, "("⟩, ⟨.tokInt, "int"⟩,
   ⟨.tokIdentifier, "a"⟩, ⟨.tokClosepa, ")"⟩, ⟨.tokOpenbr, "\x7b"⟩, ⟨.tokReturn, "return"⟩,
   ⟨.tokIdentifier, "a"⟩, ⟨.tokSemicl, ";"⟩, ⟨.tokClosebr, "\x7d"⟩,
   ⟨.tokVoid, "void"⟩, ⟨.tokIdentifier, "main"⟩, ⟨.tokOpenpa, "("⟩, ⟨.tokVoid, "void"⟩,
   ⟨.tokClosepa, ")"⟩, ⟨.tokOpenbr, "\x7b"⟩, ⟨.tokIf, "if"⟩, ⟨.tokOpenpa, "("⟩,
   ⟨.tokIntliteral, "1"⟩, ⟨.tokLt, "<"⟩, ⟨.tokIntliteral, "2"⟩, ⟨.tokClosepa, ")"⟩,
   ⟨.tokOpenbr, "\x7b"⟩, ⟨.tokReturn, "return"⟩, ⟨.tokSemicl, ";"⟩, ⟨.tokClosebr, "\x7d"⟩,
   ⟨.tokClosebr, "\x7d"⟩, ⟨.tokEof, ""⟩]

def sameFunc : Func where
  ret := .dtypeInt
  name := "same"
  params := .last .dtypeInt "a"
  body := .seq (.ret (some (.unary (.var "a")))) .skip
  maxCall := 0

def branchMain : Func where
  ret := .dtypeVoid
  name := "main"
  params := .void
  body := .seq (.ifThen ⟨.unary (.lit 1), .lt, .unary (.lit 2)⟩ (.seq (.ret none) .skip)) .skip
  maxCall := 0

theorem branchReturns_written :
    Written [.func sameFunc, .func branchMain] branchReturns.dropLast :=
  ⟨branchReturns.take 11, _, rfl,
    ⟨parses_of_read 30 (.initial (branchReturns.take 11)) (by decide +kernel),
      sameFunc.body.isMaxCall⟩,
    (branchReturns.drop 11).take 17, _, rfl,
    ⟨parses_of_read 30 (.initial ((branchReturns.drop 11).take 17)) (by decide +kernel),
      branchMain.body.isMaxCall⟩, rfl⟩

/-- The jump of the branch leads behind the code. -/
def branchReturnsCode : List CodeElem :=
  [⟨.call, 6, some "main"⟩, elem .finish 0, elem .load 1, elem .ret 0,
   elem .push 1, elem .push 2, elem .jge 13, elem .ret 0]

theorem branchReturns_compiled :
    compile (fun _ => 0) 60 branchReturns = some branchReturnsCode := by
  decide +kernel

/-- Control stays in the first function, and leaves the second one. -/
theorem control_stays_small :
    (∃ l fn r, branchReturnsCode = l ++ fn ++ r ∧
      (∀ j, Leads (words l) fn (words l) j → Starts (words l) fn j) ∧
      ∀ (p : Program) (t t' : Flat), p.Holds 0 branchReturnsCode → t.ip = words l →
        Within p t t' → Starts (words l) fn t'.ip) ∧
    ∃ l fn r, branchReturnsCode = l ++ fn ++ r ∧
      ¬ ∀ j, Leads (words l) fn (words l) j → Starts (words l) fn j := by
  obtain ⟨items, w, eof, rest, s, hfirst, heof, hwritten, -, hstays⟩ :=
    control_stays branchReturns_compiled
  have hsplit : branchReturns.dropLast ++ [⟨.tokEof, ""⟩] = w ++ eof :: rest := hfirst
  obtain rfl := (branchReturns_written.unique_of_eof rfl hwritten heof hsplit).1
  obtain ⟨l, fn, r, ft, b, hcode, -, hiff, hmachine⟩ := hstays [] sameFunc [.func branchMain] rfl
  have hconfined : sameFunc.Confined (defined []).isEmpty := by decide
  obtain ⟨l', fn', r', ft', b', hcode', -, hiff', -⟩ := hstays [.func sameFunc] branchMain [] rfl
  have hleaves : ¬ branchMain.Confined (defined [.func sameFunc]).isEmpty := by decide
  exact ⟨⟨l, fn, r, hcode, hiff.mpr hconfined, hmachine hconfined⟩, l', fn', r', hcode',
    fun hall => hleaves (hiff'.mp hall)⟩

/-! ## Confined functions -/

/-- **What a confined function keeps.**  A function has code unless its body has none, it has no
frame and another function is before it.  If it is confined, it has code, and in every execution
that enters it at its first word, every state of the activation is at one of its instructions,
and an instruction that is neither a `CALL` nor a `RET` leads to another one. -/
theorem confined_keeps_control {junk : Junk} {fuel : ℕ} {first : List Token}
    {code : List CodeElem} (h : compile junk fuel first = some code) :
    ∃ items w eof rest s, first = w ++ eof :: rest ∧ eof.type = .tokEof ∧ Written items w ∧
      parseTokenlist fuel first = .ok (headNode items) s ∧
      ∀ pre f post, items = pre ++ .func f :: post →
        ∃ l fn r ft b, code = l ++ fn ++ r ∧ fn = f.emit ft junk b (words l) ∧
          (fn ≠ [] ↔ f.HasCode pre) ∧
          (f.Confined (defined pre).isEmpty → fn ≠ [] ∧ ∀ (p : Program) (t t' : Flat),
            p.Holds 0 code → t.ip = words l → Within p t t' → Starts (words l) fn t'.ip ∧
              ∀ t'', dispatch (flatMacros p) t' = .ok .next t'' →
                p.code t'.ip = (instrInfo .call).opcode ∨ p.code t'.ip = (instrInfo .ret).opcode ∨
                  Starts (words l) fn t''.ip) := by
  obtain ⟨items, w, eof, rest, s, s', hfirst, heof, hwritten, -, hparse, hreg, hgen⟩ :=
    compile_written h
  refine ⟨items, w, eof, rest, s, hfirst, heof, hwritten, hparse, fun pre f post hitems => ?_⟩
  obtain ⟨l, fn, r, ft, b, hcode, hfn, hne, hiff⟩ := generateCode_control hreg hgen hitems
  refine ⟨l, fn, r, ft, b, hcode, hfn, hne, fun hconfined => ?_⟩
  have hstays := hiff.mpr hconfined
  refine ⟨?_, fun p t t' hp ht hwithin => ?_⟩
  · rintro rfl
    obtain ⟨e, l', r', hnil, -⟩ := hstays _ .refl
    simp at hnil
  rw [hcode] at hp
  have hholds := hp.piece
  rw [Nat.zero_add] at hholds
  refine ⟨hstays _ (hwithin.leads hholds hstays ht), fun t'' hstep => ?_⟩
  by_cases hcall : p.code t'.ip = (instrInfo .call).opcode
  · exact .inl hcall
  by_cases hret : p.code t'.ip = (instrInfo .ret).opcode
  · exact .inr (.inl hret)
  · exact .inr (.inr (hstays _ ((hwithin.step hcall hret hstep).leads hholds hstays ht)))

theorem confined_keeps_control_small : ∃ l fn r, branchReturnsCode = l ++ fn ++ r ∧ fn ≠ [] ∧
    ∀ t t', t.ip = words l → Within (.ofCode branchReturnsCode 16 16 []) t t' →
      Starts (words l) fn t'.ip := by
  obtain ⟨items, w, eof, rest, s, hfirst, heof, hwritten, -, hall⟩ :=
    confined_keeps_control branchReturns_compiled
  have hsplit : branchReturns.dropLast ++ [⟨.tokEof, ""⟩] = w ++ eof :: rest := hfirst
  obtain rfl := (branchReturns_written.unique_of_eof rfl hwritten heof hsplit).1
  obtain ⟨l, fn, r, ft, b, hcode, -, -, hkeeps⟩ := hall [] sameFunc [.func branchMain] rfl
  obtain ⟨hne, hruns⟩ := hkeeps (by decide)
  exact ⟨l, fn, r, hcode, hne, fun t t' ht hwithin =>
    (hruns _ t t' (Program.ofCode_holds _ _ _ _) ht hwithin).1⟩

/-- `void main(void) { if (2 < 1) { return; } }` -/
def branchSkips : List Token :=
  [⟨.tokVoid, "void"⟩, ⟨.tokIdentifier, "main"⟩, ⟨.tokOpenpa, "("⟩, ⟨.tokVoid, "void"⟩,
   ⟨.tokClosepa, ")"⟩, ⟨.tokOpenbr, "\x7b"⟩, ⟨.tokIf, "if"⟩, ⟨.tokOpenpa, "("⟩,
   ⟨.tokIntliteral, "2"⟩, ⟨.tokLt, "<"⟩, ⟨.tokIntliteral, "1"⟩, ⟨.tokClosepa, ")"⟩,
   ⟨.tokOpenbr, "\x7b"⟩, ⟨.tokReturn, "return"⟩, ⟨.tokSemicl, ";"⟩, ⟨.tokClosebr, "\x7d"⟩,
   ⟨.tokClosebr, "\x7d"⟩, ⟨.tokEof, ""⟩]

def skipsMain : Func where
  ret := .dtypeVoid
  name := "main"
  params := .void
  body := .seq (.ifThen ⟨.unary (.lit 2), .lt, .unary (.lit 1)⟩ (.seq (.ret none) .skip)) .skip
  maxCall := 0

/-- The code of its only function, behind the entry. -/
def skipsMainCode : List CodeElem := [elem .push 2, elem .push 1, elem .jge 10, elem .ret 0]

def skipsProgram : Program :=
  .ofCode (entryCode 0 3 ++ skipsMainCode ++ [elem .finish 0]) 16 16 []

/-- The state after `n` instructions. -/
def skipsState : ℕ → Flat
  | 0 => .initial
  | n + 1 => stateOf (dispatch (flatMacros skipsProgram) (skipsState n))

theorem skipsState_step {n : ℕ}
    (h : valueOf (dispatch (flatMacros skipsProgram) (skipsState n)) = some .next) :
    dispatch (flatMacros skipsProgram) (skipsState n) = .ok .next (skipsState (n + 1)) := by
  obtain ⟨t, ht⟩ := valueOf_eq_some h
  rw [skipsState, ht]
  rfl

/-- The jump of the branch is taken, and leads to the word behind the function. -/
theorem control_leaves :
    readOf (parseTokenlist 60 branchSkips) = some (headNode [.func skipsMain], []) ∧
    compile (fun _ => 0) 60 branchSkips = some (entryCode 0 3 ++ skipsMainCode) ∧
    ∃ t t', dispatch (flatMacros skipsProgram) .initial = .ok .next t ∧
      t.ip = words (entryCode 0 3) ∧ Within skipsProgram t t' ∧
      ¬ Starts (words (entryCode 0 3)) skipsMainCode t'.ip := by
  refine ⟨by decide +kernel, by decide +kernel, skipsState 1, skipsState 4,
    skipsState_step (n := 0) (by decide +kernel), by decide +kernel, ?_, ?_⟩
  · have hpush : Within skipsProgram (skipsState 1) (skipsState 2) :=
      .step .refl (by decide +kernel) (by decide +kernel) (skipsState_step (by decide +kernel))
    have hpush' : Within skipsProgram (skipsState 1) (skipsState 3) :=
      .step hpush (by decide +kernel) (by decide +kernel) (skipsState_step (by decide +kernel))
    exact .step hpush' (by decide +kernel) (by decide +kernel) (skipsState_step (by decide +kernel))
  · have hend : (skipsState 4).ip = words (entryCode 0 3) + words skipsMainCode := by
      decide +kernel
    rw [hend]
    exact not_starts_end _ _

end Bispe
